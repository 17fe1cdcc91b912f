import Retrace.Pipe.Environment

/-!
# When the environment of a spawned process is the armed one

In front of the old `PATH` stands its name once more.
-/

namespace Retrace.Pipe

open CLib List

def copied (dir v : Bytes) : Bytes := if dir ≠ [] ∧ is_path v then bytes "PATH=" ++ dir ++ bytes ";" ++ v else v

theorem copy_loop_var (hnul : 0 ∉ v) :
    copy_loop dir (v ++ e) var env saw = copy_loop dir e (var ++ v) env saw := by
  induction v generalizing var with
  | nil => simp
  | cons c v ih =>
    rw [mem_cons, not_or] at hnul
    rw [cons_append, copy_loop, if_pos (Ne.symm hnul.1), ih hnul.2]
    simp

theorem copy_loop_block (hne : ∀ v ∈ vars, v ≠ []) (hnul : ∀ v ∈ vars, 0 ∉ v)
    (h : copy_loop dir (block vars) [] env saw = some (env', saw')) :
    env' = env ++ ((kept vars).map (copied dir)).flatMap (· ++ [0]) ∧
      saw' = (saw || decide (dir ≠ []) && (kept vars).any is_path) := by
  induction vars generalizing env saw with
  | nil =>
    simp [block, copy_loop] at h
    simp [kept, h]
  | cons v vars ih =>
    rw [forall_mem_cons] at hne hnul
    rw [block, flatMap_cons, append_assoc, append_assoc, copy_loop_var hnul.1, nil_append,
      singleton_append, copy_loop,
      if_neg (not_not.mpr rfl), if_neg hne.1] at h
    split_ifs at h with harm hpath
    · simpa [kept, harm] using ih hne.2 hnul.2 h
    · obtain ⟨rfl, rfl⟩ := ih hne.2 hnul.2 h
      simp [kept, harm, hpath, copied]
    · obtain ⟨rfl, rfl⟩ := ih hne.2 hnul.2 h
      have hsame : copied dir v = v := if_neg hpath
      refine ⟨by simp [kept, harm, hsame], ?_⟩
      by_cases hdir : dir = []
      · simp [hdir]
      · simp [kept, harm, show is_path v = false by simpa [hdir] using hpath]

theorem arm_loop_some (h : arm_loop vars env = some out) : out = env ++ block vars := by
  induction vars generalizing env with
  | nil => exact (Option.some.inj h).symm
  | cons v vars ih =>
    rw [arm_loop] at h
    split_ifs at h
    rw [ih h]
    simp [block]

def written (parent : Environment) (dll_path agent_pipe nonce : Bytes) : List Bytes :=
  (kept parent.vars).map (copied (dll_dir dll_path)) ++
    (if dll_dir dll_path ≠ [] ∧
      (kept parent.vars).any is_path = false then [bytes "PATH=" ++ dll_dir dll_path] else []) ++
    arming agent_pipe nonce

theorem spawn_env_some (h : spawn_env (block parent.vars) dll_path agent_pipe nonce = some out) :
    out = block (written parent dll_path agent_pipe nonce) := by
  rw [spawn_env] at h
  obtain ⟨⟨env, saw⟩, hcopy, harm⟩ := Option.bind_eq_some_iff.mp h
  obtain ⟨rfl, rfl⟩ := copy_loop_block parent.not_empty parent.no_nul hcopy
  dsimp only at harm
  rw [written]
  by_cases hdir : dll_dir dll_path ≠ [] ∧ (kept parent.vars).any is_path = false
  · rw [if_pos hdir]
    rw [if_pos (by simp [hdir.1, hdir.2])] at harm
    split_ifs at harm
    rw [arm_loop_some harm]
    simp [block]
  · rw [if_neg hdir]
    rw [if_neg (fun h => hdir ⟨h.1, by simpa [h.1] using h.2⟩)] at harm
    rw [arm_loop_some harm]
    simp [block]

theorem length_block : (block vars).length = (vars.map (·.length + 1)).sum + 1 := by
  simp [block, length_flatMap]

theorem length_copied : (copied dir v).length = v.length + if dir ≠ [] ∧ is_path v then 6 + dir.length else 0 := by
  unfold copied
  split_ifs
  · simp [bytes]
    omega
  · rfl

theorem length_with_dir : (with_dir dir v).length = v.length + if is_path v then 1 + dir.length else 0 := by
  unfold with_dir
  split_ifs
  · simp [bytes]
    omega
  · rfl

/-- The block is that of the armed environment exactly when the path of the DLL has a directory and no
variable that is copied is `PATH`. -/
theorem spawn_env_armed_iff (parent : Environment) (dll_path agent_pipe nonce : Bytes) :
    (∀ env, spawn_env (block parent.vars) dll_path agent_pipe nonce = some env →
        env = block (armed parent dll_path agent_pipe nonce)) ↔
      spawn_env (block parent.vars) dll_path agent_pipe nonce = none ∨
        dll_dir dll_path ≠ [] ∧ (kept parent.vars).any is_path = false := by
  cases henv : spawn_env (block parent.vars) dll_path agent_pipe nonce with
  | none => simp
  | some env =>
    simp only [Option.some.injEq, forall_eq', reduceCtorEq, false_or]
    rw [spawn_env_some henv, written, armed]
    generalize dll_dir dll_path = dir
    generalize kept parent.vars = vars
    constructor
    · intro heq
      -- the two blocks differ in length otherwise
      have hlen := congrArg length heq
      simp only [length_block, map_append, sum_append, map_map, Function.comp_def, length_copied,
        length_with_dir] at hlen
      by_cases hany : vars.any is_path
      · exfalso
        obtain ⟨v, hv, hpath⟩ := any_eq_true.mp hany
        by_cases hdir : dir = []
        · have := sum_lt_sum (fun v => v.length + 0 + 1)
            (fun v => v.length + (if is_path v then 1 + dir.length else 0) + 1)
            (fun x _ => by omega) ⟨v, hv, by simp [hpath]⟩
          simp [hdir, hany] at hlen this
          omega
        · have := sum_lt_sum (fun v => v.length + (if is_path v then 1 + dir.length else 0) + 1)
            (fun v => v.length + (if is_path v then 6 + dir.length else 0) + 1)
            (fun x _ => by split_ifs <;> omega) ⟨v, hv, by simp [hpath]⟩
          simp [hdir, hany] at hlen this
          omega
      · refine ⟨?_, by simpa using hany⟩
        rintro rfl
        simp [hany] at hlen
        omega
    · rintro ⟨hdir, hany⟩
      have hsame : vars.map (copied dir) = vars.map (with_dir dir) := by
        refine map_congr_left fun v hv => ?_
        have hpath : is_path v = false := by simpa using any_eq_false.mp hany v hv
        simp [copied, with_dir, hpath]
      simp [hsame, hdir, hany]

def pathOnly : Environment := ⟨[bytes "PATH=C"], by decide, by decide⟩

/-- With `PATH=C` in the parent the process gets `PATH=D;PATH=C`. -/
theorem path_name_kept : ¬ ∀ env, spawn_env (block pathOnly.vars) (bytes "D\\r.dll") [] [] = some env →
    env = block (armed pathOnly (bytes "D\\r.dll") [] []) := by
  intro h
  have henv : spawn_env (block pathOnly.vars) (bytes "D\\r.dll") [] [] =
      some (block (bytes "PATH=D;PATH=C" :: arming [] [])) := by decide +kernel
  exact absurd (h _ henv) (by decide +kernel)

end Retrace.Pipe
