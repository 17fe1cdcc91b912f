import Retrace.Campaign.Pool

/-!
# When every cell runs under its own policy

With one worker, or one policy, what a worker pushed is still active when it spawns. With several workers and
two policies the first worker can be overtaken between its two commands. A verdict is read from the last
record with the process number, so it is the cell's own record exactly when the number is new.
-/

namespace Retrace.Campaign

open CLib Runs List

variable {cell k pid w : Nat} {t : Pool}

theorem last_exit_some (h : last_exit journal pid = some (r, i)) : journal[i]? = some r ∧ r.pid = pid := by
  obtain ⟨hmem, hpid⟩ := mem_filter.mp (mem_of_getLast? h)
  exact ⟨mem_zipIdx_iff_getElem?.mp hmem, by simpa using hpid⟩

theorem exists_last_exit (h : r ∈ journal) :
    ∃ r' i, last_exit journal r.pid = some (r', i) ∧ i < journal.length := by
  obtain ⟨i, hi⟩ := mem_iff_getElem?.mp h
  have hmem : (r, i) ∈ journal.zipIdx.filter fun x => x.1.pid == r.pid :=
    mem_filter.mpr ⟨mem_zipIdx_iff_getElem?.mpr hi, by simp⟩
  obtain ⟨⟨r', i'⟩, hfound⟩ : ∃ x, last_exit journal r.pid = some x :=
    ⟨_, getLast?_eq_some_getLast (ne_nil_of_mem hmem)⟩
  refine ⟨r', i', hfound, ?_⟩
  exact (List.getElem?_eq_some_iff.mp (last_exit_some hfound).1).1

/-- What holds of a worker: its cell exists, its policy is active when it is to spawn, and the records from
before its spawn are of other processes. -/
def WorkerOk (c : Plan) (s : Pool) : Worker → Prop
  | .push cell => cell < c.cells.length
  | .spawn cell => cell < c.cells.length ∧ s.active = c.policy_of cell
  | .await _ pid mark => mark ≤ s.journal.length ∧ ∀ r ∈ s.journal.take mark, r.pid ≠ pid
  | .idle | .ended => True

structure PoolInv (c : Plan) (journal : List ExitRecord) (pids : Nat → Nat) (s : Pool) : Prop where
  count : s.spawned + s.workers.countP Worker.pending ≤ s.next_cell
  next : s.next_cell ≤ c.cells.length
  length : s.workers.length = c.workers
  workers : ∀ x ∈ s.workers, WorkerOk c s x
  live : ∀ p ∈ s.live, ∃ j < s.spawned, p = pids j
  records : ∀ r ∈ s.journal, r ∈ journal ∨ ∃ j < s.spawned, r.pid = pids j
  right : CellsRight c s

theorem workerOk_set (h : ∀ x ∈ s.workers, WorkerOk c s x) (hactive : t.active = s.active)
    (hjournal : t.journal = s.journal) (hpc : WorkerOk c t pc) : ∀ x ∈ s.workers.set w pc, WorkerOk c t x := by
  intro x hx
  rcases mem_or_eq_of_mem_set hx with hx | rfl
  · have := h x hx
    cases x with
    | spawn cell => simpa only [WorkerOk, hactive] using this
    | await cell pid mark => simpa only [WorkerOk, hjournal] using this
    | _ => exact this
  · exact hpc

theorem PoolInv.set_rest (h : PoolInv c journal pids s) (hw : s.workers[w]? = some pc)
    (hrest : rest = .idle ∨ rest = .ended) : PoolInv c journal pids (s.set w rest) := by
  have hcount := countP_set (p := Worker.pending) hw rest
  have hpend : rest.pending = false := by
    rcases hrest with rfl | rfl <;> rfl
  have hok : WorkerOk c (s.set w rest) rest := by
    rcases hrest with rfl | rfl <;> trivial
  refine ⟨?_, h.next, by simpa [Pool.set] using h.length, workerOk_set h.workers rfl rfl hok, h.live, h.records,
    ⟨h.right.spawns, h.right.verdicts⟩⟩
  rw [hpend, Bool.toNat_false, Nat.add_zero] at hcount
  have := h.count
  show s.spawned + (s.workers.set w rest).countP Worker.pending ≤ s.next_cell
  omega

theorem PoolInv.take (h : PoolInv c journal pids s) (hw : s.workers[w]? = some .idle) :
    PoolInv c journal pids (take_cell c s w) := by
  unfold take_cell
  split_ifs with hnext
  · have hcount := countP_set (p := Worker.pending) hw (.push s.next_cell)
    refine ⟨?_, hnext, by simpa [Pool.set, Pool.result] using h.length,
      workerOk_set h.workers rfl rfl hnext, h.live,
      h.records, ⟨h.right.spawns, h.right.verdicts⟩⟩
    simp only [Worker.pending, Bool.toNat_false, Bool.toNat_true] at hcount
    have := h.count
    show s.spawned + (s.workers.set w (.push s.next_cell)).countP Worker.pending ≤ s.next_cell + 1
    omega
  · exact h.set_rest hw (.inr rfl)

theorem PoolInv.push (h : PoolInv c journal pids s) (hsafe : c.workers = 1 ∨ SamePolicy c) (ok : Bool)
    (hw : s.workers[w]? = some (.push cell)) : PoolInv c journal pids (push_policy c s w cell ok) := by
  unfold push_policy
  split_ifs
  · have hcount := countP_set (p := Worker.pending) hw (.spawn cell)
    have hcell : cell < c.cells.length := h.workers _ (mem_of_getElem? hw)
    refine ⟨?_, h.next, by simpa [Pool.set, Pool.result] using h.length, ?_, h.live, h.records,
      ⟨h.right.spawns, h.right.verdicts⟩⟩
    · simp only [Worker.pending] at hcount
      have := h.count
      show s.spawned + (s.workers.set w (.spawn cell)).countP Worker.pending ≤ s.next_cell
      omega
    · intro x hx
      rcases mem_or_eq_of_mem_set hx with hold | rfl
      · have hok := h.workers x hold
        cases x with
        | spawn cell' =>
          rcases hsafe with hone | hsame
          · -- The only worker is the one that pushes.
            obtain ⟨y, hy⟩ := length_eq_one_iff.mp (h.length.trans hone)
            rw [hy] at hw hold
            have hzero : w = 0 := by
              have := (List.getElem?_eq_some_iff.mp hw).1
              simp only [length_singleton] at this
              omega
            subst hzero
            simp only [getElem?_cons_zero, Option.some.injEq] at hw
            simp only [mem_singleton, hw] at hold
            cases hold
          · exact ⟨hok.1, hsame cell hcell cell' hok.1⟩
        | _ => exact hok
      · exact ⟨hcell, rfl⟩
  · exact h.set_rest hw (.inl rfl)

theorem PoolInv.fresh (h : PoolInv c journal pids s) (hfresh : FreshPids c journal pids)
    (hlt : s.spawned < c.cells.length) (hpos : 0 < pids s.spawned) : ∀ r ∈ s.journal, r.pid ≠ pids s.spawned := by
  obtain ⟨hold, hnew⟩ := hfresh s.spawned hlt hpos
  intro r hr
  rcases h.records r hr with hr | ⟨j, hj, hpid⟩
  · exact hold r hr
  · rw [hpid]
    exact hnew j hj

theorem PoolInv.spawn (h : PoolInv c journal pids s) (hfresh : FreshPids c journal pids) (ok : Bool)
    (hw : s.workers[w]? = some (.spawn cell)) : PoolInv c journal pids (spawn_sample pids s w cell ok) := by
  unfold spawn_sample
  dsimp only
  by_cases hok : ok = true
  swap
  · rw [if_neg hok]
    exact h.set_rest hw (.inl rfl)
  rw [if_pos hok]
  by_cases hlive : pids s.spawned ∈ s.live
  · rw [if_pos hlive]
    exact h
  · rw [if_neg hlive]
    generalize hnext : (if 0 < pids s.spawned then Worker.await cell
      (pids s.spawned) s.journal.length else .idle) = next
    have hcount := countP_set (p := Worker.pending) hw next
    have hpend : next.pending = false := by
      rw [← hnext]
      split_ifs <;> rfl
    have hroom := h.count
    have hone := toNat_le_countP (p := Worker.pending) hw
    have hcur : (Worker.spawn cell).pending = true := rfl
    rw [hcur, Bool.toNat_true] at hone
    rw [hcur, hpend, Bool.toNat_true, Bool.toNat_false] at hcount
    have hlt : s.spawned < c.cells.length := by
      have := h.next
      omega
    refine ⟨?_, h.next, by simpa [Pool.set, Pool.result] using h.length, ?_, ?_, ?_, ?_, h.right.verdicts⟩
    · show s.spawned + 1 + (s.workers.set w next).countP Worker.pending ≤ s.next_cell
      omega
    · refine workerOk_set h.workers rfl rfl ?_
      rw [← hnext]
      split_ifs with hpos
      · refine ⟨Nat.le_refl _, fun r hr => ?_⟩
        exact h.fresh hfresh hlt hpos r (mem_of_mem_take hr)
      · trivial
    · intro p hp
      rcases mem_append.mp hp with hp | hp
      · obtain ⟨j, hj, rfl⟩ := h.live p hp
        exact ⟨j, Nat.lt_succ_of_lt hj, rfl⟩
      · exact ⟨s.spawned, Nat.lt_succ_self _, by simpa using hp⟩
    · intro r hr
      rcases h.records r hr with hr | ⟨j, hj, hpid⟩
      · exact .inl hr
      · exact .inr ⟨j, Nat.lt_succ_of_lt hj, hpid⟩
    · intro x hx
      rcases mem_append.mp hx with hx | hx
      · exact h.right.spawns x hx
      · obtain rfl : x = (cell, s.active) := by simpa using hx
        exact (h.workers _ (mem_of_getElem? hw)).2

theorem PoolInv.poll (h : PoolInv c journal pids s) {mark : Nat}
    (hw : s.workers[w]? = some (.await cell pid mark)) : PoolInv c journal pids (poll_exit s w cell pid mark) := by
  unfold poll_exit
  split
  · exact h
  · rename_i r i hfound
    obtain ⟨hi, hpid⟩ := last_exit_some hfound
    obtain ⟨-, hmark⟩ := h.workers _ (mem_of_getElem? hw)
    have hle : mark ≤ i := by
      by_contra hlt
      refine hmark r ?_ hpid
      refine mem_of_getElem? (i := i) ?_
      rw [getElem?_take_of_lt (by omega), hi]
    have hrest := h.set_rest hw (.inl rfl)
    refine ⟨hrest.count, hrest.next, hrest.length, hrest.workers, hrest.live, hrest.records, h.right.spawns, ?_⟩
    intro x hx
    rcases mem_append.mp hx with hx | hx
    · exact h.right.verdicts x hx
    · obtain rfl : x = (cell, i, mark) := by simpa using hx
      exact hle

theorem PoolInv.exit (h : PoolInv c journal pids s) (hpid : pid ∈ s.live) (signaled : Bool) (code : Int) :
    PoolInv c journal pids
      { s with live := s.live.erase pid, journal := s.journal ++ [⟨pid, signaled, code⟩] } := by
  refine ⟨h.count, h.next, h.length, ?_, ?_, ?_, ⟨h.right.spawns, h.right.verdicts⟩⟩
  · intro x hx
    have hok := h.workers x hx
    cases x with
    | await cell p mark =>
      obtain ⟨hle, hmark⟩ := hok
      refine ⟨by simp only [length_append]; omega, fun r hr => ?_⟩
      rw [take_append_of_le_length hle] at hr
      exact hmark r hr
    | _ => exact hok
  · intro p hp
    exact h.live p (mem_of_mem_erase hp)
  · intro r hr
    rcases mem_append.mp hr with hr | hr
    · exact h.records r hr
    · obtain rfl : r = ⟨pid, signaled, code⟩ := by simpa using hr
      exact .inr (h.live pid hpid)

/-- With one worker or one policy every step of the pool keeps the cells right, whichever worker makes it. -/
theorem PoolInv.step (h : PoolInv c journal pids s) (hsafe : c.workers = 1 ∨ SamePolicy c)
    (hfresh : FreshPids c journal pids) (a : Act) : PoolInv c journal pids (s.step c pids a) := by
  cases a with
  | take w =>
    simp only [Pool.step]
    split
    · rename_i hw
      exact h.take hw
    · exact h
  | push w ok =>
    simp only [Pool.step]
    split
    · rename_i cell hw
      exact h.push hsafe ok hw
    · exact h
  | spawn w ok =>
    simp only [Pool.step]
    split
    · rename_i cell hw
      exact h.spawn hfresh ok hw
    · exact h
  | poll w =>
    simp only [Pool.step]
    split
    · rename_i cell pid mark hw
      exact h.poll hw
    · exact h
  | timeout w =>
    simp only [Pool.step]
    split
    · rename_i hw
      exact h.set_rest hw (.inl rfl)
    · exact h
  | exit pid signaled code =>
    simp only [Pool.step]
    split_ifs with hpid
    · exact h.exit hpid signaled code
    · exact h

theorem poolInv_start (c : Plan) (active : Option Bytes) (journal : List ExitRecord) (pids : Nat → Nat) :
    PoolInv c journal pids (Pool.start c active journal) where
  count := by simp [Pool.start, countP_replicate, Worker.pending]
  next := Nat.zero_le _
  length := length_replicate
  workers := by
    intro x hx
    obtain rfl := eq_of_mem_replicate hx
    trivial
  live := by simp [Pool.start]
  records := fun r hr => .inl hr
  right := ⟨by simp [Pool.start], by simp [Pool.start]⟩

section

variable {c : Plan} {journal : List ExitRecord} {pids : Nat → Nat} {s : Pool}

theorem run_take_push (hw : s.workers[w]? = some .idle) (hnext : s.next_cell < c.cells.length) :
    run (Pool.step c pids) s [.take w, .push w ok] = push_policy c (take_cell c s w) w s.next_cell ok := by
  have hlen := (List.getElem?_eq_some_iff.mp hw).1
  have htake : s.step c pids (.take w) = take_cell c s w := by simp [Pool.step, hw]
  have hpush : (take_cell c s w).step c pids (.push w ok) = push_policy c (take_cell c s w) w s.next_cell ok := by
    simp [Pool.step, take_cell, hnext, hlen, Pool.set, Pool.result]
  simp only [run_cons, run_nil, htake, hpush]

/-- The first worker is in front of its spawn of the first cell, and the second one in front of the lock. -/
structure Overtaken (s : Pool) (next : Nat) : Prop where
  next_cell : s.next_cell = next
  first : s.workers[0]? = some (.spawn 0)
  second : s.workers[1]? = some .idle
  live : s.live = []

theorem Overtaken.skip {next : Nat} (h : Overtaken s next) (hnext : next < c.cells.length) :
    Overtaken (run (Pool.step c pids) s [.take 1, .push 1 false]) (next + 1) := by
  have hlen := (List.getElem?_eq_some_iff.mp h.second).1
  rw [run_take_push h.second (h.next_cell ▸ hnext)]
  constructor <;> simp [push_policy, take_cell, Pool.set, Pool.result, h.next_cell, hnext, h.first, h.live, hlen]

theorem Overtaken.skips {next : Nat} (h : Overtaken s next) {m : Nat} (hm : next + m ≤ c.cells.length) :
    ∃ as, Overtaken (run (Pool.step c pids) s as) (next + m) := by
  induction m with
  | zero => exact ⟨[], h⟩
  | succ m ih =>
    obtain ⟨as, has⟩ := ih (by omega)
    refine ⟨as ++ [.take 1, .push 1 false], ?_⟩
    rw [run_append]
    exact has.skip (by omega)

theorem Overtaken.spawn {next : Nat} (h : Overtaken s next) (hnext : next < c.cells.length) :
    (0, c.policy_of next) ∈
      (run (Pool.step c pids) s ([.take 1, .push 1 true] ++ [.spawn 0 true])).spawns := by
  rw [run_append, run_take_push h.second (h.next_cell ▸ hnext), run_cons, run_nil]
  simp [Pool.step, spawn_sample, push_policy, take_cell, Pool.set, Pool.result, h.next_cell, hnext,
    h.first, h.live]

theorem overtaken_start (active : Option Bytes) (hworkers : 2 ≤ c.workers) (hcells : 0 < c.cells.length) :
    Overtaken (run (Pool.step c pids) (Pool.start c active journal) [.take 0, .push 0 true]) 1 := by
  have hfirst : (Pool.start c active journal).workers[0]? = some .idle := by
    simp only [Pool.start, getElem?_replicate]
    rw [if_pos (by omega)]
  have hlen : 0 < c.workers ∧ 1 < c.workers := by omega
  rw [run_take_push hfirst hcells]
  constructor <;> simp [push_policy, take_cell, Pool.set, Pool.result, Pool.start, hcells, hlen]

theorem exists_wrong_policy (active : Option Bytes) (hworkers : 2 ≤ c.workers) (hsame : ¬ SamePolicy c) :
    ∃ as, ¬ CellsRight c (run (Pool.step c pids) (Pool.start c active journal) as) := by
  obtain ⟨m, hm, hne⟩ : ∃ m < c.cells.length, c.policy_of m ≠ c.policy_of 0 := by
    by_contra hall
    push Not at hall
    exact hsame fun i hi j hj => (hall i hi).trans (hall j hj).symm
  have hpos : m ≠ 0 := by
    rintro rfl
    exact hne rfl
  obtain ⟨as, has⟩ := @Overtaken.skips c pids _ _
    (@overtaken_start c journal pids active hworkers (by omega)) (m - 1) (by omega)
  rw [show 1 + (m - 1) = m by omega] at has
  refine ⟨[.take 0, .push 0 true] ++ as ++ [.take 1, .push 1 true, .spawn 0 true], fun hright => ?_⟩
  rw [run_append, run_append] at hright
  exact hne (hright.spawns _ (has.spawn hm))

/-- The first worker has run `k` cells one after the other, and each process has exited. -/
structure Quiet (journal : List ExitRecord) (pids : Nat → Nat) (s : Pool) (k : Nat) : Prop where
  next_cell : s.next_cell = k
  spawned : s.spawned = k
  first : s.workers[0]? = some .idle
  live : s.live = []
  old : ∀ r ∈ journal, r ∈ s.journal
  exited : ∀ j < k, ∃ r ∈ s.journal, r.pid = pids j

structure Launched (pids : Nat → Nat) (s t : Pool) (k : Nat) : Prop where
  next_cell : t.next_cell = k + 1
  spawned : t.spawned = k + 1
  first : t.workers[0]? = some (if 0 < pids k then .await k (pids k) s.journal.length else .idle)
  live : t.live = [pids k]
  journal : t.journal = s.journal

theorem Quiet.launch (h : Quiet journal pids s k) (hk : k < c.cells.length) :
    Launched pids s (run (Pool.step c pids) s ([.take 0, .push 0 true] ++ [.spawn 0 true])) k := by
  have hlen := (List.getElem?_eq_some_iff.mp h.first).1
  rw [run_append, run_take_push h.first (h.next_cell ▸ hk), run_cons, run_nil]
  constructor <;>
    simp [Pool.step, spawn_sample, push_policy, take_cell, Pool.set, Pool.result, h.next_cell, hk,
      h.spawned, h.live, hlen]

theorem Launched.finish (h : Quiet journal pids s k) (ht : Launched pids s t k) :
    Quiet journal pids (run (Pool.step c pids) t [.exit (pids k) false 0, .timeout 0]) (k + 1) := by
  have hlen := (List.getElem?_eq_some_iff.mp ht.first).1
  have hexit : t.step c pids (.exit (pids k) false 0) =
      { t with live := [], journal := s.journal ++ [⟨pids k, false, 0⟩] } := by
    simp [Pool.step, ht.live, ht.journal]
  have htimeout : ∃ ws : List Worker, ws[0]? = some .idle ∧
      ({ t with live := [], journal := s.journal ++ [⟨pids k, false, 0⟩] } : Pool).step c pids (.timeout 0) =
        { t with workers := ws, live := [], journal := s.journal ++ [⟨pids k, false, 0⟩] } := by
    have hfirst := ht.first
    split_ifs at hfirst with hpos
    · exact ⟨t.workers.set 0 .idle, by simp [hlen], by simp [Pool.step, hfirst, Pool.set]⟩
    · exact ⟨t.workers, hfirst, by simp [Pool.step, hfirst]⟩
  obtain ⟨ws, hws, hstep⟩ := htimeout
  simp only [run_cons, run_nil, hexit, hstep]
  refine ⟨ht.next_cell, ht.spawned, hws, rfl, fun r hr => ?_, fun j hj => ?_⟩
  · exact mem_append_left _ (h.old r hr)
  · rcases Nat.lt_succ_iff_lt_or_eq.mp hj with hj | rfl
    · obtain ⟨r, hr, hpid⟩ := h.exited j hj
      exact ⟨r, mem_append_left _ hr, hpid⟩
    · exact ⟨_, mem_append_right _ (mem_singleton_self _), rfl⟩

theorem exists_quiet (active : Option Bytes) {k : Nat} (hk : k ≤ c.cells.length) :
    ∃ as, Quiet journal pids (run (Pool.step c pids) (Pool.start c active journal) as) k := by
  induction k with
  | zero =>
    refine ⟨[], rfl, rfl, ?_, rfl, fun r hr => hr, by omega⟩
    have hpos : 0 < c.workers := Nat.lt_of_lt_of_le Nat.zero_lt_one (le_max_left _ _)
    simp only [run_nil, Pool.start, getElem?_replicate]
    rw [if_pos hpos]
  | succ k ih =>
    obtain ⟨as, has⟩ := ih (by omega)
    refine ⟨as ++ [.take 0, .push 0 true, .spawn 0 true] ++ [.exit (pids k) false 0, .timeout 0], ?_⟩
    rw [run_append, run_append]
    exact Launched.finish has (has.launch (by omega))

theorem Launched.poll (ht : Launched pids s t k) (hpos : 0 < pids k)
    (hrecord : ∃ r ∈ s.journal, r.pid = pids k) : ¬ CellsRight c (t.step c pids (.poll 0)) := by
  obtain ⟨r, hr, hpid⟩ := hrecord
  obtain ⟨r', i, hfound, hi⟩ := exists_last_exit hr
  have hfirst := ht.first
  rw [if_pos hpos] at hfirst
  rw [hpid, ← ht.journal] at hfound
  intro hright
  have hmem : (k, i, s.journal.length) ∈ (t.step c pids (.poll 0)).verdicts := by
    simp [Pool.step, hfirst, poll_exit, hfound, Pool.result]
  have := hright.verdicts _ hmem
  simp only at this
  omega

theorem exists_wrong_verdict (active : Option Bytes) (hfresh : ¬ FreshPids c journal pids) :
    ∃ as, ¬ CellsRight c (run (Pool.step c pids) (Pool.start c active journal) as) := by
  unfold FreshPids at hfresh
  push Not at hfresh
  obtain ⟨k, hk, hpos, hused⟩ := hfresh
  obtain ⟨as, has⟩ := @exists_quiet c journal pids active _ (Nat.le_of_lt hk)
  have hrecord : ∃ r ∈ (run (Pool.step c pids) (Pool.start c active journal) as).journal, r.pid = pids k := by
    by_cases hold : ∀ r ∈ journal, r.pid ≠ pids k
    · obtain ⟨j, hj, hsame⟩ := hused hold
      obtain ⟨r, hr, hpid⟩ := has.exited j hj
      exact ⟨r, hr, hpid.trans hsame⟩
    · push Not at hold
      obtain ⟨r, hr, hpid⟩ := hold
      exact ⟨r, has.old r hr, hpid⟩
  refine ⟨as ++ [.take 0, .push 0 true, .spawn 0 true] ++ [.poll 0], ?_⟩
  rw [run_append, run_append]
  exact (has.launch hk).poll hpos hrecord

end

/-- Every run of a campaign spawns each sample under the policy of its cell and reads each verdict from a
record behind the spawn exactly when there is one worker or one policy, and no process gets a used number. -/
theorem campaign_right_iff (c : Plan) (active : Option Bytes) (journal : List ExitRecord) (pids : Nat → Nat) :
    (∀ schedule, CellsRight c (run (Pool.step c pids) (Pool.start c active journal) schedule)) ↔
      (c.workers = 1 ∨ SamePolicy c) ∧ FreshPids c journal pids := by
  constructor
  · intro hright
    constructor
    · by_contra hunsafe
      push Not at hunsafe
      obtain ⟨hworkers, hsame⟩ := hunsafe
      have htwo : 2 ≤ c.workers := by
        have : 1 ≤ c.workers := le_max_left _ _
        omega
      obtain ⟨as, has⟩ := @exists_wrong_policy c journal pids active htwo hsame
      exact has (hright as)
    · by_contra hused
      obtain ⟨as, has⟩ := exists_wrong_verdict (c := c) active hused
      exact has (hright as)
  · rintro ⟨hsafe, hfresh⟩ schedule
    have hinv := run_preserves (PoolInv c journal pids) (fun s a h => h.step hsafe hfresh a)
      (poolInv_start c active journal pids) schedule
    exact hinv.right

def twoRuns (concurrency : Nat) : Plan where
  samples := [⟨bytes "n", [bytes "/bin/true"]⟩]
  policies := [⟨bytes "p", bytes "p.json"⟩, ⟨bytes "q", bytes "q.json"⟩]
  repeats := 1
  concurrency := concurrency
  timeout_sec := 30
  preload := []
  ctl_sock := bytes "s"
  journal_base := bytes "j"
  cells := expand 1 2 1

/-- Two workers push their policies before the first of them spawns: the first sample runs under the second
policy. And one worker that runs both cells reads the first exit as the verdict of the second one, when the
second process gets the number of the first. -/
theorem not_campaign_right :
    (0, some (bytes "q.json")) ∈ (run (Pool.step (twoRuns 2) fun k => 100 + k) (Pool.start (twoRuns 2) none [])
      [.take 0, .push 0 true, .take 1, .push 1 true, .spawn 0 true]).spawns ∧
    (twoRuns 2).policy_of 0 = some (bytes "p.json") ∧
    (1, 0, 1) ∈ (run (Pool.step (twoRuns 1) fun _ => 100) (Pool.start (twoRuns 1) none [])
      [.take 0, .push 0 true, .spawn 0 true, .exit 100 false 0, .poll 0,
       .take 0, .push 0 true, .spawn 0 true, .poll 0]).verdicts := by
  decide +kernel

end Retrace.Campaign
