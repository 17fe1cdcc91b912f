import Retrace.Daemon.Lineage

/-!
# Facts about the registry
-/

namespace Retrace.Retraced

open CLib Parson Runs List

variable {r : Registry}

def Registry.ids (r : Registry) : List Bytes := r.agents.map AgentEntry.id

theorem find_ids (r : Registry) (a : Bytes) : retraced_registry_find r a = r.ids.findIdx? (· = a) := by
  rw [retraced_registry_find, Registry.ids, findIdx?_map]
  rfl

theorem find_eq_some (h : retraced_registry_find r a = some i) : ∃ e, r.agents[i]? = some e ∧ e.id = a := by
  obtain ⟨hlt, hid, -⟩ := findIdx?_eq_some_iff_getElem.mp h
  exact ⟨_, getElem?_eq_getElem hlt, by simpa using hid⟩

theorem find_lt (h : retraced_registry_find r a = some i) : i < r.agents.length :=
  (findIdx?_eq_some_iff_getElem.mp h).1

theorem find_le (h : r.agents[i]? = some e) : ∃ k ≤ i, retraced_registry_find r e.id = some k := by
  cases hfind : retraced_registry_find r e.id with
  | none =>
    have hnone := findIdx?_eq_none_iff.mp hfind e (mem_of_getElem? h)
    simp at hnone
  | some k =>
    refine ⟨k, ?_, rfl⟩
    obtain ⟨hk, -, hfirst⟩ := findIdx?_eq_some_iff_getElem.mp hfind
    by_contra hlt
    obtain ⟨hi, he⟩ := List.getElem?_eq_some_iff.mp h
    have := hfirst i (by omega)
    simp [he] at this

theorem agents_modify (r : Registry) (i j : Nat) (f : AgentEntry → AgentEntry) :
    (r.modify i f).agents[j]? = if i = j then r.agents[j]?.map f else r.agents[j]? := by
  rw [Registry.modify, getElem?_modify]
  split_ifs
  · rfl
  · simp

theorem ids_modify (r : Registry) (i : Nat) (hf : ∀ e, (f e).id = e.id) : (r.modify i f).ids = r.ids := by
  refine ext_getElem? fun j => ?_
  rw [Registry.ids, Registry.ids, getElem?_map, getElem?_map, agents_modify]
  split_ifs
  · cases r.agents[j]? with
    | none => rfl
    | some e => exact congrArg some (hf e)
  · rfl

def Registry.mint (r : Registry) : Option Bytes → Registry
  | some (_ :: _) => r
  | _ => { r with id_counter := r.id_counter + 1 }

@[simp]
theorem mint_agents (r : Registry) (a : Option Bytes) : (r.mint a).agents = r.agents := by
  rcases a with _ | _ | ⟨c, s⟩ <;> rfl

def new_entry (id : Bytes) (pid ppid : Int64) (session cmdline : Bytes) : AgentEntry where
  id := snprintf RETRACED_AGENT_ID_MAX id
  session := snprintf RETRACED_SESSION_MAX session
  cmdline := snprintf RETRACED_CMDLINE_MAX cmdline
  pid := pid
  ppid := ppid

theorem hello_eq (r : Registry) (a : Option Bytes) (pid ppid : Int64) (session cmdline : Bytes) :
    retraced_registry_hello r a pid ppid session cmdline =
      match retraced_registry_find r (hello_id r a pid) with
      | some i => ((r.mint a).modify i ({ · with state := .live }), some i)
      | none =>
        if RETRACED_REGISTRY_MAX ≤ r.agents.length then (r.mint a, none)
        else
          ({ r.mint a with agents := r.agents ++ [new_entry (hello_id r a pid) pid ppid session cmdline] },
            some r.agents.length) := by
  rcases a with _ | _ | ⟨c, s⟩ <;> rfl

section Replay

variable {P : Registry → Prop} (hP : ∀ r o, P r → P (replay_agent r o))
include hP

theorem replay_loop_preserves (chunks : List Bytes) (s : ReplayState) (hs : P s.r) :
    P (replay_loop chunks s).1.r := by
  induction chunks generalizing s with
  | nil => exact hs
  | cons chunk rest ih =>
    unfold replay_loop
    dsimp only
    split
    · exact hs
    · split
      · exact hs
      · split
        · exact hs
        · split
          · exact hs
          · exact ih _ (hP _ _ hs)

theorem replay_file_preserves (fs : FS) (j : Journal) (path : Path) (prev : UInt64) (last : Bool)
    (hr : P r) : P (journal_replay_file fs j r path prev last).2.2 := by
  unfold journal_replay_file
  split
  · split_ifs <;> exact hr
  · have hloop := replay_loop_preserves hP (journal_chunks ‹_›) { j := j, r := r, prev := prev } hr
    dsimp only
    split_ifs <;> exact hloop

theorem replay_segments_preserves (fs : FS) (seqs : List Nat) (j : Journal) (prev : UInt64) (hr : P r) :
    P (replay_segments fs seqs j r prev).2.2 := by
  induction seqs generalizing j r prev with
  | nil => exact hr
  | cons seq seqs ih =>
    have hfile := replay_file_preserves hP fs j (segment_file j.base seq) prev (seq == j.segment_seq) hr
    unfold replay_segments
    dsimp only
    split_ifs
    · exact hfile
    · exact ih _ _ hfile

theorem replay_preserves (fs : FS) (j : Journal) (hr : P r) : P (retraced_journal_replay fs j r).2.2 := by
  have hresult : ∀ x : UInt64 × Journal × Registry, P x.2.2 → P (replay_result x).2.2 := by
    rintro ⟨prev, j, r⟩ h
    unfold replay_result
    dsimp only
    split_ifs <;> exact h
  unfold retraced_journal_replay
  dsimp only
  split_ifs
  · split
    · exact hr
    · exact hresult _ (replay_segments_preserves hP _ _ _ _ hr)
  · exact hr
  · exact hresult _ (replay_file_preserves hP _ _ _ _ _ hr)

end Replay

end Retrace.Retraced
