import Retrace.CLib.Proofs.CStringProofs
import Retrace.Daemon.Proofs.RegistryProofs

/-!
# The session tree is a forest while links go back

The invariant is that every parent id is found at an entry in front of the one that has it. It holds of
what a replay builds, where no entry has a parent, and only the link of an entry that was there before
its hello can break it.
-/

namespace Retrace.Retraced

open CLib Runs List

variable {e : AgentEntry} {r : Registry}

structure Registry.Backward (r : Registry) : Prop where
  short : ∀ e ∈ r.agents, e.id.length < RETRACED_AGENT_ID_MAX
  before : ∀ i e, r.agents[i]? = some e → e.parent_id ≠ [] → ∃ k < i, retraced_registry_find r e.parent_id = some k

theorem Registry.Backward.congr {s : Registry} (hr : r.Backward)
    (h : s.agents.map (fun e => (e.id, e.parent_id)) =
      r.agents.map (fun e => (e.id, e.parent_id))) : s.Backward := by
  have hids : s.ids = r.ids := by
    have hfst := congrArg (List.map Prod.fst) h
    rwa [map_map, map_map] at hfst
  -- Every entry of `s` has its counterpart in `r`, at the same place.
  have hentry : ∀ (i : Nat) (e : AgentEntry), s.agents[i]? = some e →
      ∃ e', r.agents[i]? = some e' ∧ e'.id = e.id ∧ e'.parent_id = e.parent_id := by
    intro i e he
    have hi := congrArg (·[i]?) h
    simp only [getElem?_map, he, Option.map_some] at hi
    obtain ⟨e', he', heq⟩ := Option.map_eq_some_iff.mp hi.symm
    exact ⟨e', he', congrArg Prod.fst heq, congrArg Prod.snd heq⟩
  constructor
  · intro e he
    obtain ⟨i, hi⟩ := getElem?_of_mem he
    obtain ⟨e', he', hid, -⟩ := hentry i e hi
    exact hid ▸ hr.short e' (mem_of_getElem? he')
  · intro i e he hne
    obtain ⟨e', he', -, hparent⟩ := hentry i e he
    rw [find_ids, hids, ← find_ids, ← hparent]
    exact hr.before i e' he' (hparent ▸ hne)

theorem Registry.Backward.modify (hr : r.Backward) (i : Nat)
    (hf : ∀ e, (f e).id = e.id ∧ (f e).parent_id = e.parent_id) : (r.modify i f).Backward := by
  refine hr.congr (ext_getElem? fun j => ?_)
  rw [getElem?_map, getElem?_map, agents_modify]
  split_ifs
  · cases r.agents[j]? with
    | none => rfl
    | some e => exact congrArg some (Prod.ext (hf e).1 (hf e).2)
  · rfl

theorem Registry.Backward.mint (hr : r.Backward) (a : Option Bytes) : (r.mint a).Backward :=
  hr.congr (by rw [mint_agents])

theorem Registry.Backward.bye (hr : r.Backward) (a : Bytes) : (retraced_registry_bye r a).Backward := by
  unfold retraced_registry_bye
  split
  · exact hr.modify _ fun e => ⟨rfl, rfl⟩
  · exact hr

theorem Registry.Backward.heartbeat (hr : r.Backward) (a : Bytes) (seq : UInt64) (now_ms : Int64) :
    (retraced_registry_heartbeat r a seq now_ms).Backward := by
  unfold retraced_registry_heartbeat
  split
  · exact hr.modify _ fun e => ⟨rfl, rfl⟩
  · exact hr

theorem Registry.Backward.sweep (hr : r.Backward) (now_ms timeout_ms : Int64) :
    (retraced_registry_sweep r now_ms timeout_ms).Backward := by
  refine hr.congr ?_
  rw [retraced_registry_sweep, map_map]
  refine map_congr_left fun e _ => ?_
  dsimp only [Function.comp]
  split_ifs <;> rfl

theorem Registry.Backward.append (hr : r.Backward) (c : UInt64)
    (hid : e.id.length < RETRACED_AGENT_ID_MAX) (hparent : e.parent_id = []) :
    Registry.Backward ⟨r.agents ++ [e], c⟩ := by
  constructor
  · intro e' he'
    rcases mem_append.mp he' with h | h
    · exact hr.short e' h
    · rw [mem_singleton.mp h]
      exact hid
  · intro i e' he' hne
    have hold : r.agents[i]? = some e' := by
      by_cases hi : i < r.agents.length
      · rwa [getElem?_append_left hi] at he'
      · rw [getElem?_append_right (by omega)] at he'
        rw [mem_singleton.mp (mem_of_getElem? he')] at hne
        exact absurd hparent hne
    obtain ⟨k, hk, hfind⟩ := hr.before i e' hold hne
    refine ⟨k, hk, ?_⟩
    rw [retraced_registry_find] at hfind
    rw [retraced_registry_find, findIdx?_append, hfind, Option.some_or]

theorem new_entry_id_length (id : Bytes) (pid ppid : Int64) (session cmdline : Bytes) :
    (new_entry id pid ppid session cmdline).id.length < RETRACED_AGENT_ID_MAX :=
  snprintf_length_lt (by decide) le_rfl id

theorem Registry.Backward.hello (hr : r.Backward) (a : Option Bytes) (pid ppid : Int64)
    (session cmdline : Bytes) : (retraced_registry_hello r a pid ppid session cmdline).1.Backward := by
  rw [hello_eq]
  split
  · exact (hr.mint a).modify _ fun e => ⟨rfl, rfl⟩
  · split_ifs
    · exact hr.mint a
    · exact hr.append _ (new_entry_id_length ..) rfl

theorem Registry.Backward.replay_agent (hr : r.Backward) (o : Option Parson.JsonObject) :
    (replay_agent r o).Backward := by
  unfold Retraced.replay_agent
  split
  · exact hr
  · next agent _ =>
    dsimp only
    cases hfind : retraced_registry_find r agent with
    | some i => exact hr.modify _ fun e => ⟨rfl, rfl⟩
    | none =>
      have hhello := hr.hello (some agent) (doubleToLong (Parson.json_object_get_number o (bytes "pid"))) 0 [] []
      dsimp only
      split
      · exact hhello.modify _ fun e => ⟨rfl, rfl⟩
      · exact hhello

theorem backward_replay : (retraced_journal_replay fs j {}).2.2.Backward :=
  replay_preserves (fun _ o h => h.replay_agent o) fs j ⟨by simp, by simp⟩

def Registry.IsParent (r : Registry) (i : Nat) (ppid : Int64) (k : Nat) : Prop :=
  k ≠ i ∧ ∃ c, r.agents[k]? = some c ∧ c.pid = ppid ∧ c.state ≠ .gone

theorem link_parent_cases (he : r.agents[i]? = some e) : (retraced_registry_link_parent r i).1 = r ∨
      (∃ b, (retraced_registry_link_parent r i).1 = r.modify i ({ · with parent_hole := b })) ∨
      (e.parent_id = [] ∧ e.parent_hole = false ∧ ∃ k c, r.IsParent i e.ppid k ∧ r.agents[k]? = some c ∧
        (∀ l < k, ¬r.IsParent i e.ppid l) ∧ (retraced_registry_link_parent r i).1 =
          r.modify i ({ · with parent_id := snprintf RETRACED_AGENT_ID_MAX c.id })) := by
  unfold retraced_registry_link_parent
  simp only [he]
  split_ifs with hset
  · exact .inl rfl
  · rw [not_or, not_not, Bool.not_eq_true] at hset
    split
    · next k hk =>
      obtain ⟨hcand, hmem, hfirst⟩ := find?_range_eq_some.mp hk
      right; right
      obtain ⟨hki, c, hc, hpid⟩ : r.IsParent i e.ppid k := by
        unfold Registry.IsParent
        revert hcand
        cases r.agents[k]? <;> simp [and_assoc]
      refine ⟨hset.1, hset.2, k, c, ⟨hki, c, hc, hpid⟩, hc, fun l hl hp => ?_, by rw [hc]; rfl⟩
      have hnot := hfirst l hl
      obtain ⟨hli, d, hd, hdpid⟩ := hp
      simp [hd, hli, hdpid] at hnot
    · exact .inr (.inl ⟨_, rfl⟩)

theorem Registry.Backward.link_parent (hr : r.Backward)
    (he : r.agents[i]? = some e) (hback : e.parent_id = [] → e.parent_hole = false →
      (∃ k < i, r.IsParent i e.ppid k) ∨ ∀ k, ¬r.IsParent i e.ppid k) :
    (retraced_registry_link_parent r i).1.Backward := by
  rcases link_parent_cases he with h | ⟨b, h⟩ | ⟨hparent, hhole, k, c, hk, hc, hfirst, h⟩
  · rwa [h]
  · rw [h]
    exact hr.modify _ fun e => ⟨rfl, rfl⟩
  · have hki : k < i := by
      rcases hback hparent hhole with ⟨l, hl, hcand⟩ | hnone
      · by_contra hle
        exact hfirst l (by omega) hcand
      · exact absurd hk (hnone k)
    rw [h, snprintf_eq_self (hr.short c (mem_of_getElem? hc))]
    have hids := ids_modify r i (f := ({ · with parent_id := c.id })) fun _ => rfl
    constructor
    · intro e' he'
      obtain ⟨j, hj⟩ := getElem?_of_mem he'
      rw [agents_modify] at hj
      split_ifs at hj
      · obtain ⟨e₀, he₀, rfl⟩ := Option.map_eq_some_iff.mp hj
        exact hr.short e₀ (mem_of_getElem? he₀)
      · exact hr.short e' (mem_of_getElem? hj)
    · intro j e' hj hne
      rw [find_ids, hids, ← find_ids]
      rw [agents_modify] at hj
      split_ifs at hj with hij
      · obtain ⟨e₀, he₀, rfl⟩ := Option.map_eq_some_iff.mp hj
        obtain ⟨l, hl, hfind⟩ := find_le hc
        exact ⟨l, by omega, hfind⟩
      · exact hr.before j e' hj hne

/-- After an operation that links back every parent is still found in front of its children. -/
theorem Registry.Backward.step (hr : r.Backward) (op : RegistryOp) (hop : LinksBack r op) :
    (r.step op).Backward := by
  cases op with
  | bye a => exact hr.bye a
  | heartbeat a seq now_ms => exact hr.heartbeat a seq now_ms
  | sweep now_ms timeout_ms => exact hr.sweep now_ms timeout_ms
  | hello a pid ppid session cmdline =>
    have hhello := hr.hello a pid ppid session cmdline
    simp only [Registry.step]
    rw [hello_eq] at hhello ⊢
    cases hfind : retraced_registry_find r (hello_id r a pid) with
    | some i =>
      simp only [hfind] at hhello ⊢
      obtain ⟨e, he, -⟩ := find_eq_some hfind
      have he' : ((r.mint a).modify i ({ · with state := .live })).agents[i]? =
          some { e with state := .live } := by
        rw [agents_modify, if_pos rfl, mint_agents, he]
        rfl
      -- The candidates are those of the registry in front of the hello.
      have hcand : ∀ k, ((r.mint a).modify i ({ · with state := .live })).IsParent i e.ppid k ↔
          r.IsParent i e.ppid k := by
        intro k
        unfold Registry.IsParent
        rw [agents_modify, mint_agents]
        refine and_congr_right fun hki => ?_
        rw [if_neg (Ne.symm hki)]
      refine hhello.link_parent he' fun hparent hhole => ?_
      simp only [hcand]
      rcases hop i e hfind he hparent hhole with ⟨k, hk, hc⟩ | hnone
      · exact .inl ⟨k, hk, Nat.ne_of_lt hk, hc⟩
      · right
        rintro k ⟨hki, c, hc, hpid, hstate⟩
        exact hstate (hnone k c hki hc hpid)
    | none =>
      simp only [hfind] at hhello ⊢
      split_ifs at hhello ⊢
      · exact hhello
      · -- The new entry is the last one: whatever it is linked to stands in front of it.
        refine hhello.link_parent (getElem?_concat_length ..) fun _ _ => ?_
        rw [or_iff_not_imp_right]
        intro hsome
        push Not at hsome
        obtain ⟨k, hki, c, hc, hpid⟩ := hsome
        refine ⟨k, ?_, hki, c, hc, hpid⟩
        have := (List.getElem?_eq_some_iff.mp hc).1
        rw [length_append, length_singleton] at this
        omega

theorem ancestor_succ : r.ancestor (k + 1) i = (r.parent i).bind (r.ancestor k) := by
  induction k with
  | zero => cases h : r.parent i <;> simp [Registry.ancestor, h]
  | succ k ih =>
    rw [Registry.ancestor, ih, Option.bind_assoc]
    rfl

theorem Registry.Backward.forest (hr : r.Backward) : r.Forest := by
  intro i
  induction i using Nat.strong_induction_on with
  | _ i ih =>
    intro hi
    by_cases hparent : r.agents[i].parent_id = []
    · exact ⟨0, i, r.agents[i], rfl, getElem?_eq_getElem hi, hparent⟩
    · obtain ⟨l, hl, hfind⟩ := hr.before i r.agents[i] (getElem?_eq_getElem hi) hparent
      obtain ⟨k, j, e, hanc, he, hroot⟩ := ih l hl (find_lt hfind)
      refine ⟨k + 1, j, e, ?_, he, hroot⟩
      have hstep : r.parent i = some l := by
        rw [Registry.parent, getElem?_eq_getElem hi]
        simp only [if_neg hparent, hfind]
      rw [ancestor_succ, hstep, Option.bind_some, hanc]

/-- In every run in which no entry that was there before its hello is linked to a later one, the session
tree is a forest. -/
theorem session_forest (fs : FS) (j : Journal) (ops : List RegistryOp)
    (hops : Along Registry.step LinksBack (retraced_journal_replay fs j {}).2.2 ops) :
    (run Registry.step (retraced_journal_replay fs j {}).2.2 ops).Forest :=
  (run_invariant Registry.Backward (fun _ op hr hop => hr.step op hop) backward_replay hops).forest

def shell_hellos : List RegistryOp :=
  [.hello none 7 1 [] [], .hello none 8 7 [] [], .hello (some (bytes "boot.7.1")) 7 1 [] []]

theorem session_forest_shell :
    (run Registry.step (retraced_journal_replay (fun _ => none) {} {}).2.2 shell_hellos).Forest := by
  refine session_forest _ _ _ ⟨?_, ?_, ?_, trivial⟩
  · intro i e hfind
    exact absurd hfind (by decide +revert)
  · intro i e hfind
    exact absurd hfind (by decide +revert)
  · -- Nobody has the pid of the shell's parent.
    intro i e hfind he _ _
    right
    intro k c _ hc hpid
    have hpids : (run Registry.step (retraced_journal_replay (fun _ => none) {} {}).2.2
        (shell_hellos.take 2)).agents.map
        (fun c => (c.pid, c.ppid)) = [(7, 1), (8, 7)] := by
      decide
    obtain rfl : i = 0 := Option.some.inj (hfind.symm.trans (by decide))
    have hshell : e.ppid = 1 := by
      have hget := congrArg (·[0]?) hpids
      rw [getElem?_map] at hget
      erw [he] at hget
      simpa using (Prod.mk.inj (Option.some.inj hget)).2
    have hmem := hpids ▸ mem_map_of_mem (f := fun c : AgentEntry => (c.pid, c.ppid)) (mem_of_getElem? hc)
    rw [hpid, hshell] at hmem
    simp at hmem

theorem not_forest_of_parents (hn : 0 < n) (hlen : n ≤ r.agents.length)
    (h : ∀ i < n, ∃ j < n, r.parent i = some j) : ¬r.Forest := by
  intro hforest
  have hanc : ∀ k, ∃ j < n, r.ancestor k 0 = some j := by
    intro k
    induction k with
    | zero => exact ⟨0, hn, rfl⟩
    | succ k ih =>
      obtain ⟨j, hj, hk⟩ := ih
      obtain ⟨l, hl, hparent⟩ := h j hj
      exact ⟨l, hl, by rw [Registry.ancestor, hk, Option.bind_some, hparent]⟩
  obtain ⟨k, j, e, hk, he, hroot⟩ := hforest 0 (by omega)
  obtain ⟨i, hi, hk'⟩ := hanc k
  obtain rfl : j = i := Option.some.inj (hk.symm.trans hk')
  obtain ⟨l, -, hparent⟩ := h j hi
  simp [Registry.parent, he, hroot] at hparent

def rebound_hellos : List RegistryOp :=
  [.hello none 0 0 [] [], .hello none 0 0 [] [], .hello (some (bytes "boot.0.1")) 0 0 [] []]

/-- The second agent is linked to the first, whose pid is that of its parent; so is the first to the second
at its second hello. -/
theorem not_session_forest :
    ¬∀ (fs : FS) (j : Journal) (ops : List RegistryOp),
      (run Registry.step (retraced_journal_replay fs j {}).2.2 ops).Forest := by
  intro h
  exact not_forest_of_parents (n := 2) (by decide) (by decide) (by decide)
    (h (fun _ => none) {} rebound_hellos)

end Retrace.Retraced
