import Retrace.Daemon.Proofs.AgreementProofs
import Retrace.Daemon.Proofs.FreshIdProofs
import Retrace.Daemon.Rebuild
import Retrace.Journal.Proofs.WrittenProofs

/-!
# What a replay rebuilds

Every record of a run belongs to an agent that said hello, or to the daemon. The replay makes an entry for
each of them, the daemon included, and brings back none as gone, since no record tells of a bye; each has
the number of its last record, of whatever kind.
-/

namespace Retrace.Retraced

open CLib Parson Rpc Runs HashChain List

variable {i : Nat} {q : UInt64}

variable {a : Bytes} {key : Bytes × UInt64} {d : Daemon} {ks keys : List (Bytes × UInt64)} {es : List Effect}
  {m : Message}

attribute [local irreducible] retraced_journal_line_hash journal_line retraced_journal_event

structure IdOk (a : Bytes) : Prop where
  ne : a ≠ []
  short : a.length < RETRACED_AGENT_ID_MAX

theorem modify_concat (l : List α) (a : α) (f : α → α) : (l ++ [a]).modify l.length f = l ++ [f a] := by
  induction l with
  | nil => rfl
  | cons x l ih => exact congrArg (x :: ·) ih

theorem replay_line_eq (hl : RecordOf key l) (hid : IdOk key.1) :
    ∃ pid, replay_line r l =
      match retraced_registry_find r key.1 with
      | some i => r.modify i ({ · with last_seq := key.2, state := .live })
      | none =>
        if RETRACED_REGISTRY_MAX ≤ r.agents.length then r
        else { r with agents := r.agents ++
          [{ new_entry key.1 pid 0 [] [] with last_seq := key.2, state := .live }] } := by
  obtain ⟨hagent, hseq⟩ := hl.object
  obtain ⟨c, t, hkey⟩ := exists_cons_of_ne_nil hid.ne
  refine ⟨doubleToLong (json_object_get_number (lineObject l) (bytes "pid")), ?_⟩
  unfold replay_line replay_agent
  simp only [hagent, hseq]
  cases hfind : retraced_registry_find r key.1 with
  | some i => rfl
  | none =>
    have hhello : hello_id r (some key.1)
        (doubleToLong (json_object_get_number (lineObject l) (bytes "pid"))) = key.1 := by
      rw [hkey]
      rfl
    have hmint : r.mint (some key.1) = r := by
      rw [hkey]
      rfl
    rw [hello_eq, hhello, hfind]
    simp only [hmint]
    split_ifs
    · rfl
    · simp only [Registry.modify, modify_concat]

/-- The registry behind records with these keys: their ids, each once, live and with the last number. -/
structure ReplayedKeys (keys : List (Bytes × UInt64)) (r : Registry) : Prop where
  nodup : r.ids.Nodup
  mem : ∀ a, a ∈ r.ids ↔ a ∈ keys.map Prod.fst
  live : ∀ e ∈ r.agents, e.state = .live
  last : ∀ e ∈ r.agents, (keys.filter (·.1 = e.id)).getLast?.map Prod.snd = some e.last_seq

theorem find_eq_none : retraced_registry_find r a = none ↔ a ∉ r.ids := by
  rw [find_ids, findIdx?_eq_none_iff]
  constructor
  · intro h hmem
    simpa using h a hmem
  · intro h x hx
    simpa using fun heq : x = a => h (heq ▸ hx)

theorem mem_ids {r : Registry} (he : e ∈ r.agents) : e.id ∈ r.ids := mem_map_of_mem he

theorem filter_concat_ne (h : key.1 ≠ a) : (keys ++ [key]).filter (·.1 = a) = keys.filter (·.1 = a) := by
  rw [filter_append, filter_cons_of_neg (by simpa using h), filter_nil, append_nil]

theorem last_concat : ((keys ++ [key]).filter (·.1 = key.1)).getLast?.map Prod.snd = some key.2 := by
  rw [filter_append, filter_cons_of_pos (by simp), filter_nil, getLast?_concat, Option.map_some]

theorem ReplayedKeys.line (hr : ReplayedKeys keys r) (hl : RecordOf key l) (hid : IdOk key.1)
    (hroom : ((keys ++ [key]).map Prod.fst).dedup.length ≤ RETRACED_REGISTRY_MAX) :
    ReplayedKeys (keys ++ [key]) (replay_line r l) := by
  obtain ⟨pid, hline⟩ := replay_line_eq hl hid
  rw [hline]
  cases hfind : retraced_registry_find r key.1 with
  | some i =>
    dsimp only
    obtain ⟨e, he, heid⟩ := find_eq_some hfind
    have hids := ids_modify r i (f := ({ · with last_seq := key.2, state := .live })) fun _ => rfl
    -- An entry behind the record is the one of its agent, or an old one of another agent.
    have hentry : ∀ x ∈ (r.modify i ({ · with last_seq := key.2, state := .live })).agents,
        (x.id = key.1 ∧ x.last_seq = key.2 ∧ x.state = .live) ∨ (x ∈ r.agents ∧ key.1 ≠ x.id) := by
      intro x hx
      obtain ⟨k, hk⟩ := getElem?_of_mem hx
      rw [agents_modify] at hk
      split_ifs at hk with hik
      · obtain ⟨y, hy, rfl⟩ := Option.map_eq_some_iff.mp hk
        rw [← hik, he] at hy
        obtain rfl := Option.some.inj hy
        exact .inl ⟨heid, rfl, rfl⟩
      · refine .inr ⟨mem_of_getElem? hk, fun heq => hik ?_⟩
        have hsame : r.ids[i]? = r.ids[k]? := by
          rw [Registry.ids, getElem?_map, getElem?_map, he, hk, Option.map_some, Option.map_some, heid, heq]
        have hlt : ∀ {m y}, r.agents[m]? = some y → m < r.ids.length := fun h => by
          rw [Registry.ids, length_map]
          exact (List.getElem?_eq_some_iff.mp h).1
        rw [getElem?_eq_getElem (hlt he), getElem?_eq_getElem (hlt hk)] at hsame
        exact hr.nodup.getElem_inj_iff.mp (Option.some.inj hsame)
    refine ⟨?_, fun a => ?_, fun x hx => ?_, fun x hx => ?_⟩
    · rw [hids]
      exact hr.nodup
    · have hold : key.1 ∈ keys.map Prod.fst := (hr.mem _).mp (heid ▸ mem_ids (mem_of_getElem? he))
      rw [hids, hr.mem, map_append, mem_append]
      refine ⟨.inl, fun h => h.elim id fun h => ?_⟩
      rw [mem_singleton.mp h]
      exact hold
    · exact (hentry x hx).elim (·.2.2) fun h => hr.live x h.1
    · rcases hentry x hx with ⟨hx1, hx2, -⟩ | ⟨hx, hne⟩
      · rw [hx1, hx2, last_concat]
      · rw [filter_concat_ne hne, hr.last x hx]
  | none =>
    have hnew := find_eq_none.mp hfind
    have hnodup : (r.ids ++ [key.1]).Nodup :=
      nodup_append.mpr ⟨hr.nodup, nodup_singleton _, fun a ha b hb heq => hnew (by
        rw [← mem_singleton.mp hb, ← heq]; exact ha)⟩
    dsimp only
    split_ifs with hfull
    · -- The ids of the registry and the new one are too many.
      exfalso
      have hsub : r.ids ++ [key.1] ⊆ ((keys ++ [key]).map Prod.fst).dedup := by
        intro a ha
        rw [mem_dedup, map_append, mem_append]
        exact (mem_append.mp ha).imp (hr.mem a).mp id
      have hlen := (hnodup.subperm hsub).length_le
      rw [length_append, Registry.ids, length_map, length_singleton] at hlen
      omega
    · have hcut : (new_entry key.1 pid 0 [] []).id = key.1 := snprintf_eq_self hid.short
      have hids : Registry.ids { r with agents := r.agents ++
          [{ new_entry key.1 pid 0 [] [] with last_seq := key.2, state := .live }] } = r.ids ++ [key.1] := by
        simp only [Registry.ids, map_append, map_cons, map_nil, hcut]
      refine ⟨?_, fun a => ?_, fun x hx => ?_, fun x hx => ?_⟩
      · rw [hids]
        exact hnodup
      · rw [hids, mem_append, hr.mem, map_append, mem_append]
        rfl
      · rcases mem_append.mp hx with hx | hx
        · exact hr.live x hx
        · rw [mem_singleton.mp hx]
      · rcases mem_append.mp hx with hx | hx
        · rw [filter_concat_ne fun heq => hnew (heq ▸ mem_ids hx), hr.last x hx]
        · rw [mem_singleton.mp hx]
          simp only [hcut, last_concat]

theorem replayedKeys_nil : ReplayedKeys [] {} :=
  ⟨nodup_nil, fun _ => Iff.rfl, fun _ h => absurd h not_mem_nil, fun _ h => absurd h not_mem_nil⟩

theorem dedup_length_le [DecidableEq α] {l l' : List α} (h : l ⊆ l') : l.dedup.length ≤ l'.dedup.length :=
  (l.nodup_dedup.subperm fun _ ha => mem_dedup.mpr (h (mem_dedup.mp ha))).length_le

theorem ReplayedKeys.foldl {r : Registry}
    (hr : ReplayedKeys keys₀ r) (h : List.Forall₂ RecordOf keys ls) (hids : ∀ k ∈ keys, IdOk k.1)
    (hroom : ((keys₀ ++ keys).map Prod.fst).dedup.length ≤ RETRACED_REGISTRY_MAX) :
    ReplayedKeys (keys₀ ++ keys) (ls.foldl replay_line r) := by
  induction h generalizing keys₀ r with
  | nil => rwa [append_nil]
  | @cons k l keys ls hl _ ih =>
    rw [append_cons] at hroom ⊢
    have hfirst : ((keys₀ ++ [k]).map Prod.fst).dedup.length ≤ RETRACED_REGISTRY_MAX :=
      (dedup_length_le (map_subset _ (subset_append_left _ _))).trans hroom
    exact ih (hr.line hl (hids k mem_cons_self) hfirst) (fun x hx => hids x (mem_cons_of_mem k hx)) hroom

def MintedId (a : Bytes) : Prop := ∃ pid counter, a = minted_id pid counter

theorem MintedId.idOk (h : MintedId a) : IdOk a := by
  obtain ⟨pid, counter, rfl⟩ := h
  refine ⟨?_, snprintf_length_lt (by decide) le_rfl _⟩
  rw [minted_id_eq]
  exact append_ne_nil_of_left_ne_nil (by decide) _

theorem MintedId.plain (h : MintedId a) : Plain a := by
  obtain ⟨pid, counter, rfl⟩ := h
  rw [minted_id_eq]
  have hdot : Plain (46 :: fmtNat counter.toNat) := (plain_cons _ _).mpr ⟨by decide, fmtNat_plain _⟩
  exact (plain_append _ _).mpr ⟨by decide, (plain_append _ _).mpr ⟨fmtInt_plain _, hdot⟩⟩

theorem MintedId.ne_daemon (h : MintedId a) : a ≠ daemon_id := by
  obtain ⟨pid, counter, rfl⟩ := h
  rw [minted_id_eq]
  intro heq
  have hhead := congrArg List.head? heq
  exact absurd hhead (by simp [bytes, daemon_id])

theorem idOk_daemon : IdOk daemon_id := ⟨by decide, by decide⟩

def DaemonOnly (es : List Effect) : Prop := ∀ a q ev, Effect.journal a q ev ∈ es → a = daemon_id

def DaemonKeys (ks : List (Bytes × UInt64)) : Prop := ∀ k ∈ ks, k.1 = daemon_id

theorem DaemonKeys.append (h : DaemonKeys ks) (h' : DaemonKeys ks') : DaemonKeys (ks ++ ks') :=
  fun k hk => (mem_append.mp hk).elim (h k) (h' k)

theorem daemonKeys_replicate : DaemonKeys (replicate n daemon_key) := by
  intro k hk
  rw [eq_of_mem_replicate hk]
  rfl

theorem DaemonKeys.filter (h : DaemonKeys ks) : ks.filter (·.1 ≠ daemon_id) = [] :=
  filter_eq_nil_iff.mpr fun k hk => by simpa using h k hk

section

variable (hclean : CleanPath path rot) (hbud : rot.budget_bytes = 0)
include hclean hbud

theorem Tracked.daemon_effects (hes : DaemonOnly es) (h : Tracked path rot p keys) (hok : RecordsOk now p es) :
    ∃ ks, DaemonKeys ks ∧ Tracked path rot (journal_effects now p es) (keys ++ ks) := by
  induction es generalizing p keys with
  | nil => exact ⟨[], fun _ hk => absurd hk not_mem_nil, by rwa [append_nil]⟩
  | cons e es ih =>
    have hrest : DaemonOnly es := fun a q ev he => hes a q ev (mem_cons_of_mem e he)
    obtain ⟨hrec, hok⟩ := hok
    cases e with
    | journal a q ev =>
      obtain ⟨hp, hexact, hseq⟩ := hrec
      obtain rfl := hes a q ev mem_cons_self
      obtain ⟨n, hn⟩ := h.event hclean hbud (by decide : Plain daemon_id) hexact hp hseq
      obtain ⟨ks, hks, htracked⟩ := ih hrest hn hok
      refine ⟨_, ?_, append_assoc keys _ ks ▸ htracked⟩
      refine DaemonKeys.append (DaemonKeys.append ?_ daemonKeys_replicate) hks
      intro k hk
      split_ifs at hk
      · rw [mem_singleton.mp hk]
      · exact absurd hk not_mem_nil
    | send io type payload => exact ih hrest h hok
    | reply line => exact ih hrest h hok

theorem Tracked.agent_effects (ha : Plain a) (hes : DaemonOnly es) (h : Tracked path rot p keys)
    (hok : RecordsOk now p (.journal a q ev :: es)) :
    ∃ ks, DaemonKeys ks ∧ Tracked path rot (journal_effects now p (.journal a q ev :: es))
      (keys ++ ((if journaled now p (.journal a q ev) then [(a, q)] else []) ++ ks)) := by
  obtain ⟨⟨hp, hexact, hseq⟩, hok⟩ := hok
  obtain ⟨n, hn⟩ := h.event hclean hbud ha hexact hp hseq
  obtain ⟨ks, hks, htracked⟩ := Tracked.daemon_effects hclean hbud hes hn hok
  refine ⟨replicate n daemon_key ++ ks, daemonKeys_replicate.append hks, ?_⟩
  have hkept : journaled now p (.journal a q ev) =
      decide ((retraced_journal_event p.1 p.2 now a q (some ev)).1 = 0) := rfl
  rw [hkept]
  simp only [decide_eq_true_eq]
  rwa [append_assoc, append_assoc] at htracked

end

def ConnOk (said : List Said) (c : Conn) : Prop :=
  (c.agent_id = [] ∧ c.helloed = false) ∨ (MintedId c.agent_id ∧ SaidHello said c.agent_id)

theorem ConnOk.mono (h : ConnOk said c) (more : List Said) : ConnOk (said ++ more) c :=
  h.imp id fun ⟨hm, pid, counter, hs⟩ => ⟨hm, pid, counter, mem_append_left more hs⟩

theorem daemonOnly_nil : DaemonOnly [] := fun _ _ _ h => absurd h not_mem_nil

theorem daemonOnly_daemon_record : DaemonOnly [daemon_record event] := by
  intro a q ev h
  rw [mem_singleton] at h
  cases h
  rfl

theorem DaemonOnly.append (h : DaemonOnly es) (h' : DaemonOnly es') : DaemonOnly (es ++ es') :=
  fun a q ev he => (mem_append.mp he).elim (h a q ev) (h' a q ev)

theorem DaemonOnly.send (h : DaemonOnly es) (io : Nat) (type : RpcMsg) (payload : Bytes) :
    DaemonOnly (.send io type payload :: es) :=
  fun a q ev he => (mem_cons.mp he).elim (fun heq => nomatch heq) (h a q ev)

theorem daemonOnly_resolve_session : DaemonOnly (resolve_session env reg k parent).2 := by
  unfold resolve_session
  dsimp only
  split_ifs
  · exact daemonOnly_nil
  all_goals exact daemonOnly_daemon_record

theorem handle_hello_spec (hconns : ∀ c ∈ d.ctl.conns, ConnOk said c) :
    DaemonOnly (handle_hello d i env payload).2 ∧ records (said_hello d payload) = [] ∧
      ∀ c ∈ (handle_hello d i env payload).1.ctl.conns, ConnOk (said ++ said_hello d payload) c := by
  unfold handle_hello said_hello
  cases hv : json_parse_string payload with
  | none => exact ⟨daemonOnly_nil, rfl, fun c hc => (hconns c hc).mono _⟩
  | some v =>
    dsimp only
    have hbound := fun reg k => @hello_bound_id
        (doubleToLong (json_object_get_number (json_value_get_object v) (bytes "pid")))
      (doubleToLong (json_object_get_number (json_value_get_object v) (bytes "ppid")))
      (jstr (json_value_get_object v) (bytes "session_token") RETRACED_SESSION_MAX)
      (jstr (json_value_get_object v) (bytes "cmdline") RETRACED_CMDLINE_MAX) reg k d.reg
    generalize retraced_registry_hello d.reg none _ _ _ _ = h at hbound ⊢
    obtain ⟨reg, k⟩ := h
    cases k with
    | none =>
      exact ⟨daemonOnly_nil, rfl, forall_modify (fun c hc => (hconns c hc).mono _) fun c hc _ =>
        (hconns c hc).mono _⟩
    | some k =>
      have hid := hbound _ _ rfl
      have hminted : MintedId (reg.agents.getD k {}).id := ⟨_, _, hid⟩
      dsimp only
      refine ⟨?_, rfl, forall_modify (forall_modify (fun c hc => (hconns c hc).mono _)
        fun c hc _ => (hconns c hc).mono _) fun c _ _ => .inr ?_⟩
      · refine DaemonOnly.append (DaemonOnly.append daemonOnly_resolve_session (DaemonOnly.send ?_ _ _ _))
          daemonOnly_daemon_record
        split
        · split_ifs
          · exact daemonOnly_nil
          · exact daemonOnly_nil.send _ _ _
        · exact daemonOnly_nil
      · dsimp only
        rw [snprintf_eq_self hminted.idOk.short]
        exact ⟨hminted, _, _, mem_append_right said mem_cons_self⟩

theorem daemonOnly_grade_event : DaemonOnly (grade_event env reg drift agent_id o).2 := by
  unfold grade_event
  dsimp only
  split_ifs
  · exact daemonOnly_daemon_record
  · exact daemonOnly_nil
  · exact daemonOnly_nil
  · exact daemonOnly_nil

def FrameRecords (s : Running) (i : Nat) (env : FrameEnv) (m : Message) : Prop :=
  (DaemonOnly (handle_agent_frame s.d i env m).2 ∧
      records (said_frame s i env m (handle_agent_frame s.d i env m).2) = []) ∨
    ∃ q ev es, (handle_agent_frame s.d i env m).2 = .journal (s.conn i).agent_id q ev :: es ∧ DaemonOnly es ∧
      (s.conn i).helloed = true ∧
      records (said_frame s i env m (.journal (s.conn i).agent_id q ev :: es)) =
        if journaled env.now (s.w, s.j) (.journal (s.conn i).agent_id q ev) then [((s.conn i).agent_id, q)] else []

theorem records_event : records [.event a q kept] = if kept then [(a, q)] else [] := by
  cases kept <;> rfl

theorem records_policy_ack : records [.policy_ack a kept] = if kept then [(a, 0)] else [] := by
  cases kept <;> rfl

def Running.handled (s : Running) (i : Nat) (env : FrameEnv) (m : Message) : Handled :=
  daemon_frame_handle env ⟨⟨(s.conn i).agent_id, (s.conn i).helloed, (s.conn i).spectator⟩, s.d.reg, s.d.drift, []⟩
    m.frame.type (agent_payload m) ((s.conn i).fd.getD 0)

theorem handle_agent_frame_out (s : Running) (i : Nat) (env : FrameEnv)
    (hne : m.frame.type ≠ RpcMsg.HELLO.id) : (handle_agent_frame s.d i env m).2 = (s.handled i env m).out := by
  unfold handle_agent_frame
  dsimp only
  rw [if_neg hne]
  split_ifs <;> rfl

theorem records_said_nothing (hne : m.frame.type ≠ RpcMsg.HELLO.id) : records (said_frame s i env m []) = [] := by
  unfold said_frame
  dsimp only
  rw [if_neg hne]
  split_ifs <;> rfl

theorem frame_records (hconn : ConnOk s.said (s.conn i))
    (hne : m.frame.type ≠ RpcMsg.HELLO.id) : FrameRecords s i env m := by
  have hagent : (s.conn i).helloed = true → (s.conn i).agent_id ≠ [] := by
    intro hh
    rcases hconn with ⟨-, hno⟩ | ⟨hminted, -⟩
    · rw [hno] at hh
      cases hh
    · exact hminted.idOk.ne
  unfold FrameRecords
  rw [handle_agent_frame_out s i env hne]
  have hnothing : (s.handled i env m).out = [] → (DaemonOnly (s.handled i env m).out ∧
      records (said_frame s i env m (s.handled i env m).out) = []) := by
    intro h
    rw [h]
    exact ⟨daemonOnly_nil, records_said_nothing hne⟩
  unfold Running.handled at hnothing ⊢
  unfold daemon_frame_handle at hnothing ⊢
  by_cases hheartbeat : m.frame.type = RpcMsg.HEARTBEAT.id
  · rw [if_pos hheartbeat] at hnothing ⊢
    refine .inl (hnothing ?_)
    unfold frame_heartbeat
    split_ifs
    · rfl
    · split <;> rfl
  · rw [if_neg hheartbeat] at hnothing ⊢
    by_cases hevent : m.frame.type = RpcMsg.EVENT.id
    · rw [if_pos hevent] at hnothing ⊢
      unfold frame_event at hnothing ⊢
      by_cases hh : (s.conn i).helloed = true
      · have hh' : ¬(!(s.conn i).helloed) = true := by simp [hh]
        simp only [if_neg hh'] at hnothing ⊢
        cases hv : json_parse_string (agent_payload m) with
        | none =>
          simp only [hv] at hnothing ⊢
          exact .inl (hnothing trivial)
        | some v =>
          simp only [nil_append]
          refine .inr ⟨_, _, _, rfl, daemonOnly_grade_event, hh, ?_⟩
          unfold said_frame
          simp only [if_neg hne, if_neg (hagent hh), if_neg hheartbeat, if_pos hevent, hv,
            Option.bind_some, records_event]
      · simp only [if_pos (show (!(s.conn i).helloed) = true by simpa using hh)] at hnothing ⊢
        exact .inl (hnothing trivial)
    · rw [if_neg hevent] at hnothing ⊢
      by_cases hack : m.frame.type = RpcMsg.POLICY_ACK.id
      · rw [if_pos hack] at hnothing ⊢
        unfold frame_policy_ack at hnothing ⊢
        by_cases hh : (s.conn i).helloed = true
        · have hh' : ¬(!(s.conn i).helloed) = true := by simp [hh]
          simp only [if_neg hh', nil_append]
          refine .inr ⟨_, _, _, rfl, daemonOnly_nil, hh, ?_⟩
          unfold said_frame
          simp only [if_neg hne, if_neg (hagent hh), if_neg hheartbeat, if_neg hevent, if_pos hack,
            records_policy_ack]
        · simp only [if_pos (show (!(s.conn i).helloed) = true by simpa using hh)] at hnothing ⊢
          exact .inl (hnothing trivial)
      · rw [if_neg hack] at hnothing ⊢
        left
        split_ifs at hnothing ⊢
        · refine ⟨daemonOnly_nil.send _ _ _, ?_⟩
          unfold said_frame
          dsimp only
          rw [if_neg hne]
          split_ifs <;> rfl
        · exact hnothing rfl
        · exact hnothing rfl

theorem frame_conns (s : Running) (i : Nat) (env : FrameEnv) (hne : m.frame.type ≠ RpcMsg.HELLO.id)
    (hconns : ∀ c ∈ s.d.ctl.conns, ConnOk said c) :
    ∀ c ∈ (handle_agent_frame s.d i env m).1.ctl.conns, ConnOk said c := by
  have hhandled : (handle_agent_frame s.d i env m).1.ctl.conns =
      if m.frame.type = RpcMsg.BYE.id ∨ m.frame.type = RpcMsg.PING.id then
        s.d.ctl.conns.modify i ({ · with helloed := (s.handled i env m).st.helloed })
      else s.d.ctl.conns := by
    unfold handle_agent_frame
    dsimp only
    rw [if_neg hne]
    split_ifs <;> rfl
  rw [hhandled]
  split_ifs with htype
  · refine forall_modify hconns fun y hmem hy => ?_
    -- The flag is cleared by a bye, and stays as it is otherwise.
    have hconn : s.conn i = y := by rw [Running.conn, getD_eq_getElem?_getD, hy, Option.getD_some]
    have hflag : (s.handled i env m).st.helloed = false ∨ (s.handled i env m).st.helloed = y.helloed := by
      unfold Running.handled daemon_frame_handle
      rcases htype with htype | htype
      · left
        simp only [htype]
        rfl
      · right
        simp only [htype, hconn]
        rfl
    refine (hconns y hmem).imp (fun ⟨hid, hno⟩ => ⟨hid, ?_⟩) id
    exact hflag.elim id fun h => h.trans hno
  · exact hconns

/-- The journal of a run holds the records that were said to be in it, and records of the daemon. -/
structure RunInv (path : Bytes) (rot : Rotation) (s : Running) (keys : List (Bytes × UInt64)) : Prop where
  tracked : Tracked path rot (s.w, s.j) keys
  agents : keys.filter (·.1 ≠ daemon_id) = records s.said
  conns : ∀ c ∈ s.d.ctl.conns, ConnOk s.said c
  hellos : ∀ k ∈ records s.said, MintedId k.1 ∧ SaidHello s.said k.1

section

theorem RunInv.daemon (h : RunInv path rot s keys) (hks : DaemonKeys ks)
    (htracked : Tracked path rot p (keys ++ ks))
    (hconns : ∀ c ∈ d.ctl.conns, ConnOk s.said c) :
    RunInv path rot { s with d := d, w := p.1, j := p.2 } (keys ++ ks) := by
  refine ⟨htracked, ?_, hconns, h.hellos⟩
  rw [filter_append, hks.filter, append_nil]
  exact h.agents

variable (hclean : CleanPath path rot) (hbud : rot.budget_bytes = 0)
include hclean hbud

/-- What the daemon journals on its own adds records of the daemon only. -/
theorem RunInv.after (h : RunInv path rot s keys) (hes : DaemonOnly es)
    (hok : RecordsOk now (s.w, s.j) es) (hconns : ∀ c ∈ d.ctl.conns, ConnOk s.said c) :
    ∃ ks, RunInv path rot (s.after now d es) ks := by
  obtain ⟨ks, hks, htracked⟩ := Tracked.daemon_effects hclean hbud hes h.tracked hok
  exact ⟨_, h.daemon hks htracked hconns⟩

omit hclean hbud in
theorem RunInv.conn (h : RunInv path rot s keys) (i : Nat) : ConnOk s.said (s.conn i) := by
  rw [Running.conn, getD_eq_getElem?_getD]
  cases hc : s.d.ctl.conns[i]? with
  | none => exact .inl ⟨rfl, rfl⟩
  | some c => exact h.conns c (mem_of_getElem? hc)

omit hclean hbud in
theorem RunInv.more (h : RunInv path rot s keys) (htracked : Tracked path rot p (keys ++ ks))
    (hrecords : ks.filter (·.1 ≠ daemon_id) = records said) (hconns : ∀ c ∈ d.ctl.conns, ConnOk (s.said ++ said) c)
    (hhellos : ∀ k ∈ records said, MintedId k.1 ∧ SaidHello (s.said ++ said) k.1) :
    RunInv path rot { d := d, w := p.1, j := p.2, said := s.said ++ said } (keys ++ ks) := by
  have happend : records (s.said ++ said) = records s.said ++ records said := filterMap_append
  refine ⟨htracked, ?_, hconns, fun k hk => ?_⟩
  · rw [filter_append, h.agents, hrecords, happend]
  · rw [happend, mem_append] at hk
    rcases hk with hk | hk
    · obtain ⟨hm, pid, counter, hs⟩ := h.hellos k hk
      exact ⟨hm, pid, counter, mem_append_left said hs⟩
    · exact hhellos k hk

theorem RunInv.frame (h : RunInv path rot s keys)
    (hok : RecordsOk env.now (s.w, s.j) (handle_agent_frame s.d i env m).2) :
    ∃ ks, RunInv path rot
      { s.after env.now (handle_agent_frame s.d i env m).1 (handle_agent_frame s.d i env m).2 with
      said := s.said ++ said_frame s i env m (handle_agent_frame s.d i env m).2 } ks := by
  by_cases hhello : m.frame.type = RpcMsg.HELLO.id
  · have hframe : handle_agent_frame s.d i env m = handle_hello s.d i env (agent_payload m) := by
      unfold handle_agent_frame
      dsimp only
      rw [if_pos hhello]
    have hsaid : ∀ es, said_frame s i env m es = said_hello s.d (agent_payload m) := by
      intro es
      unfold said_frame
      dsimp only
      rw [if_pos hhello]
    rw [hframe] at hok ⊢
    obtain ⟨hes, hrecords, hconns⟩ := handle_hello_spec h.conns
    obtain ⟨ks, hks, htracked⟩ := Tracked.daemon_effects hclean hbud hes h.tracked hok
    rw [hsaid]
    refine ⟨_, h.more htracked (by rw [hks.filter, hrecords]) hconns ?_⟩
    rw [hrecords]
    exact fun k hk => absurd hk not_mem_nil
  · have hconns := frame_conns s i env hhello h.conns
    rcases frame_records (h.conn i) hhello with ⟨hes, hrecords⟩ | ⟨q, ev, es, hout, hes, hh, hrecords⟩
    · obtain ⟨ks, hks, htracked⟩ := Tracked.daemon_effects hclean hbud hes h.tracked hok
      refine ⟨_, h.more htracked (by rw [hks.filter, hrecords]) (fun c hc => (hconns c hc).mono _) ?_⟩
      rw [hrecords]
      exact fun k hk => absurd hk not_mem_nil
    · rw [hout] at hok ⊢
      -- The agent of a slot that said hello has a minted id.
      have hagent : MintedId (s.conn i).agent_id ∧ SaidHello s.said (s.conn i).agent_id := by
        refine (h.conn i).resolve_left fun hno => ?_
        rw [hno.2] at hh
        cases hh
      obtain ⟨ks, hks, htracked⟩ := Tracked.agent_effects hclean hbud hagent.1.plain hes h.tracked hok
      refine ⟨_, h.more htracked ?_ (fun c hc => (hconns c hc).mono _) ?_⟩
      · rw [hrecords, filter_append, hks.filter, append_nil]
        split_ifs
        · exact filter_cons_of_pos (by simpa using hagent.1.ne_daemon)
        · rfl
      · rw [hrecords]
        intro k hk
        split_ifs at hk
        · rw [mem_singleton.mp hk]
          obtain ⟨hm, pid, counter, hs⟩ := hagent
          exact ⟨hm, pid, counter, mem_append_left _ hs⟩
        · exact absurd hk not_mem_nil

omit hclean hbud in
theorem daemonOnly_summaries : DaemonOnly (daemon_frame_drift_summaries reg).2 := by
  intro a q ev h
  obtain ⟨e, -, heq⟩ := mem_map.mp h
  cases heq
  rfl

omit hclean hbud in
theorem daemonOnly_ctl_reply : DaemonOnly (ctl_reply text) := by
  unfold ctl_reply
  split_ifs
  · exact daemonOnly_nil
  · exact fun a q ev h => nomatch mem_singleton.mp h

omit hclean hbud in
theorem daemonOnly_policy_installed : DaemonOnly (policy_installed c blob epoch name cap) := by
  have hpush : DaemonOnly (retraced_ctl_push_policy c blob) := by
    intro a q ev h
    obtain ⟨conn, -, heq⟩ := mem_filterMap.mp h
    split at heq
    · split_ifs at heq
      cases heq
    · cases heq
  exact (hpush.append daemonOnly_daemon_record).append daemonOnly_ctl_reply

omit hclean hbud in
theorem daemonOnly_policy_verb : DaemonOnly (policy_verb c v).2 := by
  cases v with
  | push line =>
    simp only [policy_verb, verb_policy_push]
    split
    · dsimp only
      exact daemonOnly_ctl_reply
    · split
      · dsimp only
        exact daemonOnly_ctl_reply
      · exact daemonOnly_policy_installed
  | freeze => exact daemonOnly_policy_installed
  | thaw => exact daemonOnly_policy_installed

theorem RunInv.next (h : RunInv path rot s keys) (hok : InputOk s x) : ∃ ks, RunInv path rot (s.next x) ks := by
  unfold Running.next
  cases x with
  | accept fd =>
    refine ⟨keys, h.tracked, h.agents, fun c hc => ?_, h.hellos⟩
    simp only [Running.step, accept_conn] at hc
    split at hc
    · exact forall_modify h.conns (fun _ _ _ => .inl ⟨rfl, rfl⟩) c hc
    · exact h.conns c hc
  | frame i env m =>
    unfold InputOk at hok
    simp only [Running.step, Input.now] at hok ⊢
    split_ifs at hok ⊢
    · exact ⟨keys, h⟩
    · exact h.frame hclean hbud hok
  | hangup i now =>
    unfold InputOk at hok
    simp only [Running.step, Input.now] at hok ⊢
    split_ifs at hok ⊢
    · exact ⟨keys, h⟩
    · have hconns : ∀ c ∈ (s.d.set_conn i ({ · with fd := none, io := none })).ctl.conns, ConnOk s.said c :=
        forall_modify h.conns fun c hc _ => h.conns c hc
      obtain ⟨ks, hks⟩ := RunInv.after hclean hbud h daemonOnly_summaries hok hconns
      exact ⟨ks, hks.tracked.flush, hks.agents, hks.conns, hks.hellos⟩
  | invalid i =>
    simp only [Running.step]
    split_ifs
    · exact ⟨keys, h⟩
    · exact ⟨keys, h.tracked, h.agents, forall_modify h.conns fun c hc _ =>
        (h.conns c hc).imp (fun hno => ⟨hno.1, rfl⟩) id, h.hellos⟩
  | verb now v =>
    have hconns : (policy_verb s.d.ctl v).1.conns = s.d.ctl.conns := policyStep_conns s.d.ctl v
    exact RunInv.after hclean hbud h daemonOnly_policy_verb hok fun c hc => h.conns c (hconns ▸ hc)
  | sweep now_ms now => exact RunInv.after hclean hbud h daemonOnly_summaries hok h.conns
  | record now event => exact RunInv.after hclean hbud h daemonOnly_daemon_record hok h.conns

end

section

variable {cfg : Config} (hfresh : Fresh fs (journal_base path)) (hclean : CleanPath path cfg.rot)
include hfresh

theorem boot_fresh_lines (rot : Rotation) (now : Int64) : (journal_boot path ⟨fs, []⟩ rot now).j.lines = 0 := by
  cases hrot : rot.enabled with
  | true =>
    have hnone : retraced_journal_segment_lo fs (journal_base path)
        (resolve_segment fs (journal_base path) 9999 0) = none := by
      simp [retraced_journal_segment_lo, segment_exists, hfresh.2]
    rw [journal_boot_rotating hrot now rfl]
    simp only [hnone]
    rfl
  | false =>
    rw [journal_boot_single hrot now]
    simp only [hfresh.1, Option.isNone_none, if_true]
    rfl

omit hfresh in
theorem payloadOk_gate_unavailable :
    PayloadOk (some (bytes "\x7b\"name\":\"retrace.auth.gate_unavailable\"\x7d")) :=
  payloadOk_name (bytes "retrace.auth.gate_unavailable") (by decide) (by decide)

theorem main_boot_fresh (h : main_boot path ⟨fs, []⟩ cfg.rot cfg.opened_at = some s) :
    s = journal_boot path ⟨fs, []⟩ cfg.rot cfg.opened_at := by
  have hlines := boot_fresh_lines hfresh cfg.rot cfg.opened_at
  unfold main_boot at h
  dsimp only at h
  generalize journal_boot path ⟨fs, []⟩ cfg.rot cfg.opened_at = s₀ at *
  split_ifs at h with h1 h2
  · rw [hlines] at h2
    exact absurd h2.2.1 (by decide)
  · exact (Option.some.inj h).symm

include hclean

/-- A daemon that booted on a new journal meets the invariant of its run. -/
theorem runInv_boot (hbud : cfg.rot.budget_bytes = 0) (hboot : daemon_boot path ⟨fs, []⟩ [] cfg = .up s) :
    ∃ keys, RunInv path cfg.rot s keys := by
  unfold daemon_boot at hboot
  split at hboot
  · cases hboot
  · next s₀ hmain =>
    have htracked := tracked_fresh hfresh hclean cfg.opened_at
    rw [← main_boot_fresh hfresh hmain] at htracked
    split at hboot
    · cases hboot
    · next ctl hctl =>
      have hconns : ctl.conns = replicate MAX_AGENTS {} := by
        unfold boot_policy at hctl
        split at hctl
        · rw [← Option.some.inj hctl]
        · unfold load_policy at hctl
          split_ifs at hctl
          split at hctl
          · cases hctl
          · rw [← Option.some.inj hctl]
      have hstart : RunInv path cfg.rot
          { d := { ctl := ctl, reg := s₀.r, nonce := cfg.nonce }, w := s₀.w, j := s₀.j, said := [] } [] := by
        refine ⟨htracked, rfl, fun c hc => ?_, fun k hk => absurd hk not_mem_nil⟩
        rw [hconns] at hc
        rw [eq_of_mem_replicate hc]
        exact .inl ⟨rfl, rfl⟩
      dsimp only at hboot
      split_ifs at hboot
      · cases hboot
        exact ⟨[], hstart⟩
      · cases hboot
        refine RunInv.after hclean hbud hstart daemonOnly_daemon_record
          ⟨⟨?_, by decide +kernel, ?_⟩, trivial⟩ hstart.conns
        · exact payloadOk_gate_unavailable
        · obtain ⟨-, -, hrep⟩ := @boot_fresh ⟨fs, []⟩ path cfg.rot hfresh hclean.base_short cfg.opened_at
          have hzero : s₀.j.segment_seq = 0 := by
            rw [main_boot_fresh hfresh hmain]
            exact hrep.seq
          have hle := (event_segment_seq s₀.w s₀.j cfg.opened_at daemon_id 0
            (some (bytes "\x7b\"name\":\"retrace.auth.gate_unavailable\"\x7d"))).2
          rw [hzero] at hle
          exact lt_of_le_of_lt hle (by norm_num)

end

section

variable {said : List Said} {r : Registry}

structure ReplayedSaid (said : List Said) (r : Registry) : Prop where
  mem : ∀ a, a ∈ r.ids ↔ a = daemon_id ∨ Journaled said a
  live : ∀ e ∈ r.agents, e.state = .live
  last : ∀ e ∈ r.agents, e.id ≠ daemon_id → last_record said e.id = some e.last_seq
  hellos : ∀ a, Journaled said a → a ≠ daemon_id ∧ SaidHello said a

theorem find_isSome {r : Registry} : (retraced_registry_find r a).isSome ↔ a ∈ r.ids := by
  rw [← not_iff_not, Option.not_isSome_iff_eq_none, find_eq_none]

theorem ReplayedSaid.not_rebuilds (h : ReplayedSaid said r) : ¬Rebuilds (fun _ => True) said r := by
  intro hr
  have hfound : (retraced_registry_find r daemon_id).isSome := find_isSome.mpr ((h.mem daemon_id).mpr (.inl rfl))
  have hjournaled := ((hr.ids daemon_id trivial).mp hfound).2
  exact (h.hellos daemon_id hjournaled).1 rfl

theorem journaled_of_last_event (h : last_event said a = some q) : Journaled said a := by
  have hmem := mem_of_getLast? h
  obtain ⟨x, hx, heq⟩ := mem_filterMap.mp hmem
  refine mem_map.mpr ⟨(a, q), mem_filterMap.mpr ⟨x, hx, ?_⟩, rfl⟩
  split at heq
  · split_ifs at heq with hid
    rw [← hid, ← Option.some.inj heq]
    rfl
  · cases heq

theorem ReplayedSaid.rebuilds_iff (h : ReplayedSaid said r) : Rebuilds (· ≠ daemon_id) said r ↔
      (∀ a, Journaled said a → ¬SaidBye said a) ∧ ∀ a q, last_event said a = some q →
        last_record said a = some q := by
  -- Every agent in the journal has an entry.
  have hentry : ∀ a, Journaled said a → ∃ e ∈ r.agents, e.id = a := fun a ha =>
    mem_map.mp ((h.mem a).mpr (.inr ha))
  constructor
  · intro hr
    refine ⟨fun a ha hbye => ?_, fun a q hq => ?_⟩
    · obtain ⟨e, he, rfl⟩ := hentry a ha
      have hgone := hr.gone e he (h.hellos _ ha).1 hbye
      rw [h.live e he] at hgone
      cases hgone
    · have ha := journaled_of_last_event hq
      obtain ⟨e, he, rfl⟩ := hentry a ha
      rw [h.last e he (h.hellos _ ha).1, hr.seq e he (h.hellos _ ha).1 q hq]
  · rintro ⟨hbye, hseq⟩
    refine ⟨fun a ha => ?_, fun e he hid hb => ?_, fun e he hid q hq => ?_⟩
    · rw [find_isSome, h.mem]
      exact ⟨fun hm => ⟨(h.hellos a (hm.resolve_left ha)).2, hm.resolve_left ha⟩, fun hm => .inr hm.2⟩
    · exact absurd hb (hbye e.id (((h.mem e.id).mp (mem_ids he)).resolve_left hid))
    · have hlast := h.last e he hid
      rw [hseq e.id q hq] at hlast
      exact (Option.some.inj hlast).symm

theorem filter_agent (hagents : keys.filter (·.1 ≠ daemon_id) = records said) (ha : a ≠ daemon_id) :
    keys.filter (·.1 = a) = (records said).filter (·.1 = a) := by
  rw [← hagents, filter_filter]
  refine filter_congr fun k _ => ?_
  by_cases hk : k.1 = a
  · simp [hk, ha]
  · simp [hk]

theorem replayedSaid_of_keys (hkeys : List.Forall₂ RecordOf keys ls) (hdaemon : daemon_key ∈ keys)
    (hagents : keys.filter (·.1 ≠ daemon_id) = records said)
    (hhellos : ∀ k ∈ records said, MintedId k.1 ∧ SaidHello said k.1)
    (hroom : ((records said).map Prod.fst).dedup.length < RETRACED_REGISTRY_MAX) :
    ReplayedSaid said (ls.foldl replay_line {}) := by
  have hmem : ∀ a, a ∈ keys.map Prod.fst ↔ a = daemon_id ∨ Journaled said a := by
    intro a
    by_cases ha : a = daemon_id
    · rw [ha]
      exact ⟨fun _ => .inl rfl, fun _ => mem_map.mpr ⟨daemon_key, hdaemon, rfl⟩⟩
    · rw [Journaled, ← hagents, mem_map, mem_map]
      constructor
      · rintro ⟨k, hk, rfl⟩
        exact .inr ⟨k, mem_filter.mpr ⟨hk, by simpa using ha⟩, rfl⟩
      · rintro (h | ⟨k, hk, rfl⟩)
        · exact absurd h ha
        · exact ⟨k, (mem_filter.mp hk).1, rfl⟩
  have hjournaled : ∀ a, Journaled said a → MintedId a ∧ SaidHello said a := by
    intro a ha
    obtain ⟨k, hk, rfl⟩ := mem_map.mp ha
    exact hhellos k hk
  have hids : ∀ k ∈ keys, IdOk k.1 := by
    intro k hk
    rcases (hmem k.1).mp (mem_map_of_mem hk) with h | h
    · rw [h]
      exact idOk_daemon
    · exact (hjournaled k.1 h).1.idOk
  have htotal : (([] ++ keys).map Prod.fst).dedup.length ≤ RETRACED_REGISTRY_MAX := by
    have hsub : keys.map Prod.fst ⊆ daemon_id :: (records said).map Prod.fst := fun a ha =>
      mem_cons.mpr ((hmem a).mp ha)
    have hle := dedup_length_le hsub
    have hcons : (daemon_id :: (records said).map Prod.fst).dedup.length ≤
        ((records said).map Prod.fst).dedup.length + 1 := by
      by_cases hin : daemon_id ∈ (records said).map Prod.fst
      · rw [dedup_cons_of_mem hin]
        omega
      · rw [dedup_cons_of_notMem hin, length_cons]
    rw [nil_append]
    omega
  have hr := replayedKeys_nil.foldl hkeys hids htotal
  rw [nil_append] at hr
  refine ⟨fun a => (hr.mem a).trans (hmem a), hr.live, fun e he hid => ?_, fun a ha => ?_⟩
  · rw [last_record, ← filter_agent hagents hid]
    exact hr.last e he
  · exact ⟨(hjournaled a ha).1.ne_daemon, (hjournaled a ha).2⟩

end

/-- In every run on a new journal without retention whose records can all be read back, the next boot does
not rebuild the registry, for it takes the daemon for an agent; apart from that entry it does exactly if no
agent in the journal said bye last and the last record of each is its last event. -/
theorem replay_rebuilds_iff {C : Crypto} (hC : EncodesBase64 C) {path : Bytes} {cfg : Config}
    (hclean : CleanPath path cfg.rot) (hbud : cfg.rot.budget_bytes = 0) {fs : FS}
      (hfresh : Fresh fs (journal_base path))
    {s₀ : Running} (hboot : daemon_boot path ⟨fs, []⟩ [] cfg = .up s₀) {xs : List Input}
    (hxs : Along Running.next InputOk s₀ xs) {s : Running} (hs : s = run Running.next s₀ xs)
    {closed_at sealed_at : Int64} {signing_key : Option Path}
      (hend : ShutdownOk C s closed_at sealed_at signing_key)
    {rot : Rotation} (hrot : rot.enabled = cfg.rot.enabled) (opened_at : Int64) {r : Registry}
    (hr : r = (journal_boot path (s.stop C (.graceful closed_at sealed_at signing_key)) rot opened_at).r) :
    ¬Rebuilds (fun _ => True) s.said r ∧
      (Rebuilds (· ≠ daemon_id) s.said r ↔
        (∀ a, Journaled s.said a → ¬SaidBye s.said a) ∧
          ∀ a q, last_event s.said a = some q → last_record s.said a = some q) := by
  have hrun : ∃ keys, RunInv path cfg.rot s keys := by
    rw [hs]
    exact run_invariant (fun s => ∃ keys, RunInv path cfg.rot s keys)
      (fun s x ⟨_, h⟩ hok => h.next hclean hbud hok)
      (runInv_boot hfresh hclean hbud hboot) hxs
  obtain ⟨keys, hkeys⟩ := hrun
  obtain ⟨keys', hsummarised⟩ :=
      RunInv.after hclean hbud hkeys (d := { s.d with reg := (daemon_frame_drift_summaries s.d.reg).1 })
    daemonOnly_summaries hend.summaries hkeys.conns
  obtain ⟨n, S, ⟨hst, hlo, hgen, hlines⟩, hrecords⟩ := Tracked.stop hclean hbud hC
    (s := ⟨(s.summarised closed_at).w, (s.summarised closed_at).j, (s.summarised closed_at).d.reg, 0⟩)
    hsummarised.tracked hend.close
  have hlinks := hend.links
  -- What the shutdown leaves is read back whole.
  have hstop : (Session.stop C ⟨(s.summarised closed_at).w, (s.summarised closed_at).j,
      (s.summarised closed_at).d.reg, 0⟩
      (.graceful closed_at sealed_at signing_key)).1 = s.stop C (.graceful closed_at sealed_at signing_key) := rfl
  rw [hstop] at hst hlines hrecords
  rw [← hlines] at hlinks hrecords
  rw [← hrot] at hst
  have hregistry := (boot_reads_back hst (by omega) hgen hlinks opened_at).2
  rw [← hr] at hregistry
  have hagents : (keys' ++ replicate (n + 1) daemon_key).filter (·.1 ≠ daemon_id) = records s.said := by
    rw [filter_append, daemonKeys_replicate.filter, append_nil]
    exact hsummarised.agents
  have hreplayed := replayedSaid_of_keys hrecords (mem_append_right _ (mem_replicate.mpr ⟨by omega, rfl⟩)) hagents
    hsummarised.hellos hend.room
  rw [← hregistry] at hreplayed
  exact ⟨hreplayed.not_rebuilds, hreplayed.rebuilds_iff⟩

def History.running : History → Running
  | .up s => s
  | .down w said => { d := { ctl := { conns := [], scopes := 0 }, nonce := [] }, w := w, j := {}, said := said }

def first_boot : History := daemon_boot (bytes "j") ⟨fun _ => none, []⟩ [] { opened_at := 0, nonce := [] }

theorem first_boot_up : first_boot = .up first_boot.running := by
  have h : (match first_boot with | .up _ => true | .down _ _ => false) = true := by decide +kernel
  cases hb : first_boot with
  | up s => rfl
  | down w said =>
    rw [hb] at h
    cases h

def hello_event : List Input :=
  [.accept 3, .frame 0 quiet_env (agent_frame .HELLO (bytes "\x7b\"pid\":7\x7d")),
    .frame 0 quiet_env (agent_frame .EVENT (bytes "\x7b\"seq\":5\x7d"))]

theorem replay_rebuilds_event :
    Rebuilds (· ≠ daemon_id) (run Running.next first_boot.running hello_event).said
      (journal_boot (bytes "j") ((run Running.next first_boot.running hello_event).stop noCrypto
        (.graceful 0 0 none)) {} 0).r := by
  have hclean : CleanPath (bytes "j") ({ opened_at := 0, nonce := [] } : Config).rot :=
    ⟨fun h => absurd h (by decide), fun h => absurd h (by decide), fun h => absurd h (by decide)⟩
  have hend : ShutdownOk noCrypto (run Running.next first_boot.running hello_event) 0 0 none := by
    refine ⟨?_, ⟨?_, ?_⟩, ?_, ?_⟩ <;> decide +kernel
  have hxs : Along Running.next InputOk first_boot.running hello_event := by decide +kernel
  have hsaid : (run Running.next first_boot.running hello_event).said =
      [.hello (bytes "boot.7.1") 7 0, .event (bytes "boot.7.1") 5 true] := by
    decide +kernel
  refine (replay_rebuilds_iff (C := noCrypto) (fun sig c hc => absurd hc not_mem_nil) hclean rfl
    ⟨rfl, fun _ => rfl⟩
    first_boot_up hxs rfl hend rfl 0 rfl).2.mpr ⟨fun a ha hbye => ?_, fun a q hq => ?_⟩
  · rw [hsaid] at ha hbye
    obtain rfl : a = bytes "boot.7.1" := mem_singleton.mp ha
    exact absurd hbye (by decide)
  · rw [hsaid] at hq ⊢
    obtain rfl : a = bytes "boot.7.1" := mem_singleton.mp (journaled_of_last_event hq)
    rw [← hq]
    decide

def hello_bye : List Input :=
  hello_event ++ [.frame 0 quiet_env (agent_frame .POLICY_ACK (bytes "\x7b\x7d")),
    .frame 0 quiet_env (agent_frame .BYE (bytes "\x7b\x7d"))]

def rebuilt_bye : Registry :=
  (journal_boot (bytes "j")
    ((run Running.next first_boot.running hello_bye).stop noCrypto (.graceful 0 0 none)) {} 0).r

theorem rebuilt_bye_agents :
    rebuilt_bye.agents.map (fun e => (e.id, e.state, e.last_seq)) =
      [(daemon_id, .live, 0), (bytes "boot.7.1", .live, 0)] := by
  decide +kernel

/-- The agent that said bye is live again at the next boot, the number of its event is lost, and the daemon
is one of the agents. -/
theorem not_replay_rebuilds :
    ¬∀ (C : Crypto) (path : Bytes) (cfg : Config) (fs : FS) (s₀ : Running)
      (xs : List Input) (closed_at sealed_at : Int64)
      (signing_key : Option Path) (opened_at : Int64), Fresh fs (journal_base path) →
      daemon_boot path ⟨fs, []⟩ [] cfg = .up s₀ → Rebuilds (fun _ => True) (run Running.next s₀ xs).said
        (journal_boot path ((run Running.next s₀ xs).stop C
          (.graceful closed_at sealed_at signing_key)) cfg.rot opened_at).r := by
  intro h
  have hr : Rebuilds (fun _ => True) (run Running.next first_boot.running hello_bye).said rebuilt_bye :=
    h noCrypto (bytes "j") { opened_at := 0, nonce := [] } (fun _ => none) _ hello_bye 0 0 none 0
      ⟨rfl, fun _ => rfl⟩ first_boot_up
  have hbye : SaidBye (run Running.next first_boot.running hello_bye).said (bytes "boot.7.1") := by decide +kernel
  have hmem : (bytes "boot.7.1", AgentState.live, (0 : UInt64)) ∈
      rebuilt_bye.agents.map (fun e => (e.id, e.state, e.last_seq)) := by
    rw [rebuilt_bye_agents]
    exact mem_cons_of_mem _ mem_cons_self
  obtain ⟨e, he, heq⟩ := mem_map.mp hmem
  obtain ⟨hid, hstate⟩ := Prod.mk.inj heq
  have hgone := hr.gone e he trivial (hid ▸ hbye)
  rw [(Prod.mk.inj hstate).1] at hgone
  cases hgone

end Retrace.Retraced
