import Retrace.Supervisor.Queue
import Retrace.Supervisor.Proofs.ProtocolProofs

/-!
# What becomes of the events in the queue
-/

namespace Retrace.Supervisor.Queue

open CLib Rpc Circular Runs List Option

variable {g : AgentState} {item : Bytes} {l : Ledger}

theorem texts_length (r : AgentRing) : r.texts.length = r.ring.count := by
  rw [AgentRing.texts, length_map, Buffer.items_length]

theorem peek_texts : agent_ring_peek r = r.texts.head? := by
  rw [agent_ring_peek, Buffer.peek_eq, AgentRing.texts, head?_map]

theorem texts_pop : (agent_ring_pop r).texts = r.texts.tail := by
  rw [AgentRing.texts, agent_ring_pop, Buffer.items_pop, AgentRing.texts, map_tail]

theorem cstr_fill {slot slot' : Slot} (hitem : 0 ∉ item)
    (hheap : ∀ h ∈ heap_item, h = item ++ [0]) (h : slot.fill heap_item item item.length ok = some slot') :
    cstr slot'.view = item := by
  have hstr : ∀ t, cstr (item ++ 0 :: t) = item := fun t => by
    rw [cstr_append hitem, cstr_zero_cons, append_nil]
  unfold Slot.fill at h
  cases heap_item with
  | some m =>
    cases h
    rw [hheap m rfl]
    exact hstr []
  | none =>
    simp only at h
    split_ifs at h with hshort hok
    · cases h
      show cstr (memcpy slot.buf 0 (item.take item.length ++ [0])) = item
      rw [memcpy, take_zero, nil_append, take_length, append_assoc]
      exact hstr _
    · cases h
      show cstr (item.take item.length ++ [0]) = item
      rw [take_length]
      exact hstr []

theorem ring_push_cases (r : AgentRing) (hitem : 0 ∉ item) (hheap : ∀ h ∈ heap_item, h = item ++ [0]) (ok : Bool) :
    ((ring_push r heap_item item item.length ok).1 = 0 ∧
        (ring_push r heap_item item item.length ok).2.texts = r.texts ++ [item] ∧
        (ring_push r heap_item item item.length ok).2.dropped = r.dropped) ∨
      ((ring_push r heap_item item item.length ok).1 = -1 ∧
        (ring_push r heap_item item item.length ok).2.texts = r.texts ∧
        (ring_push r heap_item item item.length ok).2.dropped = r.dropped + 1) := by
  unfold ring_push
  split
  · next hroom =>
    cases hfill : (r.ring.slots (r.ring.index r.ring.count)).fill heap_item item item.length ok with
    | some slot =>
      simp only [hfill]
      refine .inl ⟨trivial, ?_, trivial⟩
      simp only [AgentRing.texts, Buffer.items_push, map_append, map_singleton, cstr_fill hitem hheap hfill]
    | none =>
      simp only [hfill]
      refine .inr ⟨trivial, ?_, trivial⟩
      simp only [AgentRing.texts, Buffer.items_spoil _ _ hroom]
  · exact .inr ⟨rfl, rfl, rfl⟩

theorem queue_push_cases (g : AgentState) (heap : Bool) (text : Bytes) (ok : Bool) :
    ∃ rc r, queue_push g heap text ok = (rc, { g with ring := r }) ∧
      ((rc = 0 ∧ r.texts = g.ring.texts ++ [cstr text] ∧ r.dropped = g.ring.dropped) ∨
        (rc = -1 ∧ r.texts = g.ring.texts ∧ r.dropped = g.ring.dropped + 1)) := by
  refine ⟨_, _, rfl, ?_⟩
  cases heap with
  | false => exact ring_push_cases g.ring (not_mem_zero_cstr text) (fun _ h => absurd h (not_mem_none _)) ok
  | true => exact ring_push_cases g.ring (not_mem_zero_cstr text) (fun _ h => (some.inj h).symm) true

theorem toNat_toUInt32 (h : n ≤ RETRACE_RPC_PAYLOAD_MAX) : n.toUInt32.toNat = n := by
  show (UInt32.ofNat n).toNat = n
  rw [UInt32.toNat_ofNat']
  exact Nat.mod_eq_of_lt (lt_of_le_of_lt h (by decide))

theorem send_frame_eq : send_frame .EVENT item ret =
    (if ret ≤ 0 then -1 else 0, ((eventMessage (item.take 2048)).wire).take ret.toNat) := by
  have hmin : min item.length 2048 ≤ 2048 := Nat.min_le_right _ _
  have hlen : (min item.length 2048).toUInt32.toNat = min item.length 2048 :=
    toNat_toUInt32 (le_trans hmin (by decide))
  have htake : item.take (min item.length 2048) = item.take 2048 := by
    rcases le_total item.length 2048 with h | h
    · rw [Nat.min_eq_left h, take_length, take_of_length_le h]
    · rw [Nat.min_eq_right h]
  have hframe : (eventMessage (item.take 2048)).wire =
      header ⟨RETRACE_RPC_VERSION, RpcMsg.EVENT.id, (min item.length 2048).toUInt32⟩ ++ item.take 2048 := by
    rw [eventMessage, Message.wire, length_take, Nat.min_comm]
  have hsize : ((eventMessage (item.take 2048)).wire).length = RETRACE_RPC_HEADER_SZ + min item.length 2048 := by
    rw [hframe, length_append, header_length, length_take, Nat.min_comm, RETRACE_RPC_HEADER_SZ]
  have hmax : ¬RETRACE_RPC_PAYLOAD_MAX < min item.length 2048 := not_lt.mpr (le_trans hmin (by decide))
  have hcap : ¬RETRACE_RPC_HEADER_SZ + 2048 < RETRACE_RPC_HEADER_SZ + min item.length 2048 :=
    not_lt.mpr (Nat.add_le_add_left hmin _)
  have hencode : retrace_rpc_frame_encode (some (replicate (RETRACE_RPC_HEADER_SZ + 2048) 0))
      (RETRACE_RPC_HEADER_SZ + 2048) RETRACE_RPC_VERSION RpcMsg.EVENT.id (some item)
        (min item.length 2048).toUInt32 =
      (0, some (memcpy (replicate (RETRACE_RPC_HEADER_SZ + 2048) 0) 0 (eventMessage (item.take 2048)).wire)) := by
    simp only [retrace_rpc_frame_encode, hlen, if_neg hmax, if_neg hcap, reduceCtorEq, and_false, if_false,
      getD_some, htake, ← hframe]
  simp only [send_frame, hencode, sock_write, memcpy, take_zero, nil_append, ← hsize, take_left]

theorem sent_whole_iff (hret : 0 < ret) :
    ((eventMessage item).Ok ∧ (send_frame .EVENT item ret).2 = (eventMessage item).wire) ↔
      item.length ≤ 2048 ∧ ((12 + item.length : Nat) : Int) ≤ ret := by
  have hlen : ∀ p, (eventMessage p).wire.length = 12 + p.length := fun p => by
    rw [Message.wire, length_append, header_length, eventMessage]
  rw [send_frame_eq]
  constructor
  · rintro ⟨-, heq⟩
    have := congrArg List.length heq
    simp only [length_take, hlen] at this
    omega
  · rintro ⟨hshort, hall⟩
    rw [take_of_length_le hshort]
    refine ⟨⟨?_, le_trans hshort (by decide)⟩, take_of_length_le (by rw [hlen]; omega)⟩
    exact (toNat_toUInt32 (le_trans hshort (by decide))).symm

theorem drain_turn_cases (g : AgentState) (ret : Int) :
    (g.ring.texts.head? = none ∧ drain_turn g ret = (none, g)) ∨
      ∃ item, g.ring.texts.head? = some item ∧
        ((ret ≤ 0 ∧ drain_turn g ret = (some (item, -1, (send_frame .EVENT item ret).2), drop_connection g)) ∨
          (0 < ret ∧ drain_turn g ret =
            (some (item, 0, (send_frame .EVENT item ret).2), { g with ring := agent_ring_pop g.ring }))) := by
  unfold drain_turn
  rw [peek_texts]
  cases hhead : g.ring.texts.head? with
  | none => exact .inl ⟨rfl, rfl⟩
  | some item =>
    refine .inr ⟨item, rfl, ?_⟩
    rcases le_or_gt ret 0 with h | h
    · exact .inl ⟨h, by simp [send_frame_eq, h]⟩
    · exact .inr ⟨h, by simp [send_frame_eq, not_le.mpr h]⟩

def Balanced (g : AgentState) (l : Ledger) : Prop :=
  l.taken = l.popped.map Prod.fst ++ l.g.ring.texts ∧ l.g.ring.dropped = g.ring.dropped + UInt64.ofNat l.refused

theorem Balanced.push (h : Balanced g l) (heap : Bool) (text : Bytes) (ok : Bool) :
    Balanced g (l.push heap text ok) := by
  obtain ⟨htaken, hdropped⟩ := h
  unfold Ledger.push
  obtain ⟨rc, r, heq, ⟨rfl, htexts, hdrop⟩ | ⟨rfl, htexts, hdrop⟩⟩ := queue_push_cases l.g heap text ok
  · rw [heq]
    refine ⟨?_, hdrop.trans hdropped⟩
    show l.taken ++ [cstr text] = l.popped.map Prod.fst ++ r.texts
    rw [htexts, htaken, append_assoc]
  · rw [heq]
    refine ⟨?_, ?_⟩
    · show l.taken = l.popped.map Prod.fst ++ r.texts
      rw [htexts, htaken]
    · show r.dropped = g.ring.dropped + UInt64.ofNat (l.refused + 1)
      rw [hdrop, hdropped, UInt64.ofNat_add, UInt64.add_assoc]
      rfl

theorem report_drops_ring (h : drop_marker now g = some marker) :
    (report_drops now ok g).ring = (queue_push g false marker ok).2.ring := by
  unfold report_drops
  rw [h]
  simp only
  split_ifs <;> rfl

theorem push_ring (heap : Bool) :
    (l.push heap text ok).g = (queue_push l.g heap text ok).2 ∧ (l.push heap text ok).popped = l.popped := by
  unfold Ledger.push
  simp only
  split_ifs <;> exact ⟨rfl, rfl⟩

theorem step_report_g : (l.step (.report now ok)).g = report_drops now ok l.g := by
  cases hmarker : drop_marker now l.g with
  | none => simp [Ledger.step, report_drops, hmarker]
  | some marker => simp [Ledger.step, hmarker]

/-- Every step keeps the balance of what was taken in, popped and refused. -/
theorem Balanced.step (h : Balanced g l) (a : QueueAct) : Balanced g (l.step a) := by
  cases a with
  | push heap text ok => exact h.push heap text ok
  | send ret =>
    obtain ⟨htaken, hdropped⟩ := h
    obtain ⟨hnone, heq⟩ | ⟨item, hitem, ⟨-, heq⟩ | ⟨-, heq⟩⟩ := drain_turn_cases l.g ret
    · simp only [Ledger.step, heq]
      exact ⟨htaken, hdropped⟩
    · simp only [Ledger.step, heq]
      exact ⟨htaken, hdropped⟩
    · simp only [Ledger.step, heq]
      refine ⟨?_, hdropped⟩
      obtain ⟨ts, hts⟩ := head?_eq_some_iff.mp hitem
      show l.taken = (l.popped ++ [(item, _)]).map Prod.fst ++ (agent_ring_pop l.g.ring).texts
      rw [htaken, texts_pop, hts, map_append, append_assoc]
      rfl
  | report now ok =>
    cases hmarker : drop_marker now l.g with
    | none =>
      simp only [Ledger.step, hmarker]
      exact h
    | some marker =>
      simp only [Ledger.step, hmarker]
      have hpush := h.push false marker ok
      have hring : (report_drops now ok l.g).ring = (l.push false marker ok).g.ring := by
        rw [report_drops_ring hmarker, (push_ring false).1]
      unfold Balanced at hpush ⊢
      simp only [hring]
      exact hpush

def Whole (x : Bytes × Bytes) : Prop := (eventMessage x.1).Ok ∧ x.2 = (eventMessage x.1).wire

theorem step_whole_iff : (∀ x ∈ (l.step a).popped, Whole x) ↔ (∀ x ∈ l.popped, Whole x) ∧ SendsWhole l a := by
  cases a with
  | push heap text ok =>
    have hsame : (l.step (.push heap text ok)).popped = l.popped := (push_ring heap).2
    rw [hsame]
    exact ⟨fun h => ⟨h, trivial⟩, And.left⟩
  | send ret =>
    obtain ⟨hnone, heq⟩ | ⟨item, hitem, ⟨hret, heq⟩ | ⟨hret, heq⟩⟩ := drain_turn_cases l.g ret
    · simp [Ledger.step, SendsWhole, heq, hnone]
    · simp [Ledger.step, SendsWhole, heq, hitem, not_lt.mpr hret]
    · have hwhole := @sent_whole_iff item ret hret
      simp only [Ledger.step, SendsWhole, heq, hitem, mem_def, some.injEq, forall_eq', if_true,
        mem_append, mem_singleton, or_imp,
        forall_and, forall_eq, hret, true_imp_iff, ← hwhole, Whole]
      tauto
  | report now ok =>
    cases hmarker : drop_marker now l.g with
    | none => simp [Ledger.step, SendsWhole, hmarker]
    | some marker => simp [Ledger.step, SendsWhole, hmarker, (push_ring false).2]

theorem run_whole_iff (l : Ledger) (acts : List QueueAct) :
    (∀ x ∈ (run Ledger.step l acts).popped, Whole x) ↔
      (∀ x ∈ l.popped, Whole x) ∧ Along Ledger.step SendsWhole l acts := by
  induction acts generalizing l with
  | nil => simp
  | cons a acts ih => rw [run_cons, ih, step_whole_iff, along_cons, and_assoc]

/-- The steps of `drain_queue` with `n` events in the queue: a send for every return up to the first one that
says that nothing was sent, as long as there are events, and then the report if none is left and otherwise the
send that fails, if there was one. -/
def drain_acts (now : Int) (ok : Bool) (rets : List Int) (n : Nat) : List QueueAct :=
  let k := min (rets.takeWhile (0 < ·)).length n
  (rets.take k).map .send ++ if k = n then [.report now ok] else ((rets.drop k).take 1).map .send

theorem drain_acts_sent (hret : 0 < ret) :
    drain_acts now ok (ret :: rets) (n + 1) = .send ret :: drain_acts now ok rets n := by
  simp [drain_acts, hret, Nat.succ_min_succ]

/-- The loop does these steps in their order, and the events that it takes out are the oldest ones. -/
theorem drain_queue_run (now : Int) (ok : Bool) (rets : List Int) (l : Ledger) :
    (run Ledger.step l (drain_acts now ok rets l.g.ring.texts.length)).g = drain_queue now ok rets l.g ∧
      (run Ledger.step l (drain_acts now ok rets l.g.ring.texts.length)).popped.map Prod.fst =
        l.popped.map Prod.fst ++ l.g.ring.texts.take (rets.takeWhile (0 < ·)).length := by
  have hreport : ∀ l : Ledger, (l.step (.report now ok)).popped = l.popped := fun l => by
    cases hmarker : drop_marker now l.g <;> simp [Ledger.step, hmarker, (push_ring false).2]
  induction rets generalizing l with
  | nil =>
    unfold drain_queue
    rw [peek_texts]
    cases htexts : l.g.ring.texts with
    | nil => simp [drain_acts, run, step_report_g, hreport]
    | cons item items => simp [drain_acts, run]
  | cons ret rets ih =>
    unfold drain_queue
    obtain ⟨hnone, heq⟩ | ⟨item, hitem, ⟨hret, heq⟩ | ⟨hret, heq⟩⟩ := drain_turn_cases l.g ret
    · rw [peek_texts, hnone, head?_eq_none_iff.mp hnone]
      simp [drain_acts, run, step_report_g, hreport]
    · obtain ⟨items, htexts⟩ := head?_eq_some_iff.mp hitem
      simp only [peek_texts, heq, htexts, head?_cons]
      simp [drain_acts, run, Ledger.step, heq, not_lt.mpr hret]
    · obtain ⟨items, htexts⟩ := head?_eq_some_iff.mp hitem
      have hrest : (l.step (.send ret)).g.ring.texts = items := by
        simp [Ledger.step, heq, texts_pop, htexts]
      obtain ⟨hrun, hpopped⟩ := ih (l.step (.send ret))
      rw [hrest] at hrun hpopped
      simp only [peek_texts, heq, htexts, head?_cons]
      rw [length_cons, drain_acts_sent hret, run_cons, hrun, hpopped]
      simp [Ledger.step, heq, hret]

/-- In every run, every event goes out whole and the others are accounted for exactly when no event that
is sent is longer than 2048 bytes and no send takes a part of the frame. -/
theorem delivered_whole_iff (g : AgentState) (acts : List QueueAct) :
    DeliveredWhole g (run Ledger.step (Ledger.start g) acts) ↔
      Along Ledger.step SendsWhole (Ledger.start g) acts := by
  have hbalanced : Balanced g (run Ledger.step (Ledger.start g) acts) :=
    run_preserves (Balanced g) (fun _ a h => h.step a) ⟨rfl, (UInt64.add_zero _).symm⟩ acts
  have hwhole := run_whole_iff (Ledger.start g) acts
  have hstart : ∀ x ∈ (Ledger.start g).popped, Whole x := by simp [Ledger.start]
  constructor
  · intro h
    exact (hwhole.mp h.1).2
  · intro h
    exact ⟨hwhole.mpr ⟨hstart, h⟩, hbalanced⟩

def emptyRing : AgentRing where
  ring := ⟨fun _ => ⟨none, 0, replicate AGENT_RING_INLINE 0, length_replicate⟩, 0, 0, by decide, by decide⟩
  dropped := 0

def newState : AgentState :=
  { armed := true, agent_id := bytes "pending", ring := emptyRing, drops_reported := 0, seq := 0,
    thread_spawned := false,
    thread_done := false, stop := false, fd := none, connected := false, spawner_pid := 0, rfill := 0 }

/-- An event of which the socket takes five bytes, and one that is one byte too long. -/
theorem not_delivered_whole :
    ¬DeliveredWhole newState
      (run Ledger.step (Ledger.start newState) [.push false (bytes "\x7b\x7d") true, .send 5]) ∧
      ¬DeliveredWhole newState (run Ledger.step (Ledger.start newState)
        [.push true (replicate 2049 32) true, .send 2060]) := by
  refine ⟨fun h => ?_, fun h => ?_⟩
  · exact absurd (fun x hx => (h.1 x hx).2) (by decide)
  · exact absurd (fun x hx => (h.1 x hx).2) (by decide +kernel)

end Retrace.Supervisor.Queue
