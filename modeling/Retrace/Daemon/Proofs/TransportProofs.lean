import Retrace.Daemon.Proofs.AgreementProofs
import Retrace.Supervisor.Proofs.QueueProofs

/-!
# From end to end

What one side puts into frames the other takes from the stream again, however the reads cut it.
-/

namespace Retrace.Retraced

open CLib Framing Rpc Runs Supervisor Queue List

theorem handed_all (hns : 0 ∉ ns) (hlen : s.length ≤ ns.length) :
    (conn_stream b s ns).handed = frameFramer.items s := by
  rcases readable_progress hns { conn := some b.reset, pending := s } with hclosed | hread
  · exact drained_conn_stream hns hclosed
  · obtain ⟨c, hs, hout, -⟩ := @reading_conn_stream ns s b
    have hnil : (conn_stream b s ns).pending = [] :=
      length_eq_zero_iff.mp (Nat.le_zero.mp (hread.trans (by simp; omega)))
    rw [hnil, append_nil] at hs
    rw [hout, hs]

/-- **Events arrive.** In every run of the queue whose sends take whole frames, events sent one after the
other are handed on at the daemon in this order, nothing else, nothing twice, and all of them once read. -/
theorem events_arrive (g : Queue.AgentState) (acts : List QueueAct)
    (hsends : Along Ledger.step SendsWhole (.start g) acts)
    (xs : List (Bytes × Bytes)) (hxs : xs <:+: (run Ledger.step (.start g) acts).popped)
    (b : RecvBuffer CONN_BUF_SIZE) (ns : List Nat) :
    (conn_stream b (xs.flatMap Prod.snd) ns).handed <+: xs.map (eventMessage ·.1) ∧
      (0 ∉ ns → (xs.flatMap Prod.snd).length ≤ ns.length →
        (conn_stream b (xs.flatMap Prod.snd) ns).handed = xs.map (eventMessage ·.1)) := by
  have hwhole : ∀ x ∈ xs, Whole x := fun x hx =>
    (run_whole_iff _ _).mpr ⟨by simp [Ledger.start], hsends⟩ x (hxs.subset hx)
  have hwire : xs.flatMap Prod.snd = (xs.map (eventMessage ·.1)).flatMap Message.wire ++ [] := by
    rw [append_nil, flatMap_map]
    exact flatMap_congr fun x hx => (hwhole x hx).2
  have hitems : frameFramer.items (xs.flatMap Prod.snd) = xs.map (eventMessage ·.1) := by
    rw [hwire, items_flatMap_wire (forall_mem_map.mpr fun x hx => (hwhole x hx).1)]
    exact append_nil _
  refine ⟨?_, fun hns hlen => by rw [handed_all hns hlen, hitems]⟩
  obtain ⟨c, hs, hout, -⟩ := @reading_conn_stream ns _ b
  rw [← hitems, hout, hs, Framer.items_append]
  exact prefix_append _ _

/-- Two events, with a cut inside the header of the second and one behind it. -/
theorem events_arrive_two :
    (conn_stream zeroConn ((eventMessage (bytes "0")).wire ++ (eventMessage (bytes "1")).wire)
      (20 :: 5 :: replicate 24 1)).handed = [eventMessage (bytes "0"), eventMessage (bytes "1")] :=
  (events_arrive newState [.push false (bytes "0") true, .push true (bytes "1") true, .send 13, .send 13]
    ⟨trivial, trivial, fun item h _ => by cases h; decide, fun item h _ => by cases h; decide, trivial⟩
    [(bytes "0", (eventMessage (bytes "0")).wire), (bytes "1", (eventMessage (bytes "1")).wire)]
    ⟨[], [], by decide⟩ zeroConn (20 :: 5 :: replicate 24 1)).2 (by decide) (by decide)

theorem items_takeWhile {ms : List Message} (hok : ∀ m ∈ ms, m.Ok) :
    fitFramer.items (ms.flatMap Message.wire) = ms.takeWhile (·.wire.length ≤ AGENT_BUF_SIZE) ∧
      ¬BadHeader (fitFramer.rest (ms.flatMap Message.wire)) := by
  induction ms with
  | nil => exact ⟨rfl, not_badHeader_nil⟩
  | cons m ms ih =>
    obtain ⟨hm, hms⟩ := forall_mem_cons.mp hok
    obtain ⟨hitems, hrest⟩ := ih hms
    rw [flatMap_cons]
    have hnext : fitFramer.next (m.wire ++ ms.flatMap Message.wire) = _ :=
      congrArg (Option.filter _) (nextFrame_eq_some.mpr ⟨hm, rfl⟩)
    rcases le_or_gt m.wire.length AGENT_BUF_SIZE with h | h
    · rw [Option.filter_some_pos (by simpa)] at hnext
      rw [Framer.items_of_some hnext, Framer.rest_of_some hnext, takeWhile_cons_of_pos (by simpa), hitems]
      exact ⟨rfl, hrest⟩
    · rw [Option.filter_some_neg (by simpa)] at hnext
      rw [Framer.items_of_none hnext, Framer.rest_of_none hnext, takeWhile_cons_of_neg (by simpa)]
      refine ⟨rfl, fun hbad => ?_⟩
      have hnil := hbad.items []
      rw [append_nil, Framer.items_of_some (nextFrame_eq_some.mpr ⟨hm, rfl⟩)] at hnil
      cases hnil

/-- **Frames arrive.** An agent hands on exactly the frames in front of the first that is longer than its
buffer. -/
theorem frames_arrive {ms : List Message} (hok : ∀ m ∈ ms, m.Ok) (h : Delivers b (ms.flatMap Message.wire) ns) :
    (agent_stream b (ms.flatMap Message.wire) ns).handed = ms.takeWhile (·.wire.length ≤ AGENT_BUF_SIZE) := by
  obtain ⟨hitems, hrest⟩ := items_takeWhile hok
  rw [calm_handed (not_frameBehindBad hrest) h, hitems]

def longMessage : Message := ⟨⟨RETRACE_RPC_VERSION, RpcMsg.POLICY_SET.id, 4097⟩, replicate 4097 32⟩

/-- A frame with a payload of 4097 bytes behind another one, with a cut inside each header. -/
theorem frames_arrive_ping :
    (agent_stream zeroAgent ([pingMessage, longMessage].flatMap Message.wire) [7, 10, 5000, 1]).conn.isNone ∧
      (agent_stream zeroAgent ([pingMessage, longMessage].flatMap Message.wire) [7, 10, 5000, 1]).handed =
        [pingMessage] := by
  have hclosed : (agent_stream zeroAgent ([pingMessage, longMessage].flatMap Message.wire)
    [7, 10, 5000, 1]).conn.isNone := by decide +kernel
  have hlen : longMessage.payload.length = 4097 := length_replicate
  have hlong : AGENT_BUF_SIZE < longMessage.wire.length := by
    rw [Message.wire, length_append, header_length, hlen]
    decide
  have hok : longMessage.Ok := by
    unfold Message.Ok
    rw [hlen]
    decide
  have hall : ∀ m ∈ [pingMessage, longMessage], m.Ok :=
    forall_mem_cons.mpr ⟨⟨rfl, Nat.zero_le _⟩, forall_mem_singleton.mpr hok⟩
  refine ⟨hclosed, (frames_arrive hall ⟨by decide, .inr (Option.isNone_iff_eq_none.mp hclosed)⟩).trans ?_⟩
  rw [takeWhile_cons_of_pos (by decide), takeWhile_cons_of_neg (by simpa)]

end Retrace.Retraced
