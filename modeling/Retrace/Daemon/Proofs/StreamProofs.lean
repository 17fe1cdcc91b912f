import Retrace.Daemon.Stream

/-!
# Frames come out whole

After any reads the frames handed on are those of the bytes read so far (`Reading`), so they do not
depend on where the reads cut the stream. The buffer has room for the longest frame: it is full only
behind a header that ends the stream.
-/

namespace Retrace.Retraced

open CLib Framing Rpc List

variable {ms : List Message} {ns : List Nat} {s : Bytes} {st : ConnStream}

section

variable {b : RecvBuffer cap} {fuel : Nat}

theorem conn_frames_none (h : nextFrame b.content = none) : conn_frames fuel b = ([], b) := by
  cases fuel with
  | zero => rfl
  | succ fuel =>
    rw [conn_frames]
    split
    · rfl
    · next hfill =>
      have hfill' : 12 ≤ b.fill := Nat.le_of_not_lt hfill
      rw [nextFrame, ← decode_content hfill', content_length] at h
      cases hdec : retrace_rpc_frame_decode (some b.buf) b.fill with
      | error e => rfl
      | ok fr =>
        simp only [hdec] at h
        split at h
        · cases h
        · next hshort => exact dif_neg hshort

theorem conn_frames_some {r : Bytes} (h : nextFrame b.content = some (m, r)) :
    ∃ b' : RecvBuffer cap, b'.content = r ∧
      conn_frames (fuel + 1) b = (m :: (conn_frames fuel b').1, (conn_frames fuel b').2) := by
  obtain ⟨hok, heq⟩ := nextFrame_eq_some.mp h
  have hlen : b.fill = 12 + m.payload.length + r.length := by
    rw [← content_length, heq]
    simp [Message.wire, Nat.add_assoc]
  have hfill : ¬ b.fill < RETRACE_RPC_HEADER_SZ := by
    rw [RETRACE_RPC_HEADER_SZ]
    omega
  have hdec : retrace_rpc_frame_decode (some b.buf) b.fill = .ok m.frame := by
    rw [decode_content (by omega), heq, decode_eq_ok]
    have := hok.1
    have := hok.2
    exact ⟨by omega, m.payload ++ r, by simp [Message.wire]⟩
  have hle : RETRACE_RPC_HEADER_SZ + m.frame.length.toNat ≤ b.fill := by
    rw [RETRACE_RPC_HEADER_SZ, ← hok.1]
    omega
  have hdrop : b.content.drop 12 = m.payload ++ r := by
    rw [heq, Message.wire, append_assoc, ← header_length m.frame, drop_left]
  have hpayload : (b.buf.drop RETRACE_RPC_HEADER_SZ).take m.frame.length.toNat = m.payload := by
    have htake := congrArg (List.take m.payload.length) hdrop
    rw [take_left, RecvBuffer.content, drop_take, take_take, Nat.min_eq_left (by omega)] at htake
    rw [← hok.1]
    exact htake
  refine ⟨b.shift _ hle, ?_, ?_⟩
  · rw [shift_content, ← drop_drop, RETRACE_RPC_HEADER_SZ, hdrop, ← hok.1, drop_left]
  · simp only [conn_frames, if_neg hfill, hdec, dif_pos hle, hpayload]

theorem conn_frames_spec (s : Bytes) : ∀ {fuel : Nat} {b : RecvBuffer cap}, b.content = s →
    s.length ≤ fuel → (conn_frames fuel b).1 = frameFramer.items s ∧
      (conn_frames fuel b).2.content = frameFramer.rest s := by
  induction s using Framer.induct (F := frameFramer) with
  | hnone s hnext =>
    rintro fuel b rfl -
    rw [conn_frames_none hnext, Framer.items_of_none hnext, Framer.rest_of_none hnext]
    exact ⟨rfl, rfl⟩
  | hsome s m r hnext ih =>
    rintro fuel b rfl hfuel
    have hlt := frameFramer.shrinks hnext
    obtain ⟨fuel, rfl⟩ : ∃ n, fuel = n + 1 := Nat.exists_eq_succ_of_ne_zero (by omega)
    obtain ⟨b', hb', hrun⟩ := @conn_frames_some _ b fuel m r hnext
    obtain ⟨hitems, hrest⟩ := @ih fuel b' hb' (by omega)
    rw [hrun, Framer.items_of_some hnext, Framer.rest_of_some hnext, hitems]
    exact ⟨rfl, hrest⟩

end

theorem not_nextFrame : nextFrame s = none ↔ ∀ (m : Message) t, m.Ok → s ≠ m.wire ++ t := by
  constructor
  · rintro h m t hok rfl
    rw [nextFrame_eq_some.mpr ⟨hok, rfl⟩] at h
    cases h
  · intro h
    cases hnext : nextFrame s with
    | none => rfl
    | some x =>
      obtain ⟨hok, heq⟩ := nextFrame_eq_some.mp hnext
      exact absurd heq (h _ _ hok)

theorem items_flatMap_wire (hok : ∀ m ∈ ms, m.Ok) (r : Bytes) :
    frameFramer.items (ms.flatMap Message.wire ++ r) = ms ++ frameFramer.items r := by
  induction ms with
  | nil => simp
  | cons m ms ih =>
    have hnext : frameFramer.next (m.wire ++ (ms.flatMap Message.wire ++ r)) =
        some (m, ms.flatMap Message.wire ++ r) := nextFrame_eq_some.mpr ⟨hok m (by simp), rfl⟩
    rw [flatMap_cons, append_assoc, Framer.items_of_some hnext, ih fun m hm => hok m (by simp [hm]), cons_append]

theorem longestFrames_items : LongestFrames s (frameFramer.items s) := by
  induction s using Framer.induct (F := frameFramer) with
  | hnone s hnext =>
    rw [Framer.items_of_none hnext]
    exact ⟨by simp, s, by simp, not_nextFrame.mp hnext⟩
  | hsome s m r hnext ih =>
    obtain ⟨hok, rfl⟩ := nextFrame_eq_some.mp hnext
    obtain ⟨hall, t, ht, hend⟩ := ih
    rw [Framer.items_of_some hnext]
    refine ⟨by simpa using ⟨hok, hall⟩, t, ?_, hend⟩
    rw [flatMap_cons, append_assoc, ← ht]

theorem longestFrames_iff : LongestFrames s ms ↔ frameFramer.items s = ms := by
  constructor
  · rintro ⟨hok, r, rfl, hend⟩
    rw [items_flatMap_wire hok, Framer.items_of_none (not_nextFrame.mpr hend), append_nil]
  · rintro rfl
    exact longestFrames_items

theorem BadHeader.items (h : BadHeader r) (t : Bytes) : frameFramer.items (r ++ t) = [] := by
  obtain ⟨hlen, hbad⟩ := h
  rw [RETRACE_RPC_HEADER_SZ] at hlen
  apply Framer.items_of_none
  refine not_nextFrame.mpr fun m u hok heq => ?_
  have htake : ∀ k ≤ 12, r.take k = (header m.frame).take k := fun k hk => by
    have := congrArg (List.take k) heq
    rwa [take_append_of_le_length (by omega), Message.wire, append_assoc,
      take_append_of_le_length (by simpa using hk)] at this
  obtain ⟨v, rfl⟩ : ∃ v, r = header m.frame ++ v := by
    refine ⟨r.drop 12, ?_⟩
    conv_lhs => rw [← take_append_drop 12 r, htake 12 (le_refl _)]
    rw [take_of_length_le (by simp)]
  rcases hbad with hmagic | hlong
  · exact hmagic rfl
  · have hget : get_u32le ((header m.frame ++ v).drop 8) = m.frame.length := get_put_u32le _ v
    rw [hget, ← hok.1] at hlong
    exact absurd hok.2 (by omega)

theorem badHeader_of_full (hnone : nextFrame r = none) (hlen : r.length = CONN_BUF_SIZE) : BadHeader r := by
  have h12 : 12 ≤ r.length := by
    rw [hlen, CONN_BUF_SIZE, RETRACE_RPC_HEADER_SZ]
    omega
  refine ⟨h12, ?_⟩
  by_contra hgood
  push Not at hgood
  obtain ⟨hmagic, hmax⟩ := hgood
  obtain ⟨t, ht⟩ := exists_header h12 hmagic
  generalize hfr : (⟨get_u16le (r.drop 4), get_u16le (r.drop 6), get_u32le (r.drop 8)⟩ : RpcFrame) = fr at ht
  have hmax' : fr.length.toNat ≤ RETRACE_RPC_PAYLOAD_MAX := hfr ▸ hmax
  have hcomplete : RETRACE_RPC_HEADER_SZ + fr.length.toNat ≤ r.length := by
    rw [hlen, CONN_BUF_SIZE]
    omega
  rw [nextFrame, decode_eq_ok.mpr ⟨hmax', t, ht⟩] at hnone
  simp [hcomplete] at hnone

def Reading (s : Bytes) (st : ConnStream) : Prop :=
  ∃ c, s = c ++ st.pending ∧ st.handed = frameFramer.items c ∧
    ∀ b, st.conn = some b → b.content = frameFramer.rest c

def Drained (s : Bytes) (st : ConnStream) : Prop :=
  st.conn = none → st.handed = frameFramer.items s

theorem conn_readable_cases (hb : st.conn = some b) : ((n = 0 ∨ b.fill = CONN_BUF_SIZE ∨ st.pending = []) ∧
        conn_readable st n = { st with conn := none }) ∨
      ∃ d b', d ≠ [] ∧ st.pending = d ++ (conn_readable st n).pending ∧ (conn_readable st n).conn = some b' ∧
        (conn_readable st n).handed = st.handed ++ frameFramer.items (b.content ++ d) ∧
        b'.content = frameFramer.rest (b.content ++ d) := by
  have hfits := b.fits
  unfold conn_readable
  rw [hb]
  simp only
  split
  · next hnil =>
    refine .inl ⟨?_, rfl⟩
    rw [RecvBuffer.readBytes, take_eq_nil_iff] at hnil
    rcases hnil with hmin | hpending
    · by_cases hn : n = 0
      · exact .inl hn
      · exact .inr (.inl (by omega))
    · exact .inr (.inr hpending)
  · next hne =>
    have happ := append_content (b.readBytes_fits st.pending n)
    obtain ⟨hitems, hrest⟩ := conn_frames_spec _ happ
      (by rw [← happ, content_length])
    refine .inr ⟨_, _, hne, ?_, rfl, ?_, hrest⟩
    · exact (prefix_iff_eq_append.mp <| take_prefix _ _).symm
    · rw [hitems]

theorem Reading.readable (h : Reading s st) (n : Nat) : Reading s (conn_readable st n) := by
  cases hconn : st.conn with
  | none => simpa [conn_readable, hconn] using h
  | some b =>
    obtain ⟨c, hs, hhanded, hcontent⟩ := h
    rcases conn_readable_cases hconn with ⟨-, hclosed⟩ | ⟨d, b', -, hpending, hconn', hhanded', hcontent'⟩
    · rw [hclosed]
      exact ⟨c, hs, hhanded, by simp⟩
    · refine ⟨c ++ d, ?_, ?_, ?_⟩
      · rw [hs, hpending, append_assoc]
      · rw [hhanded', hhanded, hcontent b hconn, ← Framer.items_append]
      · intro b'' hb''
        rw [hconn'] at hb''
        cases hb''
        rw [hcontent', hcontent b hconn, ← Framer.rest_append]

theorem Drained.readable (h : Reading s st) (hd : Drained s st) (hn : 0 < n) : Drained s (conn_readable st n) := by
  cases hconn : st.conn with
  | none => simpa [conn_readable, hconn] using hd
  | some b =>
    obtain ⟨c, hs, hhanded, hcontent⟩ := h
    rcases conn_readable_cases hconn with ⟨hend, hclosed⟩ | ⟨d, b', -, -, hconn', -⟩
    · rw [hclosed]
      intro _
      show st.handed = _
      rw [hs, Framer.items_append, hhanded]
      rcases hend with h0 | hfull | hnil
      · omega
      · -- the buffer is full of what is no frame
        have hlen : (frameFramer.rest c).length = CONN_BUF_SIZE := by
          rw [← hcontent b hconn, content_length, hfull]
        rw [(badHeader_of_full (Framer.next_rest (F := frameFramer) c) hlen).items, append_nil]
      · rw [hnil, append_nil, Framer.items_of_none (Framer.next_rest c), append_nil]
    · intro hnone
      rw [hconn'] at hnone
      cases hnone

theorem foldl_closed (h : st.conn = none) : ns.foldl conn_readable st = st := by
  induction ns with
  | nil => rfl
  | cons n ns ih =>
    have hsame : conn_readable st n = st := by simp [conn_readable, h]
    rw [foldl_cons, hsame, ih]

theorem readable_progress (hns : 0 ∉ ns) : ∀ st : ConnStream, (ns.foldl conn_readable st).conn = none ∨
      (ns.foldl conn_readable st).pending.length ≤ st.pending.length - ns.length := by
  induction ns with
  | nil => simp
  | cons n ns ih =>
    intro st
    simp only [mem_cons, not_or] at hns
    cases hconn : st.conn with
    | none => exact .inl (by rw [foldl_closed hconn, hconn])
    | some b =>
      rw [foldl_cons, length_cons]
      rcases conn_readable_cases hconn with ⟨-, hclosed⟩ | ⟨d, b', hd, hpending, -⟩
      · exact .inl (by rw [hclosed, foldl_closed rfl])
      · have hpos := length_pos_iff.mpr hd
        rw [hpending, length_append]
        rcases ih hns.2 (conn_readable st n) with h | h
        · exact .inl h
        · exact .inr (by omega)

theorem reading_conn_stream : Reading s (conn_stream b s ns) := by
  have hstep : ∀ (ns : List Nat) st, Reading s st → Reading s (ns.foldl conn_readable st) := by
    intro ns
    induction ns with
    | nil => exact fun st h => h
    | cons n ns ih => exact fun st h => ih _ (h.readable n)
  refine hstep ns _ ⟨[], rfl, ?_, ?_⟩
  · rfl
  · rintro b' ⟨⟩
    rfl

theorem drained_conn_stream (hns : 0 ∉ ns) : Drained s (conn_stream b s ns) := by
  have hstep : ∀ (ns : List Nat) st, 0 ∉ ns → Reading s st → Drained s st →
      Drained s (ns.foldl conn_readable st) := by
    intro ns
    induction ns with
    | nil => exact fun st _ _ h => h
    | cons n ns ih =>
      intro st hns hr hd
      simp only [mem_cons, not_or] at hns
      exact ih _ hns.2 (hr.readable n) (hd.readable hr (Nat.pos_of_ne_zero (Ne.symm hns.1)))
  refine hstep ns _ hns ⟨[], rfl, rfl, ?_⟩ (fun h => by cases h)
  rintro b' ⟨⟩
  rfl

/-- **Reassembly.** Whatever the reads are, the frames of the bytes read have been handed on; when the
stream has been read, these are the frames of the stream, and none behind a bad header. What is
encoded is decoded again. -/
theorem stream_reassembly (b : RecvBuffer CONN_BUF_SIZE) (s : Bytes) (ns : List Nat) :
    (∀ ms, LongestFrames (s.take (s.length - (conn_stream b s ns).pending.length)) ms ↔
        (conn_stream b s ns).handed = ms) ∧
      (0 ∉ ns → s.length ≤ ns.length →
        ∀ ms, LongestFrames s ms ↔ (conn_stream b s ns).handed = ms) ∧
      (∀ fs bad t, (∀ m ∈ fs, m.Ok) → s = fs.flatMap Message.wire ++ (bad ++ t) → BadHeader bad →
        (conn_stream b s ns).handed <+: fs) ∧
      ∀ out out_cap version type payload payload_len out' n,
        retrace_rpc_frame_encode out out_cap version type payload payload_len = (0, out') → 12 ≤ n →
        retrace_rpc_frame_decode out' n = .ok ⟨version, type, payload_len⟩ := by
  obtain ⟨c, hs, hhanded, hcontent⟩ := reading_conn_stream
  refine ⟨?_, ?_, ?_, ?_⟩
  · intro ms
    generalize conn_stream b s ns = st at hs hhanded ⊢
    have hc : s.take (s.length - st.pending.length) = c := by simp [hs]
    rw [hc, longestFrames_iff, hhanded]
  · intro hns hlen ms
    rw [longestFrames_iff]
    have hall : (conn_stream b s ns).handed = frameFramer.items s := by
      rcases readable_progress hns { conn := some b.reset, pending := s } with hclosed | hread
      · exact drained_conn_stream hns hclosed
      · have hnil : (conn_stream b s ns).pending = [] := by
          apply length_eq_zero_iff.mp
          exact Nat.le_zero.mp (hread.trans (Nat.sub_eq_zero_of_le hlen).le)
        rw [hnil, append_nil] at hs
        rw [hhanded, hs]
    rw [hall]
  · intro fs bad t hok hsplit hbad
    have hitems := items_flatMap_wire hok (bad ++ t)
    rw [hbad.items, append_nil, ← hsplit, hs, Framer.items_append, ← hhanded] at hitems
    exact ⟨_, hitems⟩
  · intro out out_cap version type payload payload_len out' n h hn
    exact decode_encode h hn

def zeroConn : RecvBuffer CONN_BUF_SIZE :=
  ⟨replicate CONN_BUF_SIZE 0, 0, length_replicate, Nat.zero_le _⟩

def pingMessage : Message := ⟨⟨RETRACE_RPC_VERSION, RpcMsg.PING.id, 0⟩, []⟩

/-- Two frames with a cut inside the second header are handed on. -/
theorem stream_reassembly_ping :
    (conn_stream zeroConn (pingMessage.wire ++ pingMessage.wire) (17 :: replicate 24 1)).handed =
      [pingMessage, pingMessage] := by
  refine ((stream_reassembly zeroConn (pingMessage.wire ++ pingMessage.wire) (17 :: replicate 24 1)).2.1
    (by decide) (by decide) [pingMessage, pingMessage]).mp ⟨?_, [], by simp, ?_⟩
  · rintro m hm
    rw [eq_of_mem_replicate (n := 2) hm]
    exact ⟨rfl, Nat.zero_le _⟩
  · rintro m t - h
    have := congrArg List.length h
    simp only [Message.wire, length_append, header_length, length_nil] at this
    omega

end Retrace.Retraced
