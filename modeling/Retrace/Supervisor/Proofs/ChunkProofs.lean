import Retrace.Supervisor.AgentStream
import Retrace.Daemon.Proofs.StreamProofs

/-!
# When the reads do not matter

The agent's loop empties its buffer at a header it cannot decode, and goes on with whatever is read
next. A stream in which no frame can be found that way is handed on in one way only; in any other, one
way of reading finds a frame behind the bad header and another way finds none. Frames that fit the buffer reach
the agent; a longer one fills the buffer, and the connection is dropped.
-/

namespace Retrace.Supervisor

open CLib Framing Rpc Retraced List Option

variable {t u : Bytes} {ns : List Nat} {m : Message} {b : RecvBuffer AGENT_BUF_SIZE}
  {st : AgentStream} {p r s : Bytes} {ms : List Message}

def fitFramer : Framer UInt8 Message where
  next s := (nextFrame s).filter fun x => x.1.wire.length ≤ AGENT_BUF_SIZE
  shrinks {s m r} h := frameFramer.shrinks (filter_eq_some_iff.mp h).1
  stable {s m r} h t := by
    obtain ⟨hnext, hfit⟩ := filter_eq_some_iff.mp h
    exact filter_eq_some_iff.mpr ⟨frameFramer.stable hnext t, hfit⟩

theorem fit_next_eq_some : fitFramer.next s = some (m, r) ↔ Fits m ∧ s = m.wire ++ r := by
  show (nextFrame s).filter _ = _ ↔ _
  rw [filter_eq_some_iff, nextFrame_eq_some]
  simp only [decide_eq_true_eq, Fits]
  tauto

theorem fit_next_of_le (h : s.length ≤ AGENT_BUF_SIZE) : fitFramer.next s = nextFrame s := by
  show (nextFrame s).filter _ = _
  cases hnext : nextFrame s with
  | none => rfl
  | some x =>
    obtain ⟨m, r⟩ := x
    obtain ⟨-, rfl⟩ := nextFrame_eq_some.mp hnext
    rw [length_append] at h
    simp only [filter_some, decide_eq_true_eq]
    exact if_pos (by omega)

theorem items_fit (h : s.length ≤ AGENT_BUF_SIZE) :
    frameFramer.items s = fitFramer.items s ∧ frameFramer.rest s = fitFramer.rest s := by
  induction s using Framer.induct (F := frameFramer) with
  | hnone s hnext =>
    have hfit : fitFramer.next s = none := (fit_next_of_le h).trans hnext
    rw [Framer.items_of_none hnext, Framer.rest_of_none hnext, Framer.items_of_none hfit, Framer.rest_of_none hfit]
    exact ⟨rfl, rfl⟩
  | hsome s m r hnext ih =>
    have hfit : fitFramer.next s = some (m, r) := (fit_next_of_le h).trans hnext
    have hlt := frameFramer.shrinks hnext
    obtain ⟨hi, hr⟩ := ih (by omega)
    rw [Framer.items_of_some hnext, Framer.rest_of_some hnext, Framer.items_of_some hfit,
      Framer.rest_of_some hfit, hi, hr]
    exact ⟨rfl, rfl⟩

theorem flatMap_fit_items (s : Bytes) :
    (∀ m ∈ fitFramer.items s, Fits m) ∧ s = (fitFramer.items s).flatMap Message.wire ++ fitFramer.rest s := by
  induction s using Framer.induct (F := fitFramer) with
  | hnone s hnext =>
    rw [Framer.items_of_none hnext, Framer.rest_of_none hnext]
    simp
  | hsome s m r hnext ih =>
    obtain ⟨hm, rfl⟩ := fit_next_eq_some.mp hnext
    rw [Framer.items_of_some hnext, Framer.rest_of_some hnext]
    refine ⟨by simpa [hm] using ih.1, ?_⟩
    rw [flatMap_cons, append_assoc, ← ih.2]

theorem BadHeader.fit_next (h : BadHeader r) (t : Bytes) : fitFramer.next (r ++ t) = none := by
  cases hnext : fitFramer.next (r ++ t) with
  | none => rfl
  | some x =>
    obtain ⟨m, u⟩ := x
    have hframe : nextFrame (r ++ t) = some (m, u) := (filter_eq_some_iff.mp hnext).1
    have hitems := h.items t
    rw [Framer.items_of_some (F := frameFramer) hframe] at hitems
    cases hitems

theorem BadHeader.append (h : BadHeader r) (t : Bytes) : BadHeader (r ++ t) := by
  obtain ⟨hlen, hbad⟩ := h
  rw [RETRACE_RPC_HEADER_SZ] at hlen
  refine ⟨by rw [RETRACE_RPC_HEADER_SZ, length_append]; omega, ?_⟩
  have hget : ∀ i < 12, (r ++ t)[i]? = r[i]? := fun i hi => getElem?_append_left (by omega)
  rw [take_append_of_le_length (by omega)]
  have hlength : get_u32le ((r ++ t).drop 8) = get_u32le (r.drop 8) := by
    simp only [get_u32le, getD_eq_getElem?_getD, getElem?_drop, hget _ (by omega : 8 + 0 < 12),
      hget _ (by omega : 8 + 1 < 12), hget _ (by omega : 8 + 2 < 12), hget _ (by omega : 8 + 3 < 12)]
  rwa [hlength]

theorem decode_error_iff (hlen : 12 ≤ s.length) :
    (∃ e, retrace_rpc_frame_decode (some s) s.length = .error e) ↔ BadHeader s := by
  unfold retrace_rpc_frame_decode BadHeader
  simp only [RETRACE_RPC_HEADER_SZ, hlen, true_and, if_neg (not_lt.mpr hlen)]
  by_cases hmagic : s.take 4 = RETRACE_RPC_MAGIC
  · by_cases hlong : RETRACE_RPC_PAYLOAD_MAX < (get_u32le (s.drop 8)).toNat <;> simp [hmagic, hlong]
  · simp [hmagic]

theorem not_badHeader_of_decode
    (hdecode : retrace_rpc_frame_decode (some b.buf) b.fill = .ok fr) : ¬BadHeader b.content := by
  intro hbad
  have hlen : 12 ≤ b.content.length := hbad.1
  obtain ⟨e, he⟩ := (decode_error_iff hlen).mpr hbad
  rw [decode_content (by rwa [content_length] at hlen), he] at hdecode
  cases hdecode

theorem agent_frames_conn_frames (hfuel : b.fill ≤ fuel) : (agent_frames fuel b).1 = (conn_frames fuel b).1 ∧
      (BadHeader (conn_frames fuel b).2.content → (agent_frames fuel b).2.content = []) ∧
      (¬BadHeader (conn_frames fuel b).2.content → (agent_frames fuel b).2 = (conn_frames fuel b).2) := by
  have hshort : b.fill < RETRACE_RPC_HEADER_SZ → ¬BadHeader b.content := by
    intro hlt hbad
    have := hbad.1
    rw [content_length] at this
    omega
  induction fuel generalizing b with
  | zero =>
    refine ⟨rfl, fun hbad => absurd hbad (hshort ?_), fun _ => rfl⟩
    rw [RETRACE_RPC_HEADER_SZ]
    omega
  | succ fuel ih =>
    rw [agent_frames, conn_frames]
    by_cases hlt : b.fill < RETRACE_RPC_HEADER_SZ
    · rw [if_pos hlt, if_pos hlt]
      exact ⟨rfl, fun hbad => absurd hbad (hshort hlt), fun _ => rfl⟩
    · rw [if_neg hlt, if_neg hlt]
      have hfill : 12 ≤ b.fill := Nat.le_of_not_lt hlt
      cases hdecode : retrace_rpc_frame_decode (some b.buf) b.fill with
      | error e =>
        have hbad : BadHeader b.content :=
          (decode_error_iff (by rwa [content_length])).mp ⟨e, by rw [← decode_content hfill]; exact hdecode⟩
        exact ⟨rfl, fun _ => rfl, fun hnot => absurd hbad hnot⟩
      | ok fr =>
        simp only
        by_cases hcomplete : RETRACE_RPC_HEADER_SZ + fr.length.toNat ≤ b.fill
        · rw [dif_pos hcomplete, dif_pos hcomplete]
          have hless : (b.shift (RETRACE_RPC_HEADER_SZ + fr.length.toNat) hcomplete).fill ≤ fuel := by
            show b.fill - (RETRACE_RPC_HEADER_SZ + fr.length.toNat) ≤ fuel
            rw [RETRACE_RPC_HEADER_SZ]
            omega
          obtain ⟨hitems, hbad, hgood⟩ :=
              @ih (b.shift (RETRACE_RPC_HEADER_SZ + fr.length.toNat) hcomplete) hless (by
            intro hlt' hbad'
            have := hbad'.1
            rw [content_length] at this
            omega)
          exact ⟨congrArg (List.cons _) hitems, hbad, hgood⟩
        · rw [dif_neg hcomplete, dif_neg hcomplete]
          exact ⟨rfl, fun hbad => absurd hbad (not_badHeader_of_decode hdecode), fun _ => rfl⟩

theorem agent_readable_spec (hb : st.conn = some b) (hpending : st.pending ≠ []) (hn : 0 < n) :
    (b.fill = AGENT_BUF_SIZE ∧ agent_readable st n = { st with conn := none }) ∨
      ∃ d b', d = st.pending.take (min n (AGENT_BUF_SIZE - b.fill)) ∧ d ≠ [] ∧
        st.pending = d ++ (agent_readable st n).pending ∧ (agent_readable st n).conn = some b' ∧
        (agent_readable st n).handed = st.handed ++ fitFramer.items (b.content ++ d) ∧
        (BadHeader (fitFramer.rest (b.content ++ d)) → b'.content = []) ∧
        (¬BadHeader (fitFramer.rest (b.content ++ d)) → b'.content = fitFramer.rest (b.content ++ d)) := by
  have hfits := b.fits
  unfold agent_readable
  rw [hb]
  simp only [if_neg hpending]
  split
  · next hnil =>
    refine .inl ⟨?_, rfl⟩
    rw [RecvBuffer.readBytes, take_eq_nil_iff] at hnil
    rcases hnil with hmin | hnil
    · omega
    · exact absurd hnil hpending
  · next hne =>
    have hroom := b.readBytes_fits st.pending n
    have hsplit : b.readBytes st.pending n ++ st.pending.drop (b.readBytes st.pending n).length = st.pending :=
      (prefix_iff_eq_append.mp <| take_prefix _ _)
    have happ := append_content hroom
    have hsmall : (b.content ++ b.readBytes st.pending n).length ≤ AGENT_BUF_SIZE := by
      rw [length_append, content_length]
      exact hroom
    obtain ⟨hitems, hrest⟩ := conn_frames_spec _ happ (by rw [← happ, content_length])
    obtain ⟨hagent, hbad, hgood⟩ := agent_frames_conn_frames (le_refl (b.append _ hroom).fill)
    rw [(items_fit hsmall).1] at hitems
    rw [hrest, (items_fit hsmall).2] at hbad hgood
    refine .inr ⟨_, _, rfl, hne, hsplit.symm, rfl, ?_, hbad, fun hnot => ?_⟩
    · rw [hagent, hitems]
      rfl
    · rw [hgood hnot, hrest, (items_fit hsmall).2]
      rfl

/-- The frames were handed on up to some point of the stream, or all of them and what is left of the
stream lies behind a bad header. -/
inductive Calm (s : Bytes) (st : AgentStream) : Prop where
  | before (u : Bytes) (b : RecvBuffer AGENT_BUF_SIZE) (hs : s = u ++ st.pending) (hconn : st.conn = some b)
      (hhanded : st.handed = fitFramer.items u) (hcontent : b.content = fitFramer.rest u)
      (hgood : ¬BadHeader (fitFramer.rest u))
  | behind (q : Nat) (b : RecvBuffer AGENT_BUF_SIZE) (hq : 12 ≤ q) (hbad : BadHeader (fitFramer.rest s))
      (hconn : st.conn = some b) (hhanded : st.handed = fitFramer.items s)
      (hcontent : b.content ++ st.pending = (fitFramer.rest s).drop q)
  | dropped (hconn : st.conn = none) (hhanded : st.handed = fitFramer.items s)
      (hwhy : BadHeader (fitFramer.rest s) ∨ AGENT_BUF_SIZE < (fitFramer.rest s).length)

theorem items_of_stuck (h : fitFramer.next (fitFramer.rest u ++ p) = none) :
    fitFramer.items (u ++ p) = fitFramer.items u ∧ fitFramer.rest (u ++ p) = fitFramer.rest u ++ p := by
  rw [Framer.items_append, Framer.rest_append, Framer.items_of_none h, Framer.rest_of_none h, append_nil]
  exact ⟨rfl, rfl⟩

theorem next_of_full (hfull : (fitFramer.rest u).length = AGENT_BUF_SIZE) :
    fitFramer.next (fitFramer.rest u ++ p) = none := by
  cases hnext : fitFramer.next (fitFramer.rest u ++ p) with
  | none => rfl
  | some x =>
    obtain ⟨m, t⟩ := x
    obtain ⟨hm, heq⟩ := fit_next_eq_some.mp hnext
    -- the frame would be complete in the buffer
    obtain ⟨t', ht'⟩ : m.wire <+: fitFramer.rest u :=
      prefix_of_prefix_length_le ⟨t, heq.symm⟩ (prefix_append _ _) (hfull ▸ hm.2)
    have hnone : fitFramer.next (fitFramer.rest u) = none := Framer.next_rest u
    rw [fit_next_eq_some.mpr ⟨hm, ht'.symm⟩] at hnone
    cases hnone

theorem Calm.readable (hcalm : ¬FrameBehindBad s) (h : Calm s st) (hn : 0 < n) : Calm s (agent_readable st n) := by
  -- behind the bad header there is no frame
  have hnone : ∀ q, 12 ≤ q → BadHeader (fitFramer.rest s) → ∀ c p, c ++ p = (fitFramer.rest s).drop q →
      fitFramer.next c = none := by
    intro q hq hbad c p hc
    cases hnext : fitFramer.next c with
    | none => rfl
    | some x =>
      obtain ⟨m, t⟩ := x
      obtain ⟨hm, rfl⟩ := fit_next_eq_some.mp hnext
      obtain ⟨hms, hs⟩ := flatMap_fit_items s
      exact absurd ⟨_, _, hms, hs, hbad, q, m, t ++ p, hq, hm, by rw [← hc, append_assoc]⟩ hcalm
  cases h with
  | dropped hconn hhanded hwhy =>
    have hsame : agent_readable st n = st := by simp [agent_readable, hconn]
    rw [hsame]
    exact .dropped hconn hhanded hwhy
  | before u b hs hconn hhanded hcontent hgood =>
    by_cases hp : st.pending = []
    · have hsame : agent_readable st n = st := by simp [agent_readable, hconn, hp]
      rw [hsame]
      exact .before u b hs hconn hhanded hcontent hgood
    rcases agent_readable_spec hconn hp hn with ⟨hfull, hdrop⟩ | ⟨d, b', -, hd, hsplit, hconn',
      hhanded', hbad', hgood'⟩
    · rw [hdrop]
      rw [← content_length, hcontent] at hfull
      obtain ⟨hi, hr⟩ := items_of_stuck (p := st.pending) (next_of_full hfull)
      rw [← hs] at hi hr
      have := length_pos_iff.mpr hp
      exact .dropped rfl (hhanded.trans hi.symm) (.inr (by rw [hr, length_append]; omega))
    · rw [hcontent, ← Framer.rest_append] at hbad' hgood'
      have hs' : s = (u ++ d) ++ (agent_readable st n).pending := by rw [hs, append_assoc, ← hsplit]
      have hitems : (agent_readable st n).handed = fitFramer.items (u ++ d) := by
        rw [hhanded', hhanded, hcontent, ← Framer.items_append]
      by_cases hbad : BadHeader (fitFramer.rest (u ++ d))
      · obtain ⟨hi, hr⟩ := items_of_stuck (BadHeader.fit_next hbad (agent_readable st n).pending)
        rw [← hs'] at hi hr
        refine .behind (fitFramer.rest (u ++ d)).length b' hbad.1 ?_ hconn' (hitems.trans hi.symm) ?_
        · rw [hr]
          exact BadHeader.append hbad _
        · rw [hbad' hbad, hr, drop_left, nil_append]
      · exact .before (u ++ d) b' hs' hconn' hitems (hgood' hbad) hbad
  | behind q b hq hbad hconn hhanded hcontent =>
    by_cases hp : st.pending = []
    · have hsame : agent_readable st n = st := by simp [agent_readable, hconn, hp]
      rw [hsame]
      exact .behind q b hq hbad hconn hhanded hcontent
    rcases agent_readable_spec hconn hp hn with ⟨-, hdrop⟩ | ⟨d, b', -, hd, hsplit, hconn',
      hhanded', hbad', hgood'⟩
    · rw [hdrop]
      exact .dropped rfl hhanded (.inl hbad)
    · have hc : (b.content ++ d) ++ (agent_readable st n).pending = (fitFramer.rest s).drop q := by
        rw [← hcontent, append_assoc, ← hsplit]
      have hnext := hnone q hq hbad _ _ hc
      rw [Framer.items_of_none hnext, append_nil] at hhanded'
      rw [Framer.rest_of_none hnext] at hbad' hgood'
      by_cases hb : BadHeader (b.content ++ d)
      · refine .behind (q + (b.content ++ d).length) b' (by omega) hbad hconn' (hhanded'.trans hhanded) ?_
        rw [hbad' hb, ← drop_drop, ← hc, drop_left, nil_append]
      · exact .behind q b' hq hbad hconn' (hhanded'.trans hhanded) (by rw [hgood' hb, hc])

theorem not_badHeader_nil : ¬BadHeader [] := fun h => absurd h.1 (by decide)

theorem calm_stream (hcalm : ¬FrameBehindBad s) (hns : 0 ∉ ns) : Calm s (agent_stream b s ns) := by
  have hrun : ∀ (ns : List Nat) st, 0 ∉ ns → Calm s st → Calm s (ns.foldl agent_readable st) := by
    intro ns
    induction ns with
    | nil => exact fun st _ h => h
    | cons n ns ih =>
      intro st hns h
      simp only [mem_cons, not_or] at hns
      exact ih _ hns.2 (h.readable hcalm (Nat.pos_of_ne_zero (Ne.symm hns.1)))
  exact hrun ns _ hns (.before [] b.reset rfl rfl rfl rfl not_badHeader_nil)

theorem calm_handed (hcalm : ¬FrameBehindBad s)
    (h : Delivers b s ns) : (agent_stream b s ns).handed = fitFramer.items s := by
  cases calm_stream hcalm h.1 with
  | before u b' hs hconn hhanded hcontent hgood =>
    have hnil : (agent_stream b s ns).pending = [] := h.2.resolve_right (by rw [hconn]; exact some_ne_none _)
    rw [hnil, append_nil] at hs
    rw [hhanded, hs]
  | behind q b' hq hbad hconn hhanded hcontent => exact hhanded
  | dropped hconn hhanded hwhy => exact hhanded

theorem wire_length : m.wire.length = 12 + m.payload.length := by
  rw [Message.wire, length_append, header_length]

def Fresh (ms : List Message) (p : Bytes) (st : AgentStream) : Prop :=
  st.handed = ms ∧ st.pending = p ∧ ∃ b, st.conn = some b ∧ b.content = []

theorem Fresh.read (h : Fresh ms (p ++ t) st) (hp : p ≠ [])
    (hlen : p.length ≤ AGENT_BUF_SIZE) (hrest : fitFramer.rest p = [] ∨ BadHeader (fitFramer.rest p)) :
    Fresh (ms ++ fitFramer.items p) t (agent_readable st p.length) := by
  obtain ⟨hhanded, hpending, b, hconn, hcontent⟩ := h
  have hfill : b.fill = 0 := by rw [← content_length, hcontent, length_nil]
  have hne : st.pending ≠ [] := by simp [hpending, hp]
  rcases agent_readable_spec hconn hne (length_pos_iff.mpr hp) with
    ⟨hfull, -⟩ | ⟨d, b', hd, -, hsplit, hconn', hhanded', hbad', hgood'⟩
  · exact absurd (hfill.symm.trans hfull) (by decide)
  · have hdp : d = p := by
      rw [hd, hfill, Nat.sub_zero, Nat.min_eq_left hlen, hpending, take_left]
    subst hdp
    rw [hcontent, nil_append] at hhanded' hbad' hgood'
    rw [hpending] at hsplit
    refine ⟨by rw [hhanded', hhanded], (append_cancel_left hsplit).symm, b', hconn', ?_⟩
    by_cases hbad : BadHeader (fitFramer.rest d)
    · exact hbad' hbad
    · rw [hgood' hbad]
      exact hrest.resolve_right hbad

theorem Fresh.frames {ms₀ ms : List Message} (hms : ∀ m ∈ ms, Fits m) {r : Bytes} {st : AgentStream}
    (h : Fresh ms₀ (ms.flatMap Message.wire ++ r) st) :
    0 ∉ ms.map (·.wire.length) ∧ Fresh (ms₀ ++ ms) r ((ms.map (·.wire.length)).foldl agent_readable st) := by
  induction ms generalizing ms₀ st with
  | nil => exact ⟨by simp, by simpa using h⟩
  | cons m ms ih =>
    have hm := hms m (by simp)
    have hne : m.wire ≠ [] := ne_nil_of_length_pos (by rw [wire_length]; omega)
    have hnext : fitFramer.next m.wire = some (m, []) := fit_next_eq_some.mpr ⟨hm, (append_nil _).symm⟩
    have hnil : fitFramer.items [] = [] ∧ fitFramer.rest [] = [] := ⟨rfl, rfl⟩
    rw [flatMap_cons, append_assoc] at h
    have hread := h.read hne hm.2 (.inl (by rw [Framer.rest_of_some hnext, hnil.2]))
    rw [Framer.items_of_some hnext, hnil.1] at hread
    obtain ⟨hpos, hrun⟩ := ih (fun m hm => hms m (by simp [hm])) hread
    refine ⟨?_, ?_⟩
    · simp only [map_cons, mem_cons, not_or]
      exact ⟨fun h0 => hne (length_eq_zero_iff.mp h0.symm), hpos⟩
    · simpa using hrun

theorem Fresh.skip (h : Fresh ms p st) (hbad : BadHeader p) {k : Nat}
    (hk : 12 ≤ k) (hle : k ≤ p.length) (hsmall : k ≤ AGENT_BUF_SIZE) :
    Fresh ms (p.drop k) (agent_readable st k) := by
  have hlen : (p.take k).length = k := length_take_of_le hle
  have hbad' : BadHeader (p.take k) := by
    obtain ⟨h12, hwrong⟩ := hbad
    refine ⟨by rw [RETRACE_RPC_HEADER_SZ, hlen]; exact hk, ?_⟩
    have hget : ∀ i < 12, (p.take k)[i]? = p[i]? := fun i hi => getElem?_take_of_lt (by omega)
    have hlength : get_u32le ((p.take k).drop 8) = get_u32le (p.drop 8) := by
      simp only [get_u32le, getD_eq_getElem?_getD, getElem?_drop, hget _ (by omega : 8 + 0 < 12),
        hget _ (by omega : 8 + 1 < 12), hget _ (by omega : 8 + 2 < 12), hget _ (by omega : 8 + 3 < 12)]
    rwa [take_take, Nat.min_eq_left (by omega), hlength]
  have hnone : fitFramer.next (p.take k) = none := by
    have := BadHeader.fit_next hbad' []
    rwa [append_nil] at this
  have hne : p.take k ≠ [] := by
    intro hnil
    rw [hnil, length_nil] at hlen
    omega
  rw [← take_append_drop k p] at h
  have hread := h.read hne (by omega) (.inr (by rwa [Framer.rest_of_none hnone]))
  rwa [hlen, Framer.items_of_none hnone, append_nil] at hread

theorem exists_bad_drop (hlen : 12 ≤ p.length) :
    ∃ k, 12 ≤ k ∧ k ≤ 13 ∧ k ≤ p.length ∧ ((p.drop k).length < 12 ∨ BadHeader (p.drop k)) := by
  have hwrong : ∀ k, (p.drop k).take 4 ≠ RETRACE_RPC_MAGIC → (p.drop k).length < 12 ∨ BadHeader (p.drop k) := by
    intro k hk
    rcases Nat.lt_or_ge (p.drop k).length 12 with hlt | hge
    · exact .inl hlt
    · exact .inr ⟨hge, .inl hk⟩
  by_cases hmagic : (p.drop 12).take 4 = RETRACE_RPC_MAGIC
  · have h1 : p[13]? = some 84 := by
      have := congrArg (·[1]?) hmagic
      simpa [getElem?_take, getElem?_drop, RETRACE_RPC_MAGIC] using this
    have hlong := (List.getElem?_eq_some_iff.mp h1).1
    refine ⟨13, by omega, le_refl _, by omega, hwrong 13 fun hmagic' => ?_⟩
    have h2 : p[13]? = some 82 := by
      have := congrArg (·[0]?) hmagic'
      simpa [getElem?_take, getElem?_drop, RETRACE_RPC_MAGIC] using this
    rw [h1] at h2
    cases h2
  · exact ⟨12, le_refl _, by omega, hlen, hwrong 12 hmagic⟩

theorem Fresh.nothing (hp : p.length < 12 ∨ BadHeader p)
    (h : Fresh ms p st) : ∃ ns : List Nat, 0 ∉ ns ∧ (ns.foldl agent_readable st).handed = ms ∧
      (ns.foldl agent_readable st).pending = [] := by
  induction hn : p.length using Nat.strong_induction_on generalizing p st with
  | _ n ih =>
    subst hn
    by_cases hnil : p = []
    · exact ⟨[], by simp, h.1, h.2.1.trans hnil⟩
    rcases hp with hshort | hbad
    · -- what is too short for a header stays in the buffer
      obtain ⟨hhanded, hpending, b, hconn, hcontent⟩ := h
      have hfill : b.fill = 0 := by rw [← content_length, hcontent, length_nil]
      rcases agent_readable_spec hconn (hpending ▸ hnil) (by omega : 0 < 12) with
        ⟨hfull, -⟩ | ⟨d, b', hd, -, hsplit, -, hhanded', -, -⟩
      · exact absurd (hfill.symm.trans hfull) (by decide)
      · have hdp : d = p := by
          rw [hd, hfill, hpending]
          exact take_of_length_le (le_trans (by omega) (by decide : 12 ≤ min 12 (AGENT_BUF_SIZE - 0)))
        have hnone : fitFramer.next p = none := by
          rw [fit_next_of_le (le_trans hshort.le (by decide))]
          refine not_nextFrame.mpr fun m t _ heq => ?_
          rw [heq, length_append, wire_length] at hshort
          omega
        refine ⟨[12], by simp, ?_, ?_⟩
        · show (agent_readable st 12).handed = ms
          rw [hhanded', hcontent, nil_append, hdp, Framer.items_of_none hnone, append_nil, hhanded]
        · show (agent_readable st 12).pending = []
          rw [hpending, hdp] at hsplit
          exact append_cancel_left (hsplit.symm.trans (append_nil p).symm)
    · have h12 : 12 ≤ p.length := hbad.1
      obtain ⟨k, hk, hk', hle, hdrop⟩ := exists_bad_drop h12
      have hread := h.skip hbad hk hle (le_trans hk' (by decide))
      obtain ⟨ns, hpos, hrun⟩ := ih (p.drop k).length (by rw [length_drop]; omega) hdrop hread rfl
      exact ⟨k :: ns, by simp only [mem_cons, not_or]; exact ⟨by omega, hpos⟩, hrun⟩

theorem Fresh.found (hm : Fits m) {q : Nat} (hq : 12 ≤ q)
    (hbad : BadHeader p) (hp : p.drop q = m.wire ++ t) (h : Fresh ms p st) :
    ∃ ns : List Nat, 0 ∉ ns ∧ Fresh (ms ++ [m]) t (ns.foldl agent_readable st) := by
  induction hn : q using Nat.strong_induction_on generalizing p q st with
  | _ n ih =>
    subst hn
    have hlong : q + 12 ≤ p.length := by
      have := congrArg List.length hp
      rw [length_drop, length_append, wire_length] at this
      omega
    by_cases hsmall : q ≤ AGENT_BUF_SIZE
    · -- the read ends where the message begins
      have hle : q ≤ p.length := by omega
      have hread := h.skip hbad hq hle hsmall
      rw [hp] at hread
      obtain ⟨hpos, hrun⟩ := @Fresh.frames _ [m] (by simpa using hm) t _ (by simpa using hread)
      refine ⟨[q, m.wire.length], ?_, hrun⟩
      simp only [mem_cons, not_mem_nil, or_false, not_or]
      exact ⟨by omega, by simpa using hpos⟩
    · -- a read of a few bytes that leaves a bad header in front
      have hbuf : 24 ≤ AGENT_BUF_SIZE := by decide
      obtain ⟨k, hk, hk', hle, hdrop⟩ := exists_bad_drop (by omega : 12 ≤ p.length)
      have hread := h.skip hbad hk hle (le_trans hk' (by decide))
      have hbad' : BadHeader (p.drop k) := by
        refine hdrop.resolve_left ?_
        rw [length_drop]
        omega
      have hp' : (p.drop k).drop (q - k) = m.wire ++ t := by
        rw [drop_drop, ← hp]
        congr 1
        omega
      obtain ⟨ns, hpos, hrun⟩ := ih (q - k) (by omega) (by omega) hbad' hp' hread rfl
      exact ⟨k :: ns, by simp only [mem_cons, not_or]; exact ⟨by omega, hpos⟩, hrun⟩

theorem handed_length_le (ns : List Nat) (st : AgentStream) :
    st.handed.length ≤ (ns.foldl agent_readable st).handed.length := by
  have hstep : ∀ (st : AgentStream) n, st.handed.length ≤ (agent_readable st n).handed.length := by
    intro st n
    unfold agent_readable
    split
    · exact le_refl _
    · split_ifs
      · exact le_refl _
      · exact le_refl _
      · simp
  induction ns generalizing st with
  | nil => exact le_refl _
  | cons n ns ih => exact le_trans (hstep st n) (ih _)

theorem exists_reads (st : AgentStream) : ∃ ns : List Nat, 0 ∉ ns ∧
    ((ns.foldl agent_readable st).pending = [] ∨ (ns.foldl agent_readable st).conn = none) := by
  induction hn : st.pending.length using Nat.strong_induction_on generalizing st with
  | _ n ih =>
    subst hn
    by_cases hp : st.pending = []
    · exact ⟨[], by simp, .inl hp⟩
    cases hconn : st.conn with
    | none => exact ⟨[], by simp, .inr hconn⟩
    | some b =>
      rcases agent_readable_spec hconn hp Nat.one_pos with ⟨-, hdrop⟩ | ⟨d, b', -, hd, hsplit, -⟩
      · exact ⟨[1], by simp, .inr (congrArg AgentStream.conn hdrop)⟩
      · have hless : (agent_readable st 1).pending.length < st.pending.length := by
          have := congrArg List.length hsplit
          rw [length_append] at this
          have := length_pos_iff.mpr hd
          omega
        obtain ⟨ns, hpos, hend⟩ := ih _ hless _ rfl
        exact ⟨1 :: ns, by simpa using hpos, hend⟩

theorem two_readings (h : FrameBehindBad s) (b : RecvBuffer AGENT_BUF_SIZE) :
    ∃ ns ns', Delivers b s ns ∧ Delivers b s ns' ∧
      (agent_stream b s ns).handed.length < (agent_stream b s ns').handed.length := by
  obtain ⟨ms, r, hms, rfl, hbad, q, m, t, hq, hm, hr⟩ := h
  have hstart : Fresh [] (ms.flatMap Message.wire ++ r)
      { conn := some b.reset, pending := ms.flatMap Message.wire ++ r } :=
    ⟨rfl, rfl, b.reset, rfl, rfl⟩
  obtain ⟨hpos, hfresh⟩ := hstart.frames hms
  obtain ⟨ns, hns, hnone, hend⟩ := hfresh.nothing (.inr hbad)
  obtain ⟨ns', hns', hfound⟩ := hfresh.found hm hq hbad hr
  obtain ⟨ns'', hns'', hend''⟩ := exists_reads (ns'.foldl agent_readable
    ((ms.map fun m => m.wire.length).foldl agent_readable
      { conn := some b.reset, pending := ms.flatMap Message.wire ++ r }))
  refine ⟨(ms.map fun m => m.wire.length) ++ ns, (ms.map fun m => m.wire.length) ++ (ns' ++ ns''),
    ⟨?_, .inl ?_⟩, ⟨?_, ?_⟩, ?_⟩
  · simp only [mem_append, not_or]
    exact ⟨hpos, hns⟩
  · rw [agent_stream, foldl_append]
    exact hend
  · simp only [mem_append, not_or]
    exact ⟨hpos, hns', hns''⟩
  · rw [agent_stream, foldl_append, foldl_append]
    exact hend''
  · rw [agent_stream, agent_stream, foldl_append, foldl_append, foldl_append, hnone]
    refine lt_of_lt_of_le ?_ (handed_length_le ns'' _)
    simp [hfound.1]

theorem items_flatMap_fit (hms : ∀ m ∈ ms, Fits m) (r : Bytes) :
    fitFramer.items (ms.flatMap Message.wire ++ r) = ms ++ fitFramer.items r ∧
      fitFramer.rest (ms.flatMap Message.wire ++ r) = fitFramer.rest r := by
  induction ms with
  | nil => exact ⟨rfl, rfl⟩
  | cons m ms ih =>
    obtain ⟨hm, hms⟩ := forall_mem_cons.mp hms
    have hnext : fitFramer.next ((m :: ms).flatMap Message.wire ++ r) = some (m, ms.flatMap Message.wire ++ r) :=
      fit_next_eq_some.mpr ⟨hm, by rw [flatMap_cons, append_assoc]⟩
    rw [Framer.items_of_some hnext, Framer.rest_of_some hnext, (ih hms).1, (ih hms).2]
    exact ⟨rfl, rfl⟩

theorem not_frameBehindBad (h : ¬BadHeader (fitFramer.rest s)) : ¬FrameBehindBad s := by
  rintro ⟨ms, r, hms, rfl, hbad, -⟩
  have hnone := BadHeader.fit_next hbad []
  rw [append_nil] at hnone
  rw [(items_flatMap_fit hms r).2, Framer.rest_of_none hnone] at h
  exact h hbad

/-- Each round reads something as long as the connection is there. -/
theorem reads_progress (hns : 0 ∉ ns) (h : st.conn = none ∨ st.pending.length ≤ l - k) :
    (ns.foldl agent_readable st).conn = none ∨
      (ns.foldl agent_readable st).pending.length ≤ l - (k + ns.length) := by
  induction ns generalizing st k with
  | nil => exact h
  | cons n ns ih =>
    simp only [mem_cons, not_or] at hns
    have hstep : (agent_readable st n).conn = none ∨ (agent_readable st n).pending.length ≤ l - (k + 1) := by
      cases hconn : st.conn with
      | none => exact .inl (by simp [agent_readable, hconn])
      | some b =>
        by_cases hp : st.pending = []
        · exact .inr (by simp [agent_readable, hconn, hp])
        rcases agent_readable_spec hconn hp
          (Nat.pos_of_ne_zero (Ne.symm hns.1)) with ⟨-, hdrop⟩ | ⟨d, b', -, hd, hsplit, -⟩
        · exact .inl (congrArg AgentStream.conn hdrop)
        · have hless := h.resolve_left (by simp [hconn])
          rw [hsplit, length_append] at hless
          have := length_pos_iff.mpr hd
          exact .inr (by omega)
    have hend := ih hns.2 hstep
    rwa [Nat.add_assoc, Nat.add_comm 1] at hend

theorem agent_stream_fits (hok : ∀ m ∈ ms, m.Ok) (hfit : ∀ m ∈ ms, m.wire.length ≤ AGENT_BUF_SIZE)
    (b : RecvBuffer AGENT_BUF_SIZE) (hns : 0 ∉ ns) (hlen : (ms.flatMap Message.wire).length ≤ ns.length) :
    (agent_stream b (ms.flatMap Message.wire) ns).handed = ms ∧
      (agent_stream b (ms.flatMap Message.wire) ns).conn.isSome := by
  obtain ⟨hitems, hrest⟩ := items_flatMap_fit (fun m hm => ⟨hok m hm, hfit m hm⟩) []
  have hnil : fitFramer.items [] = [] ∧ fitFramer.rest [] = [] := ⟨rfl, rfl⟩
  rw [append_nil, hnil.1, append_nil] at hitems
  rw [append_nil, hnil.2] at hrest
  have hgood : ¬BadHeader (fitFramer.rest (ms.flatMap Message.wire)) := hrest ▸ not_badHeader_nil
  cases calm_stream (not_frameBehindBad hgood) hns with
  | before u b' hs hconn hhanded =>
    have hread := (reads_progress (k := 0) hns (.inr le_rfl)).resolve_left (by rw [← agent_stream, hconn]; simp)
    rw [← agent_stream] at hread
    simp only at hread
    have hnil := length_eq_zero_iff.mp (Nat.le_zero.mp (hread.trans (by omega)))
    rw [hnil, append_nil] at hs
    exact ⟨by rw [hhanded, ← hs, hitems], by rw [hconn]; rfl⟩
  | behind _ _ _ hbad => exact absurd hbad hgood
  | dropped _ _ hwhy =>
    have := hwhy.resolve_left hgood
    rw [hrest] at this
    exact absurd this (Nat.not_lt_zero _)

theorem agent_stream_drops (b : RecvBuffer AGENT_BUF_SIZE) (hok : m.Ok)
    (hlong : AGENT_BUF_SIZE < m.wire.length) (hns : 0 ∉ ns) (hlen : AGENT_BUF_SIZE < ns.length) :
    (agent_stream b m.wire ns).handed = [] ∧ (agent_stream b m.wire ns).conn = none := by
  have hframe : nextFrame m.wire = some (m, []) := nextFrame_eq_some.mpr ⟨hok, (append_nil _).symm⟩
  have hnone : fitFramer.next m.wire = none := by
    show (nextFrame m.wire).filter _ = none
    rw [hframe]
    exact if_neg (by simpa using hlong)
  have hitems := Framer.items_of_none hnone
  have hgood : ¬BadHeader (fitFramer.rest m.wire) := by
    rw [Framer.rest_of_none hnone]
    intro hbad
    have := hbad.items []
    rw [append_nil, Framer.items_of_some (F := frameFramer) hframe] at this
    cases this
  cases calm_stream (not_frameBehindBad hgood) hns with
  | before u b' hs hconn hhanded hcontent =>
    -- the buffer would hold more than it has room for
    have hread := (reads_progress (k := 0) hns (.inr le_rfl)).resolve_left (by rw [← agent_stream, hconn]; simp)
    rw [← agent_stream] at hread
    have hu := (flatMap_fit_items u).2
    rw [hs, Framer.items_append, append_eq_nil_iff] at hitems
    rw [hitems.1, flatMap_nil, nil_append, ← hcontent] at hu
    have hsize := congrArg List.length hs
    have hfits := b'.fits
    rw [hu, length_append, content_length] at hsize
    simp only at hread
    omega
  | behind _ _ _ hbad => exact absurd hbad hgood
  | dropped hconn hhanded => exact ⟨hhanded.trans hitems, hconn⟩

def zeroAgent : RecvBuffer AGENT_BUF_SIZE where
  buf := replicate AGENT_BUF_SIZE 0
  fill := 0
  size := length_replicate
  fits := Nat.zero_le _

/-- The frames handed on do not depend on how a stream is read exactly when no message lies behind a
header that cannot be decoded. -/
theorem chunkFree_iff (s : Bytes) : ChunkFree s ↔ ¬FrameBehindBad s := by
  constructor
  · intro hfree hframe
    obtain ⟨ns, ns', hns, hns', hlt⟩ := two_readings hframe zeroAgent
    exact absurd (congrArg List.length (hfree _ _ ns ns' hns hns')) (Nat.ne_of_lt hlt)
  · intro hcalm b b' ns ns' h h'
    rw [calm_handed hcalm h, calm_handed hcalm h']

/-- Twelve zero bytes and a ping, read at once and in two parts. -/
theorem not_chunkFree_zeros : ¬ChunkFree (replicate 12 0 ++ pingMessage.wire) := by
  intro hfree
  have h := hfree zeroAgent zeroAgent [24] [12, 12] ⟨by decide, .inl (by decide)⟩
    ⟨by decide, .inl (by decide)⟩
  exact absurd h (by decide)

end Retrace.Supervisor
