import Retrace.Supervisor.RingRuns
import Retrace.Supervisor.Proofs.QueueProofs

/-!
# The ring is a queue with exact books

The ring itself is a bounded queue in every run. The books of the losses are exact as long as the counter
does not wrap around and no report is cut in front of the end of its count: the report is formatted into
176 bytes, and the id of the agent can take 95 of them.
-/

namespace Retrace.Supervisor.Queue

open CLib Circular Runs List Option

variable {text : Bytes} {x : Bytes × Nat} {p : Int × AgentRing} {total : UInt64}
  {b : Books} {item : Bytes} {len : Nat} {heap_item : Option Bytes}

theorem peek_len_eq : agent_ring_peek_len r = (held r).head? := by
  rw [agent_ring_peek_len, Buffer.peek_eq, held, head?_map]

theorem held_pop : held (agent_ring_pop r) = (held r).tail := by
  rw [held, agent_ring_pop, Buffer.items_pop, held, map_tail]

theorem content_fill {slot slot' : Slot} {ok : Bool} (hlen : len ≤ item.length) (hheap : ∀ h ∈ heap_item, h = item)
    (h : slot.fill heap_item item len ok = some slot') : slot_content slot' = (item.take len, len) := by
  have htake : ∀ t, (item.take len ++ t).take len = item.take len := fun t => by
    rw [take_append_of_le_length (by simp [hlen]), take_take, Nat.min_self]
  unfold Slot.fill at h
  cases heap_item with
  | some m =>
    cases h
    rw [hheap m rfl]
    rfl
  | none =>
    simp only at h
    split_ifs at h with hshort hok
    · cases h
      show ((memcpy slot.buf 0 (item.take len ++ [0])).take len, len) = (item.take len, len)
      rw [memcpy, take_zero, nil_append, append_assoc, htake]
    · cases h
      show ((item.take len ++ [0]).take len, len) = (item.take len, len)
      rw [htake]

theorem ring_push_held (r : AgentRing) (hlen : len ≤ item.length) (hheap : ∀ h ∈ heap_item, h = item) (ok : Bool) :
    ((ring_push r heap_item item len ok).1 = 0 ∧ r.ring.count < AGENT_RING_CAP ∧
        held (ring_push r heap_item item len ok).2 = held r ++ [(item.take len, len)] ∧
        (ring_push r heap_item item len ok).2.dropped = r.dropped) ∨ ((ring_push r heap_item item len ok).1 = -1 ∧
        (len < AGENT_RING_INLINE → ¬ r.ring.count < AGENT_RING_CAP) ∧
        held (ring_push r heap_item item len ok).2 = held r ∧
        (ring_push r heap_item item len ok).2.dropped = r.dropped + 1) := by
  unfold ring_push
  split
  · next hroom =>
    cases hfill : (r.ring.slots (r.ring.index r.ring.count)).fill heap_item item len ok with
    | some slot =>
      simp only [hfill]
      refine .inl ⟨trivial, hroom, ?_, trivial⟩
      simp only [held, Buffer.items_push, map_append, map_singleton, content_fill hlen hheap hfill]
    | none =>
      simp only [hfill]
      refine .inr ⟨trivial, fun hshort => ?_, ?_, trivial⟩
      · -- a short item needs no memory
        unfold Slot.fill at hfill
        cases heap_item with
        | some m => simp at hfill
        | none => simp [Nat.le_sub_one_of_lt hshort] at hfill
      · simp only [held, Buffer.items_spoil _ _ hroom]
  · next hfull => exact .inr ⟨rfl, fun _ => hfull, rfl, rfl⟩

section

variable {id : Bytes} (now : Int) (delta : UInt64)

def countTag : Bytes := dquote :: (bytes "count" ++ dquote :: bytes ":\"")

theorem countTag_eq : snprintf 48 ([dquote] ++ bytes "count" ++ bytes "\":\"") = countTag := by decide

theorem strstr_marker_head (hid : dquote ∉ id) (rest : Bytes) :
    strstr (marker_head id now delta ++ rest) countTag =
      some (countTag ++ (fmtNat delta.toNat ++ dquote :: rest)) := by
  -- The text is cut in front of its quotation marks; the id may be the word itself, but no colon follows it.
  have htext : marker_head id now delta ++ rest = [lbrace] ++ ([bytes "agent_id", [colon]].flatMap (dquote :: ·) ++
      dquote :: (id ++ (([[comma], bytes "seq", bytes ":0,", bytes "ts",
        colon :: (fmtInt now ++ [comma]), bytes "name",
        [colon], bytes "retrace.agent.dropped", [comma], bytes "attrs", [colon, lbrace]].flatMap (dquote :: ·)) ++
        (countTag ++ (fmtNat delta.toNat ++ dquote :: rest))))) := by
    simp [marker_head, countTag, bytes]
  have hnow : dquote ∉ colon :: (fmtInt now ++ [comma]) := by
    simpa [(fmtInt_plain _).not_mem_dquote] using (by decide : dquote ≠ colon ∧ dquote ≠ comma)
  have hcolon : ∀ s : Bytes, colon :: s ≠ bytes "count" := fun s h => absurd (cons.inj h).1 (by decide)
  rw [htext]
  refine (strstr_skip (by decide) _ _).trans ?_
  refine (strstr_skip_pieces (w := bytes "count") (by decide) _ _ (by decide)).trans ?_
  rw [strstr_cons_of_not, strstr_skip hid]
  · refine (strstr_skip_pieces (w := bytes "count") (by decide) _ _ ?_).trans (strstr_self countTag _)
    simp only [forall_mem_cons, not_mem_nil, false_implies, implies_true, and_true, hnow, ne_eq, hcolon]
    decide
  · exact not_prefix_quoted (w := bytes "count") (t := [dquote]) (by decide) hid (by decide : colon ≠ comma)

theorem jscan_count {body : Bytes} (h : strstr text countTag = some (countTag ++ body)) :
    jscan_str text (bytes "count") 32 = if dquote ∈ body then (body.takeWhile (· ≠ dquote)).take 31 else [] := by
  simp only [jscan_str, countTag_eq, h, drop_left]

theorem marker_count_fits (hid : dquote ∉ id) : marker_count (marker_head id now delta ++ rest) = delta.toNat := by
  have hdigits : (fmtNat delta.toNat).length ≤ 31 :=
    fmtNat_length_le (by decide) (lt_trans delta.toNat_lt (by decide))
  have hplain := (fmtNat_plain delta.toNat).not_mem_dquote
  rw [marker_count, jscan_count (strstr_marker_head now delta hid rest), if_pos (by simp),
    takeWhile_dquote hplain, take_of_length_le hdigits, digitsVal_fmtNat]

theorem marker_count_cut (hid : dquote ∉ id) {cut : Bytes} (hcut : cut ≠ [])
    (htext : text ++ cut = marker_head id now delta) : marker_count text = 0 := by
  cases hfind : strstr text countTag with
  | none =>
    simp only [marker_count, jscan_str, countTag_eq, hfind]
    rfl
  | some s =>
    obtain ⟨hfound, -⟩ := strstr_append_of_eq_some hfind cut
    have hhead := strstr_marker_head now delta hid []
    rw [append_nil, ← htext, hfound, some.injEq] at hhead
    obtain ⟨body, rfl⟩ := prefix_of_strstr hfind
    rw [append_assoc, append_cancel_left_eq] at hhead
    have hbody : body <+: fmtNat delta.toNat := by
      rcases prefix_concat_iff.mp ⟨cut, hhead⟩ with hall | hpart
      · exact absurd (append_cancel_left (hhead.trans (hall.symm.trans (append_nil _).symm))) hcut
      · exact hpart
    have hplain : dquote ∉ body := fun h => (fmtNat_plain delta.toNat).not_mem_dquote (hbody.subset h)
    rw [marker_count, jscan_count hfind, if_neg hplain]
    rfl

theorem marker_count_text (hid : dquote ∉ id) : marker_count (marker_text id now delta total) =
      if (marker_head id now delta).length < 176 then delta.toNat else 0 := by
  have htext : ∀ s, marker_text id now delta total = s →
      s = (marker_head id now delta ++ (bytes ",\"total\":\"" ++ fmtNat total.toNat ++
        bytes "\"\x7d\x7d\x7d\x7d")).take 175 := by
    intro s hs
    rw [← hs, marker_text, snprintf]
    simp only [append_assoc]
  rw [htext _ rfl]
  split_ifs with hfits
  · rw [take_append, take_of_length_le (by omega)]
    exact marker_count_fits now delta hid
  · rw [take_append_of_le_length (by omega)]
    refine marker_count_cut now delta hid ?_ (take_append_drop 175 _)
    rw [Ne, drop_eq_nil_iff]
    omega

end

def Pushed (r : AgentRing) (x : Bytes × Nat) (p : Int × AgentRing) : Prop :=
  (p.1 = 0 ∧ held p.2 = held r ++ [x] ∧ p.2.dropped = r.dropped) ∨
    (p.1 = -1 ∧ held p.2 = held r ∧ p.2.dropped = r.dropped + 1)

theorem pushed_ring_push (hlen : len ≤ item.length) (hheap : ∀ h ∈ heap_item, h = item) :
    Pushed r (item.take len, len) (ring_push r heap_item item len ok) := by
  rcases ring_push_held r hlen hheap ok with ⟨hrc, -, hheld, hdrop⟩ | ⟨hrc, -, hheld, hdrop⟩
  · exact .inl ⟨hrc, hheld, hdrop⟩
  · exact .inr ⟨hrc, hheld, hdrop⟩

theorem pushed_copy (r : AgentRing) (i : RingItem) (ok : Bool) :
    Pushed r i.content (agent_ring_push_copy r i.mem i.len ok) :=
  pushed_ring_push i.readable (fun _ h => absurd h (not_mem_none _))

theorem pushed_heap (r : AgentRing) (i : RingItem) : Pushed r i.content (agent_ring_push_heap r i.mem i.len) :=
  pushed_ring_push i.readable (fun _ h => (some.inj h).symm)

theorem marker_push_cases (b : Books) (now : Int) (total : UInt64) (ok : Bool) :
    ∃ rc r, queue_push b.g false (b.marker now total) ok = (rc, { b.g with ring := r }) ∧
      Pushed b.g.ring (cstr (b.marker now total), (cstr (b.marker now total)).length) (rc, r) ∧
      (rc = 0 ↔ b.g.ring.ring.count < AGENT_RING_CAP) := by
  set text := cstr (b.marker now total) with htext
  have hshort : text.length < AGENT_RING_INLINE := by
    have hcap : (b.marker now total).length ≤ 175 := snprintf_length_le 176 _
    have hcstr : text.length ≤ (b.marker now total).length := cstr_length_le _
    rw [AGENT_RING_INLINE]
    omega
  obtain ⟨p, hp⟩ : ∃ p, p = ring_push b.g.ring none text text.length ok := ⟨_, rfl⟩
  have hpush : queue_push b.g false (b.marker now total) ok = (p.1, { b.g with ring := p.2 }) := by
    rw [hp]
    rfl
  have hcases := ring_push_held b.g.ring (le_refl text.length)
    (fun h (hm : h ∈ (none : Option Bytes)) => absurd hm (not_mem_none _)) ok
  rw [← hp, take_length] at hcases
  refine ⟨p.1, p.2, hpush, ?_⟩
  rcases hcases with ⟨hrc, hroom, hheld, hdrop⟩ | ⟨hrc, hfull, hheld, hdrop⟩
  · exact ⟨.inl ⟨hrc, hheld, hdrop⟩, iff_of_true hrc hroom⟩
  · refine ⟨.inr ⟨hrc, hheld, hdrop⟩, iff_of_false (fun h => ?_) (hfull hshort)⟩
    rw [hrc] at h
    exact absurd h (by decide)

def Books.carried (b : Books) : Nat := (b.markers.map marker_count).sum

/-- What holds of the books in every run; the numbers are right as long as the counter does not wrap
around. -/
structure Books.Inv (b : Books) : Prop where
  fifo : b.accepted = b.released ++ held b.g.ring
  id_plain : dquote ∉ b.g.agent_id
  dropped : b.g.ring.dropped = UInt64.ofNat b.refused
  reported_le : b.refused < 2 ^ 64 → b.g.drops_reported.toNat ≤ b.refused
  due : b.refused < 2 ^ 64 → ∀ total ∈ b.due,
    b.g.drops_reported.toNat < total.toNat ∧ total.toNat ≤ b.refused
  carried_le : b.refused < 2 ^ 64 → b.carried ≤ b.g.drops_reported.toNat

theorem pushed_cases (hp : Pushed b.g.ring x p) :
    (p.1 = 0 ∧ held p.2 = held b.g.ring ++ [x] ∧ p.2.dropped = b.g.ring.dropped ∧
        b.pushed x p = { b with g := { b.g with ring := p.2 }, accepted := b.accepted ++ [x] }) ∨
      (p.1 ≠ 0 ∧ held p.2 = held b.g.ring ∧ p.2.dropped = b.g.ring.dropped + 1 ∧
        b.pushed x p = { b with g := { b.g with ring := p.2 }, refused := b.refused + 1 }) := by
  rcases hp with ⟨hrc, hheld, hdrop⟩ | ⟨hrc, hheld, hdrop⟩
  · exact .inl ⟨hrc, hheld, hdrop, if_pos hrc⟩
  · have hne : p.1 ≠ 0 := by rw [hrc]; decide
    exact .inr ⟨hne, hheld, hdrop, if_neg hne⟩

theorem Books.Inv.pushed (h : b.Inv) (hp : Pushed b.g.ring x p) : (b.pushed x p).Inv := by
  rcases pushed_cases hp with ⟨-, hheld, hdrop, heq⟩ | ⟨-, hheld, hdrop, heq⟩
  · rw [heq]
    refine ⟨?_, h.id_plain, hdrop.trans h.dropped, h.reported_le, h.due, h.carried_le⟩
    show b.accepted ++ [x] = b.released ++ held p.2
    rw [hheld, h.fifo, append_assoc]
  · rw [heq]
    have hlt : b.refused + 1 < 2 ^ 64 → b.refused < 2 ^ 64 := fun hb => by omega
    refine ⟨?_, h.id_plain, ?_, fun hb => ?_, fun hb total ht => ?_, fun hb => h.carried_le (hlt hb)⟩
    · show b.accepted = b.released ++ held p.2
      rw [hheld, h.fifo]
    · show p.2.dropped = UInt64.ofNat (b.refused + 1)
      rw [hdrop, h.dropped, UInt64.ofNat_add]
      rfl
    · exact Nat.le_succ_of_le (h.reported_le (hlt hb))
    · exact (h.due (hlt hb) total ht).imp_right Nat.le_succ_of_le

theorem Books.Inv.delta (h : b.Inv) (hb : b.refused < 2 ^ 64) (ht : total ∈ b.due) :
    b.g.drops_reported.toNat + (total - b.g.drops_reported).toNat = total.toNat := by
  obtain ⟨hlt, -⟩ := h.due hb total ht
  rw [UInt64.toNat_sub_of_le _ _ (UInt64.le_iff_toNat_le.mpr hlt.le)]
  omega

theorem step_marker_cases (hdue : b.due = some total) :
    ∃ r, Pushed b.g.ring (cstr (b.marker now total), (cstr (b.marker now total)).length)
        (if b.g.ring.ring.count < AGENT_RING_CAP then 0 else -1, r) ∧ b.step (.push_marker now ok) =
        if b.g.ring.ring.count < AGENT_RING_CAP then
          { b with
            g := { b.g with ring := r, drops_reported := total }
            due := none
            accepted := b.accepted ++ [(cstr (b.marker now total), (cstr (b.marker now total)).length)]
            markers := b.markers ++ [b.marker now total] }
        else { b with g := { b.g with ring := r }, due := none, refused := b.refused + 1 } := by
  obtain ⟨rc, r, hpush, hout, hrc⟩ := marker_push_cases b now total ok
  refine ⟨r, ?_, ?_⟩
  · split_ifs with hroom
    · rwa [hrc.mpr hroom] at hout
    · rcases hout with ⟨h, -⟩ | ⟨h, hheld, hdrop⟩
      · exact absurd (hrc.mp h) hroom
      · exact .inr ⟨rfl, hheld, hdrop⟩
  · simp only [Books.step, hdue, hpush, Books.pushed]
    by_cases hroom : b.g.ring.ring.count < AGENT_RING_CAP
    · simp only [hrc.mpr hroom, hroom, if_true]
    · have hne : rc ≠ 0 := fun h => hroom (hrc.mp h)
      simp only [hne, hroom, if_false]

theorem dquote_not_mem_jscan_str : dquote ∉ jscan_str payload key cap := by
  unfold jscan_str
  simp only
  split
  · simp
  · split_ifs
    · intro h
      have := mem_takeWhile_imp (mem_of_mem_take h)
      simp at this
    · simp

theorem Books.Inv.push_marker (h : b.Inv) (now : Int) (ok : Bool) : (b.step (.push_marker now ok)).Inv := by
  cases hdue : b.due with
  | none =>
    simp only [Books.step, hdue]
    exact h
  | some total =>
    obtain ⟨r, hout, heq⟩ := step_marker_cases hdue
    have hpushed := h.pushed hout
    rw [heq]
    split_ifs with hroom
    · rw [if_pos hroom, Books.pushed, if_pos rfl] at hpushed
      refine ⟨hpushed.fifo, h.id_plain, hpushed.dropped, fun hb => (h.due hb total hdue).2, fun _ _ ht => ?_,
        fun hb => ?_⟩
      · exact absurd ht (not_mem_none _)
      · have hdelta := h.delta hb hdue
        have hcarried := h.carried_le hb
        have hcount : marker_count (b.marker now total) ≤ (total - b.g.drops_reported).toNat := by
          rw [Books.marker, marker_count_text now _ h.id_plain]
          split_ifs
          · exact le_refl _
          · exact Nat.zero_le _
        simp only [Books.carried, map_append, sum_append, map_singleton, sum_singleton] at hcarried ⊢
        omega
    · rw [if_neg hroom, Books.pushed, if_neg (by simp)] at hpushed
      exact ⟨hpushed.fifo, h.id_plain, hpushed.dropped, hpushed.reported_le,
        fun _ _ ht => absurd ht (not_mem_none _), hpushed.carried_le⟩

/-- Every step of the ring, the report of the drops included, keeps its books. -/
theorem Books.Inv.step (h : b.Inv) (a : RingAct) : (b.step a).Inv := by
  cases a with
  | push_copy i ok => exact h.pushed (pushed_copy b.g.ring i ok)
  | push_heap i => exact h.pushed (pushed_heap b.g.ring i)
  | pop =>
    refine ⟨?_, h.id_plain, h.dropped, h.reported_le, h.due, h.carried_le⟩
    show b.accepted = b.released ++ (agent_ring_peek_len b.g.ring).toList ++ held (agent_ring_pop b.g.ring)
    rw [held_pop, peek_len_eq, h.fifo, append_assoc]
    cases held b.g.ring <;> rfl
  | welcome body =>
    exact ⟨h.fifo, dquote_not_mem_jscan_str, h.dropped, h.reported_le, h.due, h.carried_le⟩
  | load_drops =>
    refine ⟨h.fifo, h.id_plain, h.dropped, h.reported_le, fun hb total ht => ?_, h.carried_le⟩
    have ht : (if b.g.ring.dropped ≠ b.g.drops_reported then some b.g.ring.dropped else none) = some total := ht
    split_ifs at ht with hne
    cases ht
    have hdropped : b.g.ring.dropped.toNat = b.refused := by
      rw [h.dropped, UInt64.toNat_ofNat']
      exact Nat.mod_eq_of_lt hb
    refine ⟨lt_of_le_of_ne (hdropped ▸ h.reported_le hb) fun heq => ?_, hdropped.le⟩
    exact hne (UInt64.toNat_inj.mp heq).symm
  | push_marker now ok => exact h.push_marker now ok

theorem refused_le_step : b.refused ≤ (b.step a).refused := by
  have hpushed : ∀ x p, b.refused ≤ (b.pushed x p).refused := by
    intro x p
    unfold Books.pushed
    split_ifs
    · exact le_refl _
    · exact Nat.le_succ _
  cases a with
  | push_copy i ok => exact hpushed _ _
  | push_heap i => exact hpushed _ _
  | push_marker now ok =>
    cases hdue : b.due with
    | none => simp [Books.step, hdue]
    | some total =>
      obtain ⟨r, -, heq⟩ := step_marker_cases hdue
      rw [heq]
      split_ifs
      · exact le_refl _
      · exact Nat.le_succ _
  | pop => exact le_refl _
  | welcome body => exact le_refl _
  | load_drops => exact le_refl _

theorem carried_step_iff (h : b.Inv) (hb : (b.step a).refused < 2 ^ 64) :
    (b.step a).carried = (b.step a).g.drops_reported.toNat ↔
      b.carried = b.g.drops_reported.toNat ∧ MarkerFits b a := by
  have hpushed : ∀ x p, (b.pushed x p).carried = b.carried ∧
      (b.pushed x p).g.drops_reported = b.g.drops_reported := by
    intro x p
    unfold Books.pushed
    split_ifs <;> exact ⟨rfl, rfl⟩
  cases a with
  | push_copy i ok => simp [Books.step, MarkerFits, hpushed]
  | push_heap i => simp [Books.step, MarkerFits, hpushed]
  | pop => exact (and_iff_left trivial).symm
  | welcome body => exact (and_iff_left trivial).symm
  | load_drops => exact (and_iff_left trivial).symm
  | push_marker now ok =>
    have hbefore := lt_of_le_of_lt refused_le_step hb
    cases hdue : b.due with
    | none => simp [Books.step, MarkerFits, hdue]
    | some total =>
      obtain ⟨r, -, heq⟩ := step_marker_cases hdue
      rw [heq]
      by_cases hroom : b.g.ring.ring.count < AGENT_RING_CAP
      · have hdelta := h.delta hbefore hdue
        have hcarried := h.carried_le hbefore
        have hlt := (h.due hbefore total hdue).1
        have hcount : marker_count (b.marker now total) = _ := marker_count_text now _ h.id_plain
        simp only [MarkerFits, hdue, mem_def, some.injEq, forall_eq', hroom, true_imp_iff,
          if_true, Books.carried, map_append, sum_append, map_singleton,
          sum_singleton, hcount] at hcarried ⊢
        split_ifs with hfits
        · simp only [hfits, and_true]
          omega
        · simp only [hfits, and_false, iff_false]
          omega
      · simp [MarkerFits, hdue, hroom, Books.carried]

theorem carried_run_iff (h : b.Inv) (hb : (run Books.step b acts).refused < 2 ^ 64) :
    (run Books.step b acts).carried = (run Books.step b acts).g.drops_reported.toNat ↔
      b.carried = b.g.drops_reported.toNat ∧ Along Books.step MarkerFits b acts := by
  induction acts generalizing b with
  | nil => simp
  | cons a acts ih =>
    have hle : ∀ (as : List RingAct) (c : Books), c.refused ≤ (run Books.step c as).refused := by
      intro as
      induction as with
      | nil => exact fun c => le_refl _
      | cons a as ih => exact fun c => refused_le_step.trans (ih _)
    have hstep : (b.step a).refused < 2 ^ 64 := lt_of_le_of_lt (hle acts _) hb
    rw [run_cons] at hb ⊢
    rw [ih (h.step a) hb, carried_step_iff h hstep, along_cons, and_assoc]

theorem inv_start : (Books.start newState).Inv where
  fifo := rfl
  id_plain := by decide
  dropped := rfl
  reported_le := fun _ => Nat.le_refl 0
  due := fun _ _ ht => absurd ht (not_mem_none _)
  carried_le := fun _ => Nat.le_refl 0

/-- In every run the ring is a bounded queue with exact books, exactly when fewer than 2^64 items were
refused and no report that the ring took was cut in front of the end of its count. -/
theorem ring_exact_iff (acts : List RingAct) :
    Exact (run Books.step (Books.start newState) acts) ↔
      (run Books.step (Books.start newState) acts).refused < 2 ^ 64 ∧
        Along Books.step MarkerFits (Books.start newState) acts := by
  have hinv := run_preserves Books.Inv (fun _ a h => h.step a) inv_start acts
  constructor
  · intro h
    have hb : (run Books.step (Books.start newState) acts).refused < 2 ^ 64 :=
      h.counted ▸ UInt64.toNat_lt _
    exact ⟨hb, ((carried_run_iff inv_start hb).mp h.reported).2⟩
  · rintro ⟨hb, hfits⟩
    have hcounted : (run Books.step (Books.start newState) acts).g.ring.dropped.toNat =
        (run Books.step (Books.start newState) acts).refused := by
      rw [hinv.dropped, UInt64.toNat_ofNat']
      exact Nat.mod_eq_of_lt hb
    refine ⟨hinv.fifo, ?_, Buffer.count_le _, hcounted, (carried_run_iff inv_start hb).mpr ⟨rfl, hfits⟩, ?_⟩
    · rw [peek_len_eq, hinv.fifo, drop_left]
    · rw [UInt64.le_iff_toNat_le, hcounted]
      exact hinv.reported_le hb

/-- An id of 95 bytes, and an item of 768 bytes for which there is no memory: the report of the loss
ends in front of its count. -/
theorem not_ring_exact :
    ¬ Exact (run Books.step (Books.start newState)
      [.welcome (bytes "\x7b\"agent_id\":\"" ++ replicate 95 97 ++ bytes "\"\x7d"),
        .push_copy ⟨replicate 768 32, 768, length_replicate.ge⟩ false, .load_drops,
          .push_marker 1700000000 true]) :=
  fun h => absurd h.reported (by decide +kernel)

end Retrace.Supervisor.Queue
