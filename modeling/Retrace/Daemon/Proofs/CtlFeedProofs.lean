import Retrace.Daemon.CtlFeed

/-!
# Controller lines come out whole

The inner loop of `retraced_ctl_feed` shifts a line out without moving the NUL behind the content
along. The string `strchr` searches next is then the content followed by stray bytes of what stood
there before (`cstr_shift`), and a newline among these sends the loop out of the content. Whether
there is one depends on the lengths of the lines only (`strays_iff`).
-/

namespace Retrace.Retraced

open CLib Framing List

variable {l s t : Bytes} {b : LineBuffer} {ls : List Bytes} {p : Nat}

theorem lines_of_not_mem (h : newline ∉ s) : lines s = [] :=
  Framer.items_of_none (F := lineFramer) (nextLine_eq_none.mpr h)

theorem lastPart_of_not_mem (h : newline ∉ s) : lastPart s = s :=
  Framer.rest_of_none (F := lineFramer) (nextLine_eq_none.mpr h)

theorem lines_line (hl : newline ∉ l) : lines (l ++ newline :: t) = l :: lines t :=
  Framer.items_of_some (F := lineFramer) (nextLine_line hl t)

theorem lastPart_line (hl : newline ∉ l) : lastPart (l ++ newline :: t) = lastPart t :=
  Framer.rest_of_some (F := lineFramer) (nextLine_line hl t)

theorem lines_append (s t : Bytes) : lines (s ++ t) = lines s ++ lines (lastPart s ++ t) :=
  Framer.items_append s t

theorem lastPart_append (s t : Bytes) : lastPart (s ++ t) = lastPart (lastPart s ++ t) :=
  Framer.rest_append s t

theorem not_mem_lastPart : newline ∉ lastPart s :=
  nextLine_eq_none.mp (Framer.next_rest (F := lineFramer) s)

theorem lines_induct {P : Bytes → Prop} (hlast : ∀ s, newline ∉ s → P s)
    (hline : ∀ l t, newline ∉ l → P t → P (l ++ newline :: t)) (s : Bytes) : P s := by
  refine Framer.induct (F := lineFramer) (fun s h => hlast s (nextLine_eq_none.mp h)) ?_ s
  intro s l t h ht
  obtain ⟨hl, rfl⟩ := nextLine_eq_some.mp h
  exact hline l t hl ht

theorem lastPart_suffix : lastPart s <:+ s := by
  induction s using lines_induct with
  | hlast s h => rw [lastPart_of_not_mem h]
  | hline l t hl ih =>
    rw [lastPart_line hl]
    exact ih.trans ((suffix_cons newline t).trans (suffix_append l _))

theorem lines_eq_nil_iff : lines s = [] ↔ newline ∉ s := by
  refine ⟨fun h hmem => ?_, lines_of_not_mem⟩
  obtain ⟨l, t, rfl, hl⟩ := eq_append_cons_of_mem hmem
  rw [lines_line hl] at h
  cases h

theorem extent_lines (s : Bytes) : extent (lines s) (lastPart s).length = s.length := by
  induction s using lines_induct with
  | hlast s h => simp [lines_of_not_mem h, lastPart_of_not_mem h, extent]
  | hline l t hl ih =>
    simp only [extent, lines_line hl, lastPart_line hl, map_cons, sum_cons, length_append, length_cons] at ih ⊢
    omega

theorem le_extent (ls : List Bytes) (p : Nat) : p ≤ extent ls p := by simp [extent]

theorem newline_mem_drop_iff {k : Nat} (hk : k ≤ s.length) :
    newline ∈ s.drop k ↔ lines s ≠ [] ∧ k + (lastPart s).length < s.length := by
  induction s using lines_induct generalizing k with
  | hlast s h =>
    simp only [lines_of_not_mem h, ne_eq, not_true, false_and, iff_false]
    exact fun hmem => h (mem_of_mem_drop hmem)
  | hline l t hl ih =>
    simp only [lines_line hl, lastPart_line hl, ne_eq, reduceCtorEq, not_false_eq_true, true_and]
    have hext := extent_lines t
    have hle := le_extent (lines t) (lastPart t).length
    simp only [length_append, length_cons] at hk ⊢
    by_cases hkl : k ≤ l.length
    · rw [drop_append_of_le_length hkl]
      simp only [mem_append, mem_cons, true_or, or_true, true_iff]
      omega
    · obtain ⟨j, rfl⟩ := Nat.exists_eq_add_of_lt (Nat.lt_of_not_le hkl)
      have hdrop : (l ++ newline :: t).drop (l.length + j + 1) = t.drop j := by
        simp [drop_append, Nat.add_assoc]
      rw [hdrop, ih (by omega)]
      by_cases ht : lines t = []
      · have hlast := lastPart_of_not_mem (lines_eq_nil_iff.mp ht)
        simp only [ht, hlast, ne_eq, not_true, false_and, false_iff]
        omega
      · simp only [ne_eq, ht, not_false_eq_true, true_and]
        omega

/-- Whether a stray newline is left when the lines `ls` in front of a last part of `p` bytes have been
shifted out, and `stray` says whether there was one before. -/
def strays : List Bytes → Nat → Prop → Prop
  | [], _, stray => stray
  | l :: ls, p, stray => strays ls p (l.length < extent ls p ∧ (stray ∨ ls ≠ [] ∧ p ≤ l.length))

def Within : List Bytes → Nat → Prop
  | [], _ => True
  | l :: ls, p => l.length < extent ls p ∧ Within ls p

theorem within_of_shorter (h : ∀ m ∈ ls, m.length < p) : Within ls p := by
  induction ls with
  | nil => trivial
  | cons l ls ih =>
    have hl := h l (by simp)
    exact ⟨lt_of_lt_of_le hl (le_extent ls p), ih fun m hm => h m (by simp [hm])⟩

theorem not_clear_of_within (hw : Within ls p) (hlong : ∃ m ∈ ls, p ≤ m.length) : clearLines ls p = false := by
  induction ls with
  | nil => simp at hlong
  | cons l ls ih =>
    obtain ⟨hl, hw⟩ := hw
    by_cases hrest : ∃ m ∈ ls, p ≤ m.length
    · simp [clearLines, ih hw hrest]
    · obtain ⟨m, hm, hp⟩ := hlong
      have hml : m = l := by
        rcases mem_cons.mp hm with h | h
        · exact h
        · exact absurd ⟨m, h, hp⟩ hrest
      subst hml
      push Not at hrest
      have hany : ls.any (fun x => decide (p ≤ x.length)) = false := by
        simpa [any_eq_false] using hrest
      have hlt : decide (m.length < p) = false := by simpa using hp
      have hext : decide (extent ls p ≤ m.length) = false := by simpa using hl
      simp [clearLines, hany, hlt, hext]

theorem strays_iff_of : strays ls p stray ↔ (stray ∧ Within ls p) ∨ clearLines ls p = false := by
  induction ls generalizing stray with
  | nil => simp [strays, Within, clearLines]
  | cons l ls ih =>
    rw [strays, ih]
    constructor
    · rintro (⟨⟨hl, hs | ⟨hne, hp⟩⟩, hw⟩ | hclear)
      · exact .inl ⟨hs, hl, hw⟩
      · exact .inr (not_clear_of_within ⟨hl, hw⟩ ⟨l, by simp, hp⟩)
      · exact .inr (by simp [clearLines, hclear])
    · rintro (⟨hs, hl, hw⟩ | hclear)
      · exact .inl ⟨⟨hl, .inl hs⟩, hw⟩
      · by_cases hrest : clearLines ls p = true
        · simp only [clearLines, hrest, Bool.true_and, Bool.or_eq_false_iff, decide_eq_false_iff_not,
            not_lt, not_le, any_eq_false, decide_eq_true_eq] at hclear
          obtain ⟨⟨hp, hshort⟩, hl⟩ := hclear
          refine .inl ⟨⟨hl, .inr ⟨?_, hp⟩⟩, within_of_shorter hshort⟩
          rintro rfl
          simp only [extent, map_nil, sum_nil, Nat.zero_add] at hl
          omega
        · exact .inr (by simpa using hrest)

theorem strays_iff : strays (lines content) (lastPart content).length False ↔ ¬ Clear content := by
  rw [strays_iff_of]
  simp [Clear]

theorem terminate_line (h : cstr b.rbuf = l ++ newline :: t) :
    ∃ w, b.rbuf = l ++ newline :: (t ++ w) ∧ (b.terminate l.length).rbuf = l ++ 0 :: (t ++ w) ∧
      cstr (t ++ w) = t := by
  have hz : 0 ∉ l ++ newline :: t := h ▸ not_mem_zero_cstr _
  have htake := take_of_cstr h
  have heq : b.rbuf = l ++ newline :: (t ++ b.rbuf.drop (l ++ newline :: t).length) := by
    conv_lhs => rw [← take_append_drop (l ++ newline :: t).length b.rbuf, htake]
    simp
  generalize b.rbuf.drop (l ++ newline :: t).length = w at heq
  refine ⟨w, heq, ?_, ?_⟩
  · simp [LineBuffer.terminate, heq]
  · have hcut : cstr b.rbuf = l ++ newline :: cstr (t ++ w) := by
      rw [heq, cstr_append (fun h0 => hz (by simp [h0])), cstr_cons (by decide)]
    rw [h] at hcut
    simpa using hcut.symm

theorem cstr_shift {c stray : Bytes}
    (h : cstr b.rbuf = l ++ newline :: (c ++ stray)) (hfill : b.rfill = l.length + 1 + c.length)
    (hle : l.length + 1 ≤ b.rfill) : cstr ((b.terminate l.length).shift (l.length + 1) hle).rbuf =
      c ++ (if c.length ≤ l.length then l.drop c.length else c.drop (c.length - (l.length + 1)) ++ stray) := by
  obtain ⟨w, -, hterm, hw⟩ := terminate_line h
  have hz : 0 ∉ l ++ newline :: (c ++ stray) := h ▸ not_mem_zero_cstr _
  have hc : 0 ∉ c := fun h0 => hz (by simp [h0])
  have hl : 0 ∉ l := fun h0 => hz (by simp [h0])
  have hstray : cstr (stray ++ w) = stray := by
    rw [append_assoc, cstr_append hc] at hw
    exact append_cancel_left hw
  have hmove : ((b.terminate l.length).shift (l.length + 1) hle).rbuf =
      c ++ (l ++ 0 :: (c ++ stray ++ w)).drop c.length := by
    have hn : (b.terminate l.length).rfill - (l.length + 1) = c.length := by
      show b.rfill - (l.length + 1) = c.length
      omega
    have hdrop : (l ++ 0 :: (c ++ stray ++ w)).drop (l.length + 1) = c ++ stray ++ w := by
      simp [drop_append]
    show memmove _ _ _ = _
    rw [hn, hterm, memmove, hdrop, append_assoc, take_left]
  rw [hmove, cstr_append hc]
  congr 1
  split
  · next hcl =>
    rw [drop_append_of_le_length hcl, cstr_append (fun h0 => hl (mem_of_mem_drop h0))]
    simp
  · next hcl =>
    obtain ⟨j, hj⟩ := Nat.exists_eq_add_of_lt (Nat.lt_of_not_le hcl)
    have hdrop : (l ++ 0 :: (c ++ stray ++ w)).drop c.length = c.drop j ++ (stray ++ w) := by
      rw [hj, Nat.add_assoc, drop_length_add_append, drop_succ_cons, append_assoc,
        drop_append_of_le_length (by omega)]
    have hj' : c.length - (l.length + 1) = j := by omega
    rw [hdrop, hj', cstr_append (fun h0 => hc (mem_of_mem_drop h0)), hstray]

theorem newline_mem_stray_iff {c stray : Bytes} (hl : newline ∉ l) :
    newline ∈ (if c.length ≤ l.length then l.drop c.length else c.drop (c.length - (l.length + 1)) ++ stray) ↔
      l.length < extent (lines c) (lastPart c).length ∧
        (newline ∈ stray ∨ lines c ≠ [] ∧ (lastPart c).length ≤ l.length) := by
  rw [extent_lines]
  split
  · next hcl =>
    constructor
    · exact fun h => absurd (mem_of_mem_drop h) hl
    · exact fun h => absurd h.1 (by omega)
  · next hcl =>
    rw [mem_append, newline_mem_drop_iff (by omega)]
    have hpart := le_extent (lines c) (lastPart c).length
    rw [extent_lines] at hpart
    constructor
    · rintro (⟨hne, hlt⟩ | hs)
      · exact ⟨by omega, .inr ⟨hne, by omega⟩⟩
      · exact ⟨by omega, .inl hs⟩
    · rintro ⟨-, hs | ⟨hne, hle⟩⟩
      · exact .inr hs
      · exact .inl ⟨hne, by omega⟩

def Holding (b : LineBuffer) (part : Bytes) : Prop :=
  b.rbuf.take b.rfill = part ∧ b.rfill = part.length

theorem feed_lines_spec (c : Bytes) : ∀ {stray : Bytes} {fuel : Nat} {b : LineBuffer},
    cstr b.rbuf = c ++ stray → b.rfill = c.length → c.length < fuel →
    (strays (lines c) (lastPart c).length (newline ∈ stray) → feed_lines fuel b = none) ∧
      (¬ strays (lines c) (lastPart c).length (newline ∈ stray) →
        ∃ b', feed_lines fuel b = some (lines c, b') ∧ Holding b' (lastPart c)) := by
  induction c using lines_induct with
  | hlast c hc =>
    intro stray fuel b hb hfill hfuel
    obtain ⟨fuel, rfl⟩ := Nat.exists_eq_add_of_lt hfuel
    simp only [lines_of_not_mem hc, lastPart_of_not_mem hc, strays]
    constructor
    · intro hmem
      -- the newline found stands behind the content
      obtain ⟨a, t, rfl, ha⟩ := eq_append_cons_of_mem hmem
      have hfind : strchr b.rbuf newline = some (c ++ a).length :=
        strchr_of_cstr (by simp [hc, ha]) (by simpa using hb)
      have hout : ¬ (c ++ a).length + 1 ≤ b.rfill := by
        rw [length_append]
        omega
      rw [feed_lines, hfind]
      exact dif_neg hout
    · intro hno
      have hfind : strchr b.rbuf newline = none := strchr_of_not_mem (by simp [hb, hc, hno])
      refine ⟨b, by simp [feed_lines, hfind], ?_, hfill⟩
      have htake := congrArg (List.take c.length) (take_of_cstr hb)
      rw [take_take, length_append, Nat.min_eq_left (by omega), take_left] at htake
      rw [hfill, htake]
  | hline l t hl ih =>
    intro stray fuel b hb hfill hfuel
    obtain ⟨fuel, rfl⟩ : ∃ n, fuel = n + 1 := Nat.exists_eq_succ_of_ne_zero (by omega)
    have hb' : cstr b.rbuf = l ++ newline :: (t ++ stray) := by simpa using hb
    have hfill' : b.rfill = l.length + 1 + t.length := by
      rw [hfill, length_append, length_cons]
      omega
    have hle : l.length + 1 ≤ b.rfill := by omega
    have hline : cstr (b.terminate l.length).rbuf = l := by
      obtain ⟨w, -, hterm, -⟩ := terminate_line hb'
      have hl0 : 0 ∉ l := fun h0 => not_mem_zero_cstr b.rbuf (by simp [hb', h0])
      rw [hterm, cstr_append hl0, cstr_zero_cons, append_nil]
    have hleft : b.rfill - (l.length + 1) = t.length := by omega
    obtain ⟨hbad, hgood⟩ := @ih _ fuel _ (cstr_shift hb' hfill' hle) hleft (by omega)
    rw [newline_mem_stray_iff hl] at hbad hgood
    simp only [lines_line hl, lastPart_line hl, strays]
    rw [feed_lines, strchr_of_cstr hl hb']
    simp only [hle, dite_true, hline]
    constructor
    · intro h
      simp [hbad h]
    · intro h
      obtain ⟨b', hrun, hold⟩ := hgood h
      exact ⟨b', by simp [hrun], hold⟩

theorem Holding.append (hb : Holding b part) (h0 : 0 ∉ part ++ piece) (h : b.rfill + piece.length ≤ 8191) :
    cstr (b.append piece h).rbuf = part ++ piece ∧ (b.append piece h).rfill = (part ++ piece).length := by
  obtain ⟨htake, hfill⟩ := hb
  have hsize := b.size
  refine ⟨?_, by simp [LineBuffer.append, hfill]⟩
  obtain ⟨x, w, hw⟩ : ∃ x w, b.rbuf.drop (b.rfill + piece.length) = x :: w := by
    cases hd : b.rbuf.drop (b.rfill + piece.length) with
    | nil =>
      have := congrArg List.length hd
      rw [length_drop, length_nil] at this
      omega
    | cons x w => exact ⟨x, w, rfl⟩
  have hset : (b.append piece h).rbuf = part ++ piece ++ 0 :: w := by
    have hlen : b.rfill + piece.length = (part ++ piece).length := by rw [length_append, hfill]
    show (memcpy b.rbuf b.rfill piece).set (b.rfill + piece.length) 0 = _
    rw [memcpy, htake, hw, hlen, set_append_right _ _ (le_refl _)]
    simp
  rw [hset, cstr_append h0, cstr_zero_cons, append_nil]

theorem short_lastPart (h : Short (s ++ t)) : Short (lastPart s ++ t) := by
  obtain ⟨hlines, hlast⟩ := h
  rw [lines_append] at hlines
  rw [lastPart_append] at hlast
  exact ⟨fun l hl => hlines l (by simp [hl]), hlast⟩

theorem length_of_short (hpart : newline ∉ part) (h : Short (part ++ t)) : part.length < 8191 := by
  obtain ⟨hlines, hlast⟩ := h
  by_cases ht : newline ∈ t
  · obtain ⟨a, r, rfl, ha⟩ := eq_append_cons_of_mem ht
    have hfirst : newline ∉ part ++ a := by simp [hpart, ha]
    rw [← append_assoc, lines_line hfirst] at hlines
    have := hlines (part ++ a) (by simp)
    rw [length_append] at this
    omega
  · rw [lastPart_of_not_mem (by simp [hpart, ht]), length_append] at hlast
    omega

theorem short_left (h : Short (s ++ t)) : Short s := by
  refine ⟨fun l hl => h.1 l ?_, length_of_short not_mem_lastPart (short_lastPart h)⟩
  rw [lines_append]
  exact mem_append_left _ hl

/-- A call of `retraced_ctl_feed` hands out the lines that are completed, if what stands in the buffer
is clear each time; otherwise it does not come to an end. -/
theorem feed_loop_spec : ∀ {b : LineBuffer} {part data : Bytes}, Holding b part →
    newline ∉ part → 0 ∉ part ++ data → Short (part ++ data) → data.length ≤ fuel →
    ((∀ c ∈ contents fuel part data, Clear c) →
      ∃ fed, feed_loop fuel b data = some fed ∧ fed.rc = 0 ∧ fed.calls = lines (part ++ data) ∧
        Holding fed.buffer (lastPart (part ++ data))) ∧
    (¬ (∀ c ∈ contents fuel part data, Clear c) → feed_loop fuel b data = none) := by
  induction fuel with
  | zero =>
    intro b part data hb hpart _ _ hlen
    have hdata : data = [] := length_eq_zero_iff.mp (by omega)
    subst hdata
    simp [contents, feed_loop, lines_of_not_mem hpart, lastPart_of_not_mem hpart, hb]
  | succ fuel ih =>
    intro b part data hb hpart h0 hshort hlen
    by_cases hdata : data = []
    · subst hdata
      simp [contents, feed_loop, lines_of_not_mem hpart, lastPart_of_not_mem hpart, hb]
    have hroom := length_of_short hpart hshort
    have hfill := hb.2
    have hfull : ¬ b.rfill = 8191 := by omega
    have hk : 8191 - part.length = 8191 - b.rfill := by rw [hfill]
    have hpos : 0 < data.length := length_pos_iff.mpr hdata
    -- the piece that is copied and what is left of the chunk
    have hsplit : part ++ data.take (8191 - b.rfill) ++ data.drop (8191 - b.rfill) = part ++ data := by
      rw [append_assoc, take_append_drop]
    have hzero : 0 ∉ part ++ data.take (8191 - b.rfill) := fun hmem => h0 (by
      rw [← hsplit]
      exact mem_append_left _ hmem)
    have hzero' : 0 ∉ lastPart (part ++ data.take (8191 - b.rfill)) ++ data.drop (8191 - b.rfill) := by
      intro hmem
      rw [← hsplit] at h0
      rcases mem_append.mp hmem with h | h
      · exact hzero (lastPart_suffix.subset h)
      · exact h0 (mem_append_right _ h)
    have hshort' : Short (lastPart (part ++ data.take (8191 - b.rfill)) ++
        data.drop (8191 - b.rfill)) := short_lastPart (by rwa [hsplit])
    have hfits : b.rfill + (data.take (8191 - b.rfill)).length ≤ 8191 := by
      have := length_take_le (8191 - b.rfill) data
      omega
    obtain ⟨hcstr, hlen'⟩ := hb.append hzero hfits
    have hspec := @feed_lines_spec _ [] ((b.append (data.take (8191 - b.rfill)) hfits).rfill + 1)
      (b.append (data.take (8191 - b.rfill)) hfits) (by rw [hcstr, append_nil]) hlen' (by omega)
    simp only [not_mem_nil, strays_iff, not_not] at hspec
    rw [contents, if_neg hdata, hk, feed_loop, if_neg hdata, if_neg hfull]
    simp only [forall_mem_cons]
    have hlines := lines_append (part ++ data.take (8191 - b.rfill)) (data.drop (8191 - b.rfill))
    have hlast := lastPart_append (part ++ data.take (8191 - b.rfill)) (data.drop (8191 - b.rfill))
    rw [hsplit] at hlines hlast
    rw [hlines, hlast]
    by_cases hclear : Clear (part ++ data.take (8191 - b.rfill))
    · obtain ⟨b', hrun, hb'⟩ := hspec.2 hclear
      obtain ⟨hgood, hbad⟩ := @ih b' _ (data.drop (8191 - b.rfill)) hb' not_mem_lastPart hzero'
        hshort' (by rw [length_drop]; omega)
      simp only [hclear, true_and, hrun, Option.bind_eq_bind, Option.bind_some]
      constructor
      · intro hall
        obtain ⟨fed, hfed, hrc, hcalls, hhold⟩ := hgood hall
        exact ⟨{ fed with calls := lines (part ++ data.take (8191 - b.rfill)) ++ fed.calls },
          by simp [hfed], hrc, by simp [hcalls], hhold⟩
      · intro hnot
        simp [hbad hnot]
    · simp [hclear, hspec.1 hclear]

theorem feed_chunks_spec : ∀ {b : LineBuffer} {part : Bytes}, Holding b part →
    newline ∉ part → 0 ∉ part ++ chunks.flatten → Short (part ++ chunks.flatten) →
    ((∀ c ∈ buffered part chunks, Clear c) →
      ∃ fed, feed_chunks b chunks = some fed ∧ fed.rc = 0 ∧ fed.calls = lines (part ++ chunks.flatten) ∧
        Holding fed.buffer (lastPart (part ++ chunks.flatten))) ∧
    (¬ (∀ c ∈ buffered part chunks, Clear c) → feed_chunks b chunks = none) := by
  induction chunks with
  | nil =>
    intro b part hb hpart _ _
    simp [buffered, feed_chunks, lines_of_not_mem hpart, lastPart_of_not_mem hpart, hb]
  | cons data chunks ih =>
    intro b part hb hpart h0 hshort
    have hsplit : part ++ (data :: chunks).flatten = part ++ data ++ chunks.flatten := by simp
    rw [hsplit] at h0 hshort ⊢
    have hzero : 0 ∉ part ++ data := fun hmem => h0 (mem_append_left _ hmem)
    have hzero' : 0 ∉ lastPart (part ++ data) ++ chunks.flatten := by
      intro hmem
      rcases mem_append.mp hmem with h | h
      · exact hzero (lastPart_suffix.subset h)
      · exact h0 (mem_append_right _ h)
    obtain ⟨hgood, hbad⟩ := feed_loop_spec hb hpart hzero (short_left hshort) (le_refl data.length)
    rw [lines_append (part ++ data), lastPart_append (part ++ data)]
    simp only [buffered, forall_mem_append]
    by_cases hclear : ∀ c ∈ contents data.length part data, Clear c
    · obtain ⟨fed, hfed, hrc, hcalls, hhold⟩ := hgood hclear
      obtain ⟨hgood', hbad'⟩ := ih hhold not_mem_lastPart hzero' (short_lastPart hshort)
      simp only [feed_chunks, retraced_ctl_feed, hfed, hrc, Option.bind_eq_bind, Option.bind_some,
        ne_eq, not_true, if_false]
      constructor
      · intro hall
        obtain ⟨fed', hfed', hrc', hcalls', hhold'⟩ := hgood' hall.2
        exact ⟨{ fed' with calls := fed.calls ++ fed'.calls }, by simp [hfed'], hrc',
          by simp [hcalls, hcalls'], hhold'⟩
      · intro hnot
        simp [hbad' fun h => hnot ⟨hclear, h⟩]
    · constructor
      · intro hall
        exact absurd hall.1 hclear
      · intro _
        simp [feed_chunks, retraced_ctl_feed, hbad hclear]

/-- **Controller lines.** Chunks without NULs, with lines that fit, are cut into the lines of their stream
exactly when what stands in the buffer is clear after each copy. -/
theorem feedsLines_iff (b : LineBuffer) (chunks : List Bytes) (hb : b.rfill = 0)
    (h0 : 0 ∉ chunks.flatten) (hshort : Short chunks.flatten) :
    FeedsLines b chunks ↔ ∀ c ∈ buffered [] chunks, Clear c := by
  obtain ⟨hgood, hbad⟩ := @feed_chunks_spec chunks b [] ⟨by simp [hb], hb⟩ (by simp) (by simpa using h0)
    (by simpa using hshort)
  rw [nil_append] at hgood
  constructor
  · rintro ⟨fed, hfed, -⟩
    by_contra hnot
    rw [hbad hnot] at hfed
    cases hfed
  · intro hall
    obtain ⟨fed, hfed, hrc, hcalls, hhold⟩ := hgood hall
    exact ⟨fed, hfed, hrc, hcalls, hhold.2⟩

def freshBuffer : LineBuffer := ⟨List.replicate 8192 0, 0, length_replicate, Nat.zero_le _⟩

/-- Two lines and the beginning of a third, with a cut between the lines. -/
theorem feedsLines_cut : FeedsLines freshBuffer [bytes "x\n", bytes "\ny"] :=
  (feedsLines_iff freshBuffer [bytes "x\n", bytes "\ny"] rfl (by decide)
    ⟨by decide, by decide⟩).mpr (by decide)

/-- The same stream in one chunk sends the loop out of the buffer. -/
theorem not_feedsLines_whole : ¬ FeedsLines freshBuffer [bytes "x\n\ny"] := by
  rintro ⟨fed, hfed, -⟩
  have hnone : feed_chunks freshBuffer [bytes "x\n\ny"] = none :=
    (@feed_chunks_spec [bytes "x\n\ny"] freshBuffer [] ⟨rfl, rfl⟩ (by decide) (by decide)
      ⟨by decide, by decide⟩).2 (by decide)
  rw [hnone] at hfed
  cases hfed

end Retrace.Retraced
