import Retrace.Profiler.Stream
import Retrace.Json.Proofs.ConsumedProofs

/-!
# What the scanner cuts out

The text that the parser consumes for a value has its braces and quotation marks in pairs, so the scanner
walks over it and is where it was before. A text that is one object, between white space, is cut out
whole.
-/

namespace Retrace.Profiler

open CLib Parson List

variable {r s t : Bytes}

def Neutral (t : Bytes) : Prop :=
  ∀ d a rest, scan_loop ⟨d + 1, false, false, a⟩ (t ++ rest) = scan_loop ⟨d + 1, false, false, a ++ t⟩ rest

theorem neutral_nil : Neutral [] := by
  intro d a rest
  simp

theorem Neutral.append (ht : Neutral t) (hu : Neutral u) : Neutral (t ++ u) := by
  intro d a rest
  rw [append_assoc, ht, hu, append_assoc]

theorem neutral_singleton (hq : c ≠ dquote) (hl : c ≠ lbrace) (hr : c ≠ rbrace) : Neutral [c] := by
  intro d a rest
  simp [scan_loop, scan_step, hq, hl, hr]

theorem neutral_of_forall (ht : ∀ c ∈ t, c ≠ dquote ∧ c ≠ lbrace ∧ c ≠ rbrace) : Neutral t := by
  induction t with
  | nil => exact neutral_nil
  | cons c t ih =>
    obtain ⟨hq, hl, hr⟩ := ht c mem_cons_self
    exact (neutral_singleton hq hl hr).append (ih fun x hx => ht x (mem_cons_of_mem _ hx))

theorem Neutral.braces (ht : Neutral t) : Neutral (lbrace :: (t ++ [rbrace])) := by
  intro d a rest
  have hopen : scan_step ⟨d + 1, false, false, a⟩ lbrace = (⟨d + 1 + 1, false, false, a ++ [lbrace]⟩, none) := by
    simp [scan_step, (by decide : lbrace ≠ dquote)]
  have hclose : ∀ b, scan_step ⟨d + 1 + 1, false, false, b⟩ rbrace =
      (⟨d + 1, false, false, b ++ [rbrace]⟩, none) := by
    intro b
    simp [scan_step, (by decide : rbrace ≠ dquote), (by decide : rbrace ≠ lbrace)]
  rw [cons_append, append_assoc, scan_loop, hopen]
  simp only [Option.toList_none, nil_append]
  rw [ht, singleton_append, scan_loop, hclose]
  simp

theorem scan_loop_quoted (h : QuotedText text) (d : Nat) (a rest : Bytes) :
    scan_loop ⟨d + 1, true, false, a⟩ (text ++ dquote :: rest) =
      scan_loop ⟨d + 1, false, false, a ++ (text ++ [dquote])⟩ rest := by
  induction h generalizing a with
  | nil => simp [scan_loop, scan_step, (by decide : dquote ≠ backslash)]
  | escape x _ ih => simpa [scan_loop, scan_step] using ih (a ++ [backslash] ++ [x])
  | @cons c _ hq hb _ ih => simpa [scan_loop, scan_step, hq, hb] using ih (a ++ [c])

theorem neutral_quoted (h : Quoted text) : Neutral (dquote :: (text ++ [dquote])) := by
  obtain ⟨r, hskip⟩ := h
  intro d a rest
  have := scan_loop_quoted (skip_quotes_iff.mp hskip).1 d (a ++ [dquote]) rest
  simpa [scan_loop, scan_step] using this

theorem neutral_blanks (ht : Blanks t) : Neutral t := by
  refine neutral_of_forall fun c hc => ?_
  have hsp := ht c hc
  refine ⟨?_, ?_, ?_⟩ <;> rintro rfl <;> exact absurd hsp (by decide)

theorem neutral_rows (h : Rows E t xs) (hE : ∀ t x, E t x → Neutral t) : Neutral t := by
  have hcomma : Neutral [comma] := neutral_singleton (by decide) (by decide) (by decide)
  induction h with
  | nil hw => exact neutral_blanks hw
  | single hw h hw' => exact (neutral_blanks hw).append ((hE _ _ h).append (neutral_blanks hw'))
  | cons hw h hw' _ ih =>
    exact (neutral_blanks hw).append ((hE _ _ h).append ((neutral_blanks hw').append (hcomma.append ih)))

theorem neutral_member (h : MemberText (fun t _ => Neutral t) t m) : Neutral t := by
  obtain ⟨text, w, u, htext, -, hw, hu, rfl⟩ := h
  have hcolon : Neutral [colon] := neutral_singleton (by decide) (by decide) (by decide)
  have hall := (neutral_quoted htext).append ((neutral_blanks hw).append (hcolon.append hu))
  simpa using hall

theorem neutral_value (h : ValueText (fun t _ => Neutral t) t v) : Neutral t := by
  have hopen : Neutral [lbracket] := neutral_singleton (by decide) (by decide) (by decide)
  have hclose : Neutral [rbracket] := neutral_singleton (by decide) (by decide) (by decide)
  cases h with
  | null => exact neutral_of_forall (by decide)
  | boolean b => cases b <;> exact neutral_of_forall (by decide)
  | number ht =>
    refine neutral_of_forall fun c hc => ?_
    have hnum := ht c hc
    refine ⟨?_, ?_, ?_⟩ <;> rintro rfl <;> exact absurd hnum (by decide)
  | string htext => exact neutral_quoted htext
  | array h => exact hopen.append ((neutral_rows h fun _ _ ht => ht).append hclose)
  | object h => exact (neutral_rows h fun _ _ ht => neutral_member ht).braces

theorem neutral_parse_value : ∀ s v r, parse_value depth s = some (v, r) → ∃ t, s = t ++ r ∧ Neutral t :=
  parse_value_induction (E := fun _ t _ => Neutral t)
    (fun _ _ _ _ hw h => (neutral_blanks hw).append (neutral_value h)) depth

theorem dropBom_of_head (h : s.head? = some lbrace) : dropBom s = s := by
  match s, h with
  | [_], _ => rfl
  | [_, _], _ => rfl
  | c :: x :: y :: s, h =>
    have hc : c = lbrace := by simpa using h
    subst hc
    simp [dropBom, (by decide : lbrace ≠ 0xEF)]

theorem json_parse_object (hhead : body.head? = some lbrace)
    (hbody : parse_value (MAX_NESTING + 1) body = some (.object o, [])) :
    json_parse_string body = some (.object o) := by
  rw [json_parse_string, dropBom_of_head hhead, hbody]
  rfl

theorem scan_loop_outside (ht : lbrace ∉ t) :
    scan_loop ⟨0, false, false, a⟩ (t ++ rest) = scan_loop ⟨0, false, false, a⟩ rest := by
  induction t with
  | nil => rfl
  | cons c t ih =>
    obtain ⟨hc, ht⟩ := ne_and_not_mem_of_not_mem_cons ht
    rw [cons_append, scan_loop]
    simpa [scan_step, Ne.symm hc] using ih ht

theorem scan_loop_object (hhead : body.head? = some lbrace)
    (hbody : parse_value (MAX_NESTING + 1) body = some (.object o, [])) :
    scan_loop ⟨0, false, false, a⟩ (body ++ rest) = body :: scan_loop ⟨0, false, false, body⟩ rest := by
  obtain ⟨s, rfl⟩ : ∃ s, body = lbrace :: s := by
    cases body with
    | nil => simp at hhead
    | cons c s => exact ⟨s, by simpa using hhead⟩
  rw [parse_value, skip_whitespaces_cons (by decide)] at hbody
  simp only [if_true] at hbody
  obtain ⟨t, ms, rfl, -, hrows, -⟩ := parse_object_value_rows neutral_parse_value hbody
  have ht : Neutral t := neutral_rows hrows fun _ _ h => neutral_member h
  have hopen : scan_step ⟨0, false, false, a⟩ lbrace = (⟨1, false, false, [lbrace]⟩, none) := by
    simp [scan_step]
  have hclose : scan_step ⟨1, false, false, [lbrace] ++ t⟩ rbrace =
      (⟨0, false, false, lbrace :: (t ++ [rbrace])⟩, some (lbrace :: (t ++ [rbrace]))) := by
    simp [scan_step, (by decide : rbrace ≠ dquote), (by decide : rbrace ≠ lbrace)]
  rw [cons_append, append_assoc, scan_loop, hopen]
  simp only [Option.toList_none, nil_append]
  have hstep : scan_loop ⟨1, false, false, [lbrace] ++ t⟩ (rbrace :: rest) =
      (lbrace :: (t ++ [rbrace])) :: scan_loop ⟨0, false, false, lbrace :: (t ++ [rbrace])⟩ rest := by
    rw [scan_loop, hclose]
    simp
  rw [ht 0]
  simpa using hstep

end Retrace.Profiler
