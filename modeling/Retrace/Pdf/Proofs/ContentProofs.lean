import Retrace.Pdf.Content

/-!
# Where the lines of a report are shown

Every line is moved to as if the one before it had not been.
-/

namespace Retrace.Pdf

open CLib List

/-- A character only adds to what is shown. -/
theorem shown_prefix_step (t : Text) (c : UInt8) : t.shown <+: (t.step c).shown := by
  unfold Text.step Text.apply
  split
  all_goals try split_ifs
  all_goals first | exact prefix_rfl | exact prefix_append _ _ | skip
  split <;> exact prefix_rfl

theorem shown_prefix (t : Text) (s : Bytes) : t.shown <+: (s.foldl Text.step t).shown := by
  induction s generalizing t with
  | nil => exact prefix_rfl
  | cons c s ih => exact (shown_prefix_step t c).trans (ih _)

/-- The second line of every cover is shown at (144, 1472). -/
theorem cover_second_line (r : Report) :
    (shown (build_page_content (cover_lines r)))[1]? = some (144, 1472, []) := by
  let front := bytes "BT\n/F1 11 Tf\n" ++
      content_line 0 (bytes "retrace Compliance Audit Report") ++ content_line 1 []
  have hfront : (front.foldl Text.step {}).shown =
      [(72, 750, bytes "retrace Compliance Audit Report"), (144, 1472, [])] := by decide +kernel
  obtain ⟨rest, hrest⟩ : ∃ rest, build_page_content (cover_lines r) = front ++ rest := by
    refine ⟨(((cover_lines r).drop 2).mapIdx fun i => content_line (i + 2)).flatten ++ bytes "ET\n", ?_⟩
    simp [build_page_content, cover_lines, front, mapIdx_cons]
  obtain ⟨later, hlater⟩ := shown_prefix (front.foldl Text.step {}) rest
  rw [shown, hrest, foldl_append, ← hlater, hfront]
  rfl

/-- No report has its lines in their places. -/
theorem not_showsFindings (r : Report) : ¬ ShowsFindings r := by
  intro h
  have hcover := h.placed (cover_lines r) mem_cons_self
  have hsecond := cover_second_line r
  rw [hcover] at hsecond
  simp [cover_lines] at hsecond

/-- The second line of a report without findings is above the page. -/
theorem second_line_outside : ¬ ShowsFindings ⟨[], [], [], [], 0, 0, 0, 0⟩ :=
  fun h => absurd (h.inside _ mem_cons_self _ (mem_of_getElem? (cover_second_line _))) (by decide)

end Retrace.Pdf
