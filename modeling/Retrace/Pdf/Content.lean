import Retrace.CLib.CString

/-!
# The pages of an audit report

The text that `pdf_writer.c` puts on the pages of a report: `build_page_content` writes the content stream
of a page, and `pdf_write_audit_report` a cover, a summary and at most 62 pages with 40 findings each.
`Text` is how a viewer reads a content stream.
-/

namespace Retrace.Pdf

open CLib

def pdf_escape_string (s : Bytes) : Bytes :=
  s.flatMap fun c => if c = 40 ∨ c = 41 ∨ c = backslash then [backslash, c] else [c]

def content_line (i : Nat) (line : Bytes) : Bytes :=
  bytes "72 " ++ fmtInt (750 - i * 14) ++ bytes " Td (" ++ pdf_escape_string line ++ bytes ") Tj 0 -14 Td\n"

def build_page_content (lines : List Bytes) : Bytes :=
  bytes "BT\n/F1 11 Tf\n" ++ (lines.mapIdx content_line).flatten ++ bytes "ET\n"

structure Finding where
  severity : Bytes
  rule_id : Bytes
  description : Bytes

structure Report where
  policy_name : Bytes
  trace_path : Bytes
  date_str : Bytes
  findings : List Finding
  n_critical : Int
  n_high : Int
  n_medium : Int
  n_info : Int

def cover_lines (r : Report) : List Bytes :=
  [bytes "retrace Compliance Audit Report", [], bytes "Policy:", [], r.policy_name, [],
    bytes "Trace:", [], r.trace_path, [],
   bytes "Date:", [], r.date_str]

def summary_lines (r : Report) : List Bytes :=
  [bytes "Audit Summary", [], bytes "Critical: " ++ fmtInt r.n_critical, bytes "High:     " ++ fmtInt r.n_high,
   bytes "Medium:   " ++ fmtInt r.n_medium, bytes "Info:     " ++ fmtInt r.n_info, [], bytes "Total findings:", [],
   fmtNat r.findings.length]

def finding_line (f : Finding) : Bytes :=
  snprintf 200 (bytes "[" ++ f.severity ++ bytes "] " ++ f.rule_id ++ bytes ": " ++ f.description.take 120)

/-- The loop over the findings, with the number of the next page and of its object. -/
def finding_pages (total_objects : Nat) : Nat → Nat → Nat → List Finding → List (List Bytes)
  | 0, _, _, _ => []
  | fuel + 1, page_num, obj_id, findings =>
    if findings ≠ [] ∧ obj_id < total_objects then
      if page_num < 64 then
        (bytes "Findings" :: [] :: (findings.take 40).map finding_line) ::
          finding_pages total_objects fuel (page_num + 1) (obj_id + 2) (findings.drop 40)
      else finding_pages total_objects fuel (page_num + 1) obj_id (findings.drop 40)
    else []

def total_objects (n_findings : Nat) : Nat := 3 + (2 + max ((n_findings + 39) / 40) 1) * 2

/-- The lines of the pages behind the summary. -/
def report_findings (r : Report) : List (List Bytes) :=
  if r.findings = [] then [[bytes "Findings", [], bytes "No findings. The trace passed the policy."]]
  else finding_pages (total_objects r.findings.length) r.findings.length 2 8 r.findings

def report_pages (r : Report) : List (List Bytes) := cover_lines r :: summary_lines r :: report_findings r

inductive Token where
  | none
  | word (w : Bytes)
  | string (depth : Nat) (text : Bytes)
  | escape (depth : Nat) (text : Bytes)

/-- The token that is read, the operands, the start of the current line, and the strings that were shown with their
places. -/
structure Text where
  token : Token := .none
  nums : List Int := []
  text : Bytes := []
  x : Int := 0
  y : Int := 0
  shown : List (Int × Int × Bytes) := []

/-- `Td` moves relative to the start of the current line, and `Tj` shows a string there. -/
def Text.apply (t : Text) (w : Bytes) : Text :=
  if w = bytes "BT" then { t with nums := [], x := 0, y := 0 }
  else if w = bytes "Td" then
    match t.nums with
    | dy :: dx :: _ => { t with nums := [], x := t.x + dx, y := t.y + dy }
    | _ => t
  else if w = bytes "Tj" then { t with nums := [], shown := t.shown ++ [(t.x, t.y, t.text)] }
  else if w.all fun c => isdigit c || c = 45 then { t with nums := strtol10 w :: t.nums }
  else { t with nums := [] }

def Text.step (t : Text) (c : UInt8) : Text :=
  match t.token with
  | .none =>
    if isspace c then t else if c = 40 then { t with token := .string 0 [] } else { t with token := .word [c] }
  | .word w => if isspace c then { t with token := .none }.apply w else { t with token := .word (w ++ [c]) }
  | .string depth text =>
    if c = backslash then { t with token := .escape depth text }
    else if c = 41 ∧ depth = 0 then { t with token := .none, text := text }
    else
      { t with token := .string (if c = 40 then depth + 1 else if c = 41 then depth - 1 else depth) (text ++ [c]) }
  | .escape depth text => { t with token := .string depth (text ++ [c]) }

def shown (content : Bytes) : List (Int × Int × Bytes) := (content.foldl Text.step {}).shown

/-- Every line is shown in its place on the page, and every finding on one page, in order. -/
structure ShowsFindings (r : Report) : Prop where
  placed : ∀ lines ∈ report_pages r,
    shown (build_page_content lines) = lines.mapIdx fun i line => (72, 750 - 14 * (i : Int), line)
  inside : ∀ lines ∈ report_pages r, ∀ s ∈ shown (build_page_content lines),
    0 ≤ s.1 ∧ s.1 ≤ 612 ∧ 0 ≤ s.2.1 ∧ s.2.1 ≤ 792
  complete : r.findings.map finding_line = if r.findings = [] then [] else (report_findings r).flatMap (·.drop 2)

end Retrace.Pdf
