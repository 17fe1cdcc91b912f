import Retrace.CLib.CString
import Mathlib.Data.List.DropRight

/-!
# Fuzz dictionaries

`fuzz_dict.c`: a dictionary is a text of lines. A plain line is a token, a line that begins with `@` is a template
in which `%1%` to `%9%` stand for the first tokens. The templates are put aside while the lines are scanned and
expanded behind the tokens. The file is read into a buffer that ends with a NUL, which also ends a line.
-/

namespace Retrace.Core

open CLib

def FUZZ_DICT_MAX : Nat := 256

def FUZZ_DICT_TOKEN_MAX : Nat := 4096

/-- The text is at a reference: the number of the token, from 0. -/
def reference (c : UInt8) (p : Bytes) : Option Nat :=
  match p with
  | d :: e :: _ => if c = 37 ∧ 49 ≤ d ∧ d ≤ 57 ∧ e = 37 then some (d.toNat - 49) else none
  | _ => none

/-- The loop of `expand_template`: `skip` characters of a reference are still to be passed. -/
def expand_loop (flat : List Bytes) (out_max : Nat) : Nat → Bytes → Bytes → Option Bytes
  | _, out, [] => some out
  | skip + 1, out, _ :: p => expand_loop flat out_max skip out p
  | 0, out, c :: p =>
    match reference c p with
    | some idx =>
      match flat[idx]? with
      | none => none
      | some tok =>
        if out_max ≤ out.length + tok.length then none else expand_loop flat out_max 2 (out ++ tok) p
    | none => if out_max ≤ out.length + 1 then none else expand_loop flat out_max 0 (out ++ [c]) p

def expand_template (flat : List Bytes) (tmpl : Bytes) : Option Bytes :=
  expand_loop flat FUZZ_DICT_TOKEN_MAX 0 [] tmpl

def is_edge (c : UInt8) : Bool := c == 32 || c == 9 || c == 13

/-- `memcpy` of `l` bytes out of the buffer: the content, a NUL and what is behind the buffer. -/
def raw_copy (content : Bytes) (beyond : Nat → UInt8) (pos l : Nat) : Bytes :=
  ((content ++ 0 :: (List.range l).map beyond).drop pos).take l

/-- The tokens and the templates so far, and the ranges of the buffer that were copied for the templates. -/
structure DictScan where
  tokens : List Bytes := []
  templates : List Bytes := []
  copies : List (Nat × Nat) := []

def lead_of (line : Bytes) : Nat := (line.takeWhile is_edge).length

/-- What the scan does with the line at `i`. The length of a template is taken from the beginning of the line,
its text from behind the `@`. -/
def scan_line (content : Bytes) (beyond : Nat → UInt8) (i : Nat) (line : Bytes) (d : DictScan) : DictScan :=
  let lead := lead_of line
  match (line.drop lead).head? with
  | none => d
  | some c =>
    if c = 35 then d
    else if c = 64 then
      if d.templates.length < FUZZ_DICT_MAX then
        let l := min (line.length - 1) (FUZZ_DICT_TOKEN_MAX - 1)
        { d with
          templates := d.templates ++ [(raw_copy content beyond (i + lead + 1) l).takeWhile (· ≠ 0)]
          copies := d.copies ++ [(i + lead + 1, l)] }
      else d
    else
      { d with tokens := d.tokens ++ [((line.drop lead).rdropWhile is_edge).take (FUZZ_DICT_TOKEN_MAX - 1)] }

def first_line (rest : Bytes) : Bytes := rest.takeWhile fun c => c ≠ 0 ∧ c ≠ 10

def scan_lines (content : Bytes) (beyond : Nat → UInt8) : Nat → Nat → DictScan → DictScan
  | 0, _, d => d
  | fuel + 1, i, d =>
    if i < content.length ∧ d.tokens.length < FUZZ_DICT_MAX then
      let line := first_line (content.drop i)
      scan_lines content beyond fuel (i + line.length + 1) (scan_line content beyond i line d)
    else d

def expand_all (flat : List Bytes) : List Bytes → List Bytes → Option (List Bytes)
  | tokens, [] => some tokens
  | tokens, t :: ts =>
    if FUZZ_DICT_MAX ≤ tokens.length then some tokens
    else (expand_template flat t).bind fun e => expand_all flat (tokens ++ [e]) ts

def scan_file (content : Bytes) (beyond : Nat → UInt8) : DictScan :=
  scan_lines content beyond content.length 0 {}

/-- `fuzz_dict_load` of a file that can be read; more than the greatest size is not read. -/
def fuzz_dict_load (file : Bytes) (beyond : Nat → UInt8) : Option (List Bytes) :=
  let d := scan_file (file.take (FUZZ_DICT_MAX * FUZZ_DICT_TOKEN_MAX)) beyond
  expand_all d.tokens d.tokens d.templates

def lines_from (content : Bytes) : Nat → Nat → List (Nat × Bytes)
  | 0, _ => []
  | fuel + 1, i =>
    if i < content.length then
      (i, first_line (content.drop i)) :: lines_from content fuel (i + (first_line (content.drop i)).length + 1)
    else []

def dict_lines (content : Bytes) : List (Nat × Bytes) := lines_from content content.length 0

def mark (line : Bytes) : Option UInt8 := (line.drop (lead_of line)).head?

def is_template (line : Bytes) : Bool := mark line == some 64

def is_flat (line : Bytes) : Bool := (mark line).any fun c => c != 35 && c != 64

def trimmed (line : Bytes) : Bytes := (line.drop (lead_of line)).rdropWhile is_edge

def template_text (line : Bytes) : Bytes := line.drop (lead_of line + 1)

def flat_tokens (content : Bytes) : List Bytes :=
  ((dict_lines content).filter fun x => is_flat x.2).map fun x => trimmed x.2

def template_lines (content : Bytes) : List (Nat × Bytes) := (dict_lines content).filter fun x => is_template x.2

structure WithinLimits (content : Bytes) : Prop where
  size : content.length ≤ FUZZ_DICT_MAX * FUZZ_DICT_TOKEN_MAX
  count : (flat_tokens content).length + (template_lines content).length ≤ FUZZ_DICT_MAX
  flat_size : ∀ t ∈ flat_tokens content, t.length < FUZZ_DICT_TOKEN_MAX
  template_size : ∀ x ∈ template_lines content, x.2.length ≤ FUZZ_DICT_TOKEN_MAX
  expands : ∀ x ∈ template_lines content, (expand_template (flat_tokens content) (template_text x.2)).isSome

/-- The dictionary is loaded line by line: its tokens are the plain lines and the expanded templates, whatever is
behind the buffer, and what is copied for the templates lies in the buffer. -/
structure LoadsByLine (content : Bytes) : Prop where
  tokens : ∀ beyond, ∃ expanded,
    (template_lines content).mapM
      (fun x => expand_template (flat_tokens content) (template_text x.2)) = some expanded ∧
      fuzz_dict_load content beyond = some (flat_tokens content ++ expanded)
  inside : ∀ beyond, ∀ r ∈ (scan_file content beyond).copies, r.1 + r.2 ≤ content.length + 1

/-- Every template line begins with `@`, or it ends with a NUL or the file and the buffer goes on for as many bytes
as there are blanks in front. -/
def Unindented (content : Bytes) : Prop :=
  ∀ x ∈ template_lines content, lead_of x.2 = 0 ∨
    (content[x.1 + x.2.length]? ≠ some 10 ∧ x.1 + x.2.length + lead_of x.2 ≤ content.length + 1)

end Retrace.Core
