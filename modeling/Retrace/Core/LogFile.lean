import Retrace.Core.Redact
import Retrace.Json.Parson

/-!
# The log file

`logger.c`: the entries go to the log file one by one, as an array that is opened at the start and closed
at the end, or as one object a line. Each entry is redacted and flushed when it is written, so a log file
that was cut is a beginning of the whole one.
-/

namespace Retrace.Core

open CLib Parson

/-- An entry whose text, as it is written, is an object in JSON that the parser accepts to its end. -/
structure LogEntry (patterns : List Bytes) where
  text : Bytes
  object : JsonObject
  noNul : 0 ∉ retrace_redact_apply patterns text
  opens : (retrace_redact_apply patterns text).head? = some lbrace
  parses : parse_value (MAX_NESTING + 1) (retrace_redact_apply patterns text) = some (.object object, [])

def LogEntry.written {patterns : List Bytes} (e : LogEntry patterns) : Bytes :=
  retrace_redact_apply patterns e.text

def closing_braces (jsonl : Bool) {patterns : List Bytes} : Bool → Nat → List (LogEntry patterns) → List Nat
  | _, _, [] => []
  | first, off, e :: es =>
    let start := off + if jsonl ∨ ¬first then 0 else 2
    (start + e.written.length - 1) :: closing_braces jsonl true (start + e.written.length + 1) es

def LogEntry.braces (jsonl : Bool) {patterns : List Bytes} (es : List (LogEntry patterns)) : List Nat :=
  closing_braces jsonl false (if jsonl then 0 else 2) es

end Retrace.Core
