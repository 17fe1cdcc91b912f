import Retrace.Json.Parson

/-!
# The objects in a trace

`stream.c`: a trace is one JSON array or one object a line. The scanner does not parse what surrounds
the objects: it cuts out each object at the top level by counting braces outside of strings.
-/

namespace Retrace.Profiler

open CLib Parson

/-- The variables of `corr_stream_scan`: `slice` is the text of the object so far. -/
structure ScanState where
  depth : Nat := 0
  in_str : Bool := false
  esc : Bool := false
  slice : Bytes := []
  deriving DecidableEq, Repr

def scan_step (s : ScanState) (c : UInt8) : ScanState × Option Bytes :=
  if s.depth = 0 then
    if c = lbrace then (⟨1, false, false, [c]⟩, none) else (s, none)
  else
    let s := { s with slice := s.slice ++ [c] }
    if s.in_str then
      if s.esc then ({ s with esc := false }, none)
      else if c = backslash then ({ s with esc := true }, none)
      else if c = dquote then ({ s with in_str := false }, none)
      else (s, none)
    else if c = dquote then ({ s with in_str := true }, none)
    else if c = lbrace then ({ s with depth := s.depth + 1 }, none)
    else if c = rbrace then
      ({ s with depth := s.depth - 1 }, if s.depth = 1 then some s.slice else none)
    else (s, none)

def scan_loop : ScanState → Bytes → List Bytes
  | _, [] => []
  | s, c :: text => (scan_step s c).2.toList ++ scan_loop (scan_step s c).1 text

/-- `corr_stream_scan`: the objects that parse, in order, and the number of those that do not. -/
def corr_stream_scan (text : Bytes) : List (Option JsonObject) × Nat :=
  let parsed := (scan_loop {} text).map fun slice => json_parse_string (cstr slice)
  (parsed.filterMap fun v => v.map json_value_get_object, (parsed.filter Option.isNone).length)

end Retrace.Profiler
