import Retrace.CLib.CString

/-!
# The text of an event

`agent_posix.c`: an event is formatted into a buffer on the stack when nothing in it needs an escape
and it is short enough, and into an allocated buffer otherwise.
-/

namespace Retrace.Supervisor

open CLib

def AGENT_EVENT_INLINE : Nat := 768

def jesc (s : Bytes) : Bytes :=
  s.flatMap fun c =>
    if c = dquote ∨ c = backslash then [backslash, c]
    else if c < 0x20 then bytes "\\u" ++ hexFixed 4 c.toNat
    else [c]

def event_head (agent_id : Bytes) (seq : UInt64) (now : Int) : Bytes :=
  bytes "\x7b\"agent_id\":\"" ++ agent_id ++ bytes "\",\"seq\":" ++ fmtNat seq.toNat ++ bytes ",\"ts\":" ++
    fmtInt now ++ bytes ",\"name\":\""

def event_text (agent_id : Bytes) (seq : UInt64) (now : Int) (name : Bytes) (kv : List (Bytes × Bytes)) : Bytes :=
  event_head agent_id seq now ++ name ++ bytes "\",\"attrs\":\x7b" ++
    [comma].intercalate (kv.map fun x =>
      [dquote] ++ x.1 ++ [dquote, colon, dquote] ++ x.2 ++ [dquote]) ++ bytes "\x7d\x7d"

/-- `APP_STR`: a string is put behind the text, unless it needs an escape or there is no room. -/
def app_str (cap : Nat) : Bytes → Bytes → Option Bytes
  | out, [] => some out
  | out, c :: s =>
    if c = dquote ∨ c = backslash ∨ c < 0x20 then none
    else if cap ≤ out.length + 1 then none
    else app_str cap (out ++ [c]) s

def app_lit (cap : Nat) (out : Bytes) (need : Nat) (lit : Bytes) : Option Bytes :=
  if cap ≤ out.length + need then none else some (out ++ lit)

def app_comma (cap i : Nat) (out : Bytes) : Option Bytes := if 0 < i then app_lit cap out 2 [comma] else some out

def app_attrs (cap : Nat) : Nat → Bytes → List (Bytes × Bytes) → Option Bytes
  | _, out, [] => some out
  | i, out, (k, v) :: kv => do
    let out ← app_comma cap i out
    let out ← app_lit cap out 2 [dquote]
    let out ← app_str cap out k
    let out ← app_lit cap out 4 [dquote, colon, dquote]
    let out ← app_str cap out v
    let out ← app_lit cap out 2 [dquote]
    app_attrs cap (i + 1) out kv

/-- `retrace_agent_format_event_stack`: the text, or nothing when it returns -1. (Room for ten bytes is
asked for before eleven are written; when the eleventh does not fit every check that follows fails.) -/
def retrace_agent_format_event_stack (cap : Nat) (agent_id : Bytes) (seq : UInt64) (now : Int) (name : Bytes)
    (kv : List (Bytes × Bytes)) : Option Bytes := do
  let out ← app_lit cap [] (event_head agent_id seq now).length (event_head agent_id seq now)
  let out ← app_str cap out name
  let out ← app_lit cap out 10 (bytes "\",\"attrs\":\x7b")
  let out ← app_attrs cap 0 out kv
  app_lit cap out 3 (bytes "\x7d\x7d")

/-- The loop of `build_event_json` over the attributes from the `i`-th on, in a buffer of `total` bytes:
what the position has come to and the text so far. An attribute whose escapes could not be allocated is
left out. -/
def build_attrs (total : Nat) (alloc : Nat → Bool) : Nat → Nat × Bytes → List (Bytes × Bytes) → Nat × Bytes
  | _, st, [] => st
  | i, (o, out), (k, v) :: kv =>
    if total ≤ o then (o, out)
    else if alloc i then
      let piece := (if i = 0 then [] else [comma]) ++ [dquote] ++ jesc k ++ bytes "\":\"" ++ jesc v ++ [dquote]
      build_attrs total alloc (i + 1) (min total (o + piece.length), out ++ snprintf (total - o) piece) kv
    else build_attrs total alloc (i + 1) (o, out) kv

def event_json (agent_id : Bytes) (seq : UInt64) (now : Int) (name : Bytes) (kv : List (Bytes × Bytes))
    (alloc : Nat → Bool) : Bytes :=
  let total := 96 + (jesc name).length + (kv.map fun x => x.1.length + x.2.length + 12).sum + 64
  let head := event_head agent_id seq now ++ jesc name ++ bytes "\",\"attrs\":\x7b"
  let (o, out) := build_attrs total alloc 0 (min total head.length, snprintf total head) kv
  if o < total then out ++ snprintf (total - o) (bytes "\x7d\x7d") else out

end Retrace.Supervisor
