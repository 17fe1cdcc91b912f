import Retrace.CLib.CString

/-!
# Redaction of evidence

`redact.c`: every token of a text is tried against the patterns, and a token that matches one is
replaced by stars, never more than it has characters. A text has at most 64 tokens replaced.
-/

namespace Retrace.Core

open CLib

def REDACT_REPLACEMENTS_MAX : Nat := 64

abbrev star : UInt8 := 42

/-- `is_token_char`: a letter, a digit or one of `_=.:+@%~-`. -/
def is_token_char (c : UInt8) : Bool :=
  (97 ≤ c && c ≤ 122) || (65 ≤ c && c ≤ 90) || (48 ≤ c && c ≤ 57) || c == 95 || c == 61 || c == 46 || c == 58 ||
    c == 43 || c == 64 || c == 37 || c == 126 || c == 45

/-- The loop of `glob_whole` at the positions `t` and `p`; the last star seen was tried at the position
`star.1` of the token and the pattern goes on behind it at `star.2`. -/
def glob_loop (tok pat : Bytes) : Nat → Nat → Nat → Option (Nat × Nat) → Bool
  | 0, _, _, _ => false
  | fuel + 1, t, p, last =>
    if t < tok.length then
      if pat[p]? = some star then glob_loop tok pat fuel t (p + 1) (some (t, p + 1))
      else if pat[p]? = tok[t]? then glob_loop tok pat fuel (t + 1) (p + 1) last
      else
        match last with
        | some (star_t, star_p) => glob_loop tok pat fuel (star_t + 1) star_p (some (star_t + 1, star_p))
        | none => false
    else (pat.drop p).all (· == star)

/-- `glob_whole`. Between two returns to the last star the position in the pattern only grows, and every
return moves the star on by one character of the token. -/
def glob_whole (tok pat : Bytes) : Bool :=
  glob_loop tok pat ((tok.length + 2) * (pat.length + 2)) 0 0 none

/-- The loop of `retrace_redact_apply` with `budget` replacements left: `done` is in front of the
cursor. -/
def redact_loop (patterns : List Bytes) : Nat → Nat → Bytes → Bytes → Bytes
  | _, _, done, [] => done
  | _, 0, done, rest => done ++ rest
  | 0, _, done, rest => done ++ rest
  | fuel + 1, budget + 1, done, c :: rest =>
    if is_token_char c then
      let tok := (c :: rest).takeWhile is_token_char
      let tail := (c :: rest).dropWhile is_token_char
      if patterns.any (glob_whole tok) then
        redact_loop patterns fuel budget (done ++ List.replicate (min tok.length 3) star) tail
      else redact_loop patterns fuel (budget + 1) (done ++ tok) tail
    else redact_loop patterns fuel (budget + 1) (done ++ [c]) rest

def retrace_redact_apply (patterns : List Bytes) (buf : Bytes) : Bytes :=
  if patterns = [] then buf else redact_loop patterns buf.length REDACT_REPLACEMENTS_MAX [] buf

end Retrace.Core
