import Retrace.CLib.Proofs.BufferProofs
import Retrace.Framing.Framing

/-!
# Controller lines

`retraced_ctl_feed`: the chunks a transport reads from the controller, cut into lines within the
fixed buffer `rbuf`. The call of `retraced_ctl_handle_line` for a line does not touch the buffer, so
the model lists the lines it is called with.
-/

namespace Retrace.Retraced

open CLib Framing

structure LineBuffer where
  rbuf : Bytes
  rfill : Nat
  size : rbuf.length = 8192
  fits : rfill ≤ 8191

def LineBuffer.append (b : LineBuffer) (piece : Bytes) (h : b.rfill + piece.length ≤ 8191) :
    LineBuffer where
  rbuf := (memcpy b.rbuf b.rfill piece).set (b.rfill + piece.length) 0
  rfill := b.rfill + piece.length
  size := by
    have := b.size
    rw [List.length_set, memcpy_length (by omega), b.size]
  fits := h

def LineBuffer.terminate (b : LineBuffer) (nl : Nat) : LineBuffer :=
  { b with rbuf := b.rbuf.set nl 0, size := by simpa using b.size }

/-- The first `k` bytes are shifted out. The NUL behind the content is not moved along. -/
def LineBuffer.shift (b : LineBuffer) (k : Nat) (h : k ≤ b.rfill) : LineBuffer where
  rbuf := memmove b.rbuf k (b.rfill - k)
  rfill := b.rfill - k
  size := by
    have := b.size
    have := b.fits
    rw [memmove_length (by omega), b.size]
  fits := by
    have := b.fits
    omega

/-- The inner loop of `retraced_ctl_feed`: the lines handled and the buffer behind them. A newline
outside the content makes the size passed to `memmove` wrap around, which is undefined behaviour:
there is no result. Each round takes a byte at least, so the loop ends within `rfill` rounds. -/
def feed_lines : Nat → LineBuffer → Option (List Bytes × LineBuffer)
  | 0, _ => none
  | fuel + 1, b =>
    match strchr b.rbuf newline with
    | none => some ([], b)
    | some nl =>
      if h : nl + 1 ≤ b.rfill then
        let line := cstr (b.terminate nl).rbuf
        (feed_lines fuel ((b.terminate nl).shift (nl + 1) h)).map fun (calls, b') => (line :: calls, b')
      else none

/-- What a call of `retraced_ctl_feed` does: its result, the lines it had handled and the buffer. -/
structure Fed where
  rc : Int
  calls : List Bytes
  buffer : LineBuffer

def feed_loop : Nat → LineBuffer → Bytes → Option Fed
  | 0, b, _ => some ⟨0, [], b⟩
  | fuel + 1, b, data =>
    if data = [] then some ⟨0, [], b⟩
    else if b.rfill = 8191 then some ⟨-1, [], b⟩
    else do
      let full := b.append (data.take (8191 - b.rfill)) (by
        have := b.fits
        have := List.length_take_le (8191 - b.rfill) data
        omega)
      let (calls, b') ← feed_lines (full.rfill + 1) full
      let rest ← feed_loop fuel b' (data.drop (8191 - b.rfill))
      some { rest with calls := calls ++ rest.calls }

def retraced_ctl_feed (b : LineBuffer) (data : Option Bytes) : Option Fed :=
  match data with
  | none => some ⟨0, [], b⟩
  | some data => feed_loop data.length b data

def feed_chunks : LineBuffer → List Bytes → Option Fed
  | b, [] => some ⟨0, [], b⟩
  | b, data :: chunks => do
    let fed ← retraced_ctl_feed b (some data)
    if fed.rc ≠ 0 then some fed
    else
      let rest ← feed_chunks fed.buffer chunks
      some { rest with calls := fed.calls ++ rest.calls }

def nextLine (s : Bytes) : Option (Bytes × Bytes) :=
  if newline ∈ s then
    some (s.takeWhile (· ≠ newline), s.drop ((s.takeWhile (· ≠ newline)).length + 1))
  else none

theorem nextLine_eq_none : nextLine s = none ↔ newline ∉ s := by
  unfold nextLine
  split <;> simp_all

theorem nextLine_line (hl : newline ∉ l) (t : Bytes) : nextLine (l ++ newline :: t) = some (l, t) := by
  have hline : (l ++ newline :: t).takeWhile (· ≠ newline) = l := by
    rw [List.takeWhile_append_of_pos]
    · simp
    · intro c hc
      exact decide_eq_true (fun h => hl (h ▸ hc))
  have hdrop : (l ++ newline :: t).drop (l.length + 1) = t := by simp
  rw [nextLine, if_pos (by simp), hline, hdrop]

theorem nextLine_eq_some : nextLine s = some (l, r) ↔ newline ∉ l ∧ s = l ++ newline :: r := by
  constructor
  · intro h
    by_cases hs : newline ∈ s
    · obtain ⟨a, t, rfl, ha⟩ := List.eq_append_cons_of_mem hs
      rw [nextLine_line ha] at h
      cases h
      exact ⟨ha, rfl⟩
    · rw [nextLine_eq_none.mpr hs] at h
      cases h
  · rintro ⟨hl, rfl⟩
    exact nextLine_line hl r

def lineFramer : Framer UInt8 Bytes where
  next := nextLine
  shrinks {s b r} h := by
    obtain ⟨-, rfl⟩ := nextLine_eq_some.mp h
    simp only [List.length_append, List.length_cons]
    omega
  stable {s b r} h t := by
    obtain ⟨hl, rfl⟩ := nextLine_eq_some.mp h
    exact nextLine_eq_some.mpr ⟨hl, by simp⟩

def lines (s : Bytes) : List Bytes := lineFramer.items s

def lastPart (s : Bytes) : Bytes := lineFramer.rest s

def Short (s : Bytes) : Prop := (∀ l ∈ lines s, l.length < 8191) ∧ (lastPart s).length < 8191

def FeedsLines (b : LineBuffer) (chunks : List Bytes) : Prop :=
  ∃ fed, feed_chunks b chunks = some fed ∧ fed.rc = 0 ∧ fed.calls = lines chunks.flatten ∧
    fed.buffer.rfill = (lastPart chunks.flatten).length

def extent (ls : List Bytes) (p : Nat) : Nat := (ls.map fun l => l.length + 1).sum + p

/-- The last line that is not shorter than the last part of `p` bytes is not shorter than all that
stands behind it. -/
def clearLines : List Bytes → Nat → Bool
  | [], _ => true
  | l :: ls, p =>
    clearLines ls p &&
      (decide (l.length < p) || ls.any (fun m => p ≤ m.length) || decide (extent ls p ≤ l.length))

def Clear (content : Bytes) : Prop := clearLines (lines content) (lastPart content).length = true

instance (content : Bytes) : Decidable (Clear content) := inferInstanceAs (Decidable (_ = _))

/-- What stands in the buffer when a chunk was copied behind the beginning of a line, and again each
time when there was more in the chunk than room. -/
def contents : Nat → Bytes → Bytes → List Bytes
  | 0, _, _ => []
  | fuel + 1, part, data =>
    if data = [] then []
    else
      let content := part ++ data.take (8191 - part.length)
      content :: contents fuel (lastPart content) (data.drop (8191 - part.length))

def buffered : Bytes → List Bytes → List Bytes
  | _, [] => []
  | part, data :: chunks => contents data.length part data ++ buffered (lastPart (part ++ data)) chunks

end Retrace.Retraced
