import Retrace.Journal.Reader
import Retrace.Json.Render
import Retrace.HashChain.HashChain

/-!
# The abstract journal

What the journal is for: a hash chain of records, cut into segments of which the oldest may have been
pruned. `Series` is that chain; it carries the proof that it is one. `Rep` relates it to the writer's
state and the files, and the writer's functions are shown to keep the relation in
`Retrace.Journal.Proofs.WriterProofs`.
-/

namespace Retrace.Retraced

open CLib Parson HashChain List

def lineLink (chunk : Bytes) (h : UInt64) : UInt64 := retraced_journal_line_hash (cstr chunk) h

/-- What the replay and the tail see in a line: the link in the member `prev`. A line without newline
or one that does not parse is taken for the torn end of the file. -/
def seeRecord (chunk : Bytes) : Seen UInt64 :=
  if (cstr chunk).getLast? ≠ some newline then .stop
  else
    match json_parse_string (cstr chunk) with
    | none => .stop
    | some v =>
      match json_object_get_string (json_value_get_object v) (bytes "prev") with
      | none => .missing
      | some prev_str => .link (strtoull16 prev_str)

/-- What the offline check sees in a line: the link behind the first `prev_marker`. -/
def seeText (chunk : Bytes) : Seen UInt64 :=
  match text_prev (cstr chunk) with
  | none => .missing
  | some v => .link v

/-- A line as the writer makes it behind the link `h`: one line, an object, and both kinds of reader
find `h` in it. -/
structure RecordLine (h : UInt64) (l : Bytes) : Prop where
  isLine : IsLine 2048 l
  noNul : 0 ∉ l
  object : ∃ o, json_parse_string l = some (.object o)
  record : seeRecord l = .link h
  text : seeText l = .link h

structure Series where
  lo : Nat
  genesis : UInt64
  closed : List (List Bytes)
  live : List Bytes
  /-- Every record carries the link of the one in front of it, across the segments. -/
  linked : Linked RecordLine lineLink genesis (closed.flatten ++ live)
  closed_ne : ∀ c ∈ closed, c ≠ []

namespace Series

def lines (S : Series) : List Bytes := S.closed.flatten ++ S.live

def head (S : Series) : UInt64 := headOf lineLink S.genesis S.lines

def seq (S : Series) : Nat := S.lo + S.closed.length

def empty : Series := ⟨0, 0, [], [], trivial, by simp⟩

def append (S : Series) (l : Bytes) (hl : RecordLine S.head l) : Series where
  lo := S.lo
  genesis := S.genesis
  closed := S.closed
  live := S.live ++ [l]
  linked := by
    rw [← append_assoc, linked_append]
    exact ⟨S.linked, hl, trivial⟩
  closed_ne := S.closed_ne

def roll (S : Series) (h : S.live ≠ []) : Series where
  lo := S.lo
  genesis := S.genesis
  closed := S.closed ++ [S.live]
  live := []
  linked := by
    have := S.linked
    simpa using this
  closed_ne := by
    intro c hc
    rcases mem_append.mp hc with hc | hc
    · exact S.closed_ne c hc
    · rwa [mem_singleton.mp hc]

def prune (S : Series) (c : List Bytes) (cs : List (List Bytes)) (h : S.closed = c :: cs) : Series where
  lo := S.lo + 1
  genesis := headOf lineLink S.genesis c
  closed := cs
  live := S.live
  linked := by
    have := S.linked
    rw [h, flatten_cons, append_assoc, linked_append] at this
    exact this.2
  closed_ne := fun x hx => S.closed_ne x (h ▸ mem_cons_of_mem c hx)

end Series

def MarkersFit (base : Bytes) : Prop :=
  ∀ n head lines, n + 1 < 10000 →
    (segment_closed_text (segment_file base n) head lines).length < 512 ∧
    (segment_opened_text (segment_file base (n + 1)) (segment_file base n) head).length < 512

def PrunesFit (base : Bytes) : Prop :=
  ∀ n size, n < 10000 → (segment_pruned_text (segment_file base n) size).length < 256

structure CleanBase (j : Journal) : Prop where
  plain : j.rotates = true → Plain j.base
  markers : j.rotates = true → MarkersFit j.base
  prunes : j.rotates = true → j.budget_bytes ≠ 0 → PrunesFit j.base

def Journal.liveFile (j : Journal) : Path :=
  if j.rotates then segment_file j.base j.segment_seq else j.base

def LiveRep (fs : FS) (path : Path) (f : Option FILE) (live : List Bytes) : Prop :=
  match f with
  | some f => f.path = path ∧ f.full fs = some live.flatten
  | none => fs path = some live.flatten ∨ (fs path = none ∧ live = [])

/-- The writer's state and the files hold the series `S`. -/
structure Rep (fs : FS) (j : Journal) (S : Series) : Prop where
  base_len : j.base.length ≤ 511
  base_short : j.rotates = true → j.base.length ≤ 506
  seq_lt : j.segment_seq < 10000
  path : j.path = j.liveFile
  head : j.prev_hash = S.head
  seq : j.segment_seq = S.seq
  single : j.rotates = false → S.seq = 0
  closed : ∀ i ls, S.closed[i]? = some ls → fs (segment_file j.base (S.lo + i)) = some ls.flatten
  absent : ∀ n, n < S.lo ∨ S.seq < n → fs (segment_file j.base n) = none
  live : LiveRep fs j.path j.f S.live

def Torn (part : Bytes) : Prop := newline ∉ part ∧ part.length + 1 < 2048

/-- The files of a journal hold the series `S`, and behind it the torn line `part`. -/
structure Stored (fs : FS) (base : Bytes) (rotates : Bool) (S : Series) (part : Bytes := []) : Prop where
  base_len : base.length ≤ 511
  base_short : rotates = true → base.length ≤ 506
  seq_lt : S.seq < 10000
  single : rotates = false → S.seq = 0
  closed : ∀ i ls, S.closed[i]? = some ls → fs (segment_file base (S.lo + i)) = some ls.flatten
  absent : ∀ n, n < S.lo ∨ S.seq < n → fs (segment_file base n) = none
  live : fs (if rotates then segment_file base S.seq else base) = some (S.live.flatten ++ part)
  torn : Torn part

def NoSentinel (ls : List Bytes) : Prop := ∀ k, headOf lineLink 0 (ls.take k) ≠ broken_head

theorem noSentinel_iff {ls : List Bytes} :
    NoSentinel ls ↔ ∀ k < ls.length + 1, headOf lineLink 0 (ls.take k) ≠ broken_head := by
  refine ⟨fun h k _ => h k, fun h k => ?_⟩
  rcases Nat.lt_or_ge k (ls.length + 1) with hk | hk
  · exact h k hk
  · have := h ls.length (by omega)
    rwa [take_of_length_le (by omega), ← take_length (l := ls)]

instance (ls : List Bytes) : Decidable (NoSentinel ls) := decidable_of_iff' _ noSentinel_iff

end Retrace.Retraced
