import Retrace.CLib.CString
import Mathlib.Logic.Function.Basic

/-!
# Files and streams

A file system as a map from paths to contents, the streams `fopen` returns for appending, and the
lines `fgets` delivers. Opening, writing and removing succeed. What `fputs` is given stays in the
stream's buffer until it is written out; the library may write out part of the buffer at any time
(`FILE.spill`), and `fflush` writes out all of it.
-/

namespace CLib

abbrev Path := Bytes

/-- A file system: the content of each file, `none` where there is no file. -/
abbrev FS := Path → Option Bytes

structure FILE where
  path : Path
  pending : Bytes

def FILE.full (fs : FS) (f : FILE) : Option Bytes := (fs f.path).map (· ++ f.pending)

/-- `fopen(path, "a")`: the file is created when it does not exist. -/
def fopenAppend (fs : FS) (path : Path) : FS × FILE :=
  (Function.update fs path (some ((fs path).getD [])), ⟨path, []⟩)

def fputs (f : FILE) (s : Bytes) : FILE := { f with pending := f.pending ++ s }

def FILE.spill (fs : FS) (f : FILE) (n : Nat) : FS × FILE :=
  (Function.update fs f.path ((fs f.path).map (· ++ f.pending.take n)),
    { f with pending := f.pending.drop n })

def fflush (fs : FS) (f : FILE) : FS × FILE := f.spill fs f.pending.length

def fclose (fs : FS) (f : FILE) : FS := (fflush fs f).1

def removeFile (fs : FS) (path : Path) : FS := Function.update fs path none

def fgetsFrom (cap : Nat) : Bytes → Bytes → List Bytes
  | cur, [] => if cur = [] then [] else [cur]
  | cur, c :: s =>
    if c = newline ∨ cur.length + 1 = cap - 1 then (cur ++ [c]) :: fgetsFrom cap [] s
    else fgetsFrom cap (cur ++ [c]) s

/-- What successive calls of `fgets(buf, cap, f)` deliver until it returns `NULL`: the lines with
their newlines, a line of more than `cap - 1` bytes in several pieces. -/
def fgetsAll (cap : Nat) (content : Bytes) : List Bytes := fgetsFrom cap [] content

/-- A line that one call of `fgets(buf, cap, f)` delivers whole: its only newline is the last byte. -/
def IsLine (cap : Nat) (l : Bytes) : Prop :=
  ∃ body, l = body ++ [newline] ∧ newline ∉ body ∧ l.length < cap

def linesFrom : Bytes → Bytes → List Bytes
  | _, [] => []
  | cur, c :: s => if c = newline then (cur ++ [c]) :: linesFrom [] s else linesFrom (cur ++ [c]) s

def completeLines (s : Bytes) : List Bytes := linesFrom [] s

/-- What stands behind the last newline of a text, when `cur` is the beginning of the current line. -/
def tornFrom : Bytes → Bytes → Bytes
  | cur, [] => cur
  | cur, c :: s => if c = newline then tornFrom [] s else tornFrom (cur ++ [c]) s

def tornTail (s : Bytes) : Bytes := tornFrom [] s

end CLib
