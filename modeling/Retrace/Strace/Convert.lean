import Retrace.Json.Serialize

/-!
# Lines of a system call trace

`convert.c` of the converter: the entry that a line of a file system call becomes, and the lines `strace`
prints for such a call, with the path in quotes and its bytes escaped.
-/

namespace Retrace.Strace

open CLib Parson

def unescaped (c : UInt8) : UInt8 := if c = 110 then 10 else if c = 116 then 9 else if c = 114 then 13 else c

/-- `unescape` behind the opening quote, into a buffer of `dstsz` bytes: these and the text behind the
closing one. -/
def unescape_loop (dstsz : Nat) : Bytes → Bytes → Option (Bytes × Bytes)
  | [], _ => none
  | c :: src, dst =>
    if c = dquote then some (dst, src)
    else if c = backslash then
      match src with
      -- here the code reads on behind the NUL
      | [] => none
      | d :: src => if dstsz ≤ dst.length + 1 then none else unescape_loop dstsz src (dst ++ [unescaped d])
    else if dstsz ≤ dst.length + 1 then none
    else unescape_loop dstsz src (dst ++ [c])

def unescape (src : Bytes) (dstsz : Nat) : Option (Bytes × Bytes) :=
  if src.head? = some dquote then unescape_loop dstsz src.tail [] else none

def g_file_funcs : List Bytes :=
  ["open", "openat", "openat2", "creat", "stat", "lstat", "fstatat", "newfstatat", "statx", "statfs", "access",
    "faccessat", "faccessat2", "unlink", "unlinkat", "rename", "renameat", "renameat2", "link",
      "linkat", "symlink",
    "symlinkat", "mkdir", "mkdirat", "rmdir", "truncate", "ftruncate", "readlink", "readlinkat",
      "execve", "execveat",
    "chown", "lchown", "fchownat", "chmod", "fchmodat"].map bytes

/-- Where `strtol` stops. -/
def strtol_end (s : Bytes) : Bytes :=
  let t := (takeSign (s.dropWhile isspace)).2
  if t.head?.any isdigit then t.dropWhile isdigit else s

def skip_pid (line : Bytes) : Int × Bytes :=
  if (bytes "[pid ").isPrefixOf line then
    let p := strtol_end (line.drop 5)
    (strtol10 (line.drop 5), if p.head? = some rbracket then p.tail else p)
  else if line.head?.any isdigit then (strtol10 line, strtol_end line)
  else (0, line)

/-- The flags behind the path; structured arguments are none. -/
def flags (rest : Bytes) : Bytes :=
  let start := rest.dropWhile fun c => c = 32 || c = comma
  if start.head? = some lbracket ∨ start.head? = some lbrace then []
  else start.takeWhile fun c => c ≠ comma && c ≠ 41 && c ≠ 61

/-- What differs between the entries. A text that is not UTF-8 is left out. -/
structure Entry where
  pid : Int
  func : Option JsonValue
  path : Option JsonValue
  detail : Option JsonValue

def convert_line (line : Bytes) (out : List Entry) : Nat × List Entry :=
  let name := (skip_pid line).2.dropWhile (· = 32)
  let func := name.takeWhile (· ≠ 40)
  if 40 ∉ name ∨ func ∉ g_file_funcs then (0, out)
  else
    match unescape ((name.dropWhile (· ≠ 40)).dropWhile (· ≠ dquote)) 1024 with
    | none => (0, out)
    | some (path, rest) =>
      let detail := (flags rest).take 255
      (1, out ++ [⟨(skip_pid line).1, json_value_init_string (func.take 31), json_value_init_string path,
        if detail = [] then none else json_value_init_string detail⟩])

def octal (c : UInt8) : Bytes := [decDigit (c.toNat / 64), decDigit (c.toNat / 8 % 8), decDigit (c.toNat % 8)]

/-- `strace` prints the text for the byte. Zeros in front of an octal number may be left out. -/
def Quotes (c : UInt8) (text : Bytes) : Prop :=
  if c = 10 then text = bytes "\\n"
  else if c = 9 then text = bytes "\\t"
  else if c = 13 then text = bytes "\\r"
  else if c = 11 then text = bytes "\\v"
  else if c = 12 then text = bytes "\\f"
  else if c = dquote ∨ c = backslash then text = [backslash, c]
  else if 32 ≤ c ∧ c < 127 then text = [c]
  else ∃ k ds, text = backslash :: ds ∧ ds ≠ [] ∧ List.replicate k 48 ++ ds = octal c

structure PathByte where
  byte : UInt8
  text : Bytes
  quotes : Quotes byte text

inductive Pid where
  | none
  | bracket (n : Nat)
  | column (n : Nat)

def Pid.text : Pid → Bytes
  | .none => []
  | .bracket n => bytes "[pid " ++ (fmtNat n ++ [rbracket])
  | .column n => fmtNat n

structure Line where
  pid : Pid
  spaces : Nat
  func : Bytes
  args : Bytes
  path : List PathByte
  rest : Bytes
  file : func ∈ g_file_funcs
  args_unquoted : dquote ∉ args
  path_short : path.length < 1024
  no_nul : 0 ∉ args ++ (path.map PathByte.byte ++ rest)

def Line.call (l : Line) : Bytes :=
  l.func ++ 40 :: (l.args ++ dquote :: (l.path.flatMap PathByte.text ++ dquote :: l.rest))

def Line.text (l : Line) : Bytes := l.pid.text ++ (List.replicate l.spaces 32 ++ l.call)

/-- The line becomes an entry with its path or none. -/
def Faithful (l : Line) (out : List Entry) : Prop :=
  (∃ e, convert_line l.text out = (1, out ++ [e]) ∧ e.path = some (.string (l.path.map PathByte.byte))) ∨
    convert_line l.text out = (0, out)

end Retrace.Strace
