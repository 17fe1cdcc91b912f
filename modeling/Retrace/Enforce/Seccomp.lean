import Retrace.Enforce.Spec

/-!
# The seccomp floor

`seccomp_apply.c` assembles a classic BPF program from the deny list of a spec, and the kernel interprets it
for every system call.
-/

namespace Retrace.Enforce

open CLib

structure SockFilter where
  code : UInt16
  jt : UInt8
  jf : UInt8
  k : UInt32
  deriving DecidableEq, Repr

structure SeccompData where
  nr : UInt32
  arch : UInt32

def SeccompData.word (d : SeccompData) (off : UInt32) : Option UInt32 :=
  if off = 0 then some d.nr else if off = 4 then some d.arch else none

/-- The kernel's interpreter with the accumulator `a`, on the instructions from the program counter on. Jumps
are relative to the next instruction, and behind the program nothing is returned. -/
def bpf_run (d : SeccompData) : List SockFilter → UInt32 → Option UInt32
  | [], _ => none
  | f :: rest, a =>
    if f.code = 0x20 then
      match d.word f.k with
      | none => none
      | some v => bpf_run d rest v
    else if f.code = 0x15 then bpf_run d (rest.drop (if a = f.k then f.jt else f.jf).toNat) a
    else if f.code = 0x06 then some f.k
    else none
termination_by p => p.length
decreasing_by all_goals (simp_wf; try omega)

def SECCOMP_RET_ERRNO : UInt32 := 0x00050000
def SECCOMP_RET_ALLOW : UInt32 := 0x7fff0000
def EPERM : UInt32 := 1
def AUDIT_ARCH_X86_64 : UInt32 := 0xc000003e

def sc_nr (sc_names : List (Bytes × Int)) (name : Bytes) : Int :=
  match sc_names.find? fun s => s.1 = name with
  | some s => s.2
  | none => -1

section

variable (native : UInt32) (sc_names : List (Bytes × Int)) (stale : Nat → UInt8 × UInt8)

def deny_entry (name : Bytes) : List SockFilter :=
  let nr := sc_nr sc_names name
  if nr < 0 then []
  else [⟨0x15, 0, 1, UInt32.ofInt nr⟩, ⟨0x06, 0, 0, SECCOMP_RET_ERRNO ||| (EPERM &&& 0xffff)⟩]

/-- The array of instructions. The jumps of two instructions are not assigned: they are `stale`. -/
def seccomp_filter (deny : List Bytes) : List SockFilter :=
  let body := deny.flatMap (deny_entry sc_names)
  [⟨0x20, 0, 0, 4⟩, ⟨0x15, 0, 0, native⟩, ⟨0x20, (stale 2).1, (stale 2).2, 0⟩] ++ body ++
    [⟨0x06, (stale (3 + body.length)).1, (stale (3 + body.length)).2, SECCOMP_RET_ALLOW⟩]

/-- The program the kernel is given: its length is a 16-bit number. -/
def seccomp_prog (spec : EnforceSpec) : List SockFilter :=
  let f := seccomp_filter native sc_names stale spec.deny
  f.take (UInt16.ofNat f.length).toNat

/-- The return value and the program that was installed, where `no_new_privs` and `install` are the errors of the
two system calls. -/
def enforce_seccomp_apply (no_new_privs install : Option UInt32) (spec : EnforceSpec) :
    Int × Option (List SockFilter) :=
  if spec.deny = [] then (0, none)
  else
    match no_new_privs with
    | some e => (if e = EPERM then 1 else -1, none)
    | none =>
      match install with
      | some e => (if e = 22 ∨ e = 38 then 1 else -1, none)
      | none => (0, some (seccomp_prog native sc_names stale spec))

end

def Listed (sc_names : List (Bytes × Int)) (deny : List Bytes) (nr : UInt32) : Prop :=
  ∃ name ∈ deny, 0 ≤ sc_nr sc_names name ∧ UInt32.ofInt (sc_nr sc_names name) = nr

structure DeniesList (native : UInt32) (sc_names : List (Bytes × Int)) (deny : List Bytes) (d : SeccompData)
    (result : Option UInt32) : Prop where
  listed : d.arch = native → Listed sc_names deny d.nr → result = some (SECCOMP_RET_ERRNO ||| EPERM)
  other : d.arch = native → ¬Listed sc_names deny d.nr → result = some SECCOMP_RET_ALLOW
  foreign : d.arch ≠ native → result ≠ some SECCOMP_RET_ALLOW

def JumpsInside (p : List SockFilter) : Prop :=
  ∀ pre f rest, p = pre ++ f :: rest → f.code = 0x15 → f.jt.toNat < rest.length ∧ f.jf.toNat < rest.length

end Retrace.Enforce
