import Retrace.CLib.CString

/-!
# Socket addresses and the specs that deny them

`sockaddr_inspect.c`: an address is printed, and a spec is a text that is compared with it. Beside the code
stands what a spec means: the standard texts of an address and what an address and a spec have to agree in.
-/

namespace Retrace.Core

open CLib

structure InAddr where
  a : UInt8
  b : UInt8
  c : UInt8
  d : UInt8
  deriving DecidableEq

/-- An IPv6 address: its eight words, as the host has them. -/
structure In6Addr where
  words : List UInt16
  length_words : words.length = 8
  deriving DecidableEq

inductive Sockaddr where
  | inet (addr : InAddr) (port : UInt16)
  | inet6 (addr : In6Addr) (port : UInt16)
  | unix (path : Bytes)
  | unknown

/-- The groups of `struct retrace_sockaddr_info`. -/
inductive SockaddrGroup where
  | inet
  | inet6
  | unix
  | unknown
  deriving DecidableEq

structure SockaddrInfo where
  group : SockaddrGroup
  ip : Bytes := []
  port : Nat := 0
  path : Bytes := []

def RETRACE_SOCKADDR_IP_LEN : Nat := 64

def fmtHex (n : Nat) : Bytes := if n = 0 then [48] else (Nat.digits 16 n).reverse.map hexDigit

def format_ipv4 (a : InAddr) : Bytes :=
  [46].intercalate [fmtNat a.a.toNat, fmtNat a.b.toNat, fmtNat a.c.toNat, fmtNat a.d.toNat]

/-- `format_ipv6`: the text has at most 39 characters, so no piece is cut. -/
def format_ipv6 (a : In6Addr) : Bytes := [colon].intercalate (a.words.map fun w => fmtHex w.toNat)

def retrace_sockaddr_inspect : Sockaddr → SockaddrInfo
  | .inet addr port => { group := .inet, ip := format_ipv4 addr, port := port.toNat }
  | .inet6 addr port => { group := .inet6, ip := format_ipv6 addr, port := port.toNat }
  | .unix path => { group := .unix, path := path.takeWhile (· ≠ 0) }
  | .unknown => { group := .unknown }

def parse_port_loop : Nat → Bytes → Option Nat
  | v, [] => some v
  | v, c :: s =>
    if isdigit c then
      let v := v * 10 + (c.toNat - 48)
      if 65535 < v then none else parse_port_loop v s
    else none

def parse_port (s : Bytes) : Option Nat := if s.head?.any isdigit then parse_port_loop 0 s else none

def parse_port_part (s : Bytes) : Option (Option Nat) :=
  if s = [42] then some none else (parse_port s).map some

/-- `parse_host_port`: the host, and the port when there is one. -/
def parse_host_port (spec : Bytes) (host_cap : Nat) : Option (Bytes × Option Nat) :=
  let parts : Option (Bytes × Option Nat) :=
    if spec.head? = some 91 then
      if 93 ∈ spec then
        let host := spec.tail.takeWhile (· ≠ 93)
        match spec.tail.drop (host.length + 1) with
        | [] => some (host, none)
        | c :: port_str => if c = colon then (parse_port_part port_str).map fun p => (host, p) else none
      else none
    else if colon ∈ spec then
      let host := spec.takeWhile (· ≠ colon)
      (parse_port_part (spec.drop (host.length + 1))).map fun p => (host, p)
    else some (spec, none)
  parts.bind fun x => if x.1 = [] ∨ host_cap ≤ x.1.length then none else some x

def retrace_sockaddr_match (info : SockaddrInfo) (spec : Bytes) : Int :=
  if spec = [42] then 1
  else if info.group = .unix then
    if colon ∈ spec then 0 else if spec = info.path then 1 else 0
  else if info.group = .unknown ∧ colon ∉ spec then 0
  else
    match parse_host_port spec RETRACE_SOCKADDR_IP_LEN with
    | none => -1
    | some (host, port) =>
      if host ≠ [42] ∧ host ≠ info.ip then 0
      else if port.any (· ≠ info.port) then 0
      else 1

structure WordText (s : Bytes) (w : UInt16) : Prop where
  ne_nil : s ≠ []
  length_le : s.length ≤ 4
  digits : ∀ c ∈ s, isxdigit c = true
  value : digitsVal 16 s = w.toNat

/-- Words, one after another; the last two can be written as an IPv4 address. -/
inductive WordTexts : List Bytes → List UInt16 → Prop
  | nil : WordTexts [] []
  | dotted (a : InAddr) :
      WordTexts [format_ipv4 a] [a.a.toUInt16 * 256 + a.b.toUInt16, a.c.toUInt16 * 256 + a.d.toUInt16]
  | cons {s : Bytes} {w : UInt16} {ss : List Bytes} {ws : List UInt16} (h : WordText s w) (hs : WordTexts ss ws) :
      WordTexts (s :: ss) (w :: ws)

/-- The standard texts of an IPv6 address: eight words, or fewer with `::` for a run of zeros. -/
inductive In6Text : Bytes → In6Addr → Prop
  | full {ss : List Bytes} {a : In6Addr} (h : WordTexts ss a.words) : In6Text ([colon].intercalate ss) a
  | compressed {ls rs : List Bytes} {lw rw : List UInt16} {a : In6Addr} (zeros : Nat) (hl : WordTexts ls lw)
      (hplain : ls.length = lw.length) (hr : WordTexts rs rw) (hpos : 0 < zeros)
      (h : a.words = lw ++ List.replicate zeros 0 ++ rw) :
      In6Text ([colon].intercalate ls ++ [colon, colon] ++ [colon].intercalate rs) a

structure PortText (s : Bytes) (port : UInt16) : Prop where
  ne_nil : s ≠ []
  digits : ∀ c ∈ s, isdigit c = true
  value : digitsVal 10 s = port.toNat

inductive PortSpec : Option UInt16 → Bytes → Prop
  | any : PortSpec none [42]
  | port {s : Bytes} {p : UInt16} (h : PortText s p) : PortSpec (some p) s

inductive HostSpec where
  | any
  | inet (addr : InAddr)
  | inet6 (addr : In6Addr)

def Agrees : HostSpec → Option UInt16 → Sockaddr → Prop
  | .any, port, .inet _ p => ∀ q ∈ port, q = p
  | .any, port, .inet6 _ p => ∀ q ∈ port, q = p
  | .inet a, port, .inet b p => a = b ∧ ∀ q ∈ port, q = p
  | .inet6 a, port, .inet6 b p => a = b ∧ ∀ q ∈ port, q = p
  | _, _, _ => False

inductive SpecForm : Bytes → HostSpec → Option UInt16 → Prop
  | any_port {s : Bytes} {port : Option UInt16} (h : PortSpec port s) : SpecForm (42 :: colon :: s) .any port
  | host_port {s : Bytes} {port : Option UInt16} (a : InAddr) (h : PortSpec port s) :
      SpecForm (format_ipv4 a ++ colon :: s) (.inet a) port
  | bare_host (a : InAddr) : SpecForm (format_ipv4 a) (.inet a) none
  | literal_port {t s : Bytes} {a : In6Addr} {port : Option UInt16} (ht : In6Text t a) (h : PortSpec port s) :
      SpecForm (91 :: t ++ 93 :: colon :: s) (.inet6 a) port
  | bare_literal {t : Bytes} {a : In6Addr} (ht : In6Text t a) : SpecForm t (.inet6 a) none

def MatchesByAddress (spec : Bytes) (host : HostSpec) (port : Option UInt16) : Prop :=
  ∀ sa, (∃ a p, sa = .inet a p) ∨ (∃ a p, sa = .inet6 a p) →
    retrace_sockaddr_match (retrace_sockaddr_inspect sa) spec ≠ -1 ∧
      (retrace_sockaddr_match (retrace_sockaddr_inspect sa) spec = 1 ↔ Agrees host port sa)

def Printed (spec : Bytes) : HostSpec → Prop
  | .inet6 a => ∃ rest, spec = 91 :: format_ipv6 a ++ 93 :: rest
  | _ => True

end Retrace.Core
