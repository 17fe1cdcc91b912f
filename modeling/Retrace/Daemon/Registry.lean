import Retrace.CLib.CString

/-!
# The process registry

`registry.c`: the agents the daemon knows, in the order they arrived. A pointer to an entry becomes
its index.
-/

namespace Retrace.Retraced

open CLib

def RETRACED_REGISTRY_MAX : Nat := 1024

def RETRACED_AGENT_ID_MAX : Nat := 96

def RETRACED_SESSION_MAX : Nat := 65

def RETRACED_CMDLINE_MAX : Nat := 512

inductive AgentState where
  | live
  | stale
  | gone
  deriving DecidableEq, Repr

structure AgentEntry where
  id : Bytes := []
  session : Bytes := []
  parent_id : Bytes := []
  cmdline : Bytes := []
  pid : Int64 := 0
  ppid : Int64 := 0
  parent_hole : Bool := false
  spectator : Bool := false
  kernel_obs : Nat := 0
  kernel_obs_last : Nat := 0
  policy_epoch : UInt64 := 0
  last_seq : UInt64 := 0
  last_hb_ms : Int64 := 0
  state : AgentState := .live

/-- `struct retraced_registry`. -/
structure Registry where
  agents : List AgentEntry := []
  id_counter : UInt64 := 0

def Registry.modify (r : Registry) (i : Nat) (f : AgentEntry → AgentEntry) : Registry :=
  { r with agents := r.agents.modify i f }

def retraced_registry_find (r : Registry) (agent_id : Bytes) : Option Nat :=
  r.agents.findIdx? (·.id = agent_id)

def minted_id (pid : Int64) (counter : UInt64) : Bytes :=
  snprintf RETRACED_AGENT_ID_MAX (bytes "boot." ++ fmtInt pid.toInt ++ bytes "." ++ fmtNat counter.toNat)

/-- `retraced_registry_hello`; `none` beside the registry is the `NULL` of a full one. -/
def retraced_registry_hello (r : Registry) (agent_id_in : Option Bytes) (pid ppid : Int64)
    (session cmdline : Bytes) : Registry × Option Nat :=
  let (r, id) := match agent_id_in with
    | some (c :: s) => (r, c :: s)
    | _ => ({ r with id_counter := r.id_counter + 1 }, minted_id pid (r.id_counter + 1))
  match retraced_registry_find r id with
  | some i => (r.modify i ({ · with state := .live }), some i)
  | none =>
    if RETRACED_REGISTRY_MAX ≤ r.agents.length then (r, none)
    else
      let e : AgentEntry :=
        { id := snprintf RETRACED_AGENT_ID_MAX id
          session := snprintf RETRACED_SESSION_MAX session
          cmdline := snprintf RETRACED_CMDLINE_MAX cmdline
          pid := pid
          ppid := ppid }
      ({ r with agents := r.agents ++ [e] }, some r.agents.length)

/-- `retraced_registry_link_parent`: the index of the parent, if it is a traced agent. -/
def retraced_registry_link_parent (r : Registry) (i : Nat) : Registry × Option Nat :=
  match r.agents[i]? with
  | none => (r, none)
  | some e =>
    if e.parent_id ≠ [] ∨ e.parent_hole then (r, retraced_registry_find r e.parent_id)
    else
      let isParent (k : Nat) : Bool :=
        match r.agents[k]? with
        | some cand => k ≠ i && cand.pid = e.ppid && cand.state ≠ .gone
        | none => false
      match (List.range r.agents.length).find? isParent with
      | some k =>
        let pid := ((r.agents[k]?).map AgentEntry.id).getD []
        (r.modify i ({ · with parent_id := snprintf RETRACED_AGENT_ID_MAX pid }), some k)
      | none => (r.modify i ({ · with parent_hole := 1 < e.ppid }), none)

/-- `retraced_registry_mint_session`, from the 16 bytes drawn; `fallback` replaces a first byte that
is zero. -/
def retraced_registry_mint_session (raw : Bytes) (fallback : UInt8) : Bytes :=
  let raw := match raw with
    | [] => []
    | b :: t => (if b = 0 then fallback else b) :: t
  raw.flatMap fun b => hexFixed 2 b.toNat

def retraced_registry_bye (r : Registry) (agent_id : Bytes) : Registry :=
  match retraced_registry_find r agent_id with
  | some i => r.modify i ({ · with state := .gone })
  | none => r

def retraced_registry_heartbeat (r : Registry) (agent_id : Bytes) (seq : UInt64) (now_ms : Int64) :
    Registry :=
  match retraced_registry_find r agent_id with
  | some i => r.modify i ({ · with last_hb_ms := now_ms, last_seq := seq, state := .live })
  | none => r

def retraced_registry_sweep (r : Registry) (now_ms timeout_ms : Int64) : Registry :=
  { r with agents := r.agents.map fun e =>
      if e.state = .live ∧ 0 < e.last_hb_ms ∧
        timeout_ms < now_ms - e.last_hb_ms then { e with state := .stale } else e }

end Retrace.Retraced
