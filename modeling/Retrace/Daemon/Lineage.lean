import Retrace.Journal.Reader
import Retrace.Runs.Runs

/-!
# The session tree

The links between the entries of the registry: a hello gives its entry the id of the first other entry
that has the pid of its parent. Entries that come from the journal have no parent and the pid 0.
-/

namespace Retrace.Retraced

open CLib Runs

inductive RegistryOp where
  | hello (agent_id_in : Option Bytes) (pid ppid : Int64) (session cmdline : Bytes)
  | bye (agent_id : Bytes)
  | heartbeat (agent_id : Bytes) (seq : UInt64) (now_ms : Int64)
  | sweep (now_ms timeout_ms : Int64)

def Registry.step (r : Registry) : RegistryOp → Registry
  | .hello agent_id_in pid ppid session cmdline =>
    match retraced_registry_hello r agent_id_in pid ppid session cmdline with
    | (r, some i) => (retraced_registry_link_parent r i).1
    | (r, none) => r
  | .bye agent_id => retraced_registry_bye r agent_id
  | .heartbeat agent_id seq now_ms => retraced_registry_heartbeat r agent_id seq now_ms
  | .sweep now_ms timeout_ms => retraced_registry_sweep r now_ms timeout_ms

def Registry.parent (r : Registry) (i : Nat) : Option Nat :=
  match r.agents[i]? with
  | some e => if e.parent_id = [] then none else retraced_registry_find r e.parent_id
  | none => none

def Registry.ancestor (r : Registry) : Nat → Nat → Option Nat
  | 0, i => some i
  | k + 1, i => (r.ancestor k i).bind r.parent

def Registry.Forest (r : Registry) : Prop :=
  ∀ i < r.agents.length, ∃ k j e, r.ancestor k i = some j ∧ r.agents[j]? = some e ∧ e.parent_id = []

def hello_id (r : Registry) (agent_id_in : Option Bytes) (pid : Int64) : Bytes :=
  match agent_id_in with
  | some (c :: s) => c :: s
  | _ => minted_id pid (r.id_counter + 1)

def LinksBack (r : Registry) : RegistryOp → Prop
  | .hello agent_id_in pid _ _ _ =>
    ∀ i e, retraced_registry_find r (hello_id r agent_id_in pid) = some i → r.agents[i]? = some e →
      e.parent_id = [] →
      e.parent_hole = false → (∃ k < i, ∃ c, r.agents[k]? = some c ∧ c.pid = e.ppid ∧ c.state ≠ .gone) ∨
        ∀ k c, k ≠ i → r.agents[k]? = some c → c.pid = e.ppid → c.state = .gone
  | _ => True

end Retrace.Retraced
