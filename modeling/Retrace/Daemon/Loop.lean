import Retrace.Daemon.Frame
import Retrace.Daemon.PolicyRuns
import Retrace.Journal.Crash

/-!
# The loop of the daemon

`main` of `main.c`: the boot, what the loop does with its connections, and how a run ends. Time, random
bytes, and what arrives on which connection are the input; the records that the handlers ask for are
written to the journal in order.
-/

namespace Retrace.Retraced

open CLib Parson Rpc Runs

def HB_TIMEOUT_MS : Int64 := 15000

inductive Said where
  /-- A hello that was bound to an entry: its pid, and the counter of ids in front of it. -/
  | hello (agent : Bytes) (pid : Int64) (counter : UInt64)
  | event (agent : Bytes) (seq : UInt64) (journaled : Bool)
  | heartbeat (agent : Bytes)
  /-- The acknowledgement of a policy, and whether it is in the journal. -/
  | policy_ack (agent : Bytes) (journaled : Bool)
  | bye (agent : Bytes)
  deriving DecidableEq

structure Running where
  d : Daemon
  w : World
  j : Journal
  said : List Said := []

def journal_effect (now : Int64) (p : World × Journal) : Effect → World × Journal
  | .journal agent_id seq event => (retraced_journal_event p.1 p.2 now agent_id seq (some event)).2
  | _ => p

def journal_effects (now : Int64) (p : World × Journal) (es : List Effect) : World × Journal :=
  es.foldl (journal_effect now) p

def journaled (now : Int64) (p : World × Journal) : Effect → Bool
  | .journal agent_id seq event => (retraced_journal_event p.1 p.2 now agent_id seq (some event)).1 = 0
  | _ => false

def Running.after (s : Running) (now : Int64) (d : Daemon) (es : List Effect) : Running :=
  let p := journal_effects now (s.w, s.j) es
  { s with d := d, w := p.1, j := p.2 }

def Running.conn (s : Running) (i : Nat) : Conn := s.d.ctl.conns.getD i {}

def Daemon.set_conn (d : Daemon) (i : Nat) (f : Conn → Conn) : Daemon :=
  { d with ctl := { d.ctl with conns := d.ctl.conns.modify i f } }

def said_hello (d : Daemon) (payload : Bytes) : List Said :=
  match json_parse_string payload with
  | none => []
  | some v =>
    let o := json_value_get_object v
    let pid := doubleToLong (json_object_get_number o (bytes "pid"))
    match retraced_registry_hello d.reg none pid (doubleToLong (json_object_get_number o (bytes "ppid")))
        (jstr o (bytes "session_token") RETRACED_SESSION_MAX) (jstr o (bytes "cmdline") RETRACED_CMDLINE_MAX) with
    | (reg, some k) => [.hello (reg.agents.getD k {}).id pid d.reg.id_counter]
    | (_, none) => []

/-- What the frame `m` on slot `i` says, when the handler asked for the effects `es`. A connection that was
never bound to an entry has nothing to say but a hello. -/
def said_frame (s : Running) (i : Nat) (env : FrameEnv) (m : Message) (es : List Effect) : List Said :=
  let agent := (s.conn i).agent_id
  -- the record of the agent comes first
  let kept := match es with
    | e :: _ => journaled env.now (s.w, s.j) e
    | [] => false
  if m.frame.type = RpcMsg.HELLO.id then said_hello s.d (agent_payload m)
  else if agent = [] then []
  else if m.frame.type = RpcMsg.HEARTBEAT.id then [.heartbeat agent]
  else if m.frame.type = RpcMsg.EVENT.id then
    let o := (json_parse_string (agent_payload m)).bind json_value_get_object
    [.event agent (doubleToU64 (json_object_get_number o (bytes "seq"))) kept]
  else if m.frame.type = RpcMsg.POLICY_ACK.id then [.policy_ack agent kept]
  else if m.frame.type = RpcMsg.BYE.id then [.bye agent]
  else []

inductive Input where
  | accept (fd : Nat)
  /-- A complete frame on slot `i`. -/
  | frame (i : Nat) (env : FrameEnv) (m : Message)
  /-- Slot `i` cannot be read any more. -/
  | hangup (i : Nat) (now : Int64)
  /-- The descriptor of slot `i` is invalid. -/
  | invalid (i : Nat)
  | verb (now : Int64) (v : PolicyVerb)
  | sweep (now_ms now : Int64)
  /-- A record of the daemon from elsewhere: the gates, the children, the other verbs. -/
  | record (now : Int64) (event : Bytes)

def accept_conn (d : Daemon) (fd : Nat) : Daemon :=
  match d.ctl.conns.findIdx? (·.fd.isNone) with
  | some i => d.set_conn i fun _ => { fd := some fd, io := some fd }
  | none => d

def Running.step (s : Running) : Input → Running × List Effect
  | .accept fd => ({ s with d := accept_conn s.d fd }, [])
  | .frame i env m =>
    if (s.conn i).fd.isNone then (s, [])
    else
      let (d, es) := handle_agent_frame s.d i env m
      ({ s.after env.now d es with said := s.said ++ said_frame s i env m es }, es)
  | .hangup i now =>
    if (s.conn i).fd.isNone then (s, [])
    else
      let d := s.d.set_conn i ({ · with fd := none, io := none })
      let (reg, es) := daemon_frame_drift_summaries d.reg
      let s := s.after now { d with reg := reg } es
      let p := retraced_journal_flush s.w s.j
      ({ s with w := p.1, j := p.2 }, es)
  | .invalid i =>
    if (s.conn i).fd.isNone then (s, [])
    else ({ s with d := s.d.set_conn i ({ · with fd := none, io := none, helloed := false }) }, [])
  | .verb now v =>
    let (ctl, es) := policy_verb s.d.ctl v
    (s.after now { s.d with ctl := ctl } es, es)
  | .sweep now_ms now =>
    let (reg, es) := daemon_frame_drift_summaries s.d.reg
    (s.after now { s.d with reg := retraced_registry_sweep reg now_ms HB_TIMEOUT_MS } es, es)
  | .record now event => (s.after now s.d [daemon_record event], [daemon_record event])

def Running.next (s : Running) (x : Input) : Running := (s.step x).1

def RETRACED_SCOPE_ALL : UInt32 := 0x1f

structure Config where
  rot : Rotation := {}
  opened_at : Int64
  policy : Option Bytes := none
  nonce : Bytes
  /-- `retraced_peer_query_supported`. -/
  peer_query : Bool := true

def boot_policy (ctl : Ctl) : Option Bytes → Option Ctl
  | none => some ctl
  | some content => load_policy ctl content

inductive History where
  | down (w : World) (said : List Said)
  | up (s : Running)

def History.said : History → List Said
  | .down _ said => said
  | .up s => s.said

/-- The boot in `main`, up to the loop. What was written is on disk when it gives up. -/
def daemon_boot (path : Bytes) (w : World) (said : List Said) (cfg : Config) : History :=
  match main_boot path w cfg.rot cfg.opened_at with
  | none => .down w said
  | some s =>
    match boot_policy { conns := List.replicate MAX_AGENTS {}, scopes := RETRACED_SCOPE_ALL } cfg.policy with
    | none => .down (close_stream s.w s.j) said
    | some ctl =>
      let r : Running := { d := { ctl := ctl, reg := s.r, nonce := cfg.nonce }, w := s.w, j := s.j, said := said }
      .up (if cfg.peer_query then r
        else r.after cfg.opened_at r.d
          [daemon_record (bytes "\x7b\"name\":\"retrace.auth.gate_unavailable\"\x7d")])

def Running.stop (C : Crypto) (s : Running) (e : Ending) : World :=
  match e with
  | .crash _ _ => (Session.stop C ⟨s.w, s.j, s.d.reg, 0⟩ e).1
  | .graceful closed_at _ _ =>
    let (reg, es) := daemon_frame_drift_summaries s.d.reg
    let s := s.after closed_at { s.d with reg := reg } es
    (Session.stop C ⟨s.w, s.j, s.d.reg, 0⟩ e).1

inductive DaemonOp where
  | input (x : Input)
  | stop (e : Ending)
  | boot (cfg : Config)

def History.step (C : Crypto) (path : Bytes) : History → DaemonOp → History
  | .up s, .input x => .up (s.next x)
  | .up s, .stop e => .down (s.stop C e) s.said
  | .down w said, .boot cfg => daemon_boot path w said cfg
  | h, _ => h

def History.bound_ids (h : History) : List Bytes :=
  h.said.filterMap fun
    | .hello agent _ _ => some agent
    | _ => none

def History.mint_keys (h : History) : List (Int64 × UInt64) :=
  h.said.filterMap fun
    | .hello _ pid counter => some (pid, counter)
    | _ => none

end Retrace.Retraced
