import Retrace.Daemon.Control
import Retrace.Daemon.Registry

/-!
# The frames of the agents

`daemon_frame.c` and `handle_agent_frame` of `main.c`: what the daemon does with a frame of an agent.
The role of an agent is decided by the nonce of its hello. `handle_agent_frame` works on a copy of the
connection's flags, from which only some frames copy back. In front of them `drift_hits.c`: claims of
the libc lane and observations of the kernel lane in two rings; an observation that no recent claim
covers is a hit, named once for a while.
-/

namespace Retrace.Retraced

open CLib Parson Rpc

def CLAIM_RING : Nat := 128

def HIT_RING : Nat := 64

def CLAIM_WINDOW_S : Int64 := 5

def HIT_DEDUP_S : Int64 := 15

/-- `struct claim` and `struct hit_key`, which have the same fields. -/
structure DriftKey where
  pid : Int64 := 0
  op : Bytes := []
  path : Bytes := []
  /-- The time of the entry; 0 for one that was never used. -/
  ts : Int64 := 0

structure DriftHits where
  g_claims : List DriftKey := List.replicate CLAIM_RING {}
  g_claims_next : Nat := 0
  g_hits : List DriftKey := List.replicate HIT_RING {}
  g_hits_next : Nat := 0

/-- `key_copy`; an operation or a path that is `NULL` is empty. -/
def key_copy (pid : Int64) (op path : Option Bytes) (now : Int64) : DriftKey :=
  { pid := pid, op := snprintf 32 (op.getD []), path := snprintf 192 (path.getD []), ts := now }

/-- `same_key`. A pid refines the match when both sides have one. -/
def same_key (c : DriftKey) (pid : Int64) (op path : Option Bytes) : Bool :=
  c.op = op.getD [] && c.path = path.getD [] && !(0 < pid && 0 < c.pid && pid ≠ c.pid)

def ring_has (window : Int64) (ring : List DriftKey) (pid : Int64) (op path : Option Bytes) (now : Int64) : Bool :=
  ring.any fun c => c.ts ≠ 0 && !(window < now - c.ts) && same_key c pid op path

def claim_covers (d : DriftHits) (pid : Int64) (op path : Option Bytes) (now : Int64) : Bool :=
  ring_has CLAIM_WINDOW_S d.g_claims pid op path now

def hit_recent (d : DriftHits) (pid : Int64) (op path : Option Bytes) (now : Int64) : Bool :=
  ring_has HIT_DEDUP_S d.g_hits pid op path now

def retrace_drift_claim (d : DriftHits) (pid : Int64) (op path : Option Bytes) (now : Int64) : DriftHits :=
  { d with
    g_claims := d.g_claims.set d.g_claims_next (key_copy pid op path now)
    g_claims_next := (d.g_claims_next + 1) % CLAIM_RING }

/-- `retrace_drift_observe`: whether the observation is a hit. -/
def retrace_drift_observe (d : DriftHits) (pid : Int64) (op path : Option Bytes) (now : Int64) :
    DriftHits × Bool :=
  if path.getD [] = [] then (d, false)
  else if claim_covers d pid op path now then (d, false)
  else if hit_recent d pid op path now then (d, false)
  else
    ({ d with
        g_hits := d.g_hits.set d.g_hits_next (key_copy pid op path now)
        g_hits_next := (d.g_hits_next + 1) % HIT_RING }, true)

structure Daemon where
  /-- `g_ctl`, with the connections. -/
  ctl : Ctl
  reg : Registry := {}
  drift : DriftHits := {}
  /-- `g_agent_nonce`. -/
  nonce : Bytes

structure FrameEnv where
  /-- `now_ms()`. -/
  now_ms : Int64
  /-- `time(NULL)`. -/
  now : Int64
  /-- The 16 bytes drawn for a session token. -/
  raw : Bytes
  fallback : UInt8

structure ConnState where
  agent_id : Bytes
  helloed : Bool
  spectator : Bool

/-- What `daemon_frame_handle` leaves: the state of the connection, the registry, the drift rings and the
effects. -/
structure Handled where
  st : ConnState
  reg : Registry
  drift : DriftHits
  out : List Effect := []

/-- `jstr`: a string member, empty when there is none. -/
def jstr (o : Option JsonObject) (key : Bytes) (cap : Nat) : Bytes :=
  snprintf cap ((json_object_get_string o key).getD [])

def daemon_record (event : Bytes) : Effect := .journal (bytes "daemon") 0 event

/-- `drift_attr_suffix`: the first member whose name ends so, when it is a string. -/
def drift_attr_suffix (attrs : Option JsonObject) (suffix : Bytes) : Option Bytes :=
  match attrs with
  | none => none
  | some attrs =>
    match attrs.find? (fun m => suffix <:+ m.1) with
    | none => none
    | some m => json_object_get_string (some attrs) m.1

def drift_attr_path (attrs : Option JsonObject) : Option Bytes := drift_attr_suffix attrs (bytes "path")

def drift_attr_func (attrs : Option JsonObject) : Option Bytes :=
  match drift_attr_suffix attrs (bytes "func") with
  | some v => some v
  | none => drift_attr_suffix attrs (bytes "syscall")

def hit_event (op path : Option Bytes) : Bytes :=
  bytes "\x7b\"name\":\"retrace.drift.hit\",\"op\":\"" ++ op.getD [] ++ bytes "\",\"path\":\"" ++ path.getD [] ++
    bytes "\"\x7d"

def count_kernel (reg : Registry) (agent_id : Bytes) : Registry :=
  match retraced_registry_find reg agent_id with
  | some i => reg.modify i fun e => { e with kernel_obs := e.kernel_obs + 1 }
  | none => reg

def grade_event (env : FrameEnv) (reg : Registry) (drift : DriftHits) (agent_id : Bytes) (o : Option JsonObject) :
    DriftHits × List Effect :=
  let attrs := json_object_get_object o (bytes "attrs")
  let pid := match retraced_registry_find reg agent_id with
    | some i => ((reg.agents[i]?).map AgentEntry.pid).getD 0
    | none => 0
  if json_object_get_string o (bytes "source") = some (bytes "kernel") then
    let op := json_object_get_string attrs (bytes "syscall")
    let path := drift_attr_path attrs
    let (drift, hit) := retrace_drift_observe drift pid op path env.now
    (drift, if hit then [daemon_record (snprintf 288 (hit_event op path))] else [])
  else if json_object_get_string o (bytes "source") = some (bytes "libc") then
    let op := match drift_attr_func attrs with
      | some v => some v
      | none => json_object_get_string o (bytes "name")
    (retrace_drift_claim drift pid op (drift_attr_path attrs) env.now, [])
  else (drift, [])

def frame_event (env : FrameEnv) (h : Handled) (payload : Bytes) : Handled :=
  if !h.st.helloed then h
  else
    match json_parse_string payload with
    | none => h
    | some v =>
      let o := json_value_get_object v
      let record := Effect.journal h.st.agent_id (doubleToU64 (json_object_get_number o (bytes "seq"))) payload
      let reg := if json_object_get_string o (bytes "source") = some (bytes "kernel") then
        count_kernel h.reg h.st.agent_id else h.reg
      let (drift, hits) := grade_event env reg h.drift h.st.agent_id o
      { h with reg := reg, drift := drift, out := h.out ++ record :: hits }

def frame_heartbeat (env : FrameEnv) (h : Handled) (payload : Bytes) : Handled :=
  if !h.st.helloed then h
  else
    match json_parse_string payload with
    | none => h
    | some v =>
      let seq := doubleToU64 (json_object_get_number (json_value_get_object v) (bytes "seq"))
      { h with reg := retraced_registry_heartbeat h.reg h.st.agent_id seq env.now_ms }

/-- The `POLICY_ACK` branch of `daemon_frame_handle`. The payload is journaled even when it cannot be
parsed. -/
def frame_policy_ack (h : Handled) (payload : Bytes) : Handled :=
  if !h.st.helloed then h
  else
    let reg := match json_parse_string payload, retraced_registry_find h.reg h.st.agent_id with
      | some v, some i => h.reg.modify i fun e => { e with
          policy_epoch := doubleToU64 (json_object_get_number (json_value_get_object v) (bytes "policy_epoch")) }
      | _, _ => h.reg
    { h with reg := reg, out := h.out ++ [.journal h.st.agent_id 0 payload] }

/-- `daemon_frame_handle`; frames are written to `io`. -/
def daemon_frame_handle (env : FrameEnv) (h : Handled) (type : UInt16) (payload : Bytes) (io : Nat) : Handled :=
  if type = RpcMsg.HEARTBEAT.id then frame_heartbeat env h payload
  else if type = RpcMsg.EVENT.id then frame_event env h payload
  else if type = RpcMsg.POLICY_ACK.id then frame_policy_ack h payload
  else if type = RpcMsg.PING.id then { h with out := h.out ++ [.send io .PING (bytes "\x7b\x7d")] }
  else if type = RpcMsg.BYE.id then
    { h with reg := retraced_registry_bye h.reg h.st.agent_id, st := { h.st with helloed := false } }
  else h

def summary_event (e : AgentEntry) : Bytes :=
  bytes "\x7b\"name\":\"retrace.drift.summary\",\"agent\":\"" ++ e.id ++ bytes "\",\"kernel_obs\":" ++
    fmtNat e.kernel_obs ++ bytes ",\"delta\":" ++ fmtNat (e.kernel_obs - e.kernel_obs_last) ++ bytes "\x7d"

/-- `daemon_frame_drift_summaries`: one record for each agent with new observations. -/
def daemon_frame_drift_summaries (reg : Registry) : Registry × List Effect :=
  let due (e : AgentEntry) : Bool := e.kernel_obs ≠ 0 && e.kernel_obs ≠ e.kernel_obs_last
  ({ reg with agents := reg.agents.map fun e => if due e then { e with kernel_obs_last := e.kernel_obs } else e },
    (reg.agents.filter due).map fun e => daemon_record (snprintf 192 (summary_event e)))

def retraced_nonce_matches (presented expected : Bytes) : Bool :=
  if presented.length ≠ expected.length then false
  else (presented.zipWith (· ^^^ ·) expected).foldl (· ||| ·) 0 == 0

def role_text (spectator : Bool) : Bytes := if spectator then bytes "spectator" else bytes "full"

def welcome_text (id session : Bytes) (epoch : Int64) (spectator : Bool) : Bytes :=
  bytes "\x7b\"agent_id\":\"" ++ id ++ bytes "\",\"session_token\":\"" ++ session ++
    bytes "\",\"policy_epoch\":" ++
    fmtInt epoch.toInt ++ bytes ",\"heartbeat_ms\":1000,\"role\":\"" ++ role_text spectator ++ bytes "\"\x7d"

def session_event (name id session : Bytes) : Bytes :=
  bytes "\x7b\"name\":\"" ++ name ++ bytes "\",\"agent\":\"" ++ id ++ bytes "\",\"session\":\"" ++ session ++
    bytes "\"\x7d"

def auth_event (id : Bytes) (spectator : Bool) : Bytes :=
  bytes "\x7b\"name\":\"retrace.auth.agent\",\"agent\":\"" ++ id ++ bytes "\",\"role\":\"" ++
    role_text spectator ++
    bytes "\"\x7d"

/-- The session of the entry with index `k`, whose parent is `parent`: an entry without one takes that of
its parent, or a new one is minted. -/
def resolve_session (env : FrameEnv) (reg : Registry) (k : Nat) (parent : Option Nat) : Registry × List Effect :=
  let e := reg.agents.getD k {}
  let inherited := match parent with
    | some p => (reg.agents.getD p {}).session
    | none => []
  if e.session ≠ [] then (reg, [])
  else
    let session := if inherited ≠ [] then snprintf RETRACED_SESSION_MAX inherited
      else retraced_registry_mint_session env.raw env.fallback
    let name := if inherited ≠ [] then bytes "retrace.session.scrubbed" else bytes "retrace.session.minted"
    (reg.modify k ({ · with session := session }),
      [daemon_record (snprintf 256 (session_event name e.id session))])

def handle_hello (d : Daemon) (i : Nat) (env : FrameEnv) (payload : Bytes) : Daemon × List Effect :=
  match json_parse_string payload with
  | none => (d, [])
  | some v =>
    let o := json_value_get_object v
    let session := jstr o (bytes "session_token") RETRACED_SESSION_MAX
    let cmdline := jstr o (bytes "cmdline") RETRACED_CMDLINE_MAX
    let nonce := jstr o (bytes "nonce") 80
    let pid := doubleToLong (json_object_get_number o (bytes "pid"))
    let ppid := doubleToLong (json_object_get_number o (bytes "ppid"))
    let spectator := !retraced_nonce_matches nonce d.nonce
    let conns := d.ctl.conns.modify i ({ · with spectator := spectator })
    let (reg, e) := retraced_registry_hello d.reg none pid ppid session cmdline
    match e with
    | none => ({ d with ctl := { d.ctl with conns := conns }, reg := reg }, [])
    | some k =>
      let id := (reg.agents.getD k {}).id
      let conns := conns.modify i fun c =>
          { c with agent_id := snprintf RETRACED_AGENT_ID_MAX id, helloed := true }
      let reg := reg.modify k fun e => { e with spectator := spectator, last_hb_ms := env.now_ms }
      let (reg, parent) := retraced_registry_link_parent reg k
      let (reg, sessions) := resolve_session env reg k parent
      let fd := ((conns.getD i {}).fd).getD 0
      let welcome := snprintf 512 (welcome_text id (reg.agents.getD k {}).session d.ctl.policy_epoch spectator)
      let policy := match d.ctl.policy_blob with
        | some blob => if spectator then [] else [Effect.send fd .POLICY_SET blob]
        | none => []
      ({ d with ctl := { d.ctl with conns := conns }, reg := reg },
        sessions ++ .send fd .WELCOME welcome :: policy ++
          [daemon_record (snprintf 224 (auth_event id spectator))])

def agent_payload (m : Message) : Bytes := cstr (m.payload.take (RETRACE_RPC_PAYLOAD_MAX - 1))

def handle_agent_frame (d : Daemon) (i : Nat) (env : FrameEnv) (m : Message) : Daemon × List Effect :=
  let c := d.ctl.conns.getD i {}
  let payload := agent_payload m
  if m.frame.type = RpcMsg.HELLO.id then handle_hello d i env payload
  else
    let h := daemon_frame_handle env ⟨⟨c.agent_id, c.helloed, c.spectator⟩, d.reg, d.drift,
        []⟩ m.frame.type payload
      (c.fd.getD 0)
    let d := { d with reg := h.reg, drift := h.drift }
    -- only these copy the flag back
    if m.frame.type = RpcMsg.BYE.id ∨ m.frame.type = RpcMsg.PING.id then
      ({ d with ctl := { d.ctl with conns := d.ctl.conns.modify i ({ · with helloed := h.st.helloed }) } }, h.out)
    else (d, h.out)

end Retrace.Retraced
