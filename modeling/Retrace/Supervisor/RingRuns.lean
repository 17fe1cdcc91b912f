import Retrace.Supervisor.Queue

/-!
# Runs of the ring

Everything that happens to the ring of an agent: producers put copies and strings of their own into it,
the agent's thread takes the oldest item out, gets a new id from the daemon, and reports at the end of
`drain_queue` what was dropped. The count of the drops is read without the lock, so that producers can
come between the read and the report. `Books` keeps the items that were accepted and those that were
taken out, how many were refused, and the reports.
-/

namespace Retrace.Supervisor.Queue

open CLib Circular

/-- What a producer hands to the ring: at least `len` bytes of memory. -/
structure RingItem where
  mem : Bytes
  len : Nat
  readable : len ≤ mem.length

def RingItem.content (i : RingItem) : Bytes × Nat := (i.mem.take i.len, i.len)

def slot_content (s : Slot) : Bytes × Nat := (s.view.take s.len, s.len)

def held (r : AgentRing) : List (Bytes × Nat) := r.ring.items.map slot_content

/-- `agent_ring_peek` with its `len_out`: the bytes it points to, as many as the length says. -/
def agent_ring_peek_len (r : AgentRing) : Option (Bytes × Nat) := r.ring.peek.map slot_content

def marker_head (agent_id : Bytes) (now : Int) (delta : UInt64) : Bytes :=
  bytes "\x7b\"agent_id\":\"" ++ agent_id ++ bytes "\",\"seq\":0,\"ts\":" ++ fmtInt now ++
    bytes ",\"name\":\"retrace.agent.dropped\",\"attrs\":\x7b\"count\":\"" ++ fmtNat delta.toNat ++ [dquote]

def marker_text (agent_id : Bytes) (now : Int) (delta total : UInt64) : Bytes :=
  snprintf 176 (marker_head agent_id now delta ++ bytes ",\"total\":\"" ++ fmtNat total.toNat ++
    bytes "\"\x7d\x7d\x7d\x7d")

/-- The count a report carries: the string behind `"count":"` as the agent itself reads one, 0 when there
is none. -/
def marker_count (text : Bytes) : Nat := digitsVal 10 (jscan_str text (bytes "count") 32)

/-- What can happen to the ring; `agent_ring_peek` changes nothing. -/
inductive RingAct where
  /-- `agent_ring_push_copy`. -/
  | push_copy (i : RingItem) (malloc_ok : Bool)
  /-- `agent_ring_push_heap`. -/
  | push_heap (i : RingItem)
  /-- `agent_ring_pop`. -/
  | pop
  /-- The daemon sends a `WELCOME`. -/
  | welcome (body : Bytes)
  /-- `drain_queue` reads how many items were dropped. -/
  | load_drops
  /-- `drain_queue` puts the report into the queue. -/
  | push_marker (now : Int) (malloc_ok : Bool)

structure Books where
  g : AgentState
  /-- The variable `now` of `drain_queue` while a report is due. -/
  due : Option UInt64
  accepted : List (Bytes × Nat)
  refused : Nat
  /-- The items taken out, as `agent_ring_peek` shows them. -/
  released : List (Bytes × Nat)
  markers : List Bytes

def Books.pushed (b : Books) (x : Bytes × Nat) (p : Int × AgentRing) : Books :=
  if p.1 = 0 then { b with g := { b.g with ring := p.2 }, accepted := b.accepted ++ [x] }
  else { b with g := { b.g with ring := p.2 }, refused := b.refused + 1 }

def Books.marker (b : Books) (now : Int) (total : UInt64) : Bytes :=
  marker_text b.g.agent_id now (total - b.g.drops_reported) total

def Books.step (b : Books) : RingAct → Books
  | .push_copy i malloc_ok => b.pushed i.content (agent_ring_push_copy b.g.ring i.mem i.len malloc_ok)
  | .push_heap i => b.pushed i.content (agent_ring_push_heap b.g.ring i.mem i.len)
  | .pop =>
    { b with
      g := { b.g with ring := agent_ring_pop b.g.ring }
      released := b.released ++ (agent_ring_peek_len b.g.ring).toList }
  | .welcome body =>
    { b with g := { b.g with agent_id := jscan_str (frame_payload body 512) (bytes "agent_id") 96 } }
  | .load_drops =>
    { b with due := if b.g.ring.dropped ≠ b.g.drops_reported then some b.g.ring.dropped else none }
  | .push_marker now malloc_ok =>
    match b.due with
    | none => b
    | some total =>
      let marker := b.marker now total
      let (rc, g) := queue_push b.g false marker malloc_ok
      let b' := { b.pushed (cstr marker, (cstr marker).length) (rc, g.ring) with due := none }
      if rc = 0 then
        { b' with g := { b'.g with drops_reported := total }, markers := b'.markers ++ [marker] }
      else b'

def Books.start (g : AgentState) : Books := ⟨g, none, held g.ring, 0, [], []⟩

/-- The ring is a bounded queue of the accepted items, and every loss is counted and reported: what
`agent_ring_peek` shows is the oldest accepted item that was not taken out. -/
structure Exact (b : Books) : Prop where
  fifo : b.accepted = b.released ++ held b.g.ring
  oldest : agent_ring_peek_len b.g.ring = (b.accepted.drop b.released.length).head?
  bounded : b.g.ring.ring.count ≤ AGENT_RING_CAP
  counted : b.g.ring.dropped.toNat = b.refused
  reported : (b.markers.map marker_count).sum = b.g.drops_reported.toNat
  reported_le : b.g.drops_reported ≤ b.g.ring.dropped

def MarkerFits (b : Books) : RingAct → Prop
  | .push_marker now _ => ∀ total ∈ b.due, b.g.ring.ring.count < AGENT_RING_CAP →
      (marker_head b.g.agent_id now (total - b.g.drops_reported)).length < 176
  | _ => True

end Retrace.Supervisor.Queue
