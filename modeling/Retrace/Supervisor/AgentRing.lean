import Retrace.Circular.Circular
import Retrace.CLib.Proofs.BufferProofs

/-!
# The ring of events

`agent_ring.c`: a circular buffer of 256 slots. A short item is copied into the slot, a longer one into
memory of its own; an item the ring does not take is counted.
-/

namespace Retrace.Supervisor

open CLib Circular

def AGENT_RING_CAP : Nat := 256

def AGENT_RING_INLINE : Nat := 768

/-- `struct agent_ring_slot`. -/
structure Slot where
  heap : Option Bytes
  len : Nat
  buf : Bytes
  size : buf.length = AGENT_RING_INLINE

def Slot.view (s : Slot) : Bytes := s.heap.getD s.buf

def Slot.release (s : Slot) : Slot := { s with heap := none }

structure AgentRing where
  ring : Buffer Slot AGENT_RING_CAP
  dropped : UInt64

def AgentRing.texts (r : AgentRing) : List Bytes := r.ring.items.map fun s => cstr s.view

/-- What `ring_push` leaves in the slot of an item of `len` bytes, if there is memory for it. -/
def Slot.fill (s : Slot) (heap_item : Option Bytes) (item : Bytes) (len : Nat) (malloc_ok : Bool) : Option Slot :=
  match heap_item with
  | some h => some { s with heap := some h, len := len }
  | none =>
    if h : len ≤ AGENT_RING_INLINE - 1 then
      some { heap := none
             len := len
             buf := memcpy s.buf 0 (item.take len ++ [0])
             size := by
              rw [memcpy_length, s.size]
              rw [s.size, List.length_append, List.length_take, List.length_singleton]
              rw [AGENT_RING_INLINE] at h ⊢
              omega }
    else if malloc_ok then some { s with heap := some (item.take len ++ [0]), len := len }
    else none

def ring_push (r : AgentRing) (heap_item : Option Bytes) (item : Bytes) (len : Nat) (malloc_ok : Bool) :
    Int × AgentRing :=
  if h : r.ring.count < AGENT_RING_CAP then
    let slot := r.ring.slots (r.ring.index r.ring.count)
    match slot.fill heap_item item len malloc_ok with
    | some slot => (0, { r with ring := r.ring.push slot h })
    | none => (-1, { ring := r.ring.spoil slot.release, dropped := r.dropped + 1 })
  else (-1, { r with dropped := r.dropped + 1 })

def agent_ring_push_copy (r : AgentRing) (item : Bytes) (len : Nat) (malloc_ok : Bool) : Int × AgentRing :=
  ring_push r none item len malloc_ok

/-- `agent_ring_push_heap`; the item comes with its NUL. -/
def agent_ring_push_heap (r : AgentRing) (heap_item : Bytes) (len : Nat) : Int × AgentRing :=
  ring_push r (some heap_item) heap_item len true

/-- `agent_ring_peek`: the item as a C string. -/
def agent_ring_peek (r : AgentRing) : Option Bytes := r.ring.peek.map fun s => cstr s.view

def agent_ring_pop (r : AgentRing) : AgentRing := { r with ring := r.ring.pop Slot.release }

end Retrace.Supervisor
