import Mathlib.Data.List.Basic
import Mathlib.Data.List.Range
import Mathlib.Tactic

/-!
# Circular buffers

A queue of at most `cap` items in an array that is used in a circle: `head` is the index of the oldest
item and `count` how many there are. Slots that are not in use keep what was in them. The items, oldest
first, are the queue the buffer stands for; the operations below are those of a queue on them.
-/

namespace Circular

open List

structure Buffer (α : Type*) (cap : Nat) where
  slots : Fin cap → α
  head : Nat
  count : Nat
  head_lt : head < cap
  count_le : count ≤ cap

namespace Buffer

variable {α : Type*} {cap : Nat}

theorem cap_pos (r : Buffer α cap) : 0 < cap := Nat.lt_of_le_of_lt (Nat.zero_le _) r.head_lt

def index (r : Buffer α cap) (i : Nat) : Fin cap := ⟨(r.head + i) % cap, Nat.mod_lt _ r.cap_pos⟩

def items (r : Buffer α cap) : List α := (range r.count).map fun i => r.slots (r.index i)

def peek (r : Buffer α cap) : Option α := if r.count = 0 then none else some (r.slots (r.index 0))

def spoil (r : Buffer α cap) (x : α) : Buffer α cap :=
  { r with slots := Function.update r.slots (r.index r.count) x }

def push (r : Buffer α cap) (x : α) (h : r.count < cap) : Buffer α cap :=
  { r.spoil x with count := r.count + 1, count_le := h }

/-- The slot of the oldest item is given back; `release` is what happens to what is in it. -/
def pop (r : Buffer α cap) (release : α → α) : Buffer α cap :=
  if r.count = 0 then r
  else
    { slots := Function.update r.slots (r.index 0) (release (r.slots (r.index 0)))
      head := (r.head + 1) % cap
      count := r.count - 1
      head_lt := Nat.mod_lt _ r.cap_pos
      count_le := Nat.le_trans (Nat.sub_le _ _) r.count_le }

def clear (r : Buffer α cap) : Buffer α cap := { r with count := 0, count_le := Nat.zero_le _ }

@[simp]
theorem items_length (r : Buffer α cap) : r.items.length = r.count := by
  rw [items, length_map, length_range]

theorem index_injective {r : Buffer α cap} {i j : Nat} (hi : i < cap) (hj : j < cap) (h : r.index i = r.index j) :
    i = j := by
  have hmod : (r.head + i) % cap = (r.head + j) % cap := congrArg Fin.val h
  exact Nat.ModEq.eq_of_lt_of_lt (Nat.ModEq.add_left_cancel' r.head hmod) hi hj

theorem peek_eq (r : Buffer α cap) : r.peek = r.items.head? := by
  unfold peek items
  by_cases h : r.count = 0
  · simp [h]
  · obtain ⟨n, hn⟩ := Nat.exists_eq_succ_of_ne_zero h
    rw [if_neg h, hn, range_succ_eq_map]
    rfl

theorem items_spoil (r : Buffer α cap) (x : α) (h : r.count < cap) : (r.spoil x).items = r.items := by
  refine map_congr_left fun i hi => ?_
  have hlt : i < r.count := mem_range.mp hi
  refine Function.update_of_ne (fun heq => ?_) x r.slots
  exact absurd (index_injective (by omega) h heq) (by omega)

@[simp]
theorem items_push (r : Buffer α cap) (x : α) (h : r.count < cap) : (r.push x h).items = r.items ++ [x] := by
  have hold : (range r.count).map (fun i => (r.spoil x).slots ((r.spoil x).index i)) = r.items := items_spoil r x h
  have hnew : (r.spoil x).slots ((r.spoil x).index r.count) = x := by
    show Function.update r.slots (r.index r.count) x (r.index r.count) = x
    rw [Function.update_self]
  show (range (r.count + 1)).map (fun i => (r.spoil x).slots ((r.spoil x).index i)) = r.items ++ [x]
  rw [range_succ, map_append, hold, map_singleton, hnew]

@[simp]
theorem items_pop (r : Buffer α cap) (release : α → α) : (r.pop release).items = r.items.tail := by
  have hle := r.count_le
  unfold pop
  split
  · next h => simp [items, h]
  · next h =>
    show (range (r.count - 1)).map (fun i => Function.update r.slots (r.index 0) (release (r.slots (r.index 0)))
      ⟨((r.head + 1) % cap + i) % cap, Nat.mod_lt _ r.cap_pos⟩) = r.items.tail
    obtain ⟨n, hn⟩ := Nat.exists_eq_succ_of_ne_zero h
    rw [items, hn, Nat.succ_sub_one, range_succ_eq_map, map_cons, tail_cons, map_map]
    refine map_congr_left fun i hi => ?_
    have hlt : i < n := mem_range.mp hi
    have hnext : (⟨((r.head + 1) % cap + i) % cap, Nat.mod_lt _ r.cap_pos⟩ : Fin cap) = r.index (i + 1) := by
      refine Fin.ext ?_
      show ((r.head + 1) % cap + i) % cap = (r.head + (i + 1)) % cap
      rw [Nat.mod_add_mod]
      congr 1
      omega
    -- the slot of the oldest item is not among those of the others
    rw [hnext]
    refine Function.update_of_ne (fun heq => ?_) _ r.slots
    exact absurd (index_injective (by omega) (by omega) heq) (by omega)

@[simp]
theorem count_pop (r : Buffer α cap) (release : α → α) : (r.pop release).count = r.count - 1 := by
  unfold pop
  split
  · next h => rw [h]
  · rfl

end Buffer

end Circular
