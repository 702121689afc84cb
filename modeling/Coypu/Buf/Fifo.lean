import Coypu.Library.Memory

/-!
# The abstract buffer

What a circular buffer is for: a queue of at most `cap` items. Adding refuses what does not fit as a
whole, removing refuses more than there is, and both refuse a count of zero. Nothing here knows of
an array or of positions in it.
-/

set_option autoImplicit false

namespace Coypu

open FlatMemory

/-- A queue of at most `cap` items, the oldest first. -/
@[ext] structure Fifo (α : Type*) (cap : ℕ) where
  items : List α
  length_le : items.length ≤ cap

namespace Fifo

variable {α : Type*} {cap : ℕ}

def empty : Fifo α cap := ⟨[], Nat.zero_le _⟩

/-- The queue that holds `l` and has no room left. -/
def ofList (l : List α) : Fifo α l.length := ⟨l, Nat.le_refl _⟩

/-- Add a list of items. -/
def append (q : Fifo α cap) (l : List α) (h : q.items.length + l.length ≤ cap) : Fifo α cap :=
  ⟨q.items ++ l, by rw [List.length_append]; exact h⟩

/-- Remove the `n` oldest items. -/
def drop (q : Fifo α cap) (n : ℕ) : Fifo α cap :=
  ⟨q.items.drop n, by
    have := q.length_le
    rw [List.length_drop]
    omega⟩

@[simp] theorem items_append (q : Fifo α cap) (l : List α) (h : q.items.length + l.length ≤ cap) :
    (q.append l h).items = q.items ++ l := rfl

@[simp] theorem items_drop (q : Fifo α cap) (n : ℕ) : (q.drop n).items = q.items.drop n := rfl

/-- Add one item if there is room for it. -/
def push (q : Fifo α cap) (x : α) : Bool × Fifo α cap :=
  if h : q.items.length + [x].length ≤ cap then (true, q.append [x] h) else (false, q)

/-- Add the first `n` items of a block if there is one and room for them. -/
def pushBlock (q : Fifo α cap) (block : Option (ℕ → α)) (n : ℕ) : Bool × Fifo α cap :=
  match block with
  | none => (false, q)
  | some p =>
    if h : 0 < n ∧ q.items.length + n ≤ cap then
      (true, q.append (load p 0 n) (by rw [length_load]; exact h.2))
    else (false, q)

/-- Remove and deliver the `n` oldest items if there are as many. -/
def pop (q : Fifo α cap) (n : ℕ) : Option (List α) × Fifo α cap :=
  if 0 < n ∧ n ≤ q.items.length then (some (q.items.take n), q.drop n) else (none, q)

/-- The item `i` places behind the oldest one. -/
def peek (q : Fifo α cap) (i : ℕ) : Option α := q.items[i]?

/-- The least place that holds `d`. -/
def find [DecidableEq α] (q : Fifo α cap) (d : α) : Option ℕ := q.items.findIdx? (· = d)

end Fifo

end Coypu
