import Mathlib.Algebra.Order.Ring.Int
import Mathlib.Data.List.Basic

/-!
# Quoted strings

A text has strings between pairs of a mark `q`. `quoted` finds them from left to right, and what it
finds in a text that is put together is found in its parts, if no string has a mark in it.
-/

set_option autoImplicit false

namespace Quoted

variable {α : Type*} [DecidableEq α] (q : α)

/-- The strings of the text, the first of which may have begun before it. -/
def strings : Option (List α) → List α → List (List α)
  | _, [] => []
  | none, x :: l => if x = q then strings (some []) l else strings none l
  | some s, x :: l => if x = q then s :: strings none l else strings (some (s ++ [x])) l

/-- The strings of a text. -/
def quoted (l : List α) : List (List α) := strings q none l

variable {q} {s acc l : List α}

theorem strings_some (hs : q ∉ s) :
    strings q (some acc) (s ++ q :: l) = (acc ++ s) :: quoted q l := by
  induction s generalizing acc with
  | nil => rw [List.nil_append, strings, if_pos rfl, List.append_nil, quoted]
  | cons x s ih =>
    rw [List.mem_cons, not_or] at hs
    rw [List.cons_append, strings, if_neg (Ne.symm hs.1), ih hs.2, List.append_assoc]
    rfl

theorem quoted_string (hs : q ∉ s) : quoted q (q :: (s ++ q :: l)) = s :: quoted q l := by
  rw [quoted, strings, if_pos rfl, strings_some hs, List.nil_append]

end Quoted
