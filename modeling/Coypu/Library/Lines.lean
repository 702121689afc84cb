import Mathlib.Algebra.Order.Ring.Int
import Mathlib.Data.List.Basic

/-!
# Lines of a text

A separator `d` ends each line of a text. What lies behind the last one is the beginning of a line
that is not complete. The lines of a text that grows are found from what was left of it before
(`complete_append`, `rest_append`).
-/

set_option autoImplicit false

namespace Lines

variable {α : Type*} [DecidableEq α] (d : α)

/-- The lines that are complete. -/
def complete (l : List α) : List (List α) := (l.splitOn d).dropLast

/-- What lies behind them. -/
def rest (l : List α) : List α := (l.splitOn d).getLast (List.splitOn_ne_nil d l)

variable {d} {l : List α}

theorem complete_concat_rest (d : α) (l : List α) : complete d l ++ [rest d l] = l.splitOn d :=
  List.dropLast_concat_getLast (List.splitOn_ne_nil d l)

theorem mem_splitOn_of_mem_complete {line : List α} (h : line ∈ complete d l) :
    line ∈ l.splitOn d := by
  rw [← complete_concat_rest]
  exact List.mem_append_left _ h

theorem complete_of_not_mem (h : d ∉ l) : complete d l = [] := by
  rw [complete, List.splitOn_eq_singleton h, List.dropLast_singleton]

theorem rest_of_not_mem (h : d ∉ l) : rest d l = l := by
  simp only [rest, List.splitOn_eq_singleton h, List.getLast_singleton]

theorem complete_line_append {line : List α} (h : d ∉ line) (r : List α) :
    complete d (line ++ d :: r) = line :: complete d r := by
  rw [complete, List.splitOn_append_cons_self_of_not_mem h,
    List.dropLast_cons_of_ne_nil (List.splitOn_ne_nil d r), complete]

theorem rest_line_append {line : List α} (h : d ∉ line) (r : List α) :
    rest d (line ++ d :: r) = rest d r := by
  simp only [rest, List.splitOn_append_cons_self_of_not_mem h]
  exact List.getLast_cons (List.splitOn_ne_nil d r)

theorem line_append_inj {line line' r r' : List α} (hline : d ∉ line) (hline' : d ∉ line')
    (h : line ++ d :: r = line' ++ d :: r') : line = line' ∧ r = r' := by
  have hlines := congrArg (complete d) h
  rw [complete_line_append hline, complete_line_append hline'] at hlines
  obtain rfl : line = line' := (List.cons.inj hlines).1
  exact ⟨rfl, (List.cons.inj (List.append_cancel_left h)).2⟩

theorem induction (d : α) {P : List α → Prop} (last : ∀ l, d ∉ l → P l)
    (line : ∀ line r, d ∉ line → P r → P (line ++ d :: r)) (l : List α) : P l := by
  induction hlen : l.length using Nat.strongRecOn generalizing l with
  | _ n ih =>
    by_cases hmem : d ∈ l
    · obtain ⟨front, r, rfl, hfront⟩ := List.eq_append_cons_of_mem hmem
      refine line front r hfront (ih r.length ?_ r rfl)
      rw [← hlen, List.length_append, List.length_cons]
      omega
    · exact last l hmem

theorem not_mem_rest (d : α) (l : List α) : d ∉ rest d l := by
  induction l using induction d with
  | last l h => rwa [rest_of_not_mem h]
  | line line r h ih => rwa [rest_line_append h]

/-- All is left exactly where no line is complete. -/
theorem rest_eq_self_iff : rest d l = l ↔ d ∉ l :=
  ⟨fun h ↦ h ▸ not_mem_rest d l, rest_of_not_mem⟩

theorem complete_append (a b : List α) :
    complete d (a ++ b) = complete d a ++ complete d (rest d a ++ b) := by
  induction a using induction d with
  | last a h => rw [complete_of_not_mem h, rest_of_not_mem h, List.nil_append]
  | line line r h ih =>
    rw [List.append_assoc, List.cons_append, complete_line_append h, complete_line_append h,
      rest_line_append h, ih, List.cons_append]

theorem rest_append (a b : List α) : rest d (a ++ b) = rest d (rest d a ++ b) := by
  induction a using induction d with
  | last a h => rw [rest_of_not_mem h]
  | line line r h ih =>
    rw [List.append_assoc, List.cons_append, rest_line_append h, rest_line_append h, ih]

end Lines
