import Mathlib.Algebra.Order.Ring.Int
import Mathlib.Data.List.Basic
import Mathlib.Logic.Function.Basic

/-!
# Linked lists in a memory

The objects of a free list hold the links themselves. `Chain next head l` says that the links from
`head` on lead through the objects of `l` and then end. So a chain has no cycle (`Chain.nodup`), and
only the links of its own objects matter (`Chain.congr`).
-/

set_option autoImplicit false

namespace FreeList

variable {α : Type*} {next next' : α → Option α} {head : Option α} {a : α} {l l' : List α}

/-- The links from `head` on. -/
def Chain (next : α → Option α) : Option α → List α → Prop
  | head, [] => head = none
  | head, a :: l => head = some a ∧ Chain next (next a) l

@[simp] theorem chain_nil : Chain next head [] ↔ head = none := Iff.rfl

@[simp] theorem chain_cons : Chain next head (a :: l) ↔ head = some a ∧ Chain next (next a) l :=
  Iff.rfl

namespace Chain

/-- The links determine the list. -/
theorem unique (h : Chain next head l) (h' : Chain next head l') : l = l' := by
  induction l generalizing head l' with
  | nil =>
    cases l' with
    | nil => rfl
    | cons b l' => exact absurd (h.symm.trans h'.1) (by simp)
  | cons a l ih =>
    cases l' with
    | nil => exact absurd (h'.symm.trans h.1) (by simp)
    | cons b l' =>
      obtain rfl := Option.some.inj (h.1.symm.trans h'.1)
      rw [ih h.2 h'.2]

theorem suffix (h : Chain next head (l' ++ l)) : Chain next l.head? l := by
  induction l' generalizing head with
  | nil =>
    cases l with
    | nil => rfl
    | cons a l => exact ⟨rfl, h.2⟩
  | cons b l' ih => exact ih h.2

/-- **A chain has no cycle.** -/
theorem nodup (h : Chain next head l) : l.Nodup := by
  induction l generalizing head with
  | nil => exact .nil
  | cons a l ih =>
    refine List.nodup_cons.mpr ⟨fun hmem ↦ ?_, ih h.2⟩
    obtain ⟨l₁, l₂, rfl⟩ := List.append_of_mem hmem
    -- From its second occurrence on, `a` would have the links of a shorter list.
    have heq := unique h.2 (suffix h.2).2
    exact absurd (congrArg List.length heq) (by rw [List.length_append, List.length_cons]; omega)

theorem congr (h : Chain next head l) (hnext : ∀ a ∈ l, next' a = next a) : Chain next' head l := by
  induction l generalizing head with
  | nil => exact h
  | cons a l ih =>
    refine ⟨h.1, ?_⟩
    rw [hnext a List.mem_cons_self]
    exact ih h.2 fun b hb ↦ hnext b (List.mem_cons_of_mem _ hb)

variable [DecidableEq α]

theorem push (h : Chain next head l) (ha : a ∉ l) :
    Chain (Function.update next a head) (some a) (a :: l) := by
  refine ⟨rfl, ?_⟩
  rw [Function.update_self]
  refine h.congr fun b hb ↦ Function.update_of_ne ?_ _ _
  rintro rfl
  exact ha hb

end Chain

end FreeList
