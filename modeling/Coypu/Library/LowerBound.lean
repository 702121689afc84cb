import Mathlib.Algebra.Order.Ring.Int
import Mathlib.Data.List.Basic

/-!
# Binary search

`lowerBound` halves a range of a list as the standard algorithm does, and looks at one element in
each round. If the elements that satisfy the predicate come first, it finds their number
(`lowerBound_append`).
-/

set_option autoImplicit false

namespace LowerBound

variable {α : Type*} (p : α → Bool) (l : List α)

/-- The loop over the `len` elements from `first` on. -/
def search : ℕ → ℕ → ℕ → ℕ
  | 0, first, _ => first
  | fuel + 1, first, len =>
    if len = 0 then first
    else if (l[first + len / 2]?).any p then search fuel (first + len / 2 + 1) (len - len / 2 - 1)
    else search fuel first (len / 2)

/-- The first element that does not satisfy `p`, or the end. -/
def lowerBound : ℕ := search p l l.length 0 l.length

variable {p} {l}

theorem search_le {fuel first len : ℕ} : search p l fuel first len ≤ first + len := by
  induction fuel generalizing first len with
  | zero => exact Nat.le_add_right _ _
  | succ fuel ih =>
    rw [search]
    split_ifs
    · exact Nat.le_add_right _ _
    · exact Nat.le_trans ih (by omega)
    · exact Nat.le_trans ih (by omega)

theorem lowerBound_le : lowerBound p l ≤ l.length := by
  rw [lowerBound]
  exact Nat.le_trans search_le (Nat.le_of_eq (Nat.zero_add _))

theorem search_map {β : Type*} {f : β → α} {l : List β} {fuel first len : ℕ} :
    search p (l.map f) fuel first len = search (fun b ↦ p (f b)) l fuel first len := by
  induction fuel generalizing first len with
  | zero => rfl
  | succ fuel ih =>
    rw [search, search, ih, ih, List.getElem?_map, Option.any_map]

theorem lowerBound_map {β : Type*} {f : β → α} {l : List β} :
    lowerBound p (l.map f) = lowerBound (fun b ↦ p (f b)) l := by
  rw [lowerBound, lowerBound, search_map, List.length_map]

theorem search_eq {n fuel first len : ℕ} (hlt : ∀ i < n, (l[i]?).any p = true)
    (hge : ∀ i, n ≤ i → (l[i]?).any p = false) (hfirst : first ≤ n) (hlast : n ≤ first + len)
    (hfuel : len ≤ fuel) : search p l fuel first len = n := by
  induction fuel generalizing first len with
  | zero =>
    rw [search]
    omega
  | succ fuel ih =>
    rw [search]
    split_ifs with hempty hmiddle
    · omega
    · refine ih (Nat.lt_of_not_le fun hle ↦ ?_) (by omega) (by omega)
      rw [hge _ hle] at hmiddle
      exact absurd hmiddle (by decide)
    · refine ih hfirst (Nat.not_lt.mp fun hlt' ↦ hmiddle ?_) (by omega)
      exact hlt _ (by omega)

/-- **Binary search finds the point** where the elements that satisfy `p` end. -/
theorem lowerBound_append {l₁ l₂ : List α} (h₁ : ∀ a ∈ l₁, p a = true)
    (h₂ : ∀ a ∈ l₂, p a = false) : lowerBound p (l₁ ++ l₂) = l₁.length := by
  refine search_eq (fun i hi ↦ ?_) (fun i hi ↦ ?_) (Nat.zero_le _) ?_ (Nat.le_refl _)
  · rw [List.getElem?_append_left hi, List.getElem?_eq_getElem hi, Option.any_some]
    exact h₁ _ (List.getElem_mem hi)
  · rw [List.getElem?_append_right hi]
    cases hget : l₂[i - l₁.length]? with
    | none => rfl
    | some a => exact h₂ a (List.mem_of_getElem? hget)
  · rw [Nat.zero_add, List.length_append]
    exact Nat.le_add_right _ _

end LowerBound
