import Coypu.Library.LowerBound
import Mathlib.Data.List.InsertIdx
import Mathlib.Logic.Function.Basic
import Mathlib.Order.RelClasses

/-!
# Finite maps as sorted lists

A list of keys with values, strictly sorted by the keys, represents a finite map (`Represents`). The
place of a key is found by binary search. Where the key is in the map, its entry is there; where it
is not, there is room for it. So an entry is inserted, replaced or erased at that place.
-/

set_option autoImplicit false

namespace SortedMap

variable {κ β : Type*} (r : κ → κ → Prop)

/-- The list has an entry for each key of the map, and none else. -/
structure Represents (l : List (κ × β)) (m : κ → Option β) : Prop where
  sorted : l.Pairwise fun a b ↦ r a.1 b.1
  mem_iff : ∀ k b, (k, b) ∈ l ↔ m k = some b

variable [DecidableRel r]

/-- The place of a key, by binary search. -/
def position (l : List (κ × β)) (k : κ) : ℕ := LowerBound.lowerBound (fun e ↦ decide (r e.1 k)) l

variable {r} {l l₁ l₂ : List (κ × β)} {m : κ → Option β} {k : κ} {b b' : β}

omit [DecidableRel r] in
theorem represents_nil : Represents r ([] : List (κ × β)) fun _ ↦ none := ⟨.nil, by simp⟩

theorem position_le : position r l k ≤ l.length := LowerBound.lowerBound_le

theorem position_append (h₁ : ∀ e ∈ l₁, r e.1 k) (h₂ : ∀ e ∈ l₂, ¬r e.1 k) :
    position r (l₁ ++ l₂) k = l₁.length :=
  LowerBound.lowerBound_append (fun e he ↦ decide_eq_true (h₁ e he)) fun e he ↦ decide_eq_false
    (h₂ e he)

theorem insertIdx_append {α : Type*} {l₁ l₂ : List α} (a : α) :
    (l₁ ++ l₂).insertIdx l₁.length a = l₁ ++ a :: l₂ := by
  induction l₁ with
  | nil => rw [List.nil_append, List.length_nil, List.insertIdx_zero, List.nil_append]
  | cons e l₁ ih => rw [List.cons_append, List.length_cons, List.insertIdx_succ_cons, ih,
    List.cons_append]

namespace Represents

variable [IsStrictTotalOrder κ r]

theorem split (h : Represents r l m) (k : κ) :
    ∃ l₁ l₂, l = l₁ ++ l₂ ∧ (∀ e ∈ l₁, r e.1 k) ∧ ∀ e ∈ l₂, ¬r e.1 k := by
  obtain ⟨hsorted, -⟩ := h
  induction l with
  | nil => exact ⟨[], [], rfl, by simp, by simp⟩
  | cons a l ih =>
    rw [List.pairwise_cons] at hsorted
    by_cases ha : r a.1 k
    · obtain ⟨l₁, l₂, rfl, h₁, h₂⟩ := ih hsorted.2
      refine ⟨a :: l₁, l₂, rfl, fun e he ↦ ?_, h₂⟩
      rcases List.mem_cons.mp he with rfl | he
      · exact ha
      · exact h₁ e he
    · refine ⟨[], a :: l, rfl, by simp, fun e he ↦ ?_⟩
      rcases List.mem_cons.mp he with rfl | he
      · exact ha
      · exact fun hek ↦ ha (IsTrans.trans _ _ _ (hsorted.1 e he) hek)

theorem split_none (h : Represents r l m) (hk : m k = none) :
    ∃ l₁ l₂, l = l₁ ++ l₂ ∧ (∀ e ∈ l₁, r e.1 k) ∧ ∀ e ∈ l₂, r k e.1 := by
  obtain ⟨l₁, l₂, rfl, h₁, h₂⟩ := h.split k
  refine ⟨l₁, l₂, rfl, h₁, fun e he ↦ ?_⟩
  rcases trichotomous_of r e.1 k with hlt | heq | hgt
  · exact absurd hlt (h₂ e he)
  · have hmem := (h.mem_iff e.1 e.2).mp (List.mem_append_right _ he)
    rw [heq, hk] at hmem
    exact absurd hmem (by simp)
  · exact hgt

omit [DecidableRel r] [IsStrictTotalOrder κ r] in
theorem split_some (h : Represents r l m) (hk : m k = some b) :
    ∃ l₁ l₂, l = l₁ ++ (k, b) :: l₂ ∧ (∀ e ∈ l₁, r e.1 k) ∧ ∀ e ∈ l₂, r k e.1 := by
  obtain ⟨l₁, l₂, rfl⟩ := List.append_of_mem ((h.mem_iff k b).mpr hk)
  have hsorted := List.pairwise_append.mp h.sorted
  exact ⟨l₁, l₂, rfl, fun e he ↦ hsorted.2.2 e he _ List.mem_cons_self,
    (List.pairwise_cons.mp hsorted.2.1).1⟩

omit [DecidableRel r] in
theorem not_of_after (h : ∀ e ∈ l, r k e.1) : ∀ e ∈ l, ¬r e.1 k :=
  fun e he ↦ asymm (h e he)

theorem position_some (h₁ : ∀ e ∈ l₁, r e.1 k) (h₂ : ∀ e ∈ l₂, r k e.1) :
    position r (l₁ ++ (k, b) :: l₂) k = l₁.length := by
  refine position_append h₁ fun e he ↦ ?_
  rcases List.mem_cons.mp he with rfl | he
  · exact irrefl k
  · exact not_of_after h₂ e he

/-- **Lookup.** The entry at the place of a key is its own, if the key is in the map. -/
theorem getElem?_position (h : Represents r l m) (hk : m k = some b) :
    l[position r l k]? = some (k, b) := by
  obtain ⟨l₁, l₂, rfl, h₁, h₂⟩ := h.split_some hk
  rw [position_some h₁ h₂, List.getElem?_append_right (Nat.le_refl _), Nat.sub_self]
  rfl

variable [DecidableEq κ]

/-- **Insertion** of a key that is not in the map. -/
theorem insertIdx (h : Represents r l m) (hk : m k = none) (b : β) :
    Represents r (l.insertIdx (position r l k) (k, b)) (Function.update m k (some b)) := by
  obtain ⟨l₁, l₂, rfl, h₁, h₂⟩ := h.split_none hk
  rw [position_append h₁ (not_of_after h₂), insertIdx_append]
  have hsorted := List.pairwise_append.mp h.sorted
  refine ⟨List.pairwise_append.mpr ⟨hsorted.1, List.pairwise_cons.mpr ⟨h₂, hsorted.2.1⟩, ?_⟩, ?_⟩
  · intro e he e' he'
    rcases List.mem_cons.mp he' with rfl | he'
    · exact h₁ e he
    · exact hsorted.2.2 e he e' he'
  · intro k' b'
    rw [Function.update_apply]
    split_ifs with heq
    · subst heq
      have hnot : (k', b') ∉ l₁ ++ l₂ := fun hmem ↦ by
        rw [h.mem_iff, hk] at hmem
        exact absurd hmem (by simp)
      simp only [List.mem_append, List.mem_cons] at hnot ⊢
      grind
    · rw [← h.mem_iff]
      simp only [List.mem_append, List.mem_cons]
      grind

/-- **Replacement** of the value of a key. -/
theorem set (h : Represents r l m) (hk : m k = some b) (b' : β) :
    Represents r (l.set (position r l k) (k, b')) (Function.update m k (some b')) := by
  obtain ⟨l₁, l₂, rfl, h₁, h₂⟩ := h.split_some hk
  rw [position_some h₁ h₂, List.set_append_right _ _ (Nat.le_refl _), Nat.sub_self,
    List.set_cons_zero]
  have hsorted := List.pairwise_append.mp h.sorted
  have hrest := List.pairwise_cons.mp hsorted.2.1
  refine ⟨List.pairwise_append.mpr ⟨hsorted.1, List.pairwise_cons.mpr ⟨h₂, hrest.2⟩, ?_⟩, ?_⟩
  · intro e he e' he'
    rcases List.mem_cons.mp he' with rfl | he'
    · exact h₁ e he
    · exact hsorted.2.2 e he e' (List.mem_cons_of_mem _ he')
  · intro k' c
    have hmem := h.mem_iff k' c
    rw [Function.update_apply]
    split_ifs with heq
    · subst heq
      have hleft : (k', c) ∉ l₁ := fun he ↦ irrefl k' (h₁ _ he)
      have hright : (k', c) ∉ l₂ := fun he ↦ irrefl k' (h₂ _ he)
      simp only [List.mem_append, List.mem_cons]
      grind
    · rw [← hmem]
      simp only [List.mem_append, List.mem_cons]
      grind

/-- **Removal** of a key. -/
theorem eraseIdx (h : Represents r l m) (hk : m k = some b) :
    Represents r (l.eraseIdx (position r l k)) (Function.update m k none) := by
  obtain ⟨l₁, l₂, rfl, h₁, h₂⟩ := h.split_some hk
  rw [position_some h₁ h₂, List.eraseIdx_append_of_length_le (Nat.le_refl _), Nat.sub_self,
    List.eraseIdx_cons_zero]
  have hsorted := List.pairwise_append.mp h.sorted
  have hrest := List.pairwise_cons.mp hsorted.2.1
  refine ⟨List.pairwise_append.mpr ⟨hsorted.1, hrest.2, fun e he e' he' ↦ ?_⟩, fun k' c ↦ ?_⟩
  · exact hsorted.2.2 e he e' (List.mem_cons_of_mem _ he')
  · have hmem := h.mem_iff k' c
    rw [Function.update_apply]
    split_ifs with heq
    · subst heq
      have hleft : (k', c) ∉ l₁ := fun he ↦ irrefl k' (h₁ _ he)
      have hright : (k', c) ∉ l₂ := fun he ↦ irrefl k' (h₂ _ he)
      simp only [List.mem_append]
      grind
    · rw [← hmem]
      simp only [List.mem_append, List.mem_cons]
      grind

omit [DecidableRel r] [IsStrictTotalOrder κ r] [DecidableEq κ] in
theorem getLast?_eq_some (h : Represents r l m) {e : κ × β} (he : l.getLast? = some e) :
    m e.1 = some e.2 ∧ ∀ k b, m k = some b → k = e.1 ∨ r k e.1 := by
  obtain ⟨l', rfl⟩ := List.getLast?_eq_some_iff.mp he
  refine ⟨(h.mem_iff _ _).mp (List.mem_append_right _ List.mem_cons_self), fun k b hk ↦ ?_⟩
  rcases List.mem_append.mp ((h.mem_iff k b).mpr hk) with hmem | hmem
  · exact .inr ((List.pairwise_append.mp h.sorted).2.2 _ hmem _ List.mem_cons_self)
  · exact .inl (congrArg Prod.fst (List.mem_singleton.mp hmem))

omit [DecidableRel r] [IsStrictTotalOrder κ r] [DecidableEq κ] in
theorem getLast?_eq_none (h : Represents r l m) : l.getLast? = none ↔ ∀ k, m k = none := by
  rw [List.getLast?_eq_none_iff, List.eq_nil_iff_forall_not_mem, Prod.forall]
  refine forall_congr' fun k ↦ ?_
  rw [Option.eq_none_iff_forall_ne_some]
  exact forall_congr' fun b ↦ not_congr (h.mem_iff k b)

end Represents

end SortedMap
