import Mathlib.Algebra.Order.Ring.Int
import Mathlib.Data.List.Range

/-!
# Going through a range page by page

A loop over the pages of a range does its first round from the beginning of the range on, and each
other round from the first byte of its page on. `At` is what such a loop carries from round to
round.
-/

set_option autoImplicit false

namespace Pages

variable {pageSize start done i : ℕ}

/-- The loop is at page `i` when `done` bytes of the range from `start` on are done. -/
structure At (pageSize start done i : ℕ) : Prop where
  index_eq : i = (start + done) / pageSize
  start_eq : done = 0 ∨ start + done = i * pageSize

namespace At

theorem first (pageSize start : ℕ) : At pageSize start 0 (start / pageSize) := ⟨rfl, Or.inl rfl⟩

theorem max_eq (h : At pageSize start done i) : max start (i * pageSize) = start + done := by
  have hdiv := Nat.div_mul_le_self (start + done) pageSize
  rw [← h.index_eq] at hdiv
  rcases h.start_eq with h0 | h0 <;> omega

theorem le (h : At pageSize start done i) : i * pageSize ≤ start + done := by
  have hmax := h.max_eq
  omega

theorem lt (h : At pageSize start done i) (hpage : 0 < pageSize) :
    start + done < i * pageSize + pageSize := by
  have hlt := Nat.lt_mul_div_succ (start + done) hpage
  rw [← h.index_eq, Nat.mul_comm, Nat.add_mul] at hlt
  omega

theorem next (h : At pageSize start done i) (hpage : 0 < pageSize) {n : ℕ}
    (hn : n = pageSize - (start + done - i * pageSize)) : At pageSize start (done + n) (i + 1) := by
  have hle := h.le
  have hlt := h.lt hpage
  have hmul : start + (done + n) = (i + 1) * pageSize := by
    rw [Nat.add_mul]
    omega
  exact ⟨by rw [hmul, Nat.mul_div_cancel _ hpage], Or.inr hmul⟩

end At

theorem exists_filter_range' {p : ℕ → Bool} (i n : ℕ)
    (hp : ∀ j k, i ≤ j → p j = true → ∀ x, j ≤ x → x ≤ k → p k = true → p x = true) :
    ∃ a m, (List.range' i n).filter p = List.range' a m ∧ i ≤ a := by
  induction n generalizing i with
  | zero => exact ⟨i, 0, by simp, Nat.le_refl i⟩
  | succ n ih =>
    obtain ⟨a, m, hfilter, ha⟩ := ih (i + 1) fun j k hj ↦ hp j k (Nat.le_of_succ_le hj)
    rw [List.range'_succ]
    by_cases hi : p i = true
    · rw [List.filter_cons_of_pos hi, hfilter]
      cases m with
      | zero => exact ⟨i, 1, rfl, Nat.le_refl i⟩
      | succ m =>
        -- the next number lies between two that are left
        have hmem : a ∈ (List.range' (i + 1) n).filter p := by
          rw [hfilter, List.range'_succ]
          exact List.mem_cons_self
        rw [List.mem_filter, List.mem_range'_1] at hmem
        have hnext := hp i a (Nat.le_refl i) hi (i + 1) (Nat.le_succ i) ha hmem.2
        have hmem' : i + 1 ∈ List.range' a (m + 1) := by
          rw [← hfilter, List.mem_filter, List.mem_range'_1]
          exact ⟨⟨Nat.le_refl _, by omega⟩, hnext⟩
        rw [List.mem_range'_1] at hmem'
        obtain rfl : a = i + 1 := Nat.le_antisymm hmem'.1 ha
        exact ⟨i, m + 1 + 1, List.range'_succ.symm, Nat.le_refl i⟩
    · rw [List.filter_cons_of_neg hi]
      exact ⟨a, m, hfilter, Nat.le_of_succ_le ha⟩

end Pages
