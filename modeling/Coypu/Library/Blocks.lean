import Mathlib.Algebra.Order.Ring.Int
import Mathlib.Data.List.Basic

/-!
# Lists of blocks

A list of lists is read as one list that is divided into blocks. A position in it is a boundary,
before the `n`-th block, or lies inside a block.
-/

namespace Blocks

variable {α : Type*}

/-- The position before the `n`-th block. -/
def start (bs : List (List α)) (n : ℕ) : ℕ := (bs.take n).flatten.length

@[simp] theorem start_zero (bs : List (List α)) : start bs 0 = 0 := rfl

theorem start_mono (bs : List (List α)) {m n : ℕ} (h : m ≤ n) : start bs m ≤ start bs n := by
  have hsplit : bs.take n = bs.take m ++ (bs.take n).drop m := by
    have := List.take_append_drop m (bs.take n)
    rwa [List.take_take, Nat.min_eq_left h, eq_comm] at this
  rw [start, start, hsplit, List.flatten_append, List.length_append]
  exact Nat.le_add_right _ _

theorem start_succ {bs : List (List α)} {n : ℕ} (hn : n < bs.length) :
    start bs (n + 1) = start bs n + bs[n].length := by
  rw [start, start, List.take_succ_eq_append_getElem hn, List.flatten_append, List.length_append]
  simp

theorem start_append {bs cs : List (List α)} {n : ℕ} (hn : n ≤ bs.length) :
    start (bs ++ cs) n = start bs n := by
  rw [start, start, List.take_append_of_le_length hn]

theorem drop_flatten (bs : List (List α)) (n : ℕ) :
    bs.flatten.drop (start bs n) = (bs.drop n).flatten := by
  have hsplit : bs.flatten = (bs.take n).flatten ++ (bs.drop n).flatten := by
    rw [← List.flatten_append, List.take_append_drop]
  rw [start]
  nth_rewrite 1 [hsplit]
  exact List.drop_left' rfl

theorem start_add (bs : List (List α)) (m n : ℕ) :
    start bs (m + n) = start bs m + start (bs.drop m) n := by
  rw [start, start, start, ← List.length_append, ← List.flatten_append, List.take_add]

theorem start_length (bs : List (List α)) : start bs bs.length = bs.flatten.length := by
  rw [start, List.take_length]

theorem start_add_le {bs : List (List α)} {n j : ℕ}
    (h : n ≤ bs.length ∧ j = 0 ∨ ∃ hn : n < bs.length, j < bs[n].length) :
    start bs n + j ≤ bs.flatten.length := by
  rw [← start_length]
  rcases h with ⟨hn, rfl⟩ | ⟨hn, hj⟩
  · exact start_mono bs hn
  · have hnext := start_mono bs (Nat.succ_le_of_lt hn)
    rw [Nat.succ_eq_add_one, start_succ hn] at hnext
    omega

theorem take_start_add (bs : List (List α)) (n i : ℕ) :
    bs.flatten.take (start bs n + i) = (bs.take n).flatten ++ (bs.drop n).flatten.take i := by
  have hsplit : bs.flatten = (bs.take n).flatten ++ (bs.drop n).flatten := by
    rw [← List.flatten_append, List.take_append_drop]
  rw [hsplit, start, List.take_length_add_append]

/-- Where a position lies: at a boundary, or strictly inside a block. -/
theorem exists_boundary {bs : List (List α)} {i : ℕ} (hi : i ≤ bs.flatten.length) :
    ∃ n j, n ≤ bs.length ∧ i = start bs n + j ∧
      (j = 0 ∨ ∃ hn : n < bs.length, j < bs[n].length) := by
  induction bs generalizing i with
  | nil =>
    refine ⟨0, 0, Nat.le_refl _, ?_, Or.inl rfl⟩
    simpa using hi
  | cons b bs ih =>
    by_cases hlt : i < b.length
    · exact ⟨0, i, Nat.zero_le _, by simp, Or.inr ⟨by simp, hlt⟩⟩
    · rw [List.flatten_cons, List.length_append] at hi
      obtain ⟨n, j, hn, hij, hj⟩ := ih (i := i - b.length) (by omega)
      refine ⟨n + 1, j, by simpa using hn, ?_, ?_⟩
      · have hstart : start (b :: bs) (n + 1) = b.length + start bs n := by
          rw [start, List.take_succ_cons, List.flatten_cons, List.length_append, start]
        rw [hstart, Nat.add_assoc, ← hij, Nat.add_sub_cancel' (Nat.le_of_not_lt hlt)]
      · rcases hj with hj | ⟨hlt', hj⟩
        · exact Or.inl hj
        · exact Or.inr ⟨by simpa using hlt', by simpa using hj⟩

theorem start_add_ne {bs : List (List α)} {n j m : ℕ} (hn : n < bs.length) (hj : 0 < j)
    (hlt : j < bs[n].length) : start bs n + j ≠ start bs m := by
  intro heq
  by_cases hle : m ≤ n
  · have := start_mono bs hle
    omega
  · have hnext := start_mono bs (Nat.succ_le_of_lt (Nat.lt_of_not_le hle))
    rw [start_succ hn] at hnext
    omega

end Blocks
