import Coypu.Library.Memory

/-!
# Circular arrays

A list stored in an array of `cap` cells from position `s` on, going back to cell `0` after the last
one. The start may be `cap` itself, which names the same place as `0`: an implementation that wraps
late leaves its positions there, so the library does not assume they are below `cap`.

`Holds` says nothing about the other end of the list. An end position `h` fits when it is
`s + length` or lies one revolution below it (`Ends`); when `h = s` both the empty and the full list
fit, which is the ambiguity a separate flag has to resolve.
-/

namespace Ring

open FlatMemory

variable {α : Type*} {m : ℕ → α} {cap s h : ℕ} {l k : List α}

/-- The cell of the position `i`, which runs past the end of the array at most once. -/
def index (cap i : ℕ) : ℕ := if i < cap then i else i - cap

/-- The list stored from position `s` on. -/
def Holds (m : ℕ → α) (cap s : ℕ) (l : List α) : Prop :=
  ∀ (i : ℕ) (hi : i < l.length), m (index cap (s + i)) = l[i]

/-- `h` is an end position of `n` items that start at `s`. -/
def Ends (cap s n h : ℕ) : Prop := s + n = h ∨ s + n = h + cap

@[simp] theorem holds_nil : Holds m cap s [] := fun _ hi ↦ absurd hi (by simp)

/-- Storing `k` at the end position, up to the end of the array, appends it. -/
theorem Holds.append (hl : Holds m cap s l) (hend : Ends cap s l.length h)
    (hroom : h + k.length ≤ cap) (hlen : l.length + k.length ≤ cap) :
    Holds (store m h k) cap s (l ++ k) := by
  intro i hi
  rw [List.length_append] at hi
  rcases Nat.lt_or_ge i l.length with hil | hil
  · rw [List.getElem_append_left hil, ← hl i hil]
    rcases hend with hend | hend
    · exact store_of_lt _ (by unfold index; split <;> omega)
    · rcases Nat.lt_or_ge (s + i) cap with hc | hc
      · exact store_of_le (by rw [index, if_pos hc]; omega)
      · exact store_of_lt _ (by rw [index, if_neg (by omega)]; omega)
  · have hpos : index cap (s + i) = h + (i - l.length) := by
      unfold index
      rcases hend with hend | hend <;> split <;> omega
    rw [List.getElem_append_right hil, hpos, store_add]

/-- Dropping items from the front moves the start, possibly past the end of the array. -/
theorem Holds.drop (hl : Holds m cap s l) {n t : ℕ} (ht : t = s + n ∨ t + cap = s + n)
    (hs : s ≤ cap) (hlen : l.length ≤ cap) : Holds m cap t (l.drop n) := by
  intro i hi
  rw [List.length_drop] at hi
  have hpos : index cap (t + i) = index cap (s + (n + i)) := by
    unfold index
    rcases ht with rfl | ht
    · rw [Nat.add_assoc]
    · split <;> split <;> omega
  rw [List.getElem_drop, hpos, hl (n + i) (by omega)]

theorem Holds.take (hl : Holds m cap s l) (n : ℕ) : Holds m cap s (l.take n) := by
  intro i hi
  rw [List.length_take] at hi
  rw [List.getElem_take, hl i (by omega)]

theorem Holds.load (hl : Holds m cap s l) {n : ℕ} (hn : s + n ≤ cap) (hln : n ≤ l.length) :
    load m s n = l.take n := by
  refine List.ext_getElem (by simp; omega) fun i h₁ h₂ ↦ ?_
  rw [length_load] at h₁
  rw [getElem_load, List.getElem_take, ← hl i (by omega), index, if_pos (by omega)]

/-- The cells from the beginning of the array hold what was carried past its end. -/
theorem Holds.load_wrapped (hl : Holds m cap s l) (hs : s ≤ cap) (hlen : l.length ≤ cap) {n : ℕ}
    (hn : cap + n ≤ s + l.length) : FlatMemory.load m 0 n = (l.drop (cap - s)).take n := by
  refine (hl.drop (n := cap - s) (t := 0) ?_ hs hlen).load (by omega) (by simp; omega)
  right
  omega

theorem Holds.load_both (hl : Holds m cap s l) (hs : s ≤ cap) (hlen : l.length ≤ cap)
    (hend : s + l.length = h + cap) :
    FlatMemory.load m s (cap - s) ++ FlatMemory.load m 0 h = l := by
  rw [hl.load (by omega) (by omega), hl.load_wrapped hs hlen (by omega),
    List.take_of_length_le (l := l.drop (cap - s)) (by simp; omega), List.take_append_drop]

theorem holds_load {n : ℕ} (hn : s + n ≤ cap) : Holds m cap s (FlatMemory.load m s n) := by
  intro i hi
  rw [getElem_load, index, if_pos (by rw [length_load] at hi; omega)]

theorem holds_load_both (hs : s ≤ cap) :
    Holds m cap s (FlatMemory.load m s (cap - s) ++ FlatMemory.load m 0 h) := by
  intro i hi
  rw [List.length_append, length_load, length_load] at hi
  rcases Nat.lt_or_ge i (cap - s) with hlt | hge
  · rw [List.getElem_append_left (by rwa [length_load]), getElem_load, index, if_pos (by omega)]
  · rw [List.getElem_append_right (by rwa [length_load]), getElem_load, index, if_neg (by omega)]
    congr 1
    rw [length_load]
    omega

theorem Holds.get (hl : Holds m cap s l) {i : ℕ} (hi : i < l.length) :
    l[i]? = some (m (index cap (s + i))) := by
  rw [List.getElem?_eq_getElem hi, hl i hi]

theorem index_of_lt {i : ℕ} (hi : i < cap) : index cap i = i := if_pos hi

theorem index_of_ge {i : ℕ} (hi : cap ≤ i) : index cap i = i - cap := if_neg (by omega)

end Ring
