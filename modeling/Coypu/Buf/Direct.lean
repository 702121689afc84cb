import Coypu.Buf.Fill

/-!
# Handing out the array

`direct` hands out the array from the tail on, and `backup` takes back what was not needed of it.
This works as long as the items do not go around the end of the array, or fill it (`Unsplit`);
behind a piece that was handed out they do not (`Handed`). Elsewhere the length that `direct`
computes is negative.
-/

set_option autoImplicit false

namespace Coypu

namespace BipBuf

open FlatMemory

variable {T : CapacityType} {α : Type*} {b : BipBuf T α} {l : List α} {n : ℕ}

/-- The last branch of `direct` is not taken. -/
def Unsplit (b : BipBuf T α) : Prop := b.full = true ∨ b.tail ≤ b.head

instance : Decidable b.Unsplit := inferInstanceAs (Decidable (_ ∨ _))

/-- A piece of `n` items of `l` was handed out, and any number of them can be taken back. -/
structure Handed (b : BipBuf T α) (capacity : ℕ) (l : List α) (n : ℕ) : Prop where
  rep : b.Rep (l.drop n)
  capacity_eq : b.capacity = capacity
  unsplit : b.full = false ∧ b.tail ≤ b.head
  backup : ∀ m ≤ n, (b.backup m).buf.Rep (l.drop (n - m)) ∧ (b.backup m).buf.capacity = capacity

theorem Layout.rep_of_linear (h : b.Layout l) (hf : b.full = false)
    (hend : b.tail + l.length = b.head) : b.Rep l where
  toLayout := h
  full_iff := by
    have hcap := b.capacity_pos
    rw [hf]
    simp only [Bool.false_eq_true, false_iff]
    omega
  head_pos htail := by
    have hcap := b.capacity_pos
    omega

theorem direct_of_linear (h : b.Rep l) (hl : l ≠ []) (hf : b.full = false) (hle : b.tail ≤ b.head) :
    b.direct.ret = some ⟨b.tail, l.length⟩ ∧ Handed b.direct.buf b.capacity l l.length := by
  have hpos := List.length_pos_iff.mpr hl
  have hhead := h.head_le
  have hend : b.tail + l.length = b.head := by
    rcases h.of_not_full (by simp [hf]) with ⟨-, he⟩ | ⟨hlt, -⟩
    · exact he
    · omega
  have hlen : b.head - b.tail = l.length := by omega
  have hadv (k : ℕ) (hk : k ≤ l.length) : (b.advance k).Rep (l.drop k) := by
    refine (h.toLayout.advance hk (by omega)).rep_of_linear hf ?_
    rw [List.length_drop, advance_tail, advance_head]
    omega
  have hempty : ¬b.isEmpty = true := by rw [h.isEmpty_eq]; simpa using hl
  have hdirect : b.direct.ret = some ⟨b.tail, l.length⟩ ∧ b.direct.buf = b.advance l.length := by
    rw [direct, if_neg hempty, if_pos (by omega), hlen, advance, hend, clearFull, hf]
    exact ⟨rfl, rfl⟩
  refine ⟨hdirect.1, ?_⟩
  rw [hdirect.2]
  refine ⟨hadv _ (Nat.le_refl _), rfl, ⟨hf, by simp [hend]⟩, fun m hm ↦ ?_⟩
  have hrep := hadv _ (Nat.le_refl l.length)
  have hback : ((b.advance l.length).backup m).buf = b.advance (l.length - m) := by
    have hmin : min (b.tail + l.length) m = m := by omega
    have htail : b.tail + l.length - m = b.tail + (l.length - m) := by omega
    rw [backup, hrep.free_eq, List.drop_length]
    simp only [advance_capacity, advance_tail, advance_head, advance_full, hf, hmin, Nat.sub_self,
      Bool.false_eq_true, false_and, if_false, Nat.lt_irrefl, List.length_nil, Nat.sub_zero]
    rw [if_neg (by omega), if_neg (by omega), if_neg (by omega), htail]
    simp only [advance, hf]
  rw [hback]
  exact ⟨hadv _ (Nat.sub_le _ _), rfl⟩

theorem direct_of_full (h : b.Rep l) (hf : b.full = true) (htail : b.tail < b.capacity) :
    b.direct.ret = some ⟨b.tail, b.capacity - b.tail⟩ ∧
      Handed b.direct.buf b.capacity l (b.capacity - b.tail) := by
  obtain ⟨hhead, hlen⟩ := h.of_full hf
  obtain ⟨n, hn⟩ : ∃ n, n = b.capacity - b.tail := ⟨_, rfl⟩
  have hempty : ¬b.isEmpty = true := by simp [isEmpty, hf]
  have hdirect : b.direct.ret = some ⟨b.tail, n⟩ ∧
      b.direct.buf = ({ b with tail := 0 } : BipBuf T α).clearFull := by
    rw [direct, if_neg hempty, if_neg (by omega), if_pos hf, hn]
    exact ⟨rfl, rfl⟩
  rw [← hn, hdirect.2]
  refine ⟨hdirect.1, ?_⟩
  have hadv (k : ℕ) (hk : k ≤ n) : (b.advance k).Layout (l.drop k) :=
    h.toLayout.advance (by omega) (by omega)
  have hwrap : ({ b with tail := 0 } : BipBuf T α).clearFull.Rep (l.drop n) := by
    have hlay := (hadv n (Nat.le_refl n)).wrapTail (by
      rw [advance_tail, List.length_drop, advance_head, advance_capacity]; omega)
    have heq : (b.advance n).wrapTail = { b with tail := 0 } := by
      rw [BipBuf.wrapTail, if_pos (by rw [advance_tail, advance_capacity]; omega)]
      rfl
    rw [heq] at hlay
    refine hlay.clearFull.rep_of_linear rfl ?_
    rw [List.length_drop]
    simp only [clearFull_tail, clearFull_head]
    omega
  refine ⟨hwrap, rfl, ⟨rfl, Nat.zero_le _⟩, fun m hm ↦ ?_⟩
  rw [backup, hwrap.free_eq, List.length_drop]
  simp only [clearFull_capacity, clearFull_tail, clearFull_head, clearFull_full, Nat.zero_min,
    Bool.false_eq_true, false_and, if_false, Nat.not_lt_zero, Nat.zero_add, Nat.sub_zero]
  rw [if_neg (by omega), if_neg (by omega)]
  by_cases hm0 : m = 0
  · rw [if_neg (by omega), hm0, Nat.sub_zero]
    exact ⟨hwrap, rfl⟩
  · -- what is taken back lies at the end of the array again
    rw [if_pos (by omega)]
    have hrep := (hadv (n - m) (Nat.sub_le _ _)).rep_markFull
      (List.length_pos_iff.mp (by rw [List.length_drop]; omega))
      (by rw [advance_tail, advance_capacity]; omega)
    have htail' : b.capacity - m = b.tail + (n - m) := by omega
    rw [htail']
    exact ⟨hrep, rfl⟩

/-- In a full buffer with the tail behind the array, nothing is handed out at first. -/
theorem direct_of_end (h : b.Rep l) (hf : b.full = true) (htail : b.tail = b.capacity) :
    b.direct.ret = some ⟨b.tail, 0⟩ ∧ b.direct.buf.Rep l ∧ b.direct.buf.full = false ∧
      b.direct.buf.tail ≤ b.direct.buf.head ∧ b.direct.buf.capacity = b.capacity := by
  obtain ⟨hhead, hlen⟩ := h.of_full hf
  have hempty : ¬b.isEmpty = true := by simp [isEmpty, hf]
  have hwrap : b.wrapTail = { b with tail := 0 } := if_pos htail
  have hlay := h.toLayout.wrapTail (by omega)
  rw [hwrap] at hlay
  rw [direct, if_neg hempty, if_neg (by omega), if_pos hf]
  refine ⟨by rw [htail, Nat.sub_self], hlay.clearFull.rep_of_linear rfl ?_, rfl, Nat.zero_le _, rfl⟩
  simp only [clearFull_tail, clearFull_head]
  omega

theorem direct_of_nil (h : b.Rep []) : b.direct.ret = none ∧ b.direct.buf = b := by
  rw [direct, h.isEmpty_eq]
  exact ⟨rfl, rfl⟩

/-! ## Around the pieces -/

theorem backup_zero (h : b.Rep l) (hun : b.Unsplit) : (b.backup 0).buf = b := by
  rw [backup, if_neg (Nat.not_lt_zero _)]
  by_cases hf : b.full = true
  · rw [if_pos ⟨hf, (h.of_full hf).1.symm⟩]
  · have hle := hun.resolve_left hf
    rw [if_neg (fun hand ↦ hf hand.1), if_neg (Nat.not_lt.mpr hle), if_neg (Nat.not_lt_zero _)]
    simp only [Nat.min_zero, Nat.sub_zero, Nat.lt_irrefl, if_false]

theorem removed_linear (hf : b.full = false) (hle : b.tail ≤ b.head) (n : ℕ) :
    (b.afterFirst n).advance (n - b.firstPart n) = b.advance n := by
  have hw : ¬(b.head < b.tail ∨ b.full = true) := by
    rw [hf]
    simpa using hle
  rw [firstPart, if_neg hw, afterFirst, if_neg hw, Nat.sub_zero, clearFull, ← hf]

theorem pop_tail (h : b.Rep l) (hpos : 0 < n) (hn : n ≤ l.length) :
    (b.pop n false).buf.head = b.head ∧ (b.pop n false).buf.full = false ∧
      (b.pop n false).buf.tail = if (b.head < b.tail ∨ b.full = true) ∧ b.capacity ≤ b.tail + n
        then b.tail + n - b.capacity else b.tail + n := by
  have htail := h.tail_le
  rw [pop_eq (by rw [h.available_eq]; omega) (by omega)]
  by_cases hw : b.head < b.tail ∨ b.full = true
  · refine ⟨by simp [afterFirst_head], rfl, ?_⟩
    rw [firstPart, if_pos hw, advance_tail, afterFirst, if_pos hw, clearFull_tail, wrapTail_tail,
      advance_tail, advance_capacity, firstPart, if_pos hw]
    simp only [hw, true_and]
    split_ifs <;> omega
  · refine ⟨by simp [afterFirst_head], rfl, ?_⟩
    rw [if_neg (fun hand ↦ hw hand.1), firstPart, if_neg hw, advance_tail, afterFirst, if_neg hw,
      clearFull_tail, Nat.sub_zero]

end BipBuf

end Coypu
