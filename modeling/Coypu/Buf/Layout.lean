import Coypu.Library.Ring
import Coypu.Buf.BipBuf

/-!
# What a buffer state stands for

`Layout` says which list lies in the array between the two indices and leaves the flag out: when the
indices meet, the empty and a full list are both possible. `Rep` adds the flag and with it fixes the
list. Both indices are only required to be at most the capacity, because a buffer that is filled
from a socket leaves them there; `Bounded` is the stronger condition that holds when it is filled
from memory.

The moves of the operations keep `Layout` one by one, and `Layout.rep` puts the flag back at the end
of an operation.
-/

set_option autoImplicit false

namespace Coypu

namespace BipBuf

open FlatMemory

variable {T : CapacityType} {α : Type*} {b : BipBuf T α} {l : List α}

/-- The list `l` lies in the array from the tail to the head. -/
structure Layout (b : BipBuf T α) (l : List α) : Prop where
  head_le : b.head ≤ b.capacity
  tail_le : b.tail ≤ b.capacity
  length_le : l.length ≤ b.capacity
  ends : Ring.Ends b.capacity b.tail l.length b.head
  holds : Ring.Holds b.data b.capacity b.tail l

/-- The buffer represents the list `l`. The last field excludes the one position in which an empty
buffer would not look empty. -/
structure Rep (b : BipBuf T α) (l : List α) : Prop extends Layout b l where
  full_iff : b.full = true ↔ b.head = b.tail ∧ l.length = b.capacity
  head_pos : b.tail = b.capacity → 0 < b.head

/-- Both indices are indices of the array. -/
def Bounded (b : BipBuf T α) : Prop := b.head < b.capacity ∧ b.tail < b.capacity

/-- The representation invariant of the memory operations. -/
structure Wf (b : BipBuf T α) : Prop where
  head_lt : b.head < b.capacity
  tail_lt : b.tail < b.capacity
  full_eq : b.full = true → b.head = b.tail

theorem Wf.bounded (h : b.Wf) : b.Bounded := ⟨h.head_lt, h.tail_lt⟩

/-! ## Reading a representation -/

namespace Rep

theorem of_full (h : b.Rep l) (hf : b.full = true) :
    b.head = b.tail ∧ l.length = b.capacity := h.full_iff.mp hf

theorem of_not_full (h : b.Rep l) (hf : ¬b.full = true) :
    (b.tail ≤ b.head ∧ b.tail + l.length = b.head) ∨
      (b.head < b.tail ∧ b.tail + l.length = b.head + b.capacity) := by
  have hle := h.length_le
  rcases h.ends with he | he
  · exact Or.inl ⟨by omega, he⟩
  · refine Or.inr ⟨?_, he⟩
    by_contra hge
    exact hf (h.full_iff.mpr ⟨by omega, by omega⟩)

theorem available_eq (h : b.Rep l) : b.available = l.length := by
  rw [available]
  by_cases hf : b.full = true
  · rw [if_pos hf, (h.of_full hf).2]
  · rw [if_neg hf]
    have htail := h.tail_le
    rcases h.of_not_full hf with ⟨hle, he⟩ | ⟨hlt, he⟩
    · rw [if_pos hle]
      omega
    · rw [if_neg (by omega)]
      omega

theorem free_eq (h : b.Rep l) : b.free = b.capacity - l.length := by rw [free, h.available_eq]

theorem contents_eq (h : b.Rep l) : b.contents = l := by
  rw [contents]
  by_cases hf : b.full = true
  · obtain ⟨heq, hlen⟩ := h.of_full hf
    rw [if_pos hf, h.holds.load_both h.tail_le h.length_le (by omega)]
  · rw [if_neg hf]
    rcases h.of_not_full hf with ⟨hle, he⟩ | ⟨hlt, he⟩
    · have hhead := h.head_le
      rw [if_pos hle, h.holds.load (by omega) (by omega), List.take_of_length_le (by omega)]
    · rw [if_neg (by omega), h.holds.load_both h.tail_le h.length_le he]

theorem isEmpty_eq (h : b.Rep l) : b.isEmpty = l.isEmpty := by
  have hcap := b.capacity_pos
  have hpos := h.head_pos
  rw [isEmpty, Bool.eq_iff_iff, Bool.and_eq_true, decide_eq_true_iff, Bool.not_eq_true',
    Bool.eq_false_iff, List.isEmpty_iff, ← List.length_eq_zero_iff]
  constructor
  · rintro ⟨heq, hf⟩
    rcases h.of_not_full hf with ⟨-, he⟩ | ⟨hlt, -⟩ <;> omega
  · intro hlen
    have hf : ¬b.full = true := fun hf ↦ by
      have := (h.of_full hf).2
      omega
    refine ⟨?_, hf⟩
    rcases h.of_not_full hf with ⟨-, he⟩ | ⟨hlt, he⟩
    · omega
    · have := h.tail_le
      have := h.head_le
      omega

/-- The flag is up exactly when the list has reached the capacity, as long as the head is an index
of the array. -/
theorem full_eq (h : b.Rep l) (hb : b.Bounded) : b.full = decide (l.length = b.capacity) := by
  rw [Bool.eq_iff_iff, decide_eq_true_iff, h.full_iff]
  refine ⟨fun hf ↦ hf.2, fun hlen ↦ ⟨?_, hlen⟩⟩
  obtain ⟨hhead, htail⟩ := hb
  rcases h.ends with he | he <;> omega

theorem wf (h : b.Rep l) (hb : b.Bounded) : b.Wf where
  head_lt := hb.1
  tail_lt := hb.2
  full_eq hf := (h.of_full hf).1

end Rep

/-! ## Representations of given buffers -/

theorem rep_new (data : ℕ → α) (c : Capacity T) : (new data c).Rep [] where
  head_le := Nat.zero_le _
  tail_le := Nat.zero_le _
  length_le := Nat.zero_le _
  ends := Or.inl rfl
  holds := Ring.holds_nil
  full_iff := by
    have := c.pos
    simp [new]
    omega
  head_pos h := by
    have hpos := c.pos
    have h0 : 0 = c.val := h
    omega

theorem bounded_new (data : ℕ → α) (c : Capacity T) : (new data c).Bounded := ⟨c.pos, c.pos⟩

theorem contents_of_linear (hf : ¬b.full = true) (h : b.tail ≤ b.head) :
    b.contents = load b.data b.tail (b.head - b.tail) := by
  rw [contents, if_neg hf, if_pos h]

theorem contents_of_wrapped (h : b.full = true ∨ b.head < b.tail) :
    b.contents = load b.data b.tail (b.capacity - b.tail) ++ load b.data 0 b.head := by
  rw [contents]
  split_ifs with hf hle
  · rfl
  · rcases h with hf' | hlt
    · exact absurd hf' hf
    · omega
  · rfl

/-- Every state that satisfies the representation invariant represents its contents. -/
theorem Wf.rep (h : b.Wf) : b.Rep b.contents := by
  obtain ⟨hhead, htail, hfull⟩ := h
  by_cases hw : b.full = true ∨ b.head < b.tail
  · have hlen : b.contents.length = b.capacity - b.tail + b.head := by
      simp [contents_of_wrapped hw]
    have hle : b.head ≤ b.tail := hw.elim (fun hf ↦ Nat.le_of_eq (hfull hf)) Nat.le_of_lt
    refine ⟨⟨by omega, by omega, by omega, Or.inr (by omega), ?_⟩, ?_, fun _ ↦ by omega⟩
    · rw [contents_of_wrapped hw]
      exact Ring.holds_load_both (by omega)
    · refine ⟨fun hf ↦ ⟨hfull hf, ?_⟩, fun ⟨heq, _⟩ ↦ hw.resolve_right (by omega)⟩
      have := hfull hf
      omega
  · rw [not_or, Nat.not_lt] at hw
    have hlen : b.contents.length = b.head - b.tail := by
      simp [contents_of_linear hw.1 hw.2]
    refine ⟨⟨by omega, by omega, by omega, Or.inl (by omega), ?_⟩, ?_, fun _ ↦ by omega⟩
    · rw [contents_of_linear hw.1 hw.2]
      exact Ring.holds_load (by omega)
    · exact ⟨fun hf ↦ absurd hf hw.1, fun ⟨_, hlen'⟩ ↦ by omega⟩

/-! ## The moves -/

namespace Layout

theorem put (h : b.Layout l) {k : List α} (hroom : b.head + k.length ≤ b.capacity)
    (hlen : l.length + k.length ≤ b.capacity) : (b.put k).Layout (l ++ k) where
  head_le := hroom
  tail_le := h.tail_le
  length_le := by rw [List.length_append]; exact hlen
  ends := by
    have he := h.ends
    unfold Ring.Ends at he ⊢
    rw [List.length_append]
    simp only [BipBuf.put]
    omega
  holds := h.holds.append h.ends hroom hlen

theorem wrapHead (h : b.Layout l) (htail : b.tail < b.capacity) : b.wrapHead.Layout l := by
  unfold BipBuf.wrapHead
  split
  · next heq =>
    refine ⟨Nat.zero_le _, h.tail_le, h.length_le, ?_, h.holds⟩
    have he := h.ends
    have hle := h.length_le
    unfold Ring.Ends at he ⊢
    simp only
    omega
  · exact h

theorem advance (h : b.Layout l) {n : ℕ} (hn : n ≤ l.length) (hend : b.tail + n ≤ b.capacity) :
    (b.advance n).Layout (l.drop n) where
  head_le := h.head_le
  tail_le := hend
  length_le := by
    have := h.length_le
    rw [List.length_drop]
    exact Nat.le_trans (Nat.sub_le _ _) this
  ends := by
    have he := h.ends
    unfold Ring.Ends at he ⊢
    rw [List.length_drop]
    simp only [BipBuf.advance]
    omega
  holds := h.holds.drop (Or.inl rfl) h.tail_le h.length_le

/-- Taking the tail back to the beginning keeps the list, when the list runs past the end. -/
theorem wrapTail (h : b.Layout l) (hend : b.tail + l.length = b.head + b.capacity) :
    b.wrapTail.Layout l := by
  unfold BipBuf.wrapTail
  split
  · next heq =>
    refine ⟨h.head_le, Nat.zero_le _, h.length_le, Or.inl (by simp only; omega), ?_⟩
    have := h.holds.drop (n := 0) (t := 0) (Or.inr (by omega)) h.tail_le h.length_le
    rwa [List.drop_zero] at this
  · exact h

theorem markFull (h : b.Layout l) : b.markFull.Layout l :=
  ⟨h.head_le, h.tail_le, h.length_le, h.ends, h.holds⟩

theorem clearFull (h : b.Layout l) : b.clearFull.Layout l :=
  ⟨h.head_le, h.tail_le, h.length_le, h.ends, h.holds⟩

theorem rep_markFull (h : b.Layout l) (hl : l ≠ []) (hpos : b.tail = b.capacity → 0 < b.head) :
    b.markFull.Rep l where
  toLayout := h.markFull
  full_iff := by
    have hlen : 0 < l.length := List.length_pos_iff.mpr hl
    have he := h.ends
    unfold Ring.Ends at he
    simp only [BipBuf.markFull, decide_eq_true_iff]
    omega
  head_pos := hpos

theorem rep_of_lt (h : b.Layout l) (hf : b.full = false) (hlt : l.length < b.capacity)
    (hpos : b.tail = b.capacity → 0 < b.head) : b.Rep l where
  toLayout := h
  full_iff := by
    rw [hf]
    simp only [Bool.false_eq_true, false_iff]
    omega
  head_pos := hpos

end Layout

@[simp] theorem put_capacity (k : List α) : (b.put k).capacity = b.capacity := rfl

@[simp] theorem put_tail (k : List α) : (b.put k).tail = b.tail := rfl

@[simp] theorem put_head (k : List α) : (b.put k).head = b.head + k.length := rfl

@[simp] theorem advance_capacity (n : ℕ) : (b.advance n).capacity = b.capacity := rfl

@[simp] theorem advance_head (n : ℕ) : (b.advance n).head = b.head := rfl

@[simp] theorem advance_tail (n : ℕ) : (b.advance n).tail = b.tail + n := rfl

@[simp] theorem advance_full (n : ℕ) : (b.advance n).full = b.full := rfl

@[simp] theorem markFull_capacity : b.markFull.capacity = b.capacity := rfl

@[simp] theorem markFull_head : b.markFull.head = b.head := rfl

@[simp] theorem markFull_tail : b.markFull.tail = b.tail := rfl

@[simp] theorem clearFull_capacity : b.clearFull.capacity = b.capacity := rfl

@[simp] theorem clearFull_head : b.clearFull.head = b.head := rfl

@[simp] theorem clearFull_tail : b.clearFull.tail = b.tail := rfl

@[simp] theorem clearFull_full : b.clearFull.full = false := rfl

@[simp] theorem clearFull_data : b.clearFull.data = b.data := rfl

@[simp] theorem wrapHead_capacity : b.wrapHead.capacity = b.capacity := by
  unfold wrapHead
  split <;> rfl

@[simp] theorem wrapHead_tail : b.wrapHead.tail = b.tail := by
  unfold wrapHead
  split <;> rfl

@[simp] theorem wrapHead_data : b.wrapHead.data = b.data := by
  unfold wrapHead
  split <;> rfl

theorem wrapHead_head : b.wrapHead.head = if b.head = b.capacity then 0 else b.head := by
  unfold wrapHead
  split <;> rfl

@[simp] theorem wrapTail_capacity : b.wrapTail.capacity = b.capacity := by
  unfold wrapTail
  split <;> rfl

@[simp] theorem wrapTail_head : b.wrapTail.head = b.head := by
  unfold wrapTail
  split <;> rfl

@[simp] theorem wrapTail_data : b.wrapTail.data = b.data := by
  unfold wrapTail
  split <;> rfl

theorem wrapTail_tail : b.wrapTail.tail = if b.tail = b.capacity then 0 else b.tail := by
  unfold wrapTail
  split <;> rfl

end BipBuf

end Coypu
