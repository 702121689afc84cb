import Coypu.Buf.Direct
import Coypu.Library.ZeroCopy

/-!
# Messages in a buffer

`BufZeroCopyInputStream` gives protobuf the array of a buffer. A buffer that is not split serves
protobuf (`serves`). It does not feed it: in a full buffer, what is given back of the first piece is
split from the rest.
-/

set_option autoImplicit false

namespace Coypu

open FlatMemory ZeroCopy

/-- `BufZeroCopyInputStream` over a buffer. -/
structure BufZeroCopyInputStream where
  buf : BipBuf .int UInt8
  byteCount : ℤ

namespace BufZeroCopyInputStream

variable (t : BufZeroCopyInputStream)

/-- `Next`. A piece that is longer than the array, as one of negative length is, is not to be
read. -/
def next : Option (Option (List UInt8) × BufZeroCopyInputStream) :=
  let o := t.buf.direct
  match o.ret with
  | none => some (none, { t with buf := o.buf })
  | some r =>
    if r.start + r.len ≤ t.buf.capacity then
      some (some (load t.buf.data r.start r.len), ⟨o.buf, t.byteCount + r.len⟩)
    else none

/-- `BackUp`, which goes back in the count even where the buffer refuses. -/
def backUp (count : ℕ) : BufZeroCopyInputStream := ⟨(t.buf.backup count).buf, t.byteCount - count⟩

/-- `Skip`. -/
def skip (count : ℕ) : Bool × BufZeroCopyInputStream :=
  let o := t.buf.skip count
  (o.ret, ⟨o.buf, if o.ret then t.byteCount + count else t.byteCount⟩)

/-- What protobuf calls. It asks again where a piece is empty, which only one at the end of the
array is. -/
def source : Source BufZeroCopyInputStream :=
  Source.nonEmpty 2
    { next := next, backUp := fun n t ↦ some (t.backUp n), skip := fun n t ↦ some (t.skip n) }

variable {b : BipBuf .int UInt8} {l : List UInt8} {t : BufZeroCopyInputStream} {capacity n : ℕ}

/-- What is left is `l`. -/
structure Left (capacity : ℕ) (t : BufZeroCopyInputStream) (l : List UInt8) : Prop where
  rep : t.buf.Rep l
  capacity_eq : t.buf.capacity = capacity

/-- `pos` bytes of `l` were handed out, of which `back` can be given back. -/
structure At (capacity : ℕ) (l : List UInt8) (t : BufZeroCopyInputStream)
    (pos back : ℕ) : Prop where
  left : Left capacity t (l.drop pos)
  unsplit : t.buf.Unsplit
  linear : 0 < pos → t.buf.full = false
  back_le : back ≤ pos
  backUp : ∀ m ≤ back, Left capacity (t.backUp m) (l.drop (pos - m))

theorem At.of_handed {o : BipBuf .int UInt8} {pos : ℕ} (h : o.Handed capacity (l.drop pos) n)
    (count : ℤ) : At capacity l ⟨o, count⟩ (pos + n) n where
  left := ⟨by simpa [List.drop_drop] using h.rep, h.capacity_eq⟩
  unsplit := Or.inr h.unsplit.2
  linear _ := h.unsplit.1
  back_le := Nat.le_add_left _ _
  backUp m hm := by
    obtain ⟨hrep, hcap⟩ := h.backup m hm
    rw [List.drop_drop, ← Nat.add_sub_assoc hm] at hrep
    exact ⟨hrep, hcap⟩

theorem next_of_region {r : FlatMemory.Region} (hr : t.buf.direct.ret = some r)
    (hle : r.start + r.len ≤ t.buf.capacity) :
    t.next = some (some (load t.buf.data r.start r.len),
      ⟨t.buf.direct.buf, t.byteCount + r.len⟩) := by
  rw [next]
  simp only [hr]
  rw [if_pos hle]

theorem next_linear (h : Left capacity t l) (hl : l ≠ []) (hf : t.buf.full = false)
    (hle : t.buf.tail ≤ t.buf.head) :
    ∃ t', t.next = some (some l, t') ∧ t'.buf.Handed capacity l l.length := by
  obtain ⟨hrep, rfl⟩ := h
  obtain ⟨hr, hhanded⟩ := BipBuf.direct_of_linear hrep hl hf hle
  have hend : t.buf.tail + l.length ≤ t.buf.capacity := by
    have hhead := hrep.head_le
    rcases hrep.of_not_full (by simp [hf]) with ⟨-, he⟩ | ⟨hlt, -⟩ <;> omega
  refine ⟨⟨t.buf.direct.buf, t.byteCount + l.length⟩, ?_, hhanded⟩
  rw [next_of_region hr hend]
  simp only
  rw [hrep.holds.load hend (Nat.le_refl _), List.take_length]

theorem next_full (h : Left capacity t l) (hf : t.buf.full = true)
    (htail : t.buf.tail < t.buf.capacity) :
    ∃ n t', 0 < n ∧ n ≤ l.length ∧ t.next = some (some (l.take n), t') ∧
      t'.buf.Handed capacity l n := by
  obtain ⟨hrep, rfl⟩ := h
  obtain ⟨hr, hhanded⟩ := BipBuf.direct_of_full hrep hf htail
  have hlen := (hrep.of_full hf).2
  refine ⟨t.buf.capacity - t.buf.tail,
    ⟨t.buf.direct.buf, t.byteCount + (t.buf.capacity - t.buf.tail : ℕ)⟩,
    by omega, by omega, ?_, hhanded⟩
  rw [next_of_region hr (by simp only; omega)]
  simp only
  rw [hrep.holds.load (by omega) (by omega)]

theorem source_next {t' : BufZeroCopyInputStream} {r : Option (List UInt8)}
    (h : t.next = some (r, t')) (hr : r ≠ some []) : source.next t = some (r, t') := by
  change (t.next).bind _ = _
  rw [h, Option.bind_some, if_neg hr]

theorem source_next_of_empty {t' t'' : BufZeroCopyInputStream} {r : Option (List UInt8)}
    (h : t.next = some (some [], t')) (h' : t'.next = some (r, t'')) (hr : r ≠ some []) :
    source.next t = some (r, t'') := by
  change (t.next).bind _ = _
  rw [h, Option.bind_some, if_pos rfl]
  change (t'.next).bind _ = _
  rw [h', Option.bind_some, if_neg hr]

/-- **An unsplit buffer serves protobuf.** -/
theorem serves (capacity : ℕ) (l : List UInt8) :
    Serves source l l.length (At capacity l) fun t pos ↦ Left capacity t (l.drop pos) where
  next t pos back ht hpos := by
    have hne : l.drop pos ≠ [] := List.length_pos_iff.mp (by rw [List.length_drop]; omega)
    by_cases hf : t.buf.full = true
    · have htail := ht.left.rep.tail_le
      by_cases hend : t.buf.tail = t.buf.capacity
      · -- the piece at the end of the array is empty
        obtain ⟨hr, hrep, hf', hle, hcap⟩ := BipBuf.direct_of_end ht.left.rep hf hend
        obtain ⟨t', hnext, hhanded⟩ := next_linear (t := ⟨t.buf.direct.buf, t.byteCount + (0 : ℕ)⟩)
          ⟨hrep, hcap.trans ht.left.capacity_eq⟩ hne hf' hle
        refine ⟨(l.drop pos).length, t', List.length_pos_iff.mpr hne, ?_, ?_, .of_handed hhanded _⟩
        · rw [List.length_drop]
          omega
        · rw [List.take_length]
          refine source_next_of_empty (next_of_region hr ?_) hnext (by simpa using hne)
          exact Nat.le_of_eq hend
      -- a piece at the end of the array, and the rest with the next call
      · obtain ⟨n, t', hn, hle, hnext, hhanded⟩ := next_full ht.left hf (by omega)
        rw [List.length_drop] at hle
        refine ⟨n, t', hn, by omega, source_next hnext ?_, .of_handed hhanded _⟩
        simp only [ne_eq, Option.some.injEq, List.take_eq_nil_iff, not_or]
        exact ⟨by omega, hne⟩
    · have hf' : t.buf.full = false := by simpa using hf
      obtain ⟨t', hnext, hhanded⟩ := next_linear ht.left hne hf' (ht.unsplit.resolve_left hf)
      refine ⟨(l.drop pos).length, t', List.length_pos_iff.mpr hne, ?_, ?_, .of_handed hhanded _⟩
      · rw [List.length_drop]
        omega
      · rw [List.take_length]
        exact source_next hnext (by simpa using hne)
  finish t pos back ht hpos := by
    have hleft := ht.left
    rw [hpos, List.drop_length] at hleft
    obtain ⟨hr, hbuf⟩ := BipBuf.direct_of_nil hleft.rep
    refine ⟨t, source_next ?_ (by simp), ht.left, ht.unsplit, ht.linear, Nat.zero_le _,
      fun m hm ↦ ?_⟩
    · rw [next]
      simp only [hr, hbuf]
    · exact ht.backUp m (Nat.le_trans hm (Nat.zero_le _))
  backUp t pos back n ht hn := ⟨Nat.le_trans hn ht.back_le, _, rfl, ht.backUp n hn⟩
  skip t pos back n ht hpos hn hle := by
    have hf := ht.linear hpos
    have htail := ht.unsplit.resolve_left (by simp [hf])
    have hskip := BipBuf.skip_refines ht.left.rep n
    have hcan : 0 < n ∧ n ≤ (l.drop pos).length := ⟨hn, by rw [List.length_drop]; omega⟩
    rw [if_pos hcan, decide_eq_true hcan, List.drop_drop] at hskip
    -- nothing goes around the end, so `Skip` is a step of the tail
    have hbuf : (t.buf.skip n).buf = t.buf.advance n := by
      rw [BipBuf.skip, if_neg (by rw [ht.left.rep.available_eq]; omega), if_neg (by omega)]
      exact BipBuf.removed_linear hf htail n
    have hrep := hskip.rep
    have hun : (t.buf.skip n).buf.Unsplit := by
      refine Or.inr ?_
      rw [hbuf, BipBuf.advance_tail, BipBuf.advance_head]
      rcases ht.left.rep.of_not_full (by simp [hf]) with ⟨-, he⟩ | ⟨hlt, -⟩ <;> omega
    refine ⟨(t.skip n).2, ?_, ⟨hrep, hskip.capacity_eq.trans ht.left.capacity_eq⟩, hun, fun _ ↦ ?_,
      Nat.zero_le _, fun m hm ↦ ?_⟩
    · change some (t.skip n) = _
      rw [← hskip.ret_eq]
      rfl
    · change (t.buf.skip n).buf.full = false
      rw [hbuf]
      exact hf
    · obtain rfl : m = 0 := Nat.le_zero.mp hm
      refine ⟨?_, ?_⟩
      · change ((t.buf.skip n).buf.backup 0).buf.Rep _
        rw [BipBuf.backup_zero hrep hun]
        exact hrep
      · change ((t.buf.skip n).buf.backup 0).buf.capacity = _
        rw [BipBuf.backup_zero hrep hun]
        exact hskip.capacity_eq.trans ht.left.capacity_eq

theorem run_of_consumes {α : Type} {p : Program α} {result : α → Prop} (h : b.Rep l)
    (hun : b.Unsplit) (hn : n ≤ l.length) (hp : p.Consumes (l.take n) result) :
    ∃ a t, p.run source ⟨b, 0⟩ = some (a, t) ∧ result a ∧ Left b.capacity t (l.drop n) := by
  have hlen : (l.take n).length = n := by rw [List.length_take, Nat.min_eq_left hn]
  have hat : At b.capacity l ⟨b, 0⟩ 0 0 := by
    refine ⟨⟨h, rfl⟩, hun, fun hpos ↦ absurd hpos (Nat.lt_irrefl 0), Nat.le_refl 0, fun m hm ↦ ?_⟩
    obtain rfl : m = 0 := Nat.le_zero.mp hm
    have hback := BipBuf.backup_zero h hun
    refine ⟨?_, ?_⟩
    · change (b.backup 0).buf.Rep _
      rwa [hback]
    · change (b.backup 0).buf.capacity = _
      rw [hback]
  obtain ⟨a, t, hrun, ha, ht⟩ := hp (serves b.capacity l) hat (by omega)
    (by rw [List.drop_zero, hlen])
  rw [hlen, Nat.zero_add] at ht
  refine ⟨a, t, hrun, ha, ?_⟩
  rcases ht with ht | ⟨back, ht⟩
  · exact ht
  · exact ht.left

end BufZeroCopyInputStream

end Coypu
