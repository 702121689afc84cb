import Coypu.Buf.Fill
import Coypu.Library.Run

/-!
# A buffer fed from a socket

The items a buffer should hold are tracked beside it: what a `readv` delivered is appended to them,
and a draining operation does to them what it does to a queue. A buffer is faithful when it holds
these items after every step and answers from them.

It is faithful for every run exactly if the distance from any position to the end of the array is an
`int`, because `readv` keeps it in one. The representation `Rep` carries the proof: `readv` leaves
the head at the capacity when it fills the array to its end, and the tail may follow it there.
-/

set_option autoImplicit false

namespace Coypu

open FlatMemory Transport

variable {T : CapacityType} {α : Type*}

namespace BipBuf

/-! ## Capacities beyond the range of `int` -/

/-- Delivers one item. -/
def single (a : α) : Reader α := Reader.ofList [a] (by simp)

theorem readv_start (data : ℕ → α) (c : Capacity T) {l : List α} (hint : l.length < 2 ^ 31)
    (hlen : l.length ≤ c.val) (hpos : 0 < l.length) :
    ((BipBuf.new data c).readv (Reader.ofList l hint)).buf.head = l.length ∧
      ((BipBuf.new data c).readv (Reader.ofList l hint)).buf.tail = 0 ∧
      ((BipBuf.new data c).readv (Reader.ofList l hint)).buf.full = false ∧
      (BipBuf.new data c).delivered (Reader.ofList l hint) = l := by
  have hbytes : (Reader.ofList l hint).run [c.val] = .data l :=
    Reader.run_ofList hint (by simpa using hlen)
  have heq : (BipBuf.new data c).readv (Reader.ofList l hint)
      = (BipBuf.new data c).filled [⟨0, c.val⟩] (.data l) fun ret ↦ T.ofInt ((0 : ℕ) + ret) := by
    rw [readv, if_neg (by simp [BipBuf.new]), if_neg (by simp [BipBuf.new]),
      if_pos (by simp [BipBuf.new]), ← hbytes]
    rfl
  have hhead : T.ofInt ((0 : ℕ) + (l.length : ℤ)) = l.length := by
    have := ofInt_add (b := BipBuf.new data c) (m := 0) (n := l.length) (by simpa [BipBuf.new])
    rwa [Nat.zero_add] at this
  have hret : 0 < (IoResult.data l).ret := by
    rw [IoResult.ret]
    omega
  refine ⟨?_, ?_, ?_, ?_⟩
  · rw [heq, filled_of_pos hret]
    exact hhead
  · rw [heq, filled_of_pos hret]
    rfl
  · rw [heq, filled_of_pos hret]
    simp only [markFull, stored, IoResult.ret, hhead, BipBuf.new]
    exact decide_eq_false (by omega)
  · rw [delivered, heq, filled_stores, List.map_cons, List.map_nil, hbytes, IoResult.bytes]

/-- A single item, read when the `int` distance to the end of the array is at most one. -/
theorem readv_one {b : BipBuf T α} (hf : b.full = false) (htail : b.tail = 0) (hhead : 0 < b.head)
    (a : α) (hx : CInt.toInt (b.capacity - b.head : ℕ) ≤ 1)
    (hne : CInt.toInt (b.capacity - b.head : ℕ) ≠ 0) :
    (b.readv (single a)).buf.available
        = (if T.ofInt (CInt.toInt (1 - CInt.toInt (b.capacity - b.head : ℕ))) = 0 then b.capacity
          else T.ofInt (CInt.toInt (1 - CInt.toInt (b.capacity - b.head : ℕ)))) ∧
      b.delivered (single a) = [a] := by
  set x := CInt.toInt (b.capacity - b.head : ℕ) with hxdef
  have hlen : 1 ≤ CInt.toUnsigned 64 x := by
    have hlow := CInt.le_toInt (b.capacity - b.head : ℕ)
    rw [CInt.toUnsigned]
    omega
  have hbytes : (single a).run [CInt.toUnsigned 64 x, b.tail] = .data [a] :=
    Reader.run_ofList _ (by simp only [List.sum_cons, List.length_singleton]; omega)
  have heq : b.readv (single a)
      = b.filled [⟨b.head, CInt.toUnsigned 64 x⟩, ⟨0, b.tail⟩] (.data [a]) fun ret ↦
        if ret < x then T.ofInt (b.head + ret) else T.ofInt (CInt.toInt (ret - x)) := by
    rw [readv, if_neg (by simp [hf]), if_neg (by omega), if_neg (by omega)]
    simp only [← hxdef, hbytes]
  refine ⟨?_, ?_⟩
  · have hret : (IoResult.data [a]).ret = 1 := rfl
    rw [heq, filled_of_pos (by omega), hret, if_neg (by omega)]
    simp only [available, markFull, stored, htail, decide_eq_true_eq, Nat.zero_le, if_true,
      Nat.sub_zero]
  · rw [delivered, heq, filled_stores, List.map_cons, List.map_cons, List.map_nil, hbytes,
      IoResult.bytes]

/-- A first read after which the `int` distance misplaces the next item. -/
theorem exists_misplaced (c : Capacity T) (hlt : 2 ^ 31 < c.val) :
    ∃ h : ℕ, 0 < h ∧ h < 2 ^ 31 ∧ CInt.toInt (c.val - h : ℕ) ≤ 1 ∧
      CInt.toInt (c.val - h : ℕ) ≠ 0 ∧
      (if T.ofInt (CInt.toInt (1 - CInt.toInt (c.val - h : ℕ))) = 0 then c.val
        else T.ofInt (CInt.toInt (1 - CInt.toInt (c.val - h : ℕ)))) ≠ h + 1 := by
  have hbound := c.lt
  -- which first read works depends on the capacity modulo the range of the `int`
  obtain ⟨h, hh⟩ : ∃ h : ℕ, h = if 2 ^ 31 < c.val % 2 ^ 32 then 1
      else if c.val % 2 ^ 32 = 0 then 2 ^ 31 - 1 else if c.val % 2 ^ 32 = 1 then 2
      else c.val % 2 ^ 32 - 1 := ⟨_, rfl⟩
  refine ⟨h, by split_ifs at hh <;> omega, by split_ifs at hh <;> omega, ?_⟩
  have hx₁ := CInt.le_toInt (c.val - h : ℕ)
  have hx₂ := CInt.toInt_lt (c.val - h : ℕ)
  have hx₃ := CInt.toInt_emod (c.val - h : ℕ)
  generalize CInt.toInt (c.val - h : ℕ) = x at hx₁ hx₂ hx₃ ⊢
  have hy₁ := CInt.le_toInt (1 - x)
  have hy₂ := CInt.toInt_lt (1 - x)
  have hy₃ := CInt.toInt_emod (1 - x)
  generalize CInt.toInt (1 - x) = y at hy₁ hy₂ hy₃ ⊢
  have hz : (T.ofInt y : ℤ) = y % 2 ^ 32 ∧ c.val < 2 ^ 32 ∨ (T.ofInt y : ℤ) = y % 2 ^ 64 := by
    cases T <;>
      simp only [CapacityType.ofInt, CInt.toUnsigned, CapacityType.bits, CapacityType.bound]
        at hbound ⊢ <;> omega
  refine ⟨?_, ?_, ?_⟩
  · split_ifs at hh <;> omega
  · split_ifs at hh <;> omega
  · split_ifs at hh ⊢ <;> omega

/-- Two reads into an empty buffer after which it does not hold what they delivered. -/
theorem exists_misread (data : ℕ → α) (c : Capacity T) (hlt : 2 ^ 31 < c.val) :
    ∃ cb₁ cb₂ : Reader α,
      (((new data c).readv cb₁).buf.readv cb₂).buf.available
        ≠ ((new data c).delivered cb₁ ++ ((new data c).readv cb₁).buf.delivered cb₂).length := by
  obtain ⟨n, hpos, hint, hx, hne, hmis⟩ := exists_misplaced c hlt
  have hlen : (List.replicate n (data 0)).length = n := List.length_replicate
  refine ⟨Reader.ofList (List.replicate n (data 0)) (by omega), single (data 0), ?_⟩
  obtain ⟨hhead, htail, hfull, hdel⟩ := readv_start data c (l := List.replicate n (data 0))
    (by omega) (by omega) (by omega)
  have hcap := readv_capacity (b := new data c) (Reader.ofList (List.replicate n (data 0))
    (by omega))
  rw [hdel]
  set o := (new data c).readv (Reader.ofList (List.replicate n (data 0)) (by omega)) with ho
  have hhead' : o.buf.head = n := hhead.trans hlen
  have hc : o.buf.capacity = c.val := hcap
  rw [← hc, ← hhead'] at hx hne hmis
  obtain ⟨hav, hone⟩ := readv_one hfull htail (by omega) (data 0) hx hne
  rw [hav, hone, List.length_append, hlen, List.length_singleton, ← hhead']
  exact hmis

end BipBuf

variable [DecidableEq α]

/-- The operations of a buffer that is fed from a socket. -/
inductive SocketOp (α : Type*) where
  | readv (cb : Reader α)
  | drain (op : DrainOp α)

/-- A buffer and the items it should hold. -/
structure Tracked (T : CapacityType) (α : Type*) where
  buf : BipBuf T α
  held : List α

namespace Tracked

open BipBuf

def new (data : ℕ → α) (c : Capacity T) : Tracked T α := ⟨BipBuf.new data c, []⟩

/-- One operation, on the buffer and on the items. -/
def step (s : Tracked T α) : SocketOp α → Tracked T α × Answer α
  | .readv cb =>
    (⟨(s.buf.readv cb).buf, s.held ++ s.buf.delivered cb⟩, .transfer (s.buf.readv cb).ret)
  | .drain op =>
    (⟨(s.buf.drain op).buf, ((Fifo.ofList s.held).drain op).1.items⟩, (s.buf.drain op).ret)

/-- The buffer holds the items after the step, and the answer was right: a transfer that returned
nothing left the contents alone, any other answer is the queue's. -/
def Faithful (s : Tracked T α) (op : SocketOp α) : Prop :=
  (s.step op).1.buf.contents = (s.step op).1.held ∧
    (s.step op).1.buf.available = (s.step op).1.held.length ∧
    match op with
    | .readv cb => (s.buf.readv cb).ret ≤ 0 → (s.step op).1.buf.contents = s.buf.contents
    | .drain op => (s.buf.drain op).ret = ((Fifo.ofList s.held).drain op).2

/-- The buffer represents the items, and positions in it are `int`s. -/
structure Sound (s : Tracked T α) : Prop where
  rep : s.buf.Rep s.held
  capacity_le : s.buf.capacity ≤ 2 ^ 31

theorem Sound.step {s : Tracked T α} (h : s.Sound) (op : SocketOp α) : (s.step op).1.Sound := by
  cases op with
  | readv cb =>
    exact ⟨readv_rep h.rep h.capacity_le cb, by
      rw [Tracked.step, readv_capacity]
      exact h.capacity_le⟩
  | drain op =>
    have href := drain_refines (q := Fifo.ofList s.held) h.rep op
    exact ⟨href.rep, by
      rw [Tracked.step, href.capacity_eq]
      exact h.capacity_le⟩

theorem Sound.faithful {s : Tracked T α} (h : s.Sound) (op : SocketOp α) : s.Faithful op := by
  have hnext := h.step op
  refine ⟨hnext.rep.contents_eq, hnext.rep.available_eq, ?_⟩
  cases op with
  | readv cb =>
    intro hret
    rw [hnext.rep.contents_eq, h.rep.contents_eq, Tracked.step, delivered_of_nonpos hret,
      List.append_nil]
  | drain op => exact (drain_refines (q := Fifo.ofList s.held) h.rep op).ret_eq

/-- **A buffer fed from a socket is a queue exactly up to a capacity of `2³¹`.** -/
theorem run_faithful_iff (data : ℕ → α) (c : Capacity T) :
    (∀ ops, Run.Steps step Faithful (new data c) ops) ↔ c.val ≤ 2 ^ 31 := by
  constructor
  · intro h
    by_contra hlt
    obtain ⟨cb₁, cb₂, hne⟩ := exists_misread data c (Nat.lt_of_not_le hlt)
    have hsteps := h [.readv cb₁, .readv cb₂]
    exact hne hsteps.2.1.2.1
  · intro hle ops
    have hnew : (new data c).Sound := ⟨rep_new data c, hle⟩
    exact Run.Steps.of_invariant (P := Sound) (fun s op hs _ ↦ hs.step op)
      (fun s op hs _ ↦ hs.faithful op) hnew (Run.steps_true _ ops)

/-- With 64-bit indices and room for `2³² + 10` bytes, the distance left after a read of five bytes
is `5` as an `int`: five more bytes take the head back to the beginning and the buffer counts as
full. -/
theorem not_faithful_of_large :
    ¬∀ ops, Run.Steps step Faithful
      (new (fun _ ↦ (0 : ℕ)) (⟨2 ^ 32 + 10, by decide, by decide⟩ : Capacity .uint64)) ops := by
  intro h
  have hsteps := h [.readv (Reader.ofList [1, 2, 3, 4, 5] (by decide)),
    .readv (Reader.ofList [6, 7, 8, 9, 10] (by decide))]
  exact absurd hsteps.2.1.2.1 (by decide)

end Tracked

end Coypu
