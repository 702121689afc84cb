import Coypu.Library.CInt
import Coypu.Library.Memory
import Coypu.Library.Transport

/-!
# The circular buffer

`BipBuf` as the code has it: a head and a tail index into an array it does not own, and a flag that
tells the full buffer from the empty one when the two indices meet. Every operation follows its
source branch by branch and returns, beside its result and the new buffer, the regions of the array
it loaded from and stored to; a region handed to an I/O callback counts as touched in full. Nothing
checks these regions here. That they lie inside the array is a theorem where it is true.

## Index arithmetic

Indices are natural numbers. The differences the operations take are guarded by their comparisons,
with two exceptions that the model computes in the index type: `_tail - _capacity` in `writev` and
`_head - _tail` in the last branch of `direct`. `readv` and `writev` keep the distance to the end of
the array in an `int`, whatever the index type, so both go through `CInt.toInt`.
-/

set_option autoImplicit false

namespace Coypu

open FlatMemory Transport

/-- The index types the program instantiates `BipBuf` with. -/
inductive CapacityType where
  | int
  | uint32
  | uint64
deriving DecidableEq, Repr

namespace CapacityType

/-- The width of the type. -/
def bits : CapacityType → ℕ
  | int => 32
  | uint32 => 32
  | uint64 => 64

/-- Capacities are below this bound: they are values of the type, and the length of an array. -/
def bound : CapacityType → ℕ
  | int => 2 ^ 31
  | uint32 => 2 ^ 32
  | uint64 => 2 ^ 63

/-- An integer assigned to a variable of the type. -/
def ofInt (T : CapacityType) (i : ℤ) : ℕ := CInt.toUnsigned T.bits i

/-- The difference `a - b` computed in the type, then converted to `size_t`. -/
def subSize (T : CapacityType) (a b : ℕ) : ℕ :=
  match T with
  | uint32 => CInt.toUnsigned 32 (a - b)
  | int | uint64 => CInt.toUnsigned 64 (a - b)

theorem bound_le (T : CapacityType) : T.bound ≤ 2 ^ T.bits := by cases T <;> decide

theorem bound_le_size (T : CapacityType) : T.bound ≤ 2 ^ 63 := by cases T <;> decide

end CapacityType

/-- A capacity of the index type, not zero. -/
structure Capacity (T : CapacityType) where
  val : ℕ
  pos : 0 < val
  lt : val < T.bound

/-- The buffer. Its capacity never changes, so what is known of it is part of the type. -/
structure BipBuf (T : CapacityType) (α : Type*) where
  head : ℕ
  tail : ℕ
  data : ℕ → α
  capacity : ℕ
  full : Bool
  capacity_pos : 0 < capacity
  capacity_lt : capacity < T.bound

/-- What an operation returns, the buffer it leaves, and the regions of the array it touched. -/
structure Outcome (T : CapacityType) (α ρ : Type*) where
  ret : ρ
  buf : BipBuf T α
  loads : List Region
  stores : List Region

namespace BipBuf

variable {T : CapacityType} {α : Type*} (b : BipBuf T α)

/-- The constructor: an empty buffer over `data`. -/
def new (data : ℕ → α) (c : Capacity T) : BipBuf T α where
  head := 0
  tail := 0
  data := data
  capacity := c.val
  full := false
  capacity_pos := c.pos
  capacity_lt := c.lt

/-! ## Observers -/

def available : ℕ :=
  if b.full then b.capacity
  else if b.tail ≤ b.head then b.head - b.tail
  else b.capacity - (b.tail - b.head)

def free : ℕ := b.capacity - b.available

def isEmpty : Bool := decide (b.head = b.tail) && !b.full

def currentOffset : ℕ := b.head

/-- The buffered items: from `_tail` to `_head`, around the end of the array if `_head` lies before
`_tail`, and all of them if the flag is set. -/
def contents : List α :=
  if b.full then load b.data b.tail (b.capacity - b.tail) ++ load b.data 0 b.head
  else if b.tail ≤ b.head then load b.data b.tail (b.head - b.tail)
  else load b.data b.tail (b.capacity - b.tail) ++ load b.data 0 b.head

/-- `Peak`: the item at an offset from the oldest one. -/
def peak (offset : ℕ) : Outcome T α (Option α) :=
  if b.available ≤ offset then ⟨none, b, [], []⟩
  else
    let x :=
      if b.tail < b.head then b.tail + offset
      else if offset < b.capacity - b.tail then b.tail + offset
      else offset - (b.capacity - b.tail)
    ⟨some (b.data x), b, [⟨x, 1⟩], []⟩

/-- The loop of `Find`: `n` cells from `x` on, counting from `offset`. -/
def scan [DecidableEq α] (m : ℕ → α) (d : α) (x offset : ℕ) : ℕ → Option ℕ
  | 0 => none
  | n + 1 => if m x = d then some offset else scan m d (x + 1) (offset + 1) n

/-- `Find`: the offset of the first item equal to `d`. -/
def find [DecidableEq α] (d : α) : Outcome T α (Option ℕ) :=
  if b.isEmpty then ⟨none, b, [], []⟩
  else if b.tail < b.head then
    ⟨scan b.data d b.tail 0 (b.head - b.tail), b, [⟨b.tail, b.head - b.tail⟩], []⟩
  else
    ⟨(scan b.data d b.tail 0 (b.capacity - b.tail)).or
        (scan b.data d 0 (b.capacity - b.tail) b.head),
      b, [⟨b.tail, b.capacity - b.tail⟩, ⟨0, b.head⟩], []⟩

/-! ## The moves the operations are made of -/

/-- Store `l` at the head and step over it. -/
def put (l : List α) : BipBuf T α :=
  { b with data := store b.data b.head l, head := b.head + l.length }

/-- `if (_head == _capacity) _head = 0`. -/
def wrapHead : BipBuf T α := if b.head = b.capacity then { b with head := 0 } else b

/-- `_full = _head == _tail`. -/
def markFull : BipBuf T α := { b with full := decide (b.head = b.tail) }

/-- Step the tail over `n` items. -/
def advance (n : ℕ) : BipBuf T α := { b with tail := b.tail + n }

/-- `if (_tail == _capacity) _tail = 0`. -/
def wrapTail : BipBuf T α := if b.tail = b.capacity then { b with tail := 0 } else b

/-- `_full = false`. -/
def clearFull : BipBuf T α := { b with full := false }

/-! ## Filling from memory -/

/-- `Push` of one item. -/
def push (indata : α) : Outcome T α Bool :=
  if b.full then ⟨false, b, [], []⟩
  else ⟨true, (b.put [indata]).wrapHead.markFull, [], [⟨b.head, 1⟩]⟩

/-- `Push` of a block of `size` items behind a pointer, which may be null. -/
def pushBlock (indata : Option (ℕ → α)) (size : ℕ) : Outcome T α Bool :=
  match indata with
  | none => ⟨false, b, [], []⟩
  | some indata =>
    if b.capacity - b.available < size then ⟨false, b, [], []⟩
    else if size = 0 ∨ b.full then ⟨false, b, [], []⟩
    else
      let toEnd := b.tail ≤ b.head ∧ b.head < b.capacity
      let x := if toEnd then min size (b.capacity - b.head) else 0
      let b₁ := if toEnd then (b.put (load indata 0 x)).wrapHead else b
      let remaining := size - x
      let b₂ := if remaining = 0 then b₁ else b₁.put (load indata x remaining)
      ⟨true, b₂.markFull, [], [⟨b.head, x⟩, ⟨b₁.head, remaining⟩]⟩

/-- `PushDirect`: hand out the free run behind the head and count it as filled. The null test on
`size` is the caller's `size ≠ nullptr`. -/
def pushDirect : Outcome T α (Option Region) :=
  if b.full then ⟨none, b, [], []⟩
  else if b.tail ≤ b.head then
    let size := b.capacity - b.head
    ⟨some ⟨b.head, size⟩, { b with head := b.head + size }.wrapHead.markFull, [], [⟨b.head, size⟩]⟩
  else
    let size := b.tail - b.head
    ⟨some ⟨b.head, size⟩, { b with head := b.head + size }.markFull, [], [⟨b.head, size⟩]⟩

/-- `BackupDirect`: give back the last `count` items. -/
def backupDirect (count : ℕ) : Outcome T α Bool :=
  if count = 0 then ⟨true, b, [], []⟩
  else if b.available < count then ⟨false, b, [], []⟩
  else if b.isEmpty then ⟨false, b, [], []⟩
  else if b.tail < b.head then ⟨true, { b with head := b.head - count }.clearFull, [], []⟩
  else
    let r := min b.head count
    let head := if count - r = 0 then b.head - r else b.capacity - (count - r)
    ⟨true, { b with head := head }.clearFull, [], []⟩

/-! ## Draining to memory -/

/-- `Pop`: the items written to `dest`, or `none` if it refuses. With `peek` the second `memcpy`
reads from the beginning of the array. -/
def pop (size : ℕ) (peek : Bool) : Outcome T α (Option (List α)) :=
  if b.available < size then ⟨none, b, [], []⟩
  else if size = 0 then ⟨none, b, [], []⟩
  else
    let toEnd := b.head < b.tail ∨ b.full
    let x := if toEnd then min size (b.capacity - b.tail) else 0
    let remaining := size - x
    let front := load b.data b.tail x
    if peek then
      ⟨some (front ++ load b.data 0 remaining), b, [⟨b.tail, x⟩, ⟨0, remaining⟩], []⟩
    else
      let b₁ := (if toEnd then (b.advance x).wrapTail else b).clearFull
      ⟨some (front ++ load b₁.data b₁.tail remaining), b₁.advance remaining,
        [⟨b.tail, x⟩, ⟨b₁.tail, remaining⟩], []⟩

/-- `PopAll`: the items go to a callback, which may refuse a segment. What the callback keeps from
one call to the next is the state `s`. -/
def popAll {σ : Type*} (cb : σ → List α → Bool × σ) (s : σ) (size : ℕ) : Outcome T α (Bool × σ) :=
  if b.available < size then ⟨(false, s), b, [], []⟩
  else if size = 0 then ⟨(false, s), b, [], []⟩
  else if b.head < b.tail ∨ b.full then
    let x := min size (b.capacity - b.tail)
    let r := cb s (load b.data b.tail x)
    if r.1 then
      let b₁ := (b.advance x).wrapTail.clearFull
      let remaining := size - x
      if remaining = 0 then ⟨(true, r.2), b₁, [⟨b.tail, x⟩], []⟩
      else
        let r' := cb r.2 (load b₁.data b₁.tail remaining)
        ⟨r', if r'.1 then b₁.advance remaining else b₁, [⟨b.tail, x⟩, ⟨b₁.tail, remaining⟩], []⟩
    else ⟨(false, r.2), b, [⟨b.tail, x⟩], []⟩
  else
    let r := cb s (load b.data b.tail size)
    ⟨r, if r.1 then b.clearFull.advance size else b.clearFull, [⟨b.tail, size⟩], []⟩

/-- `Skip`. -/
def skip (size : ℕ) : Outcome T α Bool :=
  if b.available < size then ⟨false, b, [], []⟩
  else if size = 0 then ⟨false, b, [], []⟩
  else
    let toEnd := b.head < b.tail ∨ b.full
    let x := if toEnd then min size (b.capacity - b.tail) else 0
    let b₁ := if toEnd then (b.advance x).wrapTail else b
    ⟨true, b₁.clearFull.advance (size - x), [], []⟩

/-! ## Transfers over a descriptor -/

/-- What a read callback that was offered the regions `v` leaves behind: the array filled, and the
head where `move` puts it for a positive return value. -/
def filled (v : List Region) (r : IoResult α) (move : ℤ → ℕ) : Outcome T α ℤ :=
  let b₁ := { b with data := scatter b.data v r.bytes }
  ⟨r.ret, if 0 < r.ret then { b₁ with head := move r.ret }.markFull else b₁, [], v⟩

/-- `Read`: one region, up to the tail or up to the end of the array. -/
def read (cb : Reader α) : Outcome T α ℤ :=
  if b.full then ⟨-2, b, [], []⟩
  else
    let len := if b.head < b.tail then b.tail - b.head else b.capacity - b.head
    b.filled [⟨b.head, len⟩] (cb.run [len]) fun ret ↦ T.ofInt (b.head + ret)

/-- `Readv`: up to two regions. -/
def readv (cb : Reader α) : Outcome T α ℤ :=
  if b.full then ⟨-2, b, [], []⟩
  else if b.head < b.tail then
    let len := b.tail - b.head
    b.filled [⟨b.head, len⟩] (cb.run [len]) fun ret ↦ T.ofInt (b.head + ret)
  else if b.head = 0 ∧ b.tail = 0 then
    b.filled [⟨b.head, b.capacity⟩] (cb.run [b.capacity]) fun ret ↦ T.ofInt (b.head + ret)
  else
    let x := CInt.toInt (b.capacity - b.head : ℕ)
    let len := CInt.toUnsigned 64 x
    b.filled [⟨b.head, len⟩, ⟨0, b.tail⟩] (cb.run [len, b.tail]) fun ret ↦
      if ret < x then T.ofInt (b.head + ret) else T.ofInt (CInt.toInt (ret - x))

/-- What a write callback that was offered the regions `v` leaves behind: the tail where `move` puts
it for a positive return value, taken back to `0` from the end of the array. -/
def drained (v : List Region) (ret : ℤ) (move : ℤ → ℕ) : Outcome T α ℤ :=
  let b₁ := (if 0 < ret then { b with tail := move ret } else b).wrapTail
  ⟨ret, if 0 < ret then b₁.clearFull else b₁, v, []⟩

/-- `Write`: one region, up to the head or up to the end of the array. -/
def write (cb : Writer) : Outcome T α ℤ :=
  if b.available = 0 then ⟨-2, b, [], []⟩
  else
    let len := if b.tail < b.head then b.head - b.tail else b.capacity - b.tail
    b.drained [⟨b.tail, len⟩] (cb.run [len]) fun ret ↦ T.ofInt (b.tail + ret)

/-- The regions `Writev` hands to its callback. -/
def writevRegions : List Region :=
  if b.tail < b.head then [⟨b.tail, b.head - b.tail⟩]
  else if 0 < b.head then
    [⟨b.tail, CInt.toUnsigned 64 (CInt.toInt (b.capacity - b.tail : ℕ))⟩, ⟨0, b.head⟩]
  else [⟨b.tail, T.subSize b.tail b.capacity⟩]

/-- `Writev`: up to two regions. The length of the last branch is `_tail - _capacity`. -/
def writev (cb : Writer) : Outcome T α ℤ :=
  if b.available = 0 then ⟨-2, b, [], []⟩
  else
    b.drained b.writevRegions (cb.run (b.writevRegions.map Region.len)) fun ret ↦
      let x := CInt.toInt (b.capacity - b.tail : ℕ)
      if b.tail < b.head then T.ofInt (b.tail + ret)
      else if 0 < b.head ∧ x < ret then T.ofInt (CInt.toInt (ret - x))
      else T.ofInt (b.tail + ret)

/-- `Backup`: make the last `count` consumed items readable again. -/
def backup (count : ℕ) : Outcome T α Bool :=
  if b.free < count then ⟨false, b, [], []⟩
  else if b.full ∧ b.tail = b.head then ⟨false, b, [], []⟩
  else if b.head < b.tail then
    if b.tail - b.head < count then ⟨false, b, [], []⟩
    else ⟨true, { b with tail := b.tail - count }.markFull, [], []⟩
  else if b.tail + (b.capacity - b.head) < count then ⟨false, b, [], []⟩
  else
    let temp := min b.tail count
    let b₁ := { b with tail := b.tail - temp }
    if 0 < count - temp then
      ⟨true, { b with tail := b.capacity - (count - temp) }.markFull, [], []⟩
    else ⟨true, b₁, [], []⟩

/-- `Direct`: hand out the contiguous run at the tail and count it as consumed. -/
def direct : Outcome T α (Option Region) :=
  if b.isEmpty then ⟨none, b, [], []⟩
  else if b.tail < b.head then
    let r : Region := ⟨b.tail, b.head - b.tail⟩
    ⟨some r, { b with tail := b.head }.clearFull, [r], []⟩
  else if b.full then
    let r : Region := ⟨b.tail, b.capacity - b.tail⟩
    ⟨some r, { b with tail := 0 }.clearFull, [r], []⟩
  else
    let r : Region := ⟨b.tail, T.ofInt (b.head - b.tail)⟩
    ⟨some r, { b with tail := 0 }.clearFull, [r], []⟩

end BipBuf

end Coypu
