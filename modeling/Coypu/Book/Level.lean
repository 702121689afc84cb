import Coypu.Library.CInt
import Coypu.Library.SortedMap
import Mathlib.Order.Nat

/-!
# The book of levels

A book has a vector of levels for each side, sorted by the price: the bids ascend and the asks
descend, so that the best level is the last one. A level is an object in a page of the book's
allocator. The vectors hold pointers, and the levels that are free are linked through `next`.
-/

set_option autoImplicit false

namespace Coypu

/-- The page size of a level allocator, and the size of a level, which divides it. -/
structure PageLayout where
  pageSize : ℕ
  slotSize : ℕ
  slotSize_pos : 0 < slotSize
  pageSize_pos : 0 < pageSize
  pageSize_lt : pageSize < 2 ^ 32
  dvd : slotSize ∣ pageSize

/-- A pointer to a level: its page, and the offset of its first byte there. -/
structure Slot where
  page : ℕ
  offset : ℕ
deriving DecidableEq

/-- A level. No code uses its `prev`, which the constructor clears. -/
structure CoinLevel where
  px : ℕ
  qty : ℕ
  next : Option Slot

/-- How many pages there are, the current one being the last, and the offset in it. -/
structure LevelAllocator where
  pages : ℕ
  curOffset : ℕ
deriving DecidableEq

namespace LevelAllocator

variable (c : PageLayout) (la : LevelAllocator)

def new : LevelAllocator := ⟨0, 0⟩

/-- The current page, which is a new one where the last one is full. -/
def nextPage : LevelAllocator :=
  if la.pages = 0 ∨ la.curOffset = c.pageSize then ⟨la.pages + 1, 0⟩ else la

/-- `Allocate`. -/
def allocate : Slot × LevelAllocator :=
  (⟨(la.nextPage c).pages - 1, (la.nextPage c).curOffset⟩,
    { la.nextPage c with
      curOffset := CInt.toUnsigned 32 ((la.nextPage c).curOffset + c.slotSize : ℕ) })

end LevelAllocator

inductive Side
  | bid
  | ask
deriving DecidableEq

/-- The comparator of a side. -/
def Side.cmp : Side → ℕ → ℕ → Prop
  | .bid, lhs, rhs => lhs < rhs
  | .ask, lhs, rhs => lhs > rhs

instance : (side : Side) → DecidableRel side.cmp
  | .bid => fun lhs rhs ↦ inferInstanceAs (Decidable (lhs < rhs))
  | .ask => fun lhs rhs ↦ inferInstanceAs (Decidable (lhs > rhs))

instance : (side : Side) → IsStrictTotalOrder ℕ side.cmp
  | .bid => inferInstanceAs (IsStrictTotalOrder ℕ (· < ·))
  | .ask => inferInstanceAs (IsStrictTotalOrder ℕ (· > ·))

/-! ## The vector of a side -/

namespace CLevelFwdBook

variable (cmp : ℕ → ℕ → Prop) [DecidableRel cmp] (mem : Slot → CoinLevel) (v : List Slot)

/-- `std::lower_bound` for a level with the price `px`. -/
def lowerBound (px : ℕ) : ℕ := LowerBound.lowerBound (fun t ↦ decide (cmp (mem t).px px)) v

/-- `Insert`: the index, and the vector. -/
def insert (t : Slot) : ℤ × List Slot :=
  (CInt.toInt (lowerBound cmp mem v (mem t).px), v.insertIdx (lowerBound cmp mem v (mem t).px) t)

/-- The level at the place of a price, if the price is its own. -/
def find (px : ℕ) : Option Slot := (v[lowerBound cmp mem v px]?).filter fun t ↦ px = (mem t).px

/-- `Erase`: the level, the index, and the vector. -/
def erase (px : ℕ) : (Option Slot × ℤ) × List Slot :=
  match find cmp mem v px with
  | some t => ((some t, CInt.toInt (lowerBound cmp mem v px)), v.eraseIdx (lowerBound cmp mem v px))
  | none => ((none, -1), v)

/-- `Update`: whether there is a level, the index, and the memory. -/
def update (px qty : ℕ) (index : ℤ) : (Bool × ℤ) × (Slot → CoinLevel) :=
  match find cmp mem v px with
  | some t =>
    ((true, CInt.toInt (lowerBound cmp mem v px)), Function.update mem t { mem t with qty := qty })
  | none => ((false, index), mem)

/-- `GetBack`. -/
def getBack : Option CoinLevel := v.getLast?.map mem

end CLevelFwdBook

/-! ## The book -/

structure CBook where
  freeList : Option Slot
  la : LevelAllocator
  mem : Slot → CoinLevel
  bids : List Slot
  asks : List Slot

namespace CBook

variable (c : PageLayout) (s : CBook) (side : Side)

def new : CBook := ⟨none, .new, fun _ ↦ ⟨0, 0, none⟩, [], []⟩

/-- The vector of a side. -/
def levels : Side → List Slot
  | .bid => s.bids
  | .ask => s.asks

def setLevels (v : List Slot) : Side → CBook
  | .bid => { s with bids := v }
  | .ask => { s with asks := v }

/-- `Allocate`. -/
def allocate (px qty : ℕ) : Slot × CBook :=
  match s.freeList with
  | some temp =>
    (temp, { s with
      freeList := (s.mem temp).next
      mem := Function.update s.mem temp ⟨px, qty, none⟩ })
  | none =>
    ((s.la.allocate c).1,
      { s with
        la := (s.la.allocate c).2
        mem := Function.update s.mem (s.la.allocate c).1 ⟨px, qty, none⟩ })

/-- `Free`. -/
def free (t : Slot) : CBook :=
  { s with freeList := some t, mem := Function.update s.mem t ⟨0, 0, s.freeList⟩ }

/-- `InsertBid` and `InsertAsk`. The result is always true. -/
def insert (px qty : ℕ) : (Bool × ℤ) × CBook :=
  let r := s.allocate c px qty
  let i := CLevelFwdBook.insert side.cmp r.2.mem (r.2.levels side) r.1
  ((true, i.1), r.2.setLevels i.2 side)

/-- `UpdateBid` and `UpdateAsk`. -/
def update (px qty : ℕ) (index : ℤ) : (Bool × ℤ) × CBook :=
  let u := CLevelFwdBook.update side.cmp s.mem (s.levels side) px qty index
  (u.1, { s with mem := u.2 })

/-- `EraseBid` and `EraseAsk`. -/
def erase (px : ℕ) : (Bool × ℤ) × CBook :=
  let e := CLevelFwdBook.erase side.cmp s.mem (s.levels side) px
  match e.1.1 with
  | some t => ((true, e.1.2), (s.setLevels e.2 side).free t)
  | none => ((false, e.1.2), s)

/-- `ClearBid` and `ClearAsk`. -/
def clearSide : CBook := (s.levels side).foldl free (s.setLevels [] side)

def insertBid := s.insert c .bid

def insertAsk := s.insert c .ask

def updateBid := s.update .bid

def updateAsk := s.update .ask

def eraseBid := s.erase .bid

def eraseAsk := s.erase .ask

def clearBid := s.clearSide .bid

def clearAsk := s.clearSide .ask

def clear : CBook := s.clearBid.clearAsk

/-- `BestBid` and `BestAsk`. -/
def best : Option CoinLevel := CLevelFwdBook.getBack s.mem (s.levels side)

def bestBid := s.best .bid

def bestAsk := s.best .ask

/-- The calls that change a book. -/
inductive Call
  | insert (side : Side) (px qty : ℕ)
  | update (side : Side) (px qty : ℕ) (index : ℤ)
  | erase (side : Side) (px : ℕ)
  | clearSide (side : Side)
  | clear

/-- The book after a call, and what the call returns, with the index that it reports. -/
def call : Call → CBook × Option (Bool × ℤ)
  | .insert .bid px qty => ((s.insertBid c px qty).2, some (s.insertBid c px qty).1)
  | .insert .ask px qty => ((s.insertAsk c px qty).2, some (s.insertAsk c px qty).1)
  | .update .bid px qty index => ((s.updateBid px qty index).2, some (s.updateBid px qty index).1)
  | .update .ask px qty index => ((s.updateAsk px qty index).2, some (s.updateAsk px qty index).1)
  | .erase .bid px => ((s.eraseBid px).2, some (s.eraseBid px).1)
  | .erase .ask px => ((s.eraseAsk px).2, some (s.eraseAsk px).1)
  | .clearSide .bid => (s.clearBid, none)
  | .clearSide .ask => (s.clearAsk, none)
  | .clear => (s.clear, none)

variable {c s} {side} {px qty : ℕ} {index : ℤ}

theorem call_insert :
    s.call c (.insert side px qty) =
      ((s.insert c side px qty).2, some (s.insert c side px qty).1) := by
  cases side <;> rfl

theorem call_update :
    s.call c (.update side px qty index)
      = ((s.update side px qty index).2, some (s.update side px qty index).1) := by
  cases side <;> rfl

theorem call_erase :
    s.call c (.erase side px) = ((s.erase side px).2, some (s.erase side px).1) := by
  cases side <;> rfl

theorem call_clearSide : s.call c (.clearSide side) = (s.clearSide side, none) := by
  cases side <;> rfl

end CBook

/-- The layout of the books of the program: sixteen pages of memory, and a level in a cache line. -/
def BookType : PageLayout := ⟨4096 * 16, 64, by decide, by decide, by decide, by decide⟩

end Coypu
