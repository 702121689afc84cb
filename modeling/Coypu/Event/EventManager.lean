import Coypu.Library.Run
import Mathlib.Data.Finset.Sort
import Mathlib.Data.Int.Notation

/-!
# The event loop

`EventManager` keeps the callbacks of a descriptor in the slot of its number. `Wait` takes a batch
of events from the kernel and calls back. A descriptor that hangs up is closed at its event, but its
slot is given up behind the batch, with the slots of the descriptors whose callback failed.

The kernel is modelled as far as `Wait` depends on it: which descriptors are open, and which are
watched. A number that is not open can be given to a new connection at any time, and a descriptor
that is closed is no longer watched. There is always memory to watch one more.

What the callbacks do is the environment's choice: they open descriptors and register them, they ask
for `EPOLLOUT`, and they return something. A close callback registers nothing. Assertions are not
compiled in; where a slot is empty that `Wait` looks into, it does not return.

`Wait` keeps a reference to the slot of an event. The number of the event is open, so nothing is
registered in that slot meanwhile, but `Register` may have to move all slots to make room for a
number. Where `Wait` uses the reference behind that, it does not return.
-/

set_option autoImplicit false

namespace Coypu

/-! ## The kernel -/

/-- Which descriptors are open, and, of those that epoll watches, which are watched for `EPOLLOUT`,
too. -/
structure Kernel where
  isOpen : ℕ → Bool
  watched : ℕ → Option Bool

namespace Kernel

variable (k : Kernel)

def opened (fd : ℕ) : Kernel := { k with isOpen := Function.update k.isOpen fd true }

def close (fd : ℕ) : Kernel :=
  ⟨Function.update k.isOpen fd false, Function.update k.watched fd none⟩

def watch (fd : ℕ) (out : Option Bool) : Kernel :=
  { k with watched := Function.update k.watched fd out }

def epollAdd (fd : ℕ) : ℤ × Kernel :=
  if k.isOpen fd = true ∧ k.watched fd = none then (0, k.watch fd (some false)) else (-1, k)

def epollModify (fd : ℕ) (out : Bool) : ℤ × Kernel :=
  if k.watched fd = none then (-1, k) else (0, k.watch fd (some out))

def epollDelete (fd : ℕ) : ℤ × Kernel :=
  if k.watched fd = none then (-1, k) else (0, k.watch fd none)

end Kernel

/-- The flags of an event. -/
structure EpollEvent where
  fd : ℕ
  epollin : Bool
  epollpri : Bool
  epollout : Bool
  epollhup : Bool
  epollerr : Bool
  epollrdhup : Bool

namespace EpollEvent

variable (e : EpollEvent)

def readable : Bool := e.epollin || e.epollpri

def hungUp : Bool := e.epollhup || e.epollerr || e.epollrdhup

end EpollEvent

/-! ## The vector of the slots -/

/-- The size of `_fdToCB` and of the memory behind it. What is asked for where that is too small is
the library's choice: `reserve` gives it for a size and the next one. -/
structure SlotVector where
  size : ℕ
  capacity : ℕ
  reserve : ℕ → ℕ → ℕ

namespace SlotVector

variable (v : SlotVector)

/-- `_growSize` -/
def growSize : ℕ := 8

def new (reserve : ℕ → ℕ → ℕ) : SlotVector :=
  ⟨growSize, max growSize (reserve 0 growSize), reserve⟩

/-- The slots move exactly if the capacity is raised. -/
def resize (size : ℕ) : SlotVector :=
  ⟨size, if v.capacity < size then max size (v.reserve v.size size) else v.capacity, v.reserve⟩

/-- The loop of `Register`, in `n` rounds at most. -/
def growFor (fd : ℕ) : ℕ → SlotVector → SlotVector
  | 0, v => v
  | n + 1, v => if v.size < fd + 1 then growFor fd n (v.resize (v.size + growSize)) else v

/-- What a registration does to the vector. -/
def register (fd : ℕ) : SlotVector :=
  if fd = 0 then v else growFor fd (fd + 1) v

variable {v}

/-- The rounds are enough. The induction is on them. -/
theorem lt_size_growFor {fd n : ℕ} (h : fd < v.size + n) : fd < (growFor fd n v).size := by
  induction n generalizing v with
  | zero => exact h
  | succ n ih =>
    rw [growFor]
    split_ifs with hsmall
    · apply ih
      show fd < v.size + growSize + n
      have hone : 1 ≤ growSize := by decide
      omega
    · omega

end SlotVector

/-! ## The manager -/

/-- What is registered for a descriptor: which callbacks there are. The registrations are
numbered. -/
structure EventCB where
  rf : Bool
  wf : Bool
  cf : Bool
  fd : ℕ
  serial : ℕ
deriving DecidableEq

/-- What happens in a call of `Wait`: a registration, with what was found in the slot, the call of a
close callback, the end of a registration, a `close`. -/
inductive EventNote where
  | registered (cb : EventCB) (found : Option EventCB)
  | closeCB (cb : EventCB)
  | unregistered (cb : EventCB)
  | closed (fd : ℕ)
deriving DecidableEq

structure EventManager where
  fdToCB : ℕ → Option EventCB
  vector : SlotVector
  fdEvents : ℕ → ℕ
  closeSet : Finset ℕ
  kernel : Kernel
  serial : ℕ
  notes : List EventNote

/-- What a callback does. -/
inductive EventAction where
  | accept (fd : ℕ) (rf wf cf : Bool)
  | setWrite (fd : ℕ)

/-- A call of a callback. -/
structure Reaction where
  actions : List EventAction
  ret : ℤ

/-- An event, with what its callbacks do if they are called. -/
structure Ready where
  event : EpollEvent
  read : Reaction
  write : Reaction

/-- What `epoll_wait` returns, and for which descriptors a close callback asks for `EPOLLOUT`. -/
structure Batch where
  events : List Ready
  closing : ℕ → List ℕ

namespace EventManager

variable (m : EventManager)

/-- The constructor, with what is open already. -/
def new (isOpen : ℕ → Bool) (reserve : ℕ → ℕ → ℕ) : EventManager :=
  ⟨fun _ ↦ none, .new reserve, fun _ ↦ 0, ∅, ⟨isOpen, fun _ ↦ none⟩, 0, []⟩

def note (n : EventNote) : EventManager := { m with notes := m.notes ++ [n] }

def unregister (fd : ℕ) : ℤ × EventManager :=
  let r := m.kernel.epollDelete fd
  (r.1, { m with
    kernel := r.2
    fdToCB := Function.update m.fdToCB fd none
    notes := m.notes ++ (m.fdToCB fd).toList.map EventNote.unregistered })

def register (fd : ℕ) (rf wf cf : Bool) : ℤ × EventManager :=
  if fd = 0 then (-1, m)
  else
    let r := m.kernel.epollAdd fd
    let m' := { m with
      fdToCB := Function.update m.fdToCB fd (some ⟨rf, wf, cf, fd, m.serial⟩)
      vector := m.vector.register fd
      fdEvents := Function.update m.fdEvents fd 0
      kernel := r.2
      serial := m.serial + 1
      notes := m.notes ++ [.registered ⟨rf, wf, cf, fd, m.serial⟩ (m.fdToCB fd)] }
    if r.1 ≠ 0 then (r.1, (m'.unregister fd).2) else (r.1, m')

def setWrite (fd : ℕ) : ℤ × EventManager :=
  let r := m.kernel.epollModify fd true
  (r.1, { m with kernel := r.2 })

def clearWrite (fd : ℕ) : ℤ × EventManager :=
  let r := m.kernel.epollModify fd false
  (r.1, { m with kernel := r.2 })

def act : EventAction → EventManager
  | .accept fd rf wf cf => ({ m with kernel := m.kernel.opened fd }.register fd rf wf cf).2
  | .setWrite fd => (m.setWrite fd).2

/-! ### `Wait` -/

def countEvent (fd : ℕ) : EventManager :=
  { m with fdEvents := Function.update m.fdEvents fd (m.fdEvents fd + 1) }

def addToCloseSet (fd : ℕ) : EventManager := { m with closeSet := insert fd m.closeSet }

/-- The read callback is called. -/
def handleRead (cb : EventCB) (e : Ready) : EventManager :=
  if e.event.readable && cb.rf then
    let m' := e.read.actions.foldl act m
    if e.read.ret < 0 then m'.addToCloseSet cb.fd else m'
  else m

/-- The write callback is called. If it returns `0` there is nothing left to write. -/
def handleWrite (cb : EventCB) (e : Ready) : EventManager :=
  if e.event.epollout && cb.wf then
    let m' := e.write.actions.foldl act m
    if e.write.ret < 0 then m'.addToCloseSet cb.fd
    else if e.write.ret = 0 then (m'.clearWrite cb.fd).2 else m'
  else m

/-- A descriptor that hung up is closed. -/
def handleHangUp (cb : EventCB) (e : Ready) : EventManager :=
  if e.event.hungUp then
    { m.addToCloseSet cb.fd with kernel := m.kernel.close cb.fd }.note (.closed cb.fd)
  else m

/-- The slot is used behind the read callback. -/
def usesBehindRead (cb : EventCB) (e : Ready) : Bool :=
  (e.event.readable && cb.rf && decide (e.read.ret < 0)) || e.event.epollout || e.event.hungUp

/-- It is used behind the write callback. -/
def usesBehindWrite (cb : EventCB) (e : Ready) : Bool :=
  (e.event.epollout && cb.wf && decide (e.write.ret ≤ 0)) || e.event.hungUp

/-- One round of the loop over the events. The reference to the slot is good as long as the vector
keeps its capacity. -/
def handle (e : Ready) : Option EventManager :=
  (m.fdToCB e.event.fd).bind fun cb ↦
    let m₁ := (m.countEvent e.event.fd).handleRead cb e
    let m₂ := m₁.handleWrite cb e
    if (usesBehindRead cb e = true → m₁.vector.capacity = m.vector.capacity) ∧
        (usesBehindWrite cb e = true → m₂.vector.capacity = m.vector.capacity) then
      some (m₂.handleHangUp cb e)
    else none

/-- A round that ends has called the callbacks and closed the descriptor if it hung up. -/
theorem eq_of_handle {m : EventManager} {e : Ready} {m' : EventManager} (h : m.handle e = some m') :
    ∃ cb, m.fdToCB e.event.fd = some cb ∧
      m' = (((m.countEvent e.event.fd).handleRead cb e).handleWrite cb e).handleHangUp cb e := by
  obtain ⟨cb, hcb, hm'⟩ := Option.bind_eq_some_iff.mp h
  refine ⟨cb, hcb, ?_⟩
  dsimp only at hm'
  split_ifs at hm'
  exact (Option.some.inj hm').symm

/-- One round of the loop over the descriptors to close. The close callback is fired once. -/
def closeOne (closing : ℕ → List ℕ) (fd : ℕ) : Option EventManager :=
  (m.fdToCB fd).map fun cb ↦
    let m' :=
      if cb.cf then ((closing fd).foldl (fun m fd ↦ (m.setWrite fd).2) m).note (.closeCB cb) else m
    (m'.unregister fd).2

def wait (b : Batch) : Option EventManager :=
  (b.events.foldlM handle { m with notes := [] }).bind fun m₁ ↦
    ((m₁.closeSet.sort (· ≤ ·)).foldlM (closeOne · b.closing) m₁).map fun m₂ ↦
    { m₂ with closeSet := ∅ }

end EventManager

end Coypu
