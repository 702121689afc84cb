import Coypu.Library.Run
import Mathlib.Data.Int.Notation

/-!
# Events of the application

`EventCBManager` has the loop run callbacks later. `Queue` asks for `EPOLLOUT` on an eventfd, the
write callback adds the length of the queue to the counter of the eventfd, which makes it readable,
and the read callback resets the counter and empties the queue. Callbacks may queue more while it
does.

A step here is a call of `Queue` or `Register`, an event of the eventfd as `Wait` handles it, or one
round of the loop of `Read`. The invariant is that a queue that is not empty is on its way: it waits
for `EPOLLOUT`, or the counter is not zero, or the loop of `Read` runs.
-/

set_option autoImplicit false

namespace Coypu

/-- What is going on: nothing, or the loop of `Read`, with whether the event is for the write
callback, too. -/
inductive CBPhase where
  | idle
  | reading (writable : Bool)
deriving DecidableEq

/-- The manager, with the counter of its eventfd, and whether epoll watches the eventfd for
`EPOLLOUT`, or at all. -/
structure EventCBManager where
  queue : List UInt64
  cbMap : List UInt64
  counter : ℕ
  epollout : Bool
  registered : Bool
  phase : CBPhase

/-- What happens to the manager. -/
inductive CBOp where
  | register (type : UInt64)
  | queue (u : UInt64)
  | event (readable writable : Bool)
  | round
deriving DecidableEq

/-- What a step put into the queue, and what callback it ran. -/
structure CBTrace where
  queued : List UInt64
  ran : List UInt64

namespace EventCBManager

variable (m : EventCBManager)

/-- The constructor, and the registration of the eventfd. -/
def new : EventCBManager := ⟨[], [], 0, false, true, .idle⟩

/-- The items that a `deque` can hold. -/
def maxSize : ℕ := 2 ^ 60 - 1

/-- The counter of an eventfd stays below this. -/
def maxCounter : ℕ := 2 ^ 64 - 1

/-- `Register`: a type keeps the callback that it has. -/
def register (type : UInt64) : Bool × EventCBManager :=
  if type ∈ m.cbMap then (false, m) else (true, { m with cbMap := type :: m.cbMap })

/-- `Queue`. A queue that is full throws, and nothing is queued. -/
def queueEvent (u : UInt64) : EventCBManager × CBTrace :=
  if m.queue.length < maxSize then
    ({ m with queue := m.queue ++ [u], epollout := true }, ⟨[u], []⟩)
  else (m, ⟨[], []⟩)

/-- `Write`: the counter counts what is queued. -/
def write : ℤ × EventCBManager :=
  if m.counter + m.queue.length < maxCounter then
    (0, { m with counter := m.counter + m.queue.length })
  else (-1, m)

/-- `Wait` calls the write callback. -/
def handleWrite : EventCBManager :=
  let r := m.write
  if r.1 < 0 then { r.2 with registered := false }
  else if r.1 = 0 then { r.2 with epollout := false } else r.2

/-- `Wait` handles an event: `Read` comes to its loop, or fails because there is nothing to read,
and `Write` is called. -/
def event (readable writable : Bool) : EventCBManager :=
  if readable then
    if m.counter = 0 then { (if writable then m.handleWrite else m) with registered := false }
    else { m with counter := 0, phase := .reading writable }
  else if writable then m.handleWrite else m

/-- One round of the loop of `Read`, the last one with what `Wait` does behind it. A type without a
callback is dropped. -/
def round : EventCBManager × CBTrace :=
  match m.phase, m.queue with
  | .idle, _ => (m, ⟨[], []⟩)
  | .reading writable, [] =>
    let m' := { m with phase := .idle }
    (if writable then m'.handleWrite else m', ⟨[], []⟩)
  | .reading _, u :: queue => ({ m with queue := queue }, ⟨[], if u ∈ m.cbMap then [u] else []⟩)

def step : CBOp → EventCBManager × CBTrace
  | .register type => ((m.register type).2, ⟨[], []⟩)
  | .queue u => m.queueEvent u
  | .event readable writable => (m.event readable writable, ⟨[], []⟩)
  | .round => m.round

/-! ## What can happen -/

/-- A type that is queued has a callback. The flags of an event are what epoll finds: the eventfd is
readable if the counter is not zero, and it is asked for `EPOLLOUT`, maybe since. -/
def Possible : CBOp → Prop
  | .register _ => True
  | .queue u => u ∈ m.cbMap
  | .event readable writable => m.phase = .idle ∧ m.registered = true ∧
      (readable = true ↔ m.counter ≠ 0) ∧ (writable = true → m.epollout = true) ∧
      (readable = true ∨ writable = true)
  | .round => m.phase ≠ .idle

/-- A queue that is not empty waits for the eventfd. -/
def Awake : Prop := m.queue ≠ [] → m.epollout = true ∨ m.counter ≠ 0

/-- A queue that is not empty waits for the eventfd when something was queued, and whenever `Read`
does not run. -/
def WakesUp (op : CBOp) : Prop :=
  (m.step op).2.queued ≠ [] ∨ (m.step op).1.phase = .idle → (m.step op).1.Awake

structure Inv (m : EventCBManager) : Prop where
  known : ∀ u ∈ m.queue, u ∈ m.cbMap
  length_le : m.queue.length ≤ maxSize
  registered_eq : m.registered = true
  reading : m.phase ≠ .idle → m.counter = 0
  awake : m.phase = .idle → m.Awake

theorem inv_new : new.Inv :=
  ⟨fun _ h ↦ absurd h List.not_mem_nil, Nat.zero_le _, rfl, fun h ↦ absurd rfl h,
    fun _ h ↦ absurd rfl h⟩

variable {m}

theorem handleWrite_eq (hcounter : m.counter = 0) (hlength : m.queue.length ≤ maxSize) :
    m.handleWrite = { m with counter := m.queue.length, epollout := false } := by
  have hwrite : m.write = (0, { m with counter := m.queue.length }) := by
    unfold write
    rw [hcounter, Nat.zero_add]
    apply if_pos
    unfold maxSize at hlength
    unfold maxCounter
    omega
  rw [handleWrite, hwrite]
  rfl

theorem Inv.handleWrite (h : m.Inv) (hphase : m.phase = .idle) (hcounter : m.counter = 0) :
    m.handleWrite.Inv := by
  rw [handleWrite_eq hcounter h.length_le]
  refine ⟨h.known, h.length_le, h.registered_eq, fun hne ↦ absurd hphase hne, fun _ hne ↦ Or.inr ?_⟩
  exact fun hzero ↦ hne (List.length_eq_zero_iff.mp hzero)

/-- An event that is possible: the eventfd is readable and the loop of `Read` begins, or it is not,
and `Write` is called. -/
theorem event_cases {readable writable : Bool} (hop : m.Possible (.event readable writable)) :
    (m.counter ≠ 0 ∧ m.event readable writable =
      { m with counter := 0, phase := .reading writable }) ∨
      (m.counter = 0 ∧ m.event readable writable = m.handleWrite) := by
  obtain ⟨-, -, hreadable, -, hsome⟩ := hop
  unfold event
  by_cases hcounter : m.counter = 0
  · have hnot : readable = false := by
      rw [Bool.eq_false_iff, ne_eq, hreadable]
      exact not_not.mpr hcounter
    rw [hnot] at hsome ⊢
    rw [hsome.resolve_left Bool.false_ne_true]
    exact Or.inr ⟨hcounter, rfl⟩
  · rw [hreadable.mpr hcounter, if_pos rfl, if_neg hcounter]
    exact Or.inl ⟨hcounter, rfl⟩

/-- What a round does: it runs the callback of the first event, or it is the last one. -/
theorem round_cases (h : m.Inv) (hphase : m.phase ≠ .idle) :
    (∃ u queue, m.queue = u :: queue ∧ m.round = ({ m with queue := queue }, ⟨[], [u]⟩)) ∨
      (m.queue = [] ∧ ∃ m', m.round = (m', ⟨[], []⟩) ∧ m'.Inv ∧ m'.queue = [] ∧
        m'.phase = .idle) := by
  obtain ⟨queue, cbMap, counter, epollout, registered, phase⟩ := m
  cases phase with
  | idle => exact absurd rfl hphase
  | reading writable =>
    cases queue with
    | nil =>
      right
      have hidle : Inv ⟨[], cbMap, counter, epollout, registered, .idle⟩ :=
        ⟨h.known, h.length_le, h.registered_eq, fun hne ↦ absurd rfl hne,
          fun _ hne ↦ absurd rfl hne⟩
      have hcounter : counter = 0 := h.reading hphase
      refine ⟨rfl, _, rfl, ?_⟩
      cases writable with
      | false => exact ⟨hidle, rfl, rfl⟩
      | true =>
        rw [if_pos rfl]
        refine ⟨hidle.handleWrite rfl hcounter, ?_, ?_⟩
        · rw [handleWrite_eq hcounter hidle.length_le]
        · rw [handleWrite_eq hcounter hidle.length_le]
    | cons u queue =>
      left
      have hknown : u ∈ cbMap := h.known u List.mem_cons_self
      refine ⟨u, queue, rfl, ?_⟩
      unfold round
      simp only [if_pos hknown]

/-- **A step** keeps the invariant, and the queue loses what ran. -/
theorem Inv.step (h : m.Inv) {op : CBOp} (hop : m.Possible op) :
    (m.step op).1.Inv ∧
      m.queue ++ (m.step op).2.queued = (m.step op).2.ran ++ (m.step op).1.queue := by
  cases op with
  | register type =>
    simp only [EventCBManager.step, register]
    split_ifs
    · exact ⟨h, List.append_nil _⟩
    · refine ⟨⟨fun u hu ↦ ?_, h.length_le, h.registered_eq, h.reading, h.awake⟩, List.append_nil _⟩
      exact List.mem_cons_of_mem _ (h.known u hu)
  | queue u =>
    simp only [EventCBManager.step, queueEvent]
    split_ifs with hroom
    · refine ⟨⟨fun v hv ↦ ?_, ?_, h.registered_eq, h.reading, fun _ _ ↦ Or.inl rfl⟩, rfl⟩
      · rcases List.mem_append.mp hv with hv | hv
        · exact h.known v hv
        · rw [List.mem_singleton.mp hv]
          exact hop
      · rw [List.length_append, List.length_singleton]
        exact hroom
    · exact ⟨h, List.append_nil _⟩
  | event readable writable =>
    simp only [EventCBManager.step]
    rcases event_cases hop with ⟨-, heq⟩ | ⟨hcounter, heq⟩
    · rw [heq]
      refine ⟨⟨h.known, h.length_le, h.registered_eq, fun _ ↦ rfl, ?_⟩, List.append_nil _⟩
      exact fun hidle ↦ absurd hidle CBPhase.noConfusion
    · rw [heq]
      refine ⟨h.handleWrite hop.1 hcounter, ?_⟩
      rw [handleWrite_eq hcounter h.length_le]
      exact List.append_nil _
  | round =>
    simp only [EventCBManager.step]
    -- a round takes the oldest event, or ends the call
    rcases round_cases h hop with ⟨u, queue, hq, heq⟩ | ⟨hq, m', heq, hinv, hq', -⟩
    · rw [heq, hq]
      refine ⟨⟨fun v hv ↦ h.known v ?_, ?_, h.registered_eq, h.reading,
        fun hidle ↦ absurd hidle hop⟩, ?_⟩
      · rw [hq]
        exact List.mem_cons_of_mem _ hv
      · have hlength := h.length_le
        rw [hq, List.length_cons] at hlength
        exact Nat.le_of_succ_le hlength
      · exact List.append_nil _
    · rw [heq, hq]
      refine ⟨hinv, ?_⟩
      simp only
      rw [hq']

theorem queued_of_step {op : CBOp} (h : (m.step op).2.queued ≠ []) :
    (m.step op).1.epollout = true := by
  cases op with
  | register type => exact absurd rfl h
  | queue u =>
    simp only [EventCBManager.step, queueEvent] at h ⊢
    split_ifs at h ⊢ with hroom
    · rfl
    · exact absurd rfl h
  | event readable writable => exact absurd rfl h
  | round =>
    simp only [EventCBManager.step, round] at h
    split at h
    · exact absurd rfl h
    · exact absurd rfl h
    · exact absurd rfl h

theorem Inv.wakesUp (h : m.Inv) {op : CBOp} (hop : m.Possible op) : m.WakesUp op := by
  rintro (hqueued | hidle)
  · exact fun _ ↦ Or.inl (queued_of_step hqueued)
  · exact (h.step hop).1.awake hidle

/-! ## How long it takes -/

/-- The steps until the queue is empty, if nothing is queued. -/
def remaining (m : EventCBManager) : ℕ :=
  if m.queue = [] then 0
  else if m.phase ≠ .idle then m.queue.length
  else if m.counter ≠ 0 then m.queue.length + 1
  else m.queue.length + 2

theorem remaining_le : m.remaining ≤ m.queue.length + 2 := by
  unfold remaining
  split_ifs <;> omega

theorem remaining_eq_zero_iff : m.remaining = 0 ↔ m.queue = [] := by
  unfold remaining
  have hpos : m.queue ≠ [] → 0 < m.queue.length := List.length_pos_iff.mpr
  split_ifs with hq <;> simp [hq]

/-- A step in which nothing is queued or registered. -/
def IsEvent : CBOp → Prop
  | .register _ | .queue _ => False
  | .event _ _ | .round => True

/-- An event, or a round of the loop of `Read`, is one step nearer to the end. -/
theorem Inv.remaining_lt (h : m.Inv) {op : CBOp} (hop : m.Possible op) (hevent : IsEvent op) :
    (m.step op).1.remaining ≤ m.remaining - 1 := by
  cases op with
  | register type => exact absurd hevent id
  | queue u => exact absurd hevent id
  | event readable writable =>
    simp only [EventCBManager.step]
    have hphase := hop.1
    rcases event_cases hop with ⟨hcounter, heq⟩ | ⟨hcounter, heq⟩
    · rw [heq]
      unfold remaining
      simp only [hphase, hcounter, ne_eq, not_true_eq_false, not_false_eq_true, if_true, if_false,
        reduceCtorEq]
      split_ifs <;> omega
    · rw [heq, handleWrite_eq hcounter h.length_le]
      unfold remaining
      simp only [hphase, hcounter, ne_eq, not_true_eq_false, if_false]
      by_cases hq : m.queue = []
      · rw [if_pos hq]
        exact Nat.zero_le _
      · have hpos := List.length_pos_iff.mpr hq
        rw [if_neg hq, if_neg hq, if_pos (by omega)]
        omega
  | round =>
    simp only [EventCBManager.step]
    rcases round_cases h hop with ⟨u, queue, hq, heq⟩ | ⟨hq, m', heq, -, hq', -⟩
    · rw [heq]
      unfold remaining
      simp only [hq, List.length_cons, List.cons_ne_nil, if_false]
      split_ifs <;> omega
    · rw [heq, remaining_eq_zero_iff.mpr hq']
      exact Nat.zero_le _

/-- The induction is on the steps. -/
theorem Inv.queue_eq_nil (h : m.Inv) {ops : List CBOp}
    (hops : Run.Steps EventCBManager.step Possible m ops) (hevents : ∀ op ∈ ops, IsEvent op)
    (hlength : m.remaining ≤ ops.length) : (Run.run EventCBManager.step m ops).1.queue = [] := by
  induction ops generalizing m with
  | nil => exact remaining_eq_zero_iff.mp (Nat.le_zero.mp hlength)
  | cons op ops ih =>
    obtain ⟨hop, hrest⟩ := hops
    have hless := h.remaining_lt hop (hevents op List.mem_cons_self)
    rw [List.length_cons] at hlength
    exact ih (h.step hop).1 hrest (fun op hop ↦ hevents op (List.mem_cons_of_mem _ hop)) (by omega)

/-! ## Runs -/

/-- **Queued events are dispatched exactly once, in order, and never forgotten**: what was queued is
what ran and what is still in the queue; a queue that is not empty waits for the eventfd; and if
nothing more is queued it is empty after two events and a round for each of its items. -/
theorem run_dispatchesAll (ops more : List CBOp) (hok : Run.Steps step Possible new ops) :
    (Run.run step new ops).2.flatMap CBTrace.queued
        = (Run.run step new ops).2.flatMap CBTrace.ran ++ (Run.run step new ops).1.queue ∧
      Run.Steps step WakesUp new ops ∧
      (Run.Steps step Possible (Run.run step new ops).1 more → (∀ op ∈ more, IsEvent op) →
        (Run.run step new ops).1.queue.length + 2 ≤ more.length →
        (Run.run step (Run.run step new ops).1 more).1.queue = []) := by
  have hstep (m : EventCBManager) (op : CBOp) (h : m.Inv)
    (hop : m.Possible op) : (m.step op).1.Inv :=
    (h.step hop).1
  refine ⟨?_, ?_, ?_⟩
  · exact Run.run_conserves (fun m op h hop ↦ h.step hop) inv_new hok
  · exact Run.Steps.of_invariant hstep (fun m op h hop ↦ h.wakesUp hop) inv_new hok
  · intro hmore hevents hlength
    have hlast := (Run.Throughout.of_step hstep inv_new hok).last
    exact hlast.queue_eq_nil hmore hevents (Nat.le_trans remaining_le hlength)

/-- One event is queued, and is dispatched in three steps. -/
theorem run_dispatchesAll_one :
    (Run.run step (Run.run step new [.register 7, .queue 7]).1
      [.event false true, .event true false, .round]).1.queue = [] := by
  refine (run_dispatchesAll [.register 7, .queue 7] [.event false true, .event true false, .round]
    ⟨trivial, List.mem_singleton_self 7, trivial⟩).2.2 ⟨?_, ?_, ?_, trivial⟩ ?_ (by decide)
  · exact ⟨rfl, rfl, by decide, fun _ ↦ rfl, Or.inr rfl⟩
  · exact ⟨rfl, rfl, by decide, fun h ↦ Bool.noConfusion h, Or.inl rfl⟩
  · exact CBPhase.noConfusion
  · intro op hop
    simp only [List.mem_cons, List.not_mem_nil, or_false] at hop
    rcases hop with rfl | rfl | rfl <;> trivial

end EventCBManager

end Coypu
