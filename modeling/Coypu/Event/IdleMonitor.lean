import Coypu.Event.EventManager
import Coypu.Library.CInt
import Mathlib.Data.List.GetD

/-!
# The idle monitor

A timer looks every few seconds at how many events the Kraken connection has had. `readTimerCB`
notes the number of the check and the count where the count has risen, and shuts the connection down
where it has not for too long. The notes are kept by the number of the descriptor, for good, while
the event manager counts from zero when a number is registered again.

The difference between the two checks is the wrong way round, and an `uint32_t`. It is large as soon
as there is one check between them.
-/

set_option autoImplicit false

namespace Coypu

/-! ## The code -/

/-- What `readTimerCB` keeps from one call to the next. -/
structure TimerMarks where
  checks : ℕ
  marks : List (ℕ × ℕ)

namespace TimerMarks

def new : TimerMarks := ⟨0, List.replicate 16 (0, 0)⟩

/-- The loop that makes room for `need` marks, in `fuel` rounds at most. -/
def resize (need : ℕ) : ℕ → List (ℕ × ℕ) → List (ℕ × ℕ)
  | 0, marks => marks
  | fuel + 1, marks =>
    if marks.length < need then resize need fuel (marks ++ List.replicate 16 (0, 0)) else marks

/-- `readTimerCB`, and whether it shuts the connection down. A descriptor is `none` before there is
a connection. -/
def readTimerCB (m : TimerMarks) (krakenFD coinbaseFD : Option ℕ) (eventCount : ℕ → ℕ) :
    Bool × TimerMarks :=
  let checks := CInt.toUnsigned 32 (m.checks + 1)
  let need := max (krakenFD.elim 0 (· + 1)) (coinbaseFD.elim 0 (· + 1))
  let marks := resize need need m.marks
  match krakenFD with
  | none => (false, ⟨checks, marks⟩)
  | some fd =>
    let events := eventCount fd
    let lastEvents := (marks.getD fd (0, 0)).2
    let lastMark := (marks.getD fd (0, 0)).1
    if lastEvents < events then (false, ⟨checks, marks.set fd (checks, events)⟩)
    else (decide (16 < CInt.toUnsigned 32 (lastMark - checks)), ⟨checks, marks⟩)

/-! ### Marks -/

theorem getD_replicate_self {α : Type*} (n i : ℕ) (a : α) : (List.replicate n a).getD i a = a := by
  rw [List.getD_eq_getElem?_getD, List.getElem?_replicate]
  split_ifs <;> rfl

theorem getD_set {α : Type*} {l : List α} {i : ℕ} (hi : i < l.length) (a d : α) (j : ℕ) :
    (l.set i a).getD j d = if i = j then a else l.getD j d := by
  rw [List.getD_eq_getElem?_getD, List.getD_eq_getElem?_getD, List.getElem?_set]
  split_ifs <;> rfl

theorem le_length_resize (need : ℕ) {fuel : ℕ} (marks : List (ℕ × ℕ))
    (h : need ≤ marks.length + fuel) : need ≤ (resize need fuel marks).length := by
  induction fuel generalizing marks with
  | zero => exact h
  | succ fuel ih =>
    rw [resize]
    split_ifs with hlt
    · refine ih _ ?_
      rw [List.length_append, List.length_replicate]
      omega
    · omega

theorem getD_resize (need fuel : ℕ) (marks : List (ℕ × ℕ)) (fd : ℕ) :
    (resize need fuel marks).getD fd (0, 0) = marks.getD fd (0, 0) := by
  induction fuel generalizing marks with
  | zero => rfl
  | succ fuel ih =>
    rw [resize]
    split_ifs with hlt
    · rw [ih]
      by_cases hfd : fd < marks.length
      · rw [List.getD_append _ _ _ _ hfd]
      · rw [List.getD_append_right _ _ _ _ (by omega), getD_replicate_self,
          List.getD_eq_default _ _ (by omega)]
    · rfl

end TimerMarks

/-! ## Runs -/

/-- What changes the counts of the event manager. -/
inductive CountOp where
  | register (fd : ℕ)
  | event (fd : ℕ)

def CountOp.apply (fdEvents : ℕ → ℕ) : CountOp → ℕ → ℕ
  | register fd => Function.update fdEvents fd 0
  | event fd => Function.update fdEvents fd (fdEvents fd + 1)

/-! ### The counts of the event manager -/

namespace EventManager

/-- The counts change by registrations and events only. -/
def Counted (m m' : EventManager) : Prop :=
  ∃ ops : List CountOp, m'.fdEvents = ops.foldl CountOp.apply m.fdEvents

variable {m m' m'' : EventManager}

theorem Counted.of_eq (h : m'.fdEvents = m.fdEvents) : m.Counted m' := ⟨[], h⟩

theorem Counted.trans (h : m.Counted m') (h' : m'.Counted m'') : m.Counted m'' := by
  obtain ⟨ops, heq⟩ := h
  obtain ⟨ops', heq'⟩ := h'
  exact ⟨ops ++ ops', by rw [List.foldl_append, ← heq, heq']⟩

theorem counted_register (m : EventManager) (fd : ℕ) (rf wf cf : Bool) :
    m.Counted (m.register fd rf wf cf).2 := by
  by_cases hfd : fd = 0
  · refine Counted.of_eq ?_
    rw [register, if_pos hfd]
  · refine ⟨[.register fd], ?_⟩
    rw [register, if_neg hfd]
    dsimp only
    split_ifs <;> rfl

theorem counted_act (m : EventManager) (a : EventAction) : m.Counted (m.act a) := by
  cases a with
  | accept fd rf wf cf => exact counted_register { m with kernel := m.kernel.opened fd } fd rf wf cf
  | setWrite fd => exact Counted.of_eq rfl

theorem counted_actions (m : EventManager) (as : List EventAction) :
    m.Counted (as.foldl act m) := by
  induction as generalizing m with
  | nil => exact Counted.of_eq rfl
  | cons a as ih => exact (counted_act m a).trans (ih (m.act a))

theorem counted_handleRead (m : EventManager) (cb : EventCB) (e : Ready) :
    m.Counted (m.handleRead cb e) := by
  have hactions := counted_actions m e.read.actions
  rw [handleRead]
  split_ifs
  · exact hactions
  · exact hactions
  · exact Counted.of_eq rfl

theorem counted_handleWrite (m : EventManager) (cb : EventCB) (e : Ready) :
    m.Counted (m.handleWrite cb e) := by
  have hactions := counted_actions m e.write.actions
  rw [handleWrite]
  split_ifs
  · exact hactions
  · exact hactions
  · exact hactions
  · exact Counted.of_eq rfl

theorem counted_handle {e : Ready} (h : m.handle e = some m') : m.Counted m' := by
  obtain ⟨cb, -, rfl⟩ := eq_of_handle h
  have hevent : m.Counted (m.countEvent e.event.fd) := ⟨[.event e.event.fd], rfl⟩
  have hboth := (hevent.trans (counted_handleRead _ cb e)).trans (counted_handleWrite _ cb e)
  refine hboth.trans (Counted.of_eq ?_)
  rw [handleHangUp]
  split_ifs <;> rfl

theorem fdEvents_closeOne {closing : ℕ → List ℕ} {fd : ℕ} (h : m.closeOne closing fd = some m') :
    m'.fdEvents = m.fdEvents := by
  obtain ⟨cb, -, rfl⟩ := Option.map_eq_some_iff.mp h
  have hwrites : ∀ (fds : List ℕ) (m : EventManager),
      (fds.foldl (fun m fd ↦ (m.setWrite fd).2) m).fdEvents = m.fdEvents := by
    intro fds
    induction fds with
    | nil => exact fun _ ↦ rfl
    | cons fd fds ih => exact fun m ↦ ih (m.setWrite fd).2
  dsimp only [unregister]
  split_ifs
  · exact hwrites (closing fd) m
  · rfl

theorem counted_foldlM {α : Type*} {f : EventManager → α → Option EventManager}
    (hf : ∀ m a m', f m a = some m' → m.Counted m') {l : List α} (h : l.foldlM f m = some m') :
    m.Counted m' := by
  induction l generalizing m with
  | nil => exact Counted.of_eq (congrArg fdEvents (Option.some.inj h).symm)
  | cons a l ih =>
    rw [List.foldlM_cons] at h
    obtain ⟨m₁, hfirst, hrest⟩ := Option.bind_eq_some_iff.mp h
    exact (hf m a m₁ hfirst).trans (ih hrest)

/-- **A call of `Wait` counts events and registrations**, and nothing else changes the counts. -/
theorem counted_wait {b : Batch} (h : m.wait b = some m') : m.Counted m' := by
  obtain ⟨m₁, hevents, hrest⟩ := Option.bind_eq_some_iff.mp h
  obtain ⟨m₂, hclosed, rfl⟩ := Option.map_eq_some_iff.mp hrest
  have hfirst : Counted { m with notes := [] } m₁ :=
    counted_foldlM (fun _ _ _ ↦ counted_handle) hevents
  have hsecond : m₁.Counted m₂ :=
    counted_foldlM (fun _ _ _ hone ↦ Counted.of_eq (fdEvents_closeOne hone)) hclosed
  exact hfirst.trans hsecond

end EventManager

/-! ### The monitor -/

/-- A new Kraken connection, a new Coinbase connection, a count that changes, and a check. -/
inductive MonitorOp where
  | kraken (fd : ℕ)
  | coinbase (fd : ℕ)
  | count (op : CountOp)
  | timer

/-- What a check found. -/
structure Sighting where
  tick : ℕ
  fd : ℕ
  events : ℕ

/-- The first sighting of the greatest count of a descriptor: its check and the count. -/
def greatest (seen : List Sighting) (fd : ℕ) : ℕ × ℕ :=
  seen.foldl (fun m x ↦ if x.fd = fd ∧ m.2 < x.events then (x.tick, x.events) else m) (0, 0)

/-- The monitor and what it looks at. Beside it stand how many checks there were and what they
found, for how many of the last ones the current connection has had no event, and whether it has had
one since. -/
structure IdleMonitor where
  krakenFD : Option ℕ
  coinbaseFD : Option ℕ
  fdEvents : ℕ → ℕ
  timer : TimerMarks
  ticks : ℕ
  seen : List Sighting
  idle : ℕ
  arrived : Bool

namespace IdleMonitor

def new : IdleMonitor := ⟨none, none, fun _ ↦ 0, TimerMarks.new, 0, [], 0, false⟩

/-- A change of the counts. Under the number of the Kraken connection a registration is that of a
new connection. -/
def applyCount (s : IdleMonitor) (op : CountOp) : IdleMonitor :=
  let s' := { s with fdEvents := op.apply s.fdEvents }
  match op with
  | .register fd => if s.krakenFD = some fd then { s' with idle := 0, arrived := false } else s'
  | .event fd => if s.krakenFD = some fd then { s' with arrived := true } else s'

/-- For how many checks, this one included, the current connection has had no event. -/
def idleNow (s : IdleMonitor) : ℕ := if s.arrived then 0 else s.idle + 1

def check (s : IdleMonitor) : Bool × TimerMarks :=
  s.timer.readTimerCB s.krakenFD s.coinbaseFD s.fdEvents

/-- What this check finds. -/
def sighting (s : IdleMonitor) : List Sighting :=
  (s.krakenFD.map fun fd ↦ ⟨s.ticks + 1, fd, s.fdEvents fd⟩).toList

def step (s : IdleMonitor) : MonitorOp → IdleMonitor × Bool
  | .kraken fd => ({ s with krakenFD := some fd }.applyCount (.register fd), false)
  | .coinbase fd => ({ s with coinbaseFD := some fd }, false)
  | .count op => (s.applyCount op, false)
  | .timer =>
    ({ s with
        timer := s.check.2
        ticks := s.ticks + 1
        seen := s.seen ++ s.sighting
        idle := s.idleNow
        arrived := false }, s.check.1)

theorem fdEvents_run (s : IdleMonitor) (ops : List CountOp) :
    (Run.run step s (ops.map .count)).1.fdEvents = ops.foldl CountOp.apply s.fdEvents := by
  induction ops generalizing s with
  | nil => rfl
  | cons op ops ih =>
    rw [List.map_cons, Run.run_cons, ih, List.foldl_cons]
    refine congrArg (ops.foldl CountOp.apply) ?_
    cases op <;> rw [step, applyCount] <;> split_ifs <;> rfl

/-- What `Wait` counts is counted in a run of the monitor. -/
theorem exists_run_of_wait {s : IdleMonitor} {m m' : EventManager} {b : Batch}
    (hs : s.fdEvents = m.fdEvents) (h : m.wait b = some m') :
    ∃ ops : List CountOp, (Run.run step s (ops.map .count)).1.fdEvents = m'.fdEvents := by
  obtain ⟨ops, hops⟩ := EventManager.counted_wait h
  exact ⟨ops, by rw [fdEvents_run, hs, hops]⟩

/-- A connection that is shut down has had no event for more than 16 checks. -/
def ClosesIdle (s : IdleMonitor) (op : MonitorOp) : Prop := (s.step op).2 = true → 16 < s.idleNow

/-- The count is greater than all that earlier checks found under this number. -/
def Rising (s : IdleMonitor) : Prop :=
  ∀ fd, s.krakenFD = some fd →
    0 < s.fdEvents fd ∧ ∀ x ∈ s.seen, x.fd = fd → x.events < s.fdEvents fd

/-- As an `uint32_t`, the check that first found the greatest count is this one or one of the next
16. -/
def Wrapped (s : IdleMonitor) : Prop :=
  ∀ fd, s.krakenFD = some fd →
    ∃ ahead ≤ 16, (greatest s.seen fd).1 % 2 ^ 32 = (s.ticks + 1 + ahead) % 2 ^ 32

end IdleMonitor

/-! ### What was seen -/

variable {seen : List Sighting} {fd : ℕ}

theorem greatest_concat (seen : List Sighting) (x : Sighting) (fd : ℕ) :
    greatest (seen ++ [x]) fd =
      if x.fd = fd ∧ (greatest seen fd).2 < x.events then (x.tick, x.events)
      else greatest seen fd := by
  rw [greatest, List.foldl_append, List.foldl_cons, List.foldl_nil, greatest]

/-- A count is greater than the greatest one exactly if it is greater than all. -/
theorem greatest_lt_iff {n : ℕ} :
    (greatest seen fd).2 < n ↔ 0 < n ∧ ∀ x ∈ seen, x.fd = fd → x.events < n := by
  induction seen using List.reverseRecOn with
  | nil => simp [greatest]
  | append_singleton seen x ih =>
    rw [greatest_concat]
    constructor
    · intro hlt
      have hold : (greatest seen fd).2 < n := by
        split_ifs at hlt with hx
        · exact hx.2.trans hlt
        · exact hlt
      refine ⟨(ih.mp hold).1, fun y hy hfd ↦ ?_⟩
      rcases List.mem_append.mp hy with hy | hy
      · exact (ih.mp hold).2 y hy hfd
      · obtain rfl := List.mem_singleton.mp hy
        split_ifs at hlt with hx
        · exact hlt
        · exact (Nat.le_of_not_lt fun hgt ↦ hx ⟨hfd, hgt⟩).trans_lt hold
    · rintro ⟨hpos, hall⟩
      split_ifs with hx
      · exact hall x (List.mem_append_right _ (List.mem_singleton_self x)) hx.1
      · exact ih.mpr ⟨hpos, fun y hy ↦ hall y (List.mem_append_left _ hy)⟩

/-- The check that found the greatest count is none, or one of those there were. -/
theorem greatest_tick_le {ticks : ℕ} (h : ∀ x ∈ seen, x.tick ≤ ticks) (fd : ℕ) :
    (greatest seen fd).1 ≤ ticks := by
  induction seen using List.reverseRecOn with
  | nil => exact Nat.zero_le _
  | append_singleton seen x ih =>
    rw [greatest_concat]
    split_ifs
    · exact h x (List.mem_append_right _ (List.mem_singleton_self x))
    · exact ih fun y hy ↦ h y (List.mem_append_left _ hy)

namespace IdleMonitor

variable {s : IdleMonitor}

/-! ### The invariant -/

/-- The marks are the greatest counts, and the checks that found them as `uint32_t`s. -/
structure Sound (s : IdleMonitor) : Prop where
  checks_eq : s.timer.checks = s.ticks % 2 ^ 32
  mark_eq : ∀ fd, s.timer.marks.getD fd (0, 0)
    = ((greatest s.seen fd).1 % 2 ^ 32, (greatest s.seen fd).2)

theorem sound_new : new.Sound := by
  refine ⟨rfl, fun fd ↦ ?_⟩
  exact TimerMarks.getD_replicate_self ..

/-- The marks that `readTimerCB` looks at. -/
def room (s : IdleMonitor) : List (ℕ × ℕ) :=
  let need := max (s.krakenFD.elim 0 (· + 1)) (s.coinbaseFD.elim 0 (· + 1))
  TimerMarks.resize need need s.timer.marks

theorem Sound.getD_room (h : s.Sound) (fd : ℕ) :
    s.room.getD fd (0, 0) = ((greatest s.seen fd).1 % 2 ^ 32, (greatest s.seen fd).2) := by
  rw [room, TimerMarks.getD_resize, h.mark_eq]

theorem lt_length_room {fd : ℕ} (hfd : s.krakenFD = some fd) : fd < s.room.length := by
  have hroom := TimerMarks.le_length_resize
    (max (s.krakenFD.elim 0 (· + 1)) (s.coinbaseFD.elim 0 (· + 1))) s.timer.marks
    (Nat.le_add_left ..)
  have hneed : fd + 1 ≤ max (s.krakenFD.elim 0 (· + 1)) (s.coinbaseFD.elim 0 (· + 1)) := by
    rw [hfd]
    exact Nat.le_max_left ..
  exact hneed.trans hroom

/-- A check whose count has not risen decides by the difference of the two checks. -/
theorem Sound.check_eq (h : s.Sound) {fd : ℕ} (hfd : s.krakenFD = some fd) :
    s.check =
      if (greatest s.seen fd).2 < s.fdEvents fd then
        (false, ⟨(s.ticks + 1) % 2 ^ 32, s.room.set fd ((s.ticks + 1) % 2 ^ 32, s.fdEvents fd)⟩)
      else
        (decide (16 < CInt.toUnsigned 32 (((greatest s.seen fd).1 % 2 ^ 32 : ℕ)
          - ((s.ticks + 1) % 2 ^ 32 : ℕ))), ⟨(s.ticks + 1) % 2 ^ 32, s.room⟩) := by
  have hchecks : CInt.toUnsigned 32 (s.timer.checks + 1) = (s.ticks + 1) % 2 ^ 32 := by
    rw [h.checks_eq, CInt.toUnsigned]
    omega
  have hroom := h.getD_room fd
  rw [room, hfd] at hroom
  simp only [check, TimerMarks.readTimerCB, room, hfd, hchecks, hroom]

theorem toUnsigned_sub_le_iff (t n : ℕ) :
    CInt.toUnsigned 32 ((t % 2 ^ 32 : ℕ) - (n % 2 ^ 32 : ℕ)) ≤ 16 ↔
      ∃ ahead ≤ 16, t % 2 ^ 32 = (n + ahead) % 2 ^ 32 := by
  constructor
  · intro hle
    refine ⟨CInt.toUnsigned 32 ((t % 2 ^ 32 : ℕ) - (n % 2 ^ 32 : ℕ)), hle, ?_⟩
    rw [CInt.toUnsigned]
    omega
  · rintro ⟨ahead, hle, heq⟩
    rw [CInt.toUnsigned]
    omega

/-- A check closes an idle connection only, exactly if the count has risen, or the mark looks like
one of the next checks, or the connection is idle. -/
theorem Sound.closesIdle_iff (h : s.Sound) :
    s.ClosesIdle .timer ↔ s.Rising ∨ s.Wrapped ∨ 16 < s.idleNow := by
  cases hfd : s.krakenFD with
  | none =>
    have hclosed : s.check.1 = false := by simp only [check, TimerMarks.readTimerCB, hfd]
    refine iff_of_true (fun hshut ↦ ?_) (Or.inl fun fd hsome ↦ ?_)
    · exact absurd (hclosed.symm.trans hshut) (by decide)
    · exact absurd (hfd.symm.trans hsome) (by simp)
  | some fd =>
    have hrising : s.Rising ↔ (greatest s.seen fd).2 < s.fdEvents fd := by
      simp only [Rising, hfd, Option.some.injEq, forall_eq', greatest_lt_iff]
    have hwrapped : s.Wrapped ↔ CInt.toUnsigned 32 (((greatest s.seen fd).1 % 2 ^ 32 : ℕ)
        - ((s.ticks + 1) % 2 ^ 32 : ℕ)) ≤ 16 := by
      rw [toUnsigned_sub_le_iff]
      simp only [Wrapped, hfd, Option.some.injEq, forall_eq']
    rw [ClosesIdle, hrising, hwrapped]
    simp only [step, h.check_eq hfd]
    split_ifs with hlt
    · exact iff_of_true (fun hshut ↦ absurd hshut (by decide)) (Or.inl hlt)
    · rw [decide_eq_true_eq, or_iff_right hlt, ← Nat.not_lt, imp_iff_not_or]

theorem Sound.applyCount (h : s.Sound) (op : CountOp) : (s.applyCount op).Sound := by
  cases op with
  | register fd =>
    rw [IdleMonitor.applyCount]
    split_ifs <;> exact ⟨h.checks_eq, h.mark_eq⟩
  | event fd =>
    rw [IdleMonitor.applyCount]
    split_ifs <;> exact ⟨h.checks_eq, h.mark_eq⟩

theorem Sound.timer (h : s.Sound) : (s.step .timer).1.Sound := by
  cases hfd : s.krakenFD with
  | none =>
    have hcheck : s.check.2 = ⟨CInt.toUnsigned 32 (s.timer.checks + 1), s.room⟩ := by
      simp only [check, TimerMarks.readTimerCB, room, hfd]
    have hseen : s.seen ++ s.sighting = s.seen := by
      rw [sighting, hfd, Option.map_none, Option.toList_none, List.append_nil]
    refine ⟨?_, fun fd' ↦ ?_⟩
    · simp only [IdleMonitor.step, hcheck, h.checks_eq, CInt.toUnsigned]
      omega
    · simp only [IdleMonitor.step, hcheck, hseen, h.getD_room]
  | some fd =>
    have hseen : s.seen ++ s.sighting = s.seen ++ [⟨s.ticks + 1, fd, s.fdEvents fd⟩] := by
      rw [sighting, hfd, Option.map_some, Option.toList_some]
    refine ⟨?_, fun fd' ↦ ?_⟩
    · simp only [IdleMonitor.step, h.check_eq hfd]
      split_ifs <;> rfl
    · simp only [IdleMonitor.step, h.check_eq hfd, hseen, greatest_concat]
      by_cases hlt : (greatest s.seen fd).2 < s.fdEvents fd
      · rw [if_pos hlt, TimerMarks.getD_set (lt_length_room hfd), h.getD_room]
        by_cases heq : fd = fd'
        · subst heq
          rw [if_pos rfl, if_pos ⟨rfl, hlt⟩]
        · rw [if_neg heq, if_neg fun hboth ↦ heq hboth.1]
      · rw [if_neg hlt, h.getD_room, if_neg]
        rintro ⟨rfl, hgt⟩
        exact hlt hgt

/-- **The marks are kept in every step.** -/
theorem Sound.step (h : s.Sound) (op : MonitorOp) : (s.step op).1.Sound := by
  cases op with
  | kraken fd =>
    have hnew : Sound { s with krakenFD := some fd } := ⟨h.checks_eq, h.mark_eq⟩
    exact hnew.applyCount (.register fd)
  | coinbase fd => exact ⟨h.checks_eq, h.mark_eq⟩
  | count op => exact h.applyCount op
  | timer => exact h.timer

theorem closesIdle_of_ne_timer {op : MonitorOp} (h : op ≠ .timer) : s.ClosesIdle op := by
  intro hshut
  cases op with
  | timer => exact absurd rfl h
  | kraken fd => exact absurd hshut Bool.false_ne_true
  | coinbase fd => exact absurd hshut Bool.false_ne_true
  | count op => exact absurd hshut Bool.false_ne_true

/-- What a step must meet: a check that finds more events than any before it under the same number,
or a mark that looks like one of the next checks, or an idle connection. -/
def Meets (s : IdleMonitor) : MonitorOp → Prop
  | .timer => s.Rising ∨ s.Wrapped ∨ 16 < s.idleNow
  | _ => True

/-- **When the monitor closes idle connections only.** -/
theorem run_closesIdle_iff (ops : List MonitorOp) :
    Run.Steps step ClosesIdle new ops ↔ Run.Steps step Meets new ops := by
  refine Run.steps_congr_of_invariant (P := Sound) (fun s op h _ ↦ h.step op)
    (fun s op h _ ↦ ?_) sound_new (Run.steps_true new ops)
  cases op with
  | timer => exact h.closesIdle_iff
  | _ => exact iff_of_true (closesIdle_of_ne_timer (by simp)) trivial

/-- A connection with one event is shut down at its second check. -/
theorem not_closesIdle_of_one_event : ¬∀ ops, Run.Steps step ClosesIdle new ops := by
  intro h
  have hsteps := h [.kraken 7, .count (.event 7), .timer, .timer]
  exact absurd (hsteps.2.2.2.1 (by decide)) (by decide)

/-! ### Before the checks wrap -/

/-- The check is not one of the last before `2³²`. -/
def Early (s : IdleMonitor) : MonitorOp → Prop
  | .timer => s.ticks + 17 < 2 ^ 32
  | _ => True

/-- Each check finds more events than any before it under the same number. -/
def Rises (s : IdleMonitor) : MonitorOp → Prop
  | .timer => s.Rising
  | _ => True

/-- Every check of the current connection found an event, and what arrived before the last one has
been seen. -/
structure Busy (s : IdleMonitor) : Prop where
  tick_le : ∀ x ∈ s.seen, x.tick ≤ s.ticks
  idle_eq : ∀ fd, s.krakenFD = some fd → s.idle = 0
  found : ∀ fd, s.krakenFD = some fd → s.arrived = false →
    s.fdEvents fd = 0 ∨ ∃ x ∈ s.seen, x.fd = fd ∧ x.events = s.fdEvents fd

theorem busy_new : new.Busy :=
  ⟨fun x hx ↦ absurd hx List.not_mem_nil, fun _ hfd ↦ absurd hfd (by simp [new]),
    fun _ hfd ↦ absurd hfd (by simp [new])⟩

/-- A count that has risen since the last check is that of a connection with an event. -/
theorem Busy.arrived (h : s.Busy) {fd : ℕ} (hfd : s.krakenFD = some fd) (hrising : s.Rising) :
    s.arrived = true := by
  by_contra hnot
  obtain ⟨hpos, hall⟩ := hrising fd hfd
  rcases h.found fd hfd (Bool.eq_false_iff.mpr hnot) with hzero | ⟨x, hx, hxfd, heq⟩
  · omega
  · exact absurd (hall x hx hxfd) (by omega)

theorem Busy.update (h : s.Busy) {fd' : ℕ} (hfd' : s.krakenFD ≠ some fd') (n : ℕ) :
    Busy { s with fdEvents := Function.update s.fdEvents fd' n } := by
  refine ⟨h.tick_le, h.idle_eq, fun fd hfd hnot ↦ ?_⟩
  have hne : fd ≠ fd' := fun heq ↦ hfd' (heq ▸ hfd)
  simp only [Function.update_of_ne hne]
  exact h.found fd hfd hnot

theorem Busy.applyCount (h : s.Busy) (op : CountOp) : (s.applyCount op).Busy := by
  cases op with
  | register fd' =>
    rw [IdleMonitor.applyCount]
    split_ifs with hfd'
    · refine ⟨h.tick_le, fun _ _ ↦ rfl, fun fd hfd _ ↦ Or.inl ?_⟩
      obtain rfl : fd' = fd := Option.some.inj (hfd'.symm.trans hfd)
      exact Function.update_self ..
    · exact h.update hfd' 0
  | event fd' =>
    rw [IdleMonitor.applyCount]
    split_ifs with hfd'
    · exact ⟨h.tick_le, h.idle_eq, fun fd _ hnot ↦ absurd hnot (by simp)⟩
    · exact h.update hfd' (s.fdEvents fd' + 1)

theorem Busy.step (h : s.Busy) (op : MonitorOp) (hrises : s.Rises op) : (s.step op).1.Busy := by
  cases op with
  | kraken fd' =>
    refine ⟨?_, ?_, ?_⟩
    · simpa [IdleMonitor.step, IdleMonitor.applyCount] using h.tick_le
    · simp [IdleMonitor.step, IdleMonitor.applyCount]
    · simp [IdleMonitor.step, IdleMonitor.applyCount, CountOp.apply]
  | coinbase fd' => exact ⟨h.tick_le, h.idle_eq, h.found⟩
  | count op => exact h.applyCount op
  | timer =>
    refine ⟨fun x hx ↦ ?_, fun fd hfd ↦ ?_, fun fd hfd _ ↦ Or.inr ?_⟩
    · rcases List.mem_append.mp hx with hx | hx
      · exact (h.tick_le x hx).trans (Nat.le_succ _)
      · obtain ⟨fd, -, rfl⟩ : ∃ fd, s.krakenFD = some fd ∧ _ = x := by
          simpa [sighting] using hx
        exact Nat.le_refl _
    · have hfd' : s.krakenFD = some fd := hfd
      have harrived := h.arrived hfd' hrises
      simp only [IdleMonitor.step, idleNow, if_pos harrived]
    · have hfd' : s.krakenFD = some fd := hfd
      refine ⟨⟨s.ticks + 1, fd, s.fdEvents fd⟩, List.mem_append_right _ ?_, rfl, rfl⟩
      rw [sighting, hfd', Option.map_some, Option.toList_some]
      exact List.mem_singleton_self _

/-- A busy connection is shut down at the first check that finds no more events than one before. -/
theorem Busy.closesIdle_iff (h : s.Busy) (hsound : s.Sound) (hearly : s.Early .timer) :
    s.ClosesIdle .timer ↔ s.Rising := by
  rw [hsound.closesIdle_iff]
  refine ⟨fun hany ↦ ?_, Or.inl⟩
  rcases hany with hrising | hwrapped | hidle
  · exact hrising
  · intro fd hfd
    obtain ⟨ahead, hle, heq⟩ := hwrapped fd hfd
    have hearly' : s.ticks + 17 < 2 ^ 32 := hearly
    have htick := greatest_tick_le h.tick_le fd
    omega
  · intro fd hfd
    have hzero := h.idle_eq fd hfd
    rw [idleNow] at hidle
    split_ifs at hidle <;> omega

/-- **In practice every check must find more events than any before it under the same number**, on
whichever connection that was. -/
theorem run_closesIdle_iff_rises {ops : List MonitorOp} (hearly : Run.Steps step Early new ops) :
    Run.Steps step ClosesIdle new ops ↔ Run.Steps step Rises new ops := by
  refine Run.steps_iff_of_steps (P := fun s ↦ s.Sound ∧ s.Busy)
    (fun s op h _ hrises ↦ ⟨h.1.step op, h.2.step op hrises⟩) (fun s op h hearly ↦ ?_)
    ⟨sound_new, busy_new⟩ hearly
  cases op with
  | timer => exact h.2.closesIdle_iff h.1 hearly
  | _ => exact iff_of_true (closesIdle_of_ne_timer (by simp)) trivial

end IdleMonitor

end Coypu
