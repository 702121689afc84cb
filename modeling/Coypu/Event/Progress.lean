import Coypu.Event.EventManager

/-!
# The events of a batch

What the kernel can return from `epoll_wait`, and what the loop over the events comes to. The loop
closes descriptors and leaves their slots as they are, so a number is open to reuse while its slot
is not. `Progress` follows the loop by the events alone: which descriptors hung up, which of their
numbers were given away again, and which slots will be given up.
-/

set_option autoImplicit false

namespace Coypu

namespace EventManager

variable {m m₀ : EventManager}

/-! ## What can happen -/

/-- The kernel gives no number that is open. -/
def ActionPossible (m : EventManager) : EventAction → Prop
  | .accept fd _ _ _ => m.kernel.isOpen fd = false
  | .setWrite _ => True

def actStep (m : EventManager) (a : EventAction) : EventManager × Unit := (m.act a, ())

/-- The callbacks of an event are given possible numbers. -/
def EventPossible (m : EventManager) (e : Ready) : Prop :=
  ∀ cb, m.fdToCB e.event.fd = some cb →
    ((e.event.readable && cb.rf) = true →
      Run.Steps actStep ActionPossible (m.countEvent e.event.fd) e.read.actions) ∧
    ((e.event.epollout && cb.wf) = true →
      Run.Steps actStep ActionPossible ((m.countEvent e.event.fd).handleRead cb e) e.write.actions)

def handleStep (m : EventManager) (e : Ready) : EventManager × Unit := ((m.handle e).getD m, ())

/-- The kernel can return the batch: it tells of descriptors that are watched, of each once. -/
structure BatchPossible (m : EventManager) (b : Batch) : Prop where
  watched : ∀ e ∈ b.events, m.kernel.watched e.event.fd ≠ none
  nodup : (b.events.map fun e ↦ e.event.fd).Nodup
  numbers : Run.Steps handleStep EventPossible { m with notes := [] } b.events

/-! ## Slots -/

/-- A slot belongs to the descriptor of its number, which is watched unless it hung up, and what is
watched is open and has a slot. -/
structure Slots (hung : Finset ℕ) (m : EventManager) : Prop where
  slot : ∀ fd cb, m.fdToCB fd = some cb → cb.fd = fd ∧ fd ≠ 0 ∧ cb.serial < m.serial ∧
    (fd ∉ hung → m.kernel.watched fd ≠ none)
  watched : ∀ fd, m.kernel.watched fd ≠ none → m.kernel.isOpen fd = true ∧ m.fdToCB fd ≠ none

variable {hung : Finset ℕ} {fd : ℕ} {rf wf cf : Bool}

theorem act_accept_zero : m.act (.accept 0 rf wf cf) = { m with kernel := m.kernel.opened 0 } := rfl

theorem act_accept (hfd : fd ≠ 0) (hwatched : m.kernel.watched fd = none) :
    m.act (.accept fd rf wf cf) = { m with
      fdToCB := Function.update m.fdToCB fd (some ⟨rf, wf, cf, fd, m.serial⟩)
      vector := m.vector.register fd
      fdEvents := Function.update m.fdEvents fd 0
      kernel := (m.kernel.opened fd).watch fd (some false)
      serial := m.serial + 1
      notes := m.notes ++ [.registered ⟨rf, wf, cf, fd, m.serial⟩ (m.fdToCB fd)] } := by
  have hadd : (m.kernel.opened fd).epollAdd fd
    = (0, (m.kernel.opened fd).watch fd (some false)) := by
    apply if_pos
    exact ⟨Function.update_self _ _ _, hwatched⟩
  simp only [act, register, if_neg hfd, hadd, ne_eq, not_true_eq_false, if_false]

theorem watched_modify (k : Kernel) (fd : ℕ) (out : Bool) (fd' : ℕ) :
    ((k.epollModify fd out).2.watched fd' = none ↔ k.watched fd' = none) ∧
      (k.epollModify fd out).2.isOpen = k.isOpen := by
  unfold Kernel.epollModify Kernel.watch
  by_cases hwatched : k.watched fd = none
  · rw [if_pos hwatched]
    exact ⟨Iff.rfl, rfl⟩
  · rw [if_neg hwatched]
    refine ⟨?_, rfl⟩
    simp only [Function.update_apply]
    split_ifs with heq
    · rw [heq]
      simpa using hwatched
    · exact Iff.rfl

namespace Slots

theorem congr {m' : EventManager} (h : Slots hung m) (hslot : m'.fdToCB = m.fdToCB)
    (hserial : m'.serial = m.serial)
    (hwatched : ∀ fd, m'.kernel.watched fd = none ↔ m.kernel.watched fd = none)
    (hopen : ∀ fd, m.kernel.isOpen fd = true → m'.kernel.isOpen fd = true) : Slots hung m' where
  slot fd cb hcb := by
    rw [hslot] at hcb
    obtain ⟨h₁, h₂, h₃, h₄⟩ := h.slot fd cb hcb
    exact ⟨h₁, h₂, by rwa [hserial], fun hfd hnone ↦ h₄ hfd ((hwatched fd).mp hnone)⟩
  watched fd hfd := by
    obtain ⟨h₁, h₂⟩ := h.watched fd fun hnone ↦ hfd ((hwatched fd).mpr hnone)
    exact ⟨hopen fd h₁, by rwa [hslot]⟩

theorem modify (h : Slots hung m) (fd : ℕ) (out : Bool) :
    Slots hung { m with kernel := (m.kernel.epollModify fd out).2 } := by
  refine h.congr rfl rfl ?_ ?_
  · intro fd'
    exact (watched_modify m.kernel fd out fd').1
  · intro fd' hfd
    rw [(watched_modify m.kernel fd out fd').2]
    exact hfd

theorem watched_eq_none (h : Slots hung m) (hopen : m.kernel.isOpen fd = false) :
    m.kernel.watched fd = none := by
  by_contra hwatched
  rw [(h.watched fd hwatched).1] at hopen
  exact Bool.noConfusion hopen

/-- The slot of a descriptor that is not open is empty, unless it hung up. -/
theorem slot_eq_none (h : Slots hung m) (hopen : m.kernel.isOpen fd = false) (hfd : fd ∉ hung) :
    m.fdToCB fd = none := by
  by_contra hslot
  obtain ⟨cb, hcb⟩ := Option.ne_none_iff_exists'.mp hslot
  exact (h.slot fd cb hcb).2.2.2 hfd (h.watched_eq_none hopen)

theorem act (h : Slots hung m) {a : EventAction} (ha : m.ActionPossible a) :
    Slots hung (m.act a) := by
  cases a with
  | setWrite fd => exact h.modify fd true
  | accept fd rf wf cf =>
    by_cases hfd : fd = 0
    · rw [hfd, act_accept_zero]
      refine h.congr rfl rfl (fun _ ↦ Iff.rfl) ?_
      intro fd' hopen
      simp only [Kernel.opened, Function.update_apply]
      split_ifs
      · rfl
      · exact hopen
    · rw [act_accept hfd (h.watched_eq_none ha)]
      constructor
      · intro fd' cb hcb
        simp only [Function.update_apply] at hcb
        simp only [Kernel.watch, Kernel.opened, Function.update_apply]
        split_ifs at hcb ⊢ with heq
        · obtain rfl := Option.some.inj hcb
          exact ⟨heq.symm, by rwa [heq], Nat.lt_succ_self _, fun _ ↦ Option.some_ne_none _⟩
        · obtain ⟨h₁, h₂, h₃, h₄⟩ := h.slot fd' cb hcb
          exact ⟨h₁, h₂, Nat.lt_succ_of_lt h₃, h₄⟩
      · intro fd' hwatched
        simp only [Kernel.watch, Kernel.opened, Function.update_apply] at hwatched ⊢
        split_ifs at hwatched ⊢
        · exact ⟨rfl, Option.some_ne_none _⟩
        · exact h.watched fd' hwatched

end Slots

/-! ## What the loop over the events does -/

/-- The numbers that a callback registers. -/
def accepted (actions : List EventAction) : List ℕ :=
  actions.filterMap fun
    | .accept fd _ _ _ => some fd
    | .setWrite _ => none

/-- The numbers that a read callback registers, if it is called. -/
def readAccepts (cb : EventCB) (e : Ready) : List ℕ :=
  if e.event.readable && cb.rf then accepted e.read.actions else []

def writeAccepts (cb : EventCB) (e : Ready) : List ℕ :=
  if e.event.epollout && cb.wf then accepted e.write.actions else []

/-- The numbers that the callbacks of an event register. -/
def accepts (m₀ : EventManager) (e : Ready) : List ℕ :=
  match m₀.fdToCB e.event.fd with
  | none => []
  | some cb => readAccepts cb e ++ writeAccepts cb e

/-- A callback of the event fails. -/
def fails (m₀ : EventManager) (e : Ready) : Bool :=
  match m₀.fdToCB e.event.fd with
  | none => false
  | some cb => (e.event.readable && cb.rf && decide (e.read.ret < 0)) ||
      (e.event.epollout && cb.wf && decide (e.write.ret < 0))

/-- The descriptor hangs up, or a callback fails. -/
def leaves (m₀ : EventManager) (e : Ready) : Bool := e.event.hungUp || m₀.fails e

/-! ### Where the slots are -/

/-- The vector behind the callbacks of an event. -/
def grown (m₀ : EventManager) (v : SlotVector) (e : Ready) : SlotVector × Unit :=
  ((m₀.accepts e).foldl SlotVector.register v, ())

/-- The slots are not moved by a callback behind which the loop uses the slot of the event. -/
def SlotStays (m₀ : EventManager) (v : SlotVector) (e : Ready) : Prop :=
  ∀ cb, m₀.fdToCB e.event.fd = some cb →
    (usesBehindRead cb e = true →
      ((readAccepts cb e).foldl SlotVector.register v).capacity = v.capacity) ∧
    (usesBehindWrite cb e = true →
      ((readAccepts cb e ++ writeAccepts cb e).foldl SlotVector.register v).capacity = v.capacity)

/-- At an event for reading alone the slot is used behind the callback only if that fails. -/
theorem SlotStays.of_read {v : SlotVector} {e : Ready} (hret : 0 ≤ e.read.ret)
    (hout : e.event.epollout = false) (hup : e.event.hungUp = false) : m₀.SlotStays v e := by
  intro cb _
  have hno : decide (e.read.ret < 0) = false := decide_eq_false (not_lt.mpr hret)
  simp [usesBehindRead, usesBehindWrite, hout, hup, hno]

theorem SlotStays.of_accepted_nil {v : SlotVector} {e : Ready}
    (hread : accepted e.read.actions = []) (hwrite : accepted e.write.actions = []) :
    m₀.SlotStays v e := by
  intro cb _
  simp [readAccepts, writeAccepts, hread, hwrite]

/-- No slot is moved in the batch while the loop uses it. -/
def SlotsStay (m₀ : EventManager) (b : Batch) : Prop :=
  Run.Steps m₀.grown m₀.SlotStays m₀.vector b.events

theorem vector_act (a : EventAction) :
    (m.act a).vector = (accepted [a]).foldl SlotVector.register m.vector := by
  cases a with
  | setWrite fd => rfl
  | accept fd rf wf cf =>
    show (m.act (.accept fd rf wf cf)).vector = m.vector.register fd
    by_cases hfd : fd = 0
    · rw [hfd]
      rfl
    · simp only [act, register, if_neg hfd]
      split_ifs
      · rfl
      · rfl

/-- The induction is on what the callback does. -/
theorem vector_foldl_act (actions : List EventAction) :
    (actions.foldl act m).vector = (accepted actions).foldl SlotVector.register m.vector := by
  induction actions generalizing m with
  | nil => rfl
  | cons a actions ih =>
    have hcons : accepted (a :: actions) = accepted [a] ++ accepted actions :=
      List.filterMap_append (l := [a])
    rw [List.foldl_cons, ih, vector_act, hcons, List.foldl_append]

theorem vector_handleRead (cb : EventCB) (e : Ready) :
    (m.handleRead cb e).vector = (readAccepts cb e).foldl SlotVector.register m.vector := by
  unfold handleRead readAccepts
  split_ifs
  · exact vector_foldl_act _
  · exact vector_foldl_act _
  · rfl

theorem vector_handleWrite (cb : EventCB) (e : Ready) :
    (m.handleWrite cb e).vector = (writeAccepts cb e).foldl SlotVector.register m.vector := by
  unfold handleWrite writeAccepts
  split_ifs
  · exact vector_foldl_act _
  · exact vector_foldl_act _
  · exact vector_foldl_act _
  · rfl

theorem vector_handleHangUp (cb : EventCB) (e : Ready) :
    (m.handleHangUp cb e).vector = m.vector := by
  unfold handleHangUp
  split_ifs
  · rfl
  · rfl

/-- A round of the loop ends exactly if the slot stays where it is. -/
theorem handle_ne_none_iff {e : Ready} {cb : EventCB} (hcb : m.fdToCB e.event.fd = some cb)
    (hcb₀ : m₀.fdToCB e.event.fd = some cb) : m.handle e ≠ none ↔ m₀.SlotStays m.vector e := by
  have hread : ((m.countEvent e.event.fd).handleRead cb e).vector
      = (readAccepts cb e).foldl SlotVector.register m.vector := vector_handleRead cb e
  unfold handle SlotStays
  rw [hcb, hcb₀]
  simp only [Option.bind_some, vector_handleWrite, hread, List.foldl_append, Option.some.injEq,
    forall_eq', ne_eq, ite_eq_right_iff, reduceCtorEq, imp_false, not_not]

/-- A client is accepted under the first number that there is no slot for, by a descriptor that
hangs up at the same event. -/
example : (((new (fun _ ↦ false) fun size _ ↦ 2 * size).act (.accept 3 true false false)).handle
    ⟨⟨3, true, false, false, false, false, true⟩, ⟨[.accept 8 true true true], 0⟩,
      ⟨[], 0⟩⟩).isNone = true := by decide +kernel

theorem vector_of_handle {e : Ready} {cb : EventCB} (hcb : m.fdToCB e.event.fd = some cb)
    (hcb₀ : m₀.fdToCB e.event.fd = some cb) {m' : EventManager} (h : m.handle e = some m') :
    m'.vector = (m₀.grown m.vector e).1 := by
  obtain ⟨cb', hcb', rfl⟩ := eq_of_handle h
  obtain rfl : cb = cb' := Option.some.inj (hcb.symm.trans hcb')
  rw [vector_handleHangUp, vector_handleWrite, vector_handleRead, grown, accepts, hcb₀,
    List.foldl_append]
  rfl

/-! ### The slots that are given up -/

/-- How far the loop is: the descriptors that hung up, those of their numbers that were given to a
new connection, and the slots to give up. -/
@[ext]
structure Progress where
  hung : Finset ℕ
  reused : Finset ℕ
  closing : Finset ℕ

namespace Progress

variable (p : Progress)

def start : Progress := ⟨∅, ∅, ∅⟩

def accept (fd : ℕ) : Progress :=
  { p with reused := if fd ∈ p.hung then insert fd p.reused else p.reused }

def event (m₀ : EventManager) (e : Ready) : Progress :=
  let p' := (m₀.accepts e).foldl accept p
  { p' with
    hung := if e.event.hungUp then insert e.event.fd p'.hung else p'.hung
    closing := if m₀.leaves e then insert e.event.fd p'.closing else p'.closing }

variable {p} {es : List Ready}

@[simp] theorem foldl_accept_hung (fds : List ℕ) : (fds.foldl accept p).hung = p.hung := by
  induction fds generalizing p with
  | nil => rfl
  | cons fd fds ih => exact ih

@[simp] theorem foldl_accept_closing (fds : List ℕ) : (fds.foldl accept p).closing = p.closing := by
  induction fds generalizing p with
  | nil => rfl
  | cons fd fds ih => exact ih

theorem mem_accept_reused {fd fd' : ℕ} :
    fd ∈ (p.accept fd').reused ↔ fd ∈ p.reused ∨ fd = fd' ∧ fd ∈ p.hung := by
  unfold accept
  split_ifs with hhung
  · rw [Finset.mem_insert, or_comm]
    refine or_congr_right ⟨?_, fun h ↦ h.1⟩
    rintro rfl
    exact ⟨rfl, hhung⟩
  · refine (or_iff_left ?_).symm
    rintro ⟨rfl, h⟩
    exact hhung h

theorem mem_foldl_accept_reused {fds : List ℕ} {fd : ℕ} :
    fd ∈ (fds.foldl accept p).reused ↔ fd ∈ p.reused ∨ fd ∈ fds ∧ fd ∈ p.hung := by
  induction fds generalizing p with
  | nil => simp
  | cons fd' fds ih =>
    have hhung : (p.accept fd').hung = p.hung := rfl
    rw [List.foldl_cons, ih, mem_accept_reused, hhung, List.mem_cons, or_and_right, or_assoc]

theorem mem_hung :
    ∀ {p : Progress} {fd : ℕ}, fd ∈ (es.foldl (event · m₀) p).hung ↔
      fd ∈ p.hung ∨ ∃ e ∈ es, e.event.hungUp = true ∧ e.event.fd = fd := by
  induction es with
  | nil => simp
  | cons e es ih =>
    intro p fd
    rw [List.foldl_cons, ih]
    simp only [event, foldl_accept_hung, List.mem_cons, exists_eq_or_imp]
    by_cases hup : e.event.hungUp = true
    · rw [if_pos hup, Finset.mem_insert]
      simp only [hup, true_and]
      rw [or_assoc, or_left_comm, eq_comm]
    · rw [if_neg hup]
      simp [hup]

theorem mem_closing :
    ∀ {p : Progress} {fd : ℕ}, fd ∈ (es.foldl (event · m₀) p).closing ↔
      fd ∈ p.closing ∨ ∃ e ∈ es, m₀.leaves e = true ∧ e.event.fd = fd := by
  induction es with
  | nil => simp
  | cons e es ih =>
    intro p fd
    rw [List.foldl_cons, ih]
    simp only [event, foldl_accept_closing, List.mem_cons, exists_eq_or_imp]
    by_cases hup : m₀.leaves e = true
    · rw [if_pos hup, Finset.mem_insert]
      simp only [hup, true_and]
      rw [or_assoc, or_left_comm, eq_comm]
    · rw [if_neg hup]
      simp [hup]

/-- What holds of the numbers given away again, by the events. The induction is on the events. -/
theorem forall_reused (Q : ℕ → Prop) : ∀ {p : Progress},
    (∀ fd ∈ (es.foldl (event · m₀) p).reused, Q fd) ↔
      (∀ fd ∈ p.reused, Q fd) ∧ (∀ f ∈ es, ∀ fd ∈ m₀.accepts f, fd ∈ p.hung → Q fd) ∧
      es.Pairwise fun e f ↦ e.event.hungUp = true → e.event.fd ∈ m₀.accepts f → Q e.event.fd := by
  induction es with
  | nil => simp
  | cons e es ih =>
    intro p
    rw [List.foldl_cons, ih, List.pairwise_cons]
    simp only [event, mem_foldl_accept_reused, foldl_accept_hung, List.forall_mem_cons]
    constructor
    · rintro ⟨hreused, hhung, hpair⟩
      refine ⟨fun fd hfd ↦ hreused fd (Or.inl hfd),
        ⟨fun fd hfd hp ↦ hreused fd (Or.inr ⟨hfd, hp⟩), ?_⟩, ?_, hpair⟩
      · intro f hf fd hfd hp
        apply hhung f hf fd hfd
        split_ifs
        · exact Finset.mem_insert_of_mem hp
        · exact hp
      · intro f hf hup hfd
        apply hhung f hf _ hfd
        rw [if_pos hup]
        exact Finset.mem_insert_self _ _
    · rintro ⟨hreused, ⟨hfirst, hhung⟩, hpair, hrest⟩
      refine ⟨?_, ?_, hrest⟩
      · rintro fd (hfd | ⟨hfd, hp⟩)
        · exact hreused fd hfd
        · exact hfirst fd hfd hp
      · intro f hf fd hfd hp
        by_cases hup : e.event.hungUp = true
        · rw [if_pos hup, Finset.mem_insert] at hp
          rcases hp with rfl | hp
          · exact hpair f hf hup hfd
          · exact hhung f hf fd hfd hp
        · rw [if_neg hup] at hp
          exact hhung f hf fd hfd hp

/-- A callback is called, or it is not. -/
def callback (p : Progress) (fd : ℕ) (called : Bool) (r : Reaction) : Progress :=
  if called then
    let p' := (accepted r.actions).foldl accept p
    if r.ret < 0 then { p' with closing := insert fd p'.closing } else p'
  else p

def hangUp (p : Progress) (e : Ready) : Progress :=
  if e.event.hungUp then
    { p with hung := insert e.event.fd p.hung, closing := insert e.event.fd p.closing }
  else p

@[simp] theorem callback_hung {fd : ℕ} {called : Bool} {r : Reaction} :
    (p.callback fd called r).hung = p.hung := by
  unfold callback
  split_ifs <;> simp

theorem mem_callback_reused {fd fd' : ℕ} {called : Bool} {r : Reaction} :
    fd' ∈ (p.callback fd called r).reused ↔
      fd' ∈ p.reused ∨ (called = true ∧ fd' ∈ accepted r.actions) ∧ fd' ∈ p.hung := by
  unfold callback
  by_cases hcalled : called = true
  · rw [if_pos hcalled]
    simp only [hcalled, true_and]
    split_ifs <;> exact mem_foldl_accept_reused
  · rw [if_neg hcalled]
    simp [hcalled]

theorem mem_callback_closing {fd fd' : ℕ} {called : Bool} {r : Reaction} :
    fd' ∈ (p.callback fd called r).closing ↔
      fd' ∈ p.closing ∨ (called = true ∧ r.ret < 0) ∧ fd' = fd := by
  unfold callback
  by_cases hcalled : called = true
  · rw [if_pos hcalled]
    simp only [hcalled, true_and]
    split_ifs with hret
    · simp [hret, or_comm]
    · simp [hret]
  · rw [if_neg hcalled]
    simp [hcalled]

/-- The parts of an event, one after the other. -/
theorem event_eq {e : Ready} {cb : EventCB} (hcb : m₀.fdToCB e.event.fd = some cb) :
    p.event m₀ e = ((p.callback e.event.fd (e.event.readable && cb.rf) e.read).callback e.event.fd
      (e.event.epollout && cb.wf) e.write).hangUp e := by
  have haccepts (fd : ℕ) : fd ∈ m₀.accepts e ↔
      ((e.event.readable && cb.rf) = true ∧ fd ∈ accepted e.read.actions) ∨
        ((e.event.epollout && cb.wf) = true ∧ fd ∈ accepted e.write.actions) := by
    rw [accepts, hcb]
    simp only [readAccepts, writeAccepts, List.mem_append]
    split_ifs with h₁ h₂ h₂ <;> simp [h₁, h₂]
  have hfails : m₀.fails e = true ↔ ((e.event.readable && cb.rf) = true ∧ e.read.ret < 0) ∨
      ((e.event.epollout && cb.wf) = true ∧ e.write.ret < 0) := by
    rw [fails, hcb]
    simp only [Bool.or_eq_true, Bool.and_eq_true, decide_eq_true_iff]
  unfold hangUp event leaves
  -- a descriptor that hangs up leaves whether or not a callback fails
  by_cases hup : e.event.hungUp = true
  · simp only [hup, if_true, Bool.true_or, foldl_accept_hung, foldl_accept_closing, callback_hung]
    refine Progress.ext rfl (Finset.ext fun fd ↦ ?_) (Finset.ext fun fd ↦ ?_)
    · simp only [mem_foldl_accept_reused, haccepts, mem_callback_reused, callback_hung]
      rw [or_and_right, or_assoc]
    · simp only [Finset.mem_insert, mem_callback_closing]
      constructor
      · rintro (h | h)
        · exact Or.inl h
        · exact Or.inr (Or.inl (Or.inl h))
      · rintro (h | ((h | h) | h))
        · exact Or.inl h
        · exact Or.inr h
        · exact Or.inl h.2
        · exact Or.inl h.2
  · simp only [hup, Bool.false_eq_true, if_false, Bool.false_or, hfails, foldl_accept_hung,
      foldl_accept_closing]
    refine Progress.ext (by simp) (Finset.ext fun fd ↦ ?_) (Finset.ext fun fd ↦ ?_)
    · simp only [mem_foldl_accept_reused, haccepts, mem_callback_reused, callback_hung]
      rw [or_and_right, or_assoc]
    · simp only [mem_callback_closing]
      split_ifs with hfail
      · rw [Finset.mem_insert]
        constructor
        · rintro (h | h)
          · exact hfail.elim (fun hr ↦ Or.inl (Or.inr ⟨hr, h⟩)) fun hw ↦ Or.inr ⟨hw, h⟩
          · exact Or.inl (Or.inl h)
        · rintro ((h | h) | h)
          · exact Or.inr h
          · exact Or.inl h.2
          · exact Or.inl h.2
      · rw [not_or] at hfail
        simp only [hfail.1, hfail.2, false_and, or_false]

end Progress

end EventManager

end Coypu
