import Coypu.Event.Batches

/-!
# Connections that close

What a call of `Wait` does to the descriptors of its batch, in every run of the loop. Three things
go wrong. A number is open to reuse as soon as its descriptor hung up, but the slot is given up
later: a connection accepted in between loses its slot, and the close callback of the first one is
never called (`run_neverConfused_iff`). A descriptor whose callback failed is closed only if it
hangs up, too (`run_closesOnce_iff`). And a callback can have the slots moved while `Wait` has a
reference into them.
-/

set_option autoImplicit false

namespace Coypu

/-- What happens to the manager: a callback outside of a batch acts, or `Wait` is called. -/
inductive EventOp where
  | act (a : EventAction)
  | wait (b : Batch)

namespace EventManager

variable {m m₁ m' : EventManager} {b : Batch}

def step (m : EventManager) : EventOp → EventManager × Unit
  | .act a => (m.act a, ())
  | .wait b => ((m.wait b).getD m, ())

def Possible (m : EventManager) : EventOp → Prop
  | .act a => m.ActionPossible a
  | .wait b => m.BatchPossible b

/-- Registrations find their slots empty, and what ends is a registration from before the batch, of
a descriptor that hung up or whose callback failed. -/
def NeverConfused (m : EventManager) : EventOp → Prop
  | .act _ => True
  | .wait b => ∃ m', m.wait b = some m' ∧ m'.Clean ∧
      ∀ cb, .closeCB cb ∈ m'.notes ∨ .unregistered cb ∈ m'.notes →
        cb.serial < m.serial ∧ ∃ e ∈ b.events, m.fdToCB e.event.fd = some cb ∧ m.leaves e = true

/-- No callback registers a connection under the number of a descriptor that hung up at an earlier
event. -/
def NumbersFresh (m : EventManager) : EventOp → Prop
  | .act _ => True
  | .wait b => b.events.Pairwise fun e f ↦ e.event.hungUp = true → e.event.fd ∉ m.accepts f

/-- No callback registers a number that the slots are moved for while `Wait` uses the slot of the
event. -/
def ReferencesHold (m : EventManager) : EventOp → Prop
  | .act _ => True
  | .wait b => m.SlotsStay b

/-- The registration `cb` ended, with one call of its close callback, if it has one, and one
`close`. -/
structure LeftOnce (cb : EventCB) (fd : ℕ) (m' : EventManager) : Prop where
  slot_eq : m'.fdToCB fd = none
  unwatched : m'.kernel.watched fd = none
  count_closeCB : m'.notes.count (.closeCB cb) = if cb.cf then 1 else 0
  count_closed : m'.notes.count (.closed fd) = 1

/-- The registration `cb` goes on. -/
structure Stays (cb : EventCB) (fd : ℕ) (m' : EventManager) : Prop where
  slot_eq : m'.fdToCB fd = some cb
  watched : m'.kernel.watched fd ≠ none
  isOpen_eq : m'.kernel.isOpen fd = true
  count_closeCB : m'.notes.count (.closeCB cb) = 0
  count_closed : m'.notes.count (.closed fd) = 0

/-- Of the descriptors of a batch, those leave that hung up or whose callback failed, and no
others. -/
def ClosesOnce (m : EventManager) : EventOp → Prop
  | .act _ => True
  | .wait b => ∃ m', m.wait b = some m' ∧ ∀ e ∈ b.events, ∀ cb, m.fdToCB e.event.fd = some cb →
      (m.leaves e = true → LeftOnce cb e.event.fd m') ∧
        (m.leaves e = false → Stays cb e.event.fd m')

/-- Descriptors whose callback fails hang up, and no callback registers a connection under the
number of one that hung up before and has a close callback. -/
def FailuresHangUp (m : EventManager) : EventOp → Prop
  | .act _ => True
  | .wait b => (∀ e ∈ b.events, m.fails e = true → e.event.hungUp = true) ∧
      b.events.Pairwise fun e f ↦ e.event.hungUp = true → e.event.fd ∈ m.accepts f →
        ∀ cb, m.fdToCB e.event.fd = some cb → cb.cf = false

/-! ## What the close phase tells -/

theorem mem_closeNotes {n : EventNote} {fd : ℕ} (h : n ∈ m.closeNotes fd) :
    ∃ cb, m.fdToCB fd = some cb ∧ (n = .closeCB cb ∨ n = .unregistered cb) := by
  unfold closeNotes at h
  cases hcb : m.fdToCB fd with
  | none =>
    rw [hcb] at h
    exact absurd h List.not_mem_nil
  | some cb =>
    rw [hcb] at h
    refine ⟨cb, rfl, ?_⟩
    rcases List.mem_append.mp h with h | h
    · split_ifs at h
      · exact Or.inl (List.mem_singleton.mp h)
      · exact absurd h List.not_mem_nil
    · exact Or.inr (List.mem_singleton.mp h)

theorem mem_flatMap_closeNotes {n : EventNote} {fds : List ℕ} (h : n ∈ fds.flatMap m.closeNotes) :
    ∃ fd ∈ fds, ∃ cb, m.fdToCB fd = some cb ∧ (n = .closeCB cb ∨ n = .unregistered cb) := by
  obtain ⟨fd, hfd, hn⟩ := List.mem_flatMap.mp h
  exact ⟨fd, hfd, mem_closeNotes hn⟩

theorem count_closeNotes (cb : EventCB) (fd : ℕ) :
    (m.closeNotes fd).count (.closeCB cb) =
      if m.fdToCB fd = some cb ∧ cb.cf = true then 1 else 0 := by
  unfold closeNotes
  cases hcb : m.fdToCB fd with
  | none => simp
  | some cb' =>
    have hother : [EventNote.unregistered cb'].count (.closeCB cb) = 0 := by
      apply List.count_eq_zero_of_not_mem
      rw [List.mem_singleton]
      exact EventNote.noConfusion
    simp only
    rw [List.count_append, hother, Nat.add_zero]
    by_cases heq : cb' = cb
    · rw [heq]
      by_cases hcf : cb.cf = true
      · rw [if_pos hcf, if_pos ⟨rfl, hcf⟩, List.count_singleton_self]
      · rw [if_neg hcf, if_neg fun h ↦ hcf h.2, List.count_nil]
    · have hnone : ¬(some cb' = some cb ∧ cb.cf = true) := fun h ↦ heq (Option.some.inj h.1)
      rw [if_neg hnone]
      apply List.count_eq_zero_of_not_mem
      split_ifs
      · rw [List.mem_singleton, EventNote.closeCB.injEq]
        exact Ne.symm heq
      · exact List.not_mem_nil

/-- The close callback of a registration is called once if its slot is given up with it in it. The
induction is on the descriptors. -/
theorem count_flatMap_closeNotes {fds : List ℕ} (hnodup : fds.Nodup)
    (hself : ∀ fd cb, m.fdToCB fd = some cb → cb.fd = fd) (cb : EventCB) :
    (fds.flatMap m.closeNotes).count (.closeCB cb)
      = if cb.fd ∈ fds ∧ m.fdToCB cb.fd = some cb ∧ cb.cf = true then 1 else 0 := by
  induction fds with
  | nil => simp
  | cons fd fds ih =>
    rw [List.nodup_cons] at hnodup
    rw [List.flatMap_cons, List.count_append, count_closeNotes, ih hnodup.2]
    by_cases heq : fd = cb.fd
    · have hnone : ¬(cb.fd ∈ fds ∧ m.fdToCB cb.fd = some cb ∧ cb.cf = true) := by
        rintro ⟨hmem, -⟩
        rw [← heq] at hmem
        exact hnodup.1 hmem
      rw [if_neg hnone, heq]
      simp
    · have hnone : ¬(m.fdToCB fd = some cb ∧ cb.cf = true) := by
        rintro ⟨hcb, -⟩
        exact heq (hself fd cb hcb).symm
      rw [if_neg hnone, Nat.zero_add]
      simp [Ne.symm heq]

/-! ## The end of a batch -/

/-- A descriptor of the batch hangs up, or leaves, at its own event. -/
theorem eq_of_fd_eq (hb : m.BatchPossible b) {e f : Ready} (he : e ∈ b.events) (hf : f ∈ b.events)
    (hfd : f.event.fd = e.event.fd) : f = e :=
  List.inj_on_of_nodup_map hb.nodup hf he hfd

theorem exists_fd_iff (hb : m.BatchPossible b) {e : Ready} (he : e ∈ b.events) {p : Ready → Prop} :
    (∃ f ∈ b.events, p f ∧ f.event.fd = e.event.fd) ↔ p e := by
  constructor
  · rintro ⟨f, hf, hp, hfd⟩
    rwa [← eq_of_fd_eq hb he hf hfd]
  · exact fun hp ↦ ⟨e, he, hp, rfl⟩

theorem mem_hung_iff (hb : m.BatchPossible b) {e : Ready} (he : e ∈ b.events) :
    e.event.fd ∈ (m.progress b).hung ↔ e.event.hungUp = true := by
  rw [progress, Progress.mem_hung]
  exact (or_iff_right (Finset.notMem_empty _)).trans (exists_fd_iff hb he)

theorem mem_closing_iff (hb : m.BatchPossible b) {e : Ready} (he : e ∈ b.events) :
    e.event.fd ∈ (m.progress b).closing ↔ m.leaves e = true := by
  rw [progress, Progress.mem_closing]
  exact (or_iff_right (Finset.notMem_empty _)).trans (exists_fd_iff hb he)

theorem exists_of_mem_closing {fd : ℕ} (hfd : fd ∈ (m.progress b).closing) :
    ∃ e ∈ b.events, m.leaves e = true ∧ e.event.fd = fd := by
  rw [progress, Progress.mem_closing] at hfd
  exact hfd.resolve_left (Finset.notMem_empty _)

theorem forall_progress_reused (Q : ℕ → Prop) : (∀ fd ∈ (m.progress b).reused, Q fd) ↔
    b.events.Pairwise fun e f ↦ e.event.hungUp = true → e.event.fd ∈ m.accepts f →
      Q e.event.fd := by
  rw [progress, Progress.forall_reused]
  constructor
  · exact fun h ↦ h.2.2
  · intro h
    exact ⟨fun fd hfd ↦ absurd hfd (Finset.notMem_empty fd),
      fun f _ fd _ hfd ↦ absurd hfd (Finset.notMem_empty fd), h⟩

theorem reused_eq_empty_iff : (m.progress b).reused = ∅ ↔ m.NumbersFresh (.wait b) := by
  rw [Finset.eq_empty_iff_forall_notMem]
  exact forall_progress_reused fun _ ↦ False

/-- A number that was given to a new connection is that of a new registration. -/
theorem slot_of_reused (hinv : m.Inv) (h : Loop m (m.progress b) m₁) {fd : ℕ} {cb : EventCB}
    (hcb : m.fdToCB fd = some cb) (hfd : fd ∈ (m.progress b).reused) : m₁.fdToCB fd ≠ some cb := by
  obtain ⟨cb', hcb', hserial⟩ := h.replaced fd hfd
  have hold := (hinv.slots.slot fd cb hcb).2.2.1
  rw [hcb']
  rintro heq
  rw [Option.some.inj heq] at hserial
  omega

/-! ## Connections and numbers -/

theorem neverConfused_iff (hinv : m.Inv) (hb : m.BatchPossible b) :
    m.NeverConfused (.wait b) ↔ m.NumbersFresh (.wait b) ∧ m.ReferencesHold (.wait b) := by
  have hends : m.NeverConfused (.wait b) → m.ReferencesHold (.wait b) :=
    fun ⟨_, hm', _⟩ ↦ hinv.slotsStay_of_wait hb hm'
  rw [← and_iff_left_of_imp hends]
  refine and_congr_left fun hstay ↦ ?_
  obtain ⟨m₁, m', hloop, hwait, -, hphase⟩ := hinv.wait hb hstay
  have hclean : m'.Clean ↔ m₁.Clean := by
    rw [clean_of_notes_append hphase.notes_eq]
    apply and_iff_left
    intro cb found hmem
    obtain ⟨fd, -, cb', -, h | h⟩ := mem_flatMap_closeNotes hmem
    · exact EventNote.noConfusion h
    · exact EventNote.noConfusion h
  rw [← reused_eq_empty_iff, ← hloop.clean_iff, ← hclean]
  constructor
  · rintro ⟨m'', hm'', hc, -⟩
    rw [hwait] at hm''
    rwa [Option.some.inj hm'']
  · intro hc
    refine ⟨m', hwait, hc, fun cb hmem ↦ ?_⟩
    rw [hclean, hloop.clean_iff] at hc
    -- the note is from the close phase, and the slot is what it was before the batch
    have hnote : ∃ fd ∈ (m.progress b).closing, m₁.fdToCB fd = some cb := by
      rw [hphase.notes_eq, List.mem_append, List.mem_append] at hmem
      rcases hmem with (hmem | hmem) | (hmem | hmem)
      · exact absurd hmem (hloop.quiet cb).1
      · obtain ⟨fd, hfd, cb', hcb', h | h⟩ := mem_flatMap_closeNotes hmem
        · rw [EventNote.closeCB.inj h]
          exact ⟨fd, (Finset.mem_sort _).mp hfd, hcb'⟩
        · exact EventNote.noConfusion h
      · exact absurd hmem (hloop.quiet cb).2
      · obtain ⟨fd, hfd, cb', hcb', h | h⟩ := mem_flatMap_closeNotes hmem
        · exact EventNote.noConfusion h
        · rw [EventNote.unregistered.inj h]
          exact ⟨fd, (Finset.mem_sort _).mp hfd, hcb'⟩
    obtain ⟨fd, hfd, hslot⟩ := hnote
    obtain ⟨e, he, hleaves, rfl⟩ := exists_of_mem_closing hfd
    obtain ⟨cb₀, hcb₀⟩ := Option.ne_none_iff_exists'.mp (hloop.held _ hfd)
    have hkept := hloop.kept _ cb₀ hcb₀ (by rw [hc]; exact Finset.notMem_empty _)
    obtain rfl : cb₀ = cb := Option.some.inj (hkept.symm.trans hslot)
    exact ⟨(hinv.slots.slot _ cb₀ hcb₀).2.2.1, e, he, hcb₀, hleaves⟩

theorem Inv.step (h : m.Inv) {op : EventOp} (hop : m.Possible op) : (m.step op).1.Inv := by
  cases op with
  | act a => exact h.act hop
  | wait b =>
    show ((m.wait b).getD m).Inv
    cases hwait : m.wait b with
    | none => exact h
    | some m' =>
      obtain ⟨-, m'', -, hwait', hinv, -⟩ := h.wait hop (h.slotsStay_of_wait hop hwait)
      rwa [Option.getD_some, ← Option.some.inj (hwait'.symm.trans hwait)]

/-- **No connection is confused with one that is closing** in a run exactly if no number is given
away in the batch in which its descriptor hung up, and no slot is moved while it is used. -/
theorem run_neverConfused_iff (isOpen : ℕ → Bool) (reserve : ℕ → ℕ → ℕ) (ops : List EventOp)
    (hok : Run.Steps step Possible (new isOpen reserve) ops) :
    Run.Steps step NeverConfused (new isOpen reserve) ops ↔
      Run.Steps step (fun m op ↦ m.NumbersFresh op ∧ m.ReferencesHold op)
        (new isOpen reserve) ops := by
  refine Run.steps_congr_of_invariant (P := Inv) (fun m op hinv hop ↦ hinv.step hop)
    (fun m op hinv hop ↦ ?_) (inv_new isOpen reserve) hok
  cases op with
  | act a => exact (and_self_iff (a := True)).symm
  | wait b => exact neverConfused_iff hinv hop

/-- The standard descriptors are open. -/
def standard (fd : ℕ) : Bool := decide (fd < 3)

/-- A vector that has to grow doubles its capacity. -/
def doubled (size _ : ℕ) : ℕ := 2 * size

/-- A client hangs up, and the descriptor that connections are accepted on is ready. The next one
gets the number `fd`. -/
def hangUpThenAccept (fd : ℕ) : List EventOp :=
  [.act (.accept 3 true false false), .act (.accept 4 true true true),
    .wait ⟨[⟨⟨4, true, false, false, false, false, true⟩, ⟨[], 0⟩, ⟨[], 0⟩⟩,
      ⟨⟨3, true, false, false, false, false, false⟩, ⟨[.accept fd true true true], 0⟩, ⟨[], 0⟩⟩],
      fun _ ↦ []⟩]

theorem hangUpThenAccept_possible {fd : ℕ} (hfd : fd = 4 ∨ fd = 5) :
    Run.Steps step Possible (new standard doubled) (hangUpThenAccept fd) := by
  refine ⟨rfl, rfl, ⟨?_, ?_, ?_⟩, trivial⟩
  · intro e he
    rcases List.mem_pair.mp he with rfl | rfl
    · exact Option.some_ne_none false
    · exact Option.some_ne_none false
  · show ([4, 3] : List ℕ).Nodup
    decide
  · refine ⟨fun cb _ ↦ ⟨fun _ ↦ trivial, fun _ ↦ trivial⟩,
      fun cb _ ↦ ⟨fun _ ↦ ⟨?_, trivial⟩, fun _ ↦ trivial⟩, trivial⟩
    rcases hfd with rfl | rfl
    · rfl
    · rfl

/-- The connection that is accepted gets another number. -/
theorem run_neverConfused_five :
    Run.Steps step NeverConfused (new standard doubled) (hangUpThenAccept 5) := by
  refine (run_neverConfused_iff standard doubled _ (hangUpThenAccept_possible (Or.inr rfl))).mpr
    ⟨⟨trivial, trivial⟩, ⟨trivial, trivial⟩, ⟨?_, ?_, ?_, trivial⟩, trivial⟩
  · unfold NumbersFresh
    decide +kernel
  · exact .of_accepted_nil rfl rfl
  · exact .of_read (le_refl 0) rfl rfl

/-- It gets the number of the one that hung up. -/
theorem not_neverConfused_of_four :
    ¬∀ ops, Run.Steps step Possible (new standard doubled) ops →
      Run.Steps step NeverConfused (new standard doubled) ops := by
  intro h
  have hpossible := hangUpThenAccept_possible (Or.inl rfl)
  obtain ⟨-, -, hconfused, -⟩ := h _ hpossible
  have hinv := ((inv_new standard doubled).step hpossible.1).step hpossible.2.1
  have hfresh := ((neverConfused_iff hinv hpossible.2.2.1).mp hconfused).1
  unfold NumbersFresh at hfresh
  exact absurd hfresh (by decide +kernel)

/-! ## Closing once -/

section EndOfBatch

variable (hloop : Loop m (m.progress b) m₁)
    (hphase : m₁.ClosePhase ((m.progress b).closing.sort (· ≤ ·)) m')

include hloop hphase

theorem count_closed_wait (fd : ℕ) :
    m'.notes.count (.closed fd) = if fd ∈ (m.progress b).hung then 1 else 0 := by
  have hnone : (((m.progress b).closing.sort (· ≤ ·)).flatMap m₁.closeNotes).count (.closed fd)
    = 0 := by
    apply List.count_eq_zero_of_not_mem
    intro hmem
    obtain ⟨-, -, cb', -, h | h⟩ := mem_flatMap_closeNotes hmem
    · exact EventNote.noConfusion h
    · exact EventNote.noConfusion h
  rw [hphase.notes_eq, List.count_append, hnone, hloop.count_closed, Nat.add_zero]

/-- The close callback is called by the close phase, which no longer finds it once its number was
given away. -/
theorem count_closeCB_wait (hinv : m.Inv) {fd : ℕ} {cb : EventCB} (hcb : m.fdToCB fd = some cb) :
    m'.notes.count (.closeCB cb) =
      if fd ∈ (m.progress b).closing ∧ fd ∉ (m.progress b).reused ∧ cb.cf = true then 1 else 0 := by
  have hself := (hinv.slots.slot _ cb hcb).1
  have hslot : m₁.fdToCB fd = some cb ↔ fd ∉ (m.progress b).reused :=
    ⟨fun h hreused ↦ slot_of_reused hinv hloop hcb hreused h, hloop.kept _ cb hcb⟩
  rw [hphase.notes_eq, List.count_append, List.count_eq_zero_of_not_mem (hloop.quiet cb).1,
    Nat.zero_add,
    count_flatMap_closeNotes (Finset.sort_nodup _ _) (fun fd cb h ↦ (hloop.slots.slot fd cb h).1),
      hself]
  simp only [Finset.mem_sort, hslot]

theorem leftOnce_iff (hinv : m.Inv) {fd : ℕ} {cb : EventCB} (hcb : m.fdToCB fd = some cb)
    (hclosing : fd ∈ (m.progress b).closing) :
    LeftOnce cb fd m' ↔ fd ∈ (m.progress b).hung ∧
      (fd ∈ (m.progress b).reused → cb.cf = false) := by
  have hclosed := count_closed_wait hloop hphase fd
  have hfired := count_closeCB_wait hloop hphase hinv hcb
  constructor
  · intro hleft
    rw [hleft.count_closed] at hclosed
    refine ⟨?_, fun hreused ↦ ?_⟩
    · by_contra hno
      rw [if_neg hno] at hclosed
      exact absurd hclosed (by decide)
    · rw [if_neg fun h ↦ h.2.1 hreused, hleft.count_closeCB] at hfired
      by_contra hcf
      rw [if_pos (Bool.eq_true_of_not_eq_false hcf)] at hfired
      exact absurd hfired (by decide)
  · rintro ⟨hhung, hcf⟩
    refine ⟨?_, ?_, ?_, ?_⟩
    · rw [hphase.slot_eq, if_pos ((Finset.mem_sort _).mpr hclosing)]
    · exact (hphase.unwatched.2 _).mpr (Or.inl ((Finset.mem_sort _).mpr hclosing))
    · rw [hfired]
      by_cases hcall : cb.cf = true
      · have hnew : fd ∉ (m.progress b).reused := by
          intro hreused
          rw [hcf hreused] at hcall
          exact Bool.noConfusion hcall
        rw [if_pos ⟨hclosing, hnew, hcall⟩, if_pos hcall]
      · rw [if_neg fun h ↦ hcall h.2.2, if_neg hcall]
    · rw [hclosed, if_pos hhung]

theorem stays_of_not_closing (hinv : m.Inv) {fd : ℕ} {cb : EventCB} (hcb : m.fdToCB fd = some cb)
    (hclosing : fd ∉ (m.progress b).closing) : Stays cb fd m' := by
  have hhung : fd ∉ (m.progress b).hung := fun h ↦ hclosing (hloop.hung_subset h)
  have hslot := hloop.kept _ cb hcb fun h ↦ hhung (hloop.reused_subset h)
  have hwatched := (hloop.slots.slot _ cb hslot).2.2.2 hhung
  refine ⟨?_, ?_, ?_, ?_, ?_⟩
  · rw [hphase.slot_eq, if_neg fun h ↦ hclosing ((Finset.mem_sort _).mp h)]
    exact hslot
  · rw [ne_eq, hphase.unwatched.2, not_or]
    exact ⟨fun h ↦ hclosing ((Finset.mem_sort _).mp h), hwatched⟩
  · rw [hphase.unwatched.1]
    exact (hloop.slots.watched _ hwatched).1
  · rw [count_closeCB_wait hloop hphase hinv hcb, if_neg fun h ↦ hclosing h.1]
  · rw [count_closed_wait hloop hphase, if_neg hhung]

end EndOfBatch

theorem closesOnce_iff (hinv : m.Inv) (hb : m.BatchPossible b) :
    m.ClosesOnce (.wait b) ↔ m.FailuresHangUp (.wait b) ∧ m.ReferencesHold (.wait b) := by
  have hends : m.ClosesOnce (.wait b) → m.ReferencesHold (.wait b) :=
    fun ⟨_, hm', _⟩ ↦ hinv.slotsStay_of_wait hb hm'
  rw [← and_iff_left_of_imp hends]
  refine and_congr_left fun hstay ↦ ?_
  obtain ⟨m₁, m', hloop, hwait, -, hphase⟩ := hinv.wait hb hstay
  -- the two ways to leave, for one event
  have hone (e : Ready) (he : e ∈ b.events) (cb : EventCB) (hcb : m.fdToCB e.event.fd = some cb) :
      ((m.leaves e = true → LeftOnce cb e.event.fd m') ∧
        (m.leaves e = false → Stays cb e.event.fd m')) ↔
        (m.fails e = true → e.event.hungUp = true) ∧
        (e.event.fd ∈ (m.progress b).reused → cb.cf = false) := by
    have hclosing := mem_closing_iff hb he
    have hhung := mem_hung_iff hb he
    cases hleaves : m.leaves e with
    | true =>
      rw [leftOnce_iff hloop hphase hinv hcb (hclosing.mpr hleaves), hhung]
      rw [leaves, Bool.or_eq_true] at hleaves
      constructor
      · rintro ⟨hleft, -⟩
        exact ⟨fun _ ↦ (hleft rfl).1, (hleft rfl).2⟩
      · rintro ⟨hup, hcf⟩
        exact ⟨fun _ ↦ ⟨hleaves.elim id hup, hcf⟩, fun h ↦ Bool.noConfusion h⟩
    | false =>
      have hnot : e.event.fd ∉ (m.progress b).closing := by
        rw [hclosing, hleaves]
        exact Bool.false_ne_true
      have hstays := stays_of_not_closing hloop hphase hinv hcb hnot
      rw [leaves, Bool.or_eq_false_iff] at hleaves
      constructor
      · intro _
        exact ⟨fun h ↦ absurd (hleaves.2.symm.trans h) Bool.false_ne_true,
          fun h ↦ absurd (hloop.hung_subset (hloop.reused_subset h)) hnot⟩
      · intro _
        exact ⟨fun h ↦ Bool.noConfusion h, fun _ ↦ hstays⟩
  have hreused := forall_progress_reused (m := m) (b := b) fun fd ↦
    ∀ cb, m.fdToCB fd = some cb → cb.cf = false
  constructor
  · rintro ⟨m'', hm'', hall⟩
    rw [hwait] at hm''
    obtain rfl := Option.some.inj hm''
    have hboth (e : Ready) (he : e ∈ b.events) (cb : EventCB)
        (hcb : m.fdToCB e.event.fd = some cb) :=
      (hone e he cb hcb).mp (hall e he cb hcb)
    refine ⟨fun e he ↦ ?_, hreused.mp fun fd hfd cb hcb ↦ ?_⟩
    · obtain ⟨cb, hcb⟩ := Option.ne_none_iff_exists'.mp (hinv.slots.watched _ (hb.watched e he)).2
      exact (hboth e he cb hcb).1
    · obtain ⟨e, he, -, rfl⟩ := exists_of_mem_closing (hloop.hung_subset (hloop.reused_subset hfd))
      exact (hboth e he cb hcb).2 hfd
  · rintro ⟨hfails, hnumbers⟩
    refine ⟨m', hwait, fun e he cb hcb ↦ (hone e he cb hcb).mpr ⟨hfails e he, fun hfd ↦ ?_⟩⟩
    exact hreused.mpr hnumbers _ hfd cb hcb

/-- **Every connection that leaves the loop is closed once** in a run exactly if those whose
callback fails hang up, too, no close callback is lost to a connection that was given the number,
and no slot is moved while it is used. -/
theorem run_closesOnce_iff (isOpen : ℕ → Bool) (reserve : ℕ → ℕ → ℕ) (ops : List EventOp)
    (hok : Run.Steps step Possible (new isOpen reserve) ops) :
    Run.Steps step ClosesOnce (new isOpen reserve) ops ↔
      Run.Steps step (fun m op ↦ m.FailuresHangUp op ∧ m.ReferencesHold op)
        (new isOpen reserve) ops := by
  refine Run.steps_congr_of_invariant (P := Inv) (fun m op hinv hop ↦ hinv.step hop)
    (fun m op hinv hop ↦ ?_) (inv_new isOpen reserve) hok
  cases op with
  | act a => exact (and_self_iff (a := True)).symm
  | wait b => exact closesOnce_iff hinv hop

/-- The read callback of a client fails. -/
def failedRead (rdhup : Bool) : List EventOp :=
  [.act (.accept 4 true true true),
    .wait ⟨[⟨⟨4, true, false, false, false, false, rdhup⟩, ⟨[], -3⟩, ⟨[], 0⟩⟩], fun _ ↦ []⟩]

theorem failedRead_possible (rdhup : Bool) :
    Run.Steps step Possible (new standard doubled) (failedRead rdhup) := by
  refine ⟨rfl, ⟨?_, List.nodup_singleton _, ?_⟩, trivial⟩
  · intro e he
    rw [List.mem_singleton.mp he]
    exact Option.some_ne_none false
  · exact ⟨fun cb _ ↦ ⟨fun _ ↦ trivial, fun _ ↦ trivial⟩, trivial⟩

/-- The client has hung up. -/
theorem run_closesOnce_hungUp :
    Run.Steps step ClosesOnce (new standard doubled) (failedRead true) := by
  refine (run_closesOnce_iff standard doubled _ (failedRead_possible true)).mpr
    ⟨⟨trivial, trivial⟩, ⟨⟨?_, List.pairwise_singleton _ _⟩,
      .of_accepted_nil rfl rfl, trivial⟩, trivial⟩
  intro e he _
  rw [List.mem_singleton.mp he]
  rfl

/-- It has not: nobody closes the descriptor. -/
theorem not_closesOnce_of_failure :
    ¬∀ ops, Run.Steps step Possible (new standard doubled) ops →
      Run.Steps step ClosesOnce (new standard doubled) ops := by
  intro h
  have hpossible := failedRead_possible false
  obtain ⟨-, hcloses, -⟩ := h _ hpossible
  have hinv := (inv_new standard doubled).step hpossible.1
  have hfails := ((closesOnce_iff hinv hpossible.2.1).mp hcloses).1.1 _
    (List.mem_singleton_self _) rfl
  exact absurd hfails Bool.false_ne_true

end EventManager

end Coypu
