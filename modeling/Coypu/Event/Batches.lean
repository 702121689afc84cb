import Coypu.Event.Progress

/-!
# What a batch of events does to the slots

`Loop` says that the manager is where the progress of the events says. The close phase does the rest
(`Inv.wait`).
-/

set_option autoImplicit false

namespace Coypu

namespace EventManager

variable {m m₀ : EventManager}

/-! ## The loop over the events -/

/-- Every registration found its slot empty. -/
def Clean (m : EventManager) : Prop := ∀ cb found, .registered cb found ∈ m.notes → found = none

theorem clean_of_notes_append {m' : EventManager} {notes : List EventNote}
    (h : m'.notes = m.notes ++ notes) :
    m'.Clean ↔ m.Clean ∧ ∀ cb found, .registered cb found ∈ notes → found = none := by
  simp only [Clean, h, List.mem_append, or_imp, forall_and]

/-- Where the manager is in the loop over the events of a batch that it began as `m₀`. -/
structure Loop (m₀ : EventManager) (p : Progress) (m : EventManager) : Prop where
  slots : Slots p.hung m
  kept : ∀ fd cb, m₀.fdToCB fd = some cb → fd ∉ p.reused → m.fdToCB fd = some cb
  replaced : ∀ fd ∈ p.reused, ∃ cb, m.fdToCB fd = some cb ∧ m₀.serial ≤ cb.serial
  held : ∀ fd ∈ p.closing, m₀.fdToCB fd ≠ none
  hung_subset : p.hung ⊆ p.closing
  reused_subset : p.reused ⊆ p.hung
  closeSet_eq : m.closeSet = p.closing
  serial_le : m₀.serial ≤ m.serial
  clean_iff : m.Clean ↔ p.reused = ∅
  count_closed : ∀ fd, m.notes.count (.closed fd) = if fd ∈ p.hung then 1 else 0
  quiet : ∀ cb, .closeCB cb ∉ m.notes ∧ .unregistered cb ∉ m.notes

namespace Loop

variable {p : Progress}

/-- A change of what is watched and of the counts of events. -/
theorem congr {m' : EventManager} (h : Loop m₀ p m) (hslots : Slots p.hung m')
    (hslot : m'.fdToCB = m.fdToCB) (hclose : m'.closeSet = m.closeSet)
    (hserial : m'.serial = m.serial) (hnotes : m'.notes = m.notes) : Loop m₀ p m' where
  slots := hslots
  kept := by
    rw [hslot]
    exact h.kept
  replaced := by
    rw [hslot]
    exact h.replaced
  held := h.held
  hung_subset := h.hung_subset
  reused_subset := h.reused_subset
  closeSet_eq := hclose.trans h.closeSet_eq
  serial_le := by
    rw [hserial]
    exact h.serial_le
  clean_iff := by
    rw [← h.clean_iff, Clean, Clean, hnotes]
  count_closed := by
    rw [hnotes]
    exact h.count_closed
  quiet := by
    rw [hnotes]
    exact h.quiet

theorem modify (h : Loop m₀ p m) (fd : ℕ) (out : Bool) :
    Loop m₀ p { m with kernel := (m.kernel.epollModify fd out).2 } :=
  h.congr (h.slots.modify fd out) rfl rfl rfl rfl

theorem slot_ne_none (h : Loop m₀ p m) {fd : ℕ} (hfd : m₀.fdToCB fd ≠ none) :
    m.fdToCB fd ≠ none := by
  by_cases hreused : fd ∈ p.reused
  · obtain ⟨cb, hcb, -⟩ := h.replaced fd hreused
    rw [hcb]
    exact Option.some_ne_none cb
  · obtain ⟨cb, hcb⟩ := Option.ne_none_iff_exists'.mp hfd
    rw [h.kept fd cb hcb hreused]
    exact Option.some_ne_none cb

theorem slot_of_hung (h : Loop m₀ p m) {fd : ℕ} (hfd : fd ∈ p.hung) : m.fdToCB fd ≠ none :=
  h.slot_ne_none (h.held fd (h.hung_subset hfd))

theorem quiet_append (h : Loop m₀ p m) {n : EventNote}
    (hn : ∀ cb, n ≠ .closeCB cb ∧ n ≠ .unregistered cb) (cb : EventCB) :
    .closeCB cb ∉ m.notes ++ [n] ∧ .unregistered cb ∉ m.notes ++ [n] := by
  simp only [List.mem_append, List.mem_singleton, not_or]
  exact ⟨⟨(h.quiet cb).1, (hn cb).1.symm⟩, (h.quiet cb).2, (hn cb).2.symm⟩

/-- A registration finds its slot empty unless its number is that of a descriptor that hung up. -/
theorem act (h : Loop m₀ p m) {a : EventAction} (ha : m.ActionPossible a) :
    Loop m₀ ((accepted [a]).foldl Progress.accept p) (m.act a) := by
  have hslots := h.slots.act ha
  cases a with
  | setWrite fd => exact h.modify fd true
  | accept fd rf wf cf =>
    show Loop m₀ (p.accept fd) _
    by_cases hfd : fd = 0
    · have hzero : fd ∉ p.hung := by
        intro hhung
        obtain ⟨cb, hcb⟩ := Option.ne_none_iff_exists'.mp (h.slot_of_hung hhung)
        exact (h.slots.slot fd cb hcb).2.1 hfd
      have hsame : p.accept fd = p := by rw [Progress.accept, if_neg hzero]
      rw [hsame]
      rw [hfd, act_accept_zero] at hslots ⊢
      exact h.congr hslots rfl rfl rfl rfl
    have hwatched := h.slots.watched_eq_none ha
    rw [act_accept hfd hwatched] at hslots ⊢
    refine ⟨hslots, ?_, ?_, h.held, h.hung_subset, ?_, h.closeSet_eq, Nat.le_succ_of_le h.serial_le,
      ?_, ?_, h.quiet_append fun _ ↦ ⟨EventNote.noConfusion, EventNote.noConfusion⟩⟩
    · intro fd' cb hcb hreused
      rw [Progress.mem_accept_reused, not_or] at hreused
      have hne : fd' ≠ fd := by
        rintro rfl
        -- a slot that is filled belongs to a descriptor that hung up, or to one that is open
        by_cases hhung : fd' ∈ p.hung
        · exact hreused.2 ⟨rfl, hhung⟩
        · exact h.slot_ne_none (by rw [hcb]; exact Option.some_ne_none cb)
            (h.slots.slot_eq_none ha hhung)
      simp only [Function.update_of_ne hne]
      exact h.kept fd' cb hcb hreused.1
    · intro fd' hreused
      by_cases heq : fd' = fd
      · rw [heq]
        exact ⟨_, Function.update_self _ _ _, h.serial_le⟩
      · simp only [Function.update_of_ne heq]
        exact h.replaced fd' ((Progress.mem_accept_reused.mp hreused).resolve_right fun hnew ↦
          heq hnew.1)
    · intro fd' hreused
      rcases Progress.mem_accept_reused.mp hreused with hreused | ⟨-, hhung⟩
      · exact h.reused_subset hreused
      · exact hhung
    · rw [clean_of_notes_append rfl, h.clean_iff]
      have hfound : (∀ cb found, EventNote.registered cb found ∈
          [EventNote.registered ⟨rf, wf, cf, fd, m.serial⟩ (m.fdToCB fd)] → found = none) ↔
          m.fdToCB fd = none := by simp
      rw [hfound, Progress.accept]
      split_ifs with hhung
      · simp [h.slot_of_hung hhung]
      · exact and_iff_left (h.slots.slot_eq_none ha hhung)
    · intro fd'
      simp only [List.count_append]
      rw [h.count_closed fd']
      rfl

/-- The induction is on what the callback does. -/
theorem foldl_act {actions : List EventAction} (h : Loop m₀ p m)
    (hok : Run.Steps actStep ActionPossible m actions) :
    Loop m₀ ((accepted actions).foldl Progress.accept p) (actions.foldl EventManager.act m) := by
  induction actions generalizing m p with
  | nil => exact h
  | cons a actions ih =>
    obtain ⟨ha, hrest⟩ := hok
    have hcons : accepted (a :: actions) = accepted [a] ++ accepted actions :=
      List.filterMap_append (l := [a])
    rw [hcons, List.foldl_append]
    exact ih (h.act ha) hrest

theorem addToCloseSet (h : Loop m₀ p m) {fd : ℕ} (hfd : m₀.fdToCB fd ≠ none) :
    Loop m₀ { p with closing := insert fd p.closing } (m.addToCloseSet fd) where
  slots := ⟨h.slots.slot, h.slots.watched⟩
  kept := h.kept
  replaced := h.replaced
  held fd' hfd' := by
    rcases Finset.mem_insert.mp hfd' with rfl | hfd'
    · exact hfd
    · exact h.held fd' hfd'
  hung_subset := h.hung_subset.trans (Finset.subset_insert _ _)
  reused_subset := h.reused_subset
  closeSet_eq := by
    rw [EventManager.addToCloseSet, h.closeSet_eq]
  serial_le := h.serial_le
  clean_iff := h.clean_iff
  count_closed := h.count_closed
  quiet := h.quiet

variable {cb : EventCB} {e : Ready}

theorem handleRead (h : Loop m₀ p m) (hcb : cb.fd = e.event.fd) (hfd : m₀.fdToCB e.event.fd ≠ none)
    (hok : (e.event.readable && cb.rf) = true → Run.Steps actStep ActionPossible m e.read.actions) :
    Loop m₀ (p.callback e.event.fd (e.event.readable && cb.rf) e.read) (m.handleRead cb e) := by
  unfold EventManager.handleRead Progress.callback
  by_cases hcalled : (e.event.readable && cb.rf) = true
  · have hacts := h.foldl_act (hok hcalled)
    rw [if_pos hcalled, if_pos hcalled, hcb]
    simp only
    split_ifs
    · exact hacts.addToCloseSet hfd
    · exact hacts
  · rw [if_neg hcalled, if_neg hcalled]
    exact h

theorem handleWrite (h : Loop m₀ p m) (hcb : cb.fd = e.event.fd) (hfd : m₀.fdToCB e.event.fd ≠ none)
    (hok : (e.event.epollout && cb.wf) = true →
      Run.Steps actStep ActionPossible m e.write.actions) :
    Loop m₀ (p.callback e.event.fd (e.event.epollout && cb.wf) e.write) (m.handleWrite cb e) := by
  unfold EventManager.handleWrite Progress.callback
  by_cases hcalled : (e.event.epollout && cb.wf) = true
  · have hacts := h.foldl_act (hok hcalled)
    rw [if_pos hcalled, if_pos hcalled, hcb]
    simp only
    split_ifs
    · exact hacts.addToCloseSet hfd
    · exact hacts.modify _ false
    · exact hacts
  · rw [if_neg hcalled, if_neg hcalled]
    exact h

theorem handleHangUp (h : Loop m₀ p m) (hcb : cb.fd = e.event.fd)
    (hfd : m₀.fdToCB e.event.fd ≠ none) (hnew : e.event.fd ∉ p.hung) :
    Loop m₀ (p.hangUp e) (m.handleHangUp cb e) := by
  unfold EventManager.handleHangUp Progress.hangUp
  by_cases hup : e.event.hungUp = true
  · rw [if_pos hup, if_pos hup, hcb]
    have hclose := h.addToCloseSet hfd
    refine ⟨⟨?_, ?_⟩, h.kept, h.replaced, hclose.held, ?_, ?_, hclose.closeSet_eq, h.serial_le, ?_,
      ?_, h.quiet_append fun _ ↦ ⟨EventNote.noConfusion, EventNote.noConfusion⟩⟩
    · intro fd' cb' hcb'
      obtain ⟨h₁, h₂, h₃, h₄⟩ := h.slots.slot fd' cb' hcb'
      refine ⟨h₁, h₂, h₃, fun hhung ↦ ?_⟩
      rw [Finset.mem_insert, not_or] at hhung
      simp only [note, Kernel.close, Function.update_of_ne hhung.1]
      exact h₄ hhung.2
    · intro fd' hwatched
      have hne : fd' ≠ e.event.fd := by
        rintro rfl
        exact hwatched (Function.update_self _ _ _)
      simp only [note, Kernel.close, Function.update_of_ne hne] at hwatched ⊢
      exact h.slots.watched fd' hwatched
    · exact Finset.insert_subset_insert _ h.hung_subset
    · exact h.reused_subset.trans (Finset.subset_insert _ _)
    · rw [← h.clean_iff, clean_of_notes_append rfl]
      apply and_iff_left
      intro cb' found hmem
      exact absurd (List.mem_singleton.mp hmem) EventNote.noConfusion
    · intro fd'
      simp only [note, EventManager.addToCloseSet, List.count_append, h.count_closed fd',
        Finset.mem_insert]
      by_cases heq : fd' = e.event.fd
      · rw [heq, if_neg hnew, if_pos (Or.inl rfl), List.count_singleton_self]
      · have hcount : [EventNote.closed e.event.fd].count (.closed fd') = 0 := by
          apply List.count_eq_zero_of_not_mem
          rw [List.mem_singleton, EventNote.closed.injEq]
          exact heq
        rw [hcount]
        simp [heq]
  · rw [if_neg hup, if_neg hup]
    exact h

/-- **A round of the loop** ends exactly if the slot of the event stays where it is. -/
theorem handle (h : Loop m₀ p m) (hfd : m₀.fdToCB e.event.fd ≠ none) (hnew : e.event.fd ∉ p.hung)
    (hok : m.EventPossible e) :
    (m.handle e ≠ none ↔ m₀.SlotStays m.vector e) ∧ ∀ m', m.handle e = some m' →
      Loop m₀ (p.event m₀ e) m' ∧ m'.vector = (m₀.grown m.vector e).1 := by
  obtain ⟨cb, hcb⟩ := Option.ne_none_iff_exists'.mp hfd
  have hslot := h.kept _ cb hcb fun hreused ↦ hnew (h.reused_subset hreused)
  refine ⟨handle_ne_none_iff hslot hcb, fun m' hm' ↦ ⟨?_, vector_of_handle hslot hcb hm'⟩⟩
  obtain ⟨cb', hcb', rfl⟩ := eq_of_handle hm'
  obtain rfl : cb = cb' := Option.some.inj (hslot.symm.trans hcb')
  have hself := (h.slots.slot _ cb hslot).1
  obtain ⟨hread, hwrite⟩ := hok cb hslot
  have hcount : Loop m₀ p (m.countEvent e.event.fd) :=
    h.congr ⟨h.slots.slot, h.slots.watched⟩ rfl rfl rfl rfl
  rw [Progress.event_eq hcb]
  have hboth := (hcount.handleRead hself hfd hread).handleWrite hself hfd hwrite
  apply hboth.handleHangUp hself hfd
  simpa using hnew

/-- **The loop** ends exactly if no slot is moved while it is used. The induction is on the
events. -/
theorem foldlM_handle {es : List Ready} (h : Loop m₀ p m)
    (hfds : ∀ e ∈ es, m₀.fdToCB e.event.fd ≠ none ∧ e.event.fd ∉ p.hung)
    (hnodup : (es.map fun e ↦ e.event.fd).Nodup) (hok : Run.Steps handleStep EventPossible m es) :
    (es.foldlM EventManager.handle m ≠ none ↔ Run.Steps m₀.grown m₀.SlotStays m.vector es) ∧
      ∀ m', es.foldlM EventManager.handle m = some m' →
        Loop m₀ (es.foldl (Progress.event · m₀) p) m' := by
  induction es generalizing m p with
  | nil =>
    refine ⟨iff_of_true (Option.some_ne_none m) trivial, fun m' hm' ↦ ?_⟩
    rwa [← Option.some.inj hm']
  | cons e es ih =>
    obtain ⟨hpossible, hrest⟩ := hok
    rw [List.map_cons, List.nodup_cons] at hnodup
    obtain ⟨hfd, hnew⟩ := hfds e List.mem_cons_self
    obtain ⟨hends, hloop⟩ := h.handle hfd hnew hpossible
    rw [List.foldlM_cons, Run.steps_cons, ← hends]
    cases hm₁ : m.handle e with
    | none =>
      exact ⟨iff_of_false (fun hend ↦ hend rfl) fun hend ↦ hend.1 rfl,
        fun m' hm' ↦ absurd hm' (Option.some_ne_none m').symm⟩
    | some m₁ =>
      obtain ⟨hloop₁, hvector⟩ := hloop m₁ hm₁
      rw [handleStep, hm₁] at hrest
      have hothers : ∀ f ∈ es, m₀.fdToCB f.event.fd ≠ none ∧
          f.event.fd ∉ (p.event m₀ e).hung := by
        intro f hf
        refine ⟨(hfds f (List.mem_cons_of_mem _ hf)).1, fun hhung ↦ ?_⟩
        have hone : f.event.fd ∈ ([e].foldl (Progress.event · m₀) p).hung := hhung
        rcases Progress.mem_hung.mp hone with hp | ⟨g, hg, -, hgf⟩
        · exact (hfds f (List.mem_cons_of_mem _ hf)).2 hp
        · rw [List.mem_singleton.mp hg] at hgf
          exact hnodup.1 (List.mem_map.mpr ⟨f, hf, hgf.symm⟩)
      obtain ⟨hends', hloop'⟩ := ih hloop₁ hothers hnodup.2 hrest
      rw [hvector] at hends'
      exact ⟨hends'.trans (and_iff_right (Option.some_ne_none m₁)).symm, hloop'⟩

end Loop

/-! ## The close phase -/

/-- What is told of a slot that is given up. -/
def closeNotes (m : EventManager) (fd : ℕ) : List EventNote :=
  match m.fdToCB fd with
  | none => []
  | some cb => (if cb.cf then [.closeCB cb] else []) ++ [.unregistered cb]

/-- The descriptors `fds` are not watched any more, and nothing else is changed. -/
def Unwatched (fds : List ℕ) (k k' : Kernel) : Prop :=
  k'.isOpen = k.isOpen ∧ ∀ fd, k'.watched fd = none ↔ fd ∈ fds ∨ k.watched fd = none

theorem Unwatched.trans {k k' k'' : Kernel} {fds fds' : List ℕ} (h : Unwatched fds k k')
    (h' : Unwatched fds' k' k'') : Unwatched (fds ++ fds') k k'' := by
  refine ⟨h'.1.trans h.1, fun fd ↦ ?_⟩
  rw [h'.2, h.2, List.mem_append, or_left_comm, or_assoc]

theorem foldl_setWrite (fds : List ℕ) :
    ∃ k, Unwatched [] m.kernel k ∧
      fds.foldl (fun m fd ↦ (m.setWrite fd).2) m = { m with kernel := k } := by
  induction fds generalizing m with
  | nil => exact ⟨m.kernel, ⟨rfl, by simp⟩, rfl⟩
  | cons fd fds ih =>
    obtain ⟨k, hk, heq⟩ := ih (m := (m.setWrite fd).2)
    refine ⟨k, ?_, heq⟩
    have hfirst : Unwatched [] m.kernel (m.setWrite fd).2.kernel := by
      refine ⟨(watched_modify m.kernel fd true fd).2, fun fd' ↦ ?_⟩
      rw [← (watched_modify m.kernel fd true fd').1]
      simp [setWrite]
    exact hfirst.trans hk

theorem unwatched_epollDelete (k : Kernel) (fd : ℕ) : Unwatched [fd] k (k.epollDelete fd).2 := by
  unfold Kernel.epollDelete
  split_ifs with hnone
  · refine ⟨rfl, fun fd' ↦ ?_⟩
    rw [List.mem_singleton]
    constructor
    · exact Or.inr
    · rintro (rfl | h)
      · exact hnone
      · exact h
  · refine ⟨rfl, fun fd' ↦ ?_⟩
    simp only [Kernel.watch, Function.update_apply, List.mem_singleton]
    split_ifs with heq
    · simp [heq]
    · simp [heq]

theorem closeOne_eq (closing : ℕ → List ℕ) {fd : ℕ} (hfd : m.fdToCB fd ≠ none) :
    ∃ k, Unwatched [fd] m.kernel k ∧ m.closeOne closing fd = some { m with
      kernel := k
      fdToCB := Function.update m.fdToCB fd none
      notes := m.notes ++ m.closeNotes fd } := by
  obtain ⟨cb, hcb⟩ := Option.ne_none_iff_exists'.mp hfd
  have hdelete (k : Kernel) (notes : List EventNote) :
      ({ m with kernel := k, notes := notes }.unregister fd).2 = { m with
        kernel := (k.epollDelete fd).2
        fdToCB := Function.update m.fdToCB fd none
        notes := notes ++ [.unregistered cb] } := by
    simp only [unregister, hcb, Option.toList_some, List.map_cons, List.map_nil]
  unfold closeOne closeNotes
  rw [hcb]
  simp only [Option.map_some]
  by_cases hcf : cb.cf = true
  · obtain ⟨k, hk, heq⟩ := foldl_setWrite (m := m) (closing fd)
    refine ⟨(k.epollDelete fd).2, hk.trans (unwatched_epollDelete k fd), ?_⟩
    rw [if_pos hcf, if_pos hcf, heq, note, hdelete, List.append_assoc]
  · refine ⟨(m.kernel.epollDelete fd).2, unwatched_epollDelete m.kernel fd, ?_⟩
    rw [if_neg hcf, if_neg hcf, List.nil_append]
    exact congrArg some (hdelete m.kernel m.notes)

/-- What the close phase has done to the descriptors `fds`. -/
structure ClosePhase (m : EventManager) (fds : List ℕ) (m' : EventManager) : Prop where
  slot_eq : ∀ fd, m'.fdToCB fd = if fd ∈ fds then none else m.fdToCB fd
  unwatched : Unwatched fds m.kernel m'.kernel
  serial_eq : m'.serial = m.serial
  notes_eq : m'.notes = m.notes ++ fds.flatMap m.closeNotes

/-- The induction is on the descriptors. None of them occurs twice, so each finds its slot as it
was. -/
theorem foldlM_closeOne (closing : ℕ → List ℕ) {fds : List ℕ} (hnodup : fds.Nodup)
    (hslots : ∀ fd ∈ fds, m.fdToCB fd ≠ none) :
    ∃ m', fds.foldlM (closeOne · closing) m = some m' ∧ m.ClosePhase fds m' := by
  induction fds generalizing m with
  | nil => exact ⟨m, rfl, by simp, ⟨rfl, by simp⟩, rfl, by simp⟩
  | cons fd fds ih =>
    rw [List.nodup_cons] at hnodup
    obtain ⟨k, hk, hone⟩ := closeOne_eq closing (hslots fd List.mem_cons_self)
    obtain ⟨m₁, hm₁⟩ : ∃ m₁, m₁ = { m with
      kernel := k
      fdToCB := Function.update m.fdToCB fd none
      notes := m.notes ++ m.closeNotes fd } := ⟨_, rfl⟩
    rw [← hm₁] at hone
    have hne (fd' : ℕ) (hfd' : fd' ∈ fds) : m₁.fdToCB fd' = m.fdToCB fd' := by
      have hdiff : fd' ≠ fd := by
        rintro rfl
        exact hnodup.1 hfd'
      rw [hm₁]
      exact Function.update_of_ne hdiff _ _
    obtain ⟨m', hm', hphase⟩ := ih (m := m₁) hnodup.2 fun fd' hfd' ↦ by
      rw [hne fd' hfd']
      exact hslots fd' (List.mem_cons_of_mem _ hfd')
    refine ⟨m', ?_, ?_, ?_, ?_, ?_⟩
    · rw [List.foldlM_cons, hone]
      exact hm'
    · intro fd'
      rw [hphase.slot_eq]
      by_cases hmem : fd' ∈ fds
      · rw [if_pos hmem, if_pos (List.mem_cons_of_mem _ hmem)]
      · rw [if_neg hmem, hm₁]
        simp only [Function.update_apply, List.mem_cons, hmem, or_false]
    · have hkernel : m₁.kernel = k := by rw [hm₁]
      have hunwatched := hphase.unwatched
      rw [hkernel] at hunwatched
      exact hk.trans hunwatched
    · rw [hphase.serial_eq, hm₁]
    · have hnotes : fds.flatMap m₁.closeNotes = fds.flatMap m.closeNotes := by
        apply List.flatMap_congr
        intro fd' hfd'
        rw [closeNotes, closeNotes, hne fd' hfd']
      rw [hphase.notes_eq, hnotes, hm₁, List.flatMap_cons, List.append_assoc]

/-! ## Between the batches -/

/-- What holds when `Wait` is called. -/
structure Inv (m : EventManager) : Prop where
  slots : Slots ∅ m
  closeSet_eq : m.closeSet = ∅

theorem inv_new (isOpen : ℕ → Bool) (reserve : ℕ → ℕ → ℕ) : (new isOpen reserve).Inv :=
  ⟨⟨fun _ _ h ↦ absurd h (Option.some_ne_none _).symm, fun _ h ↦ absurd rfl h⟩, rfl⟩

theorem Inv.act (h : m.Inv) {a : EventAction} (ha : m.ActionPossible a) : (m.act a).Inv := by
  refine ⟨h.slots.act ha, ?_⟩
  rw [← h.closeSet_eq]
  cases a with
  | setWrite fd => rfl
  | accept fd rf wf cf =>
    by_cases hfd : fd = 0
    · rw [hfd, act_accept_zero]
    · rw [act_accept hfd (h.slots.watched_eq_none ha)]

/-- The progress of the loop at its end. -/
def progress (m₀ : EventManager) (b : Batch) : Progress :=
  b.events.foldl (Progress.event · m₀) Progress.start

theorem Inv.loop_start (h : m.Inv) : Loop m Progress.start { m with notes := [] } := by
  refine ⟨⟨h.slots.slot, h.slots.watched⟩, fun _ _ hcb _ ↦ hcb, ?_, ?_, Finset.Subset.refl _,
    Finset.Subset.refl _, h.closeSet_eq, Nat.le_refl _, ?_, ?_, ?_⟩
  · intro fd hfd
    exact absurd hfd (Finset.notMem_empty fd)
  · intro fd hfd
    exact absurd hfd (Finset.notMem_empty fd)
  · exact ⟨fun _ ↦ rfl, fun _ _ _ hmem ↦ absurd hmem List.not_mem_nil⟩
  · intro fd
    exact (if_neg (Finset.notMem_empty fd)).symm
  · exact fun _ ↦ ⟨List.not_mem_nil, List.not_mem_nil⟩

/-- The loop over the events of a batch. -/
theorem Inv.foldlM_handle (h : m.Inv) {b : Batch} (hb : m.BatchPossible b) :
    (b.events.foldlM handle { m with notes := [] } ≠ none ↔ m.SlotsStay b) ∧
      ∀ m₁, b.events.foldlM handle { m with notes := [] } = some m₁ → Loop m (m.progress b) m₁ :=
  h.loop_start.foldlM_handle (fun e he ↦ ⟨(h.slots.watched _ (hb.watched e he)).2,
    Finset.notMem_empty _⟩) hb.nodup hb.numbers

theorem Inv.slotsStay_of_wait (h : m.Inv) {b : Batch} (hb : m.BatchPossible b) {m' : EventManager}
    (hm' : m.wait b = some m') : m.SlotsStay b := by
  obtain ⟨m₁, hm₁, -⟩ := Option.bind_eq_some_iff.mp hm'
  refine (h.foldlM_handle hb).1.mp ?_
  rw [hm₁]
  exact Option.some_ne_none m₁

/-- **What `Wait` does**: the loop over the events, then the close phase. -/
theorem Inv.wait (h : m.Inv) {b : Batch} (hb : m.BatchPossible b) (hstay : m.SlotsStay b) :
    ∃ m₁ m', Loop m (m.progress b) m₁ ∧ m.wait b = some m' ∧ m'.Inv ∧
      m₁.ClosePhase ((m.progress b).closing.sort (· ≤ ·)) m' := by
  obtain ⟨hends, hall⟩ := h.foldlM_handle hb
  obtain ⟨m₁, hloop⟩ := Option.ne_none_iff_exists'.mp (hends.mpr hstay)
  have hm₁ := hall m₁ hloop
  obtain ⟨m₂, hclose, hphase⟩ := foldlM_closeOne b.closing (m := m₁)
    (Finset.sort_nodup m₁.closeSet (· ≤ ·)) (by
    intro fd hfd
    rw [Finset.mem_sort, hm₁.closeSet_eq] at hfd
    exact hm₁.slot_ne_none (hm₁.held fd hfd))
  refine ⟨m₁, { m₂ with closeSet := ∅ }, hm₁, ?_, ⟨⟨?_, ?_⟩, rfl⟩, ?_⟩
  · rw [EventManager.wait, hloop, Option.bind_some, hclose, Option.map_some]
  · intro fd cb hcb
    have hslot := hphase.slot_eq fd
    simp only at hcb
    rw [hcb] at hslot
    simp only [Finset.mem_sort, hm₁.closeSet_eq] at hslot
    split_ifs at hslot with hclosing
    obtain ⟨h₁, h₂, h₃, h₄⟩ := hm₁.slots.slot fd cb hslot.symm
    refine ⟨h₁, h₂, by rwa [hphase.serial_eq], fun _ hnone ↦ ?_⟩
    rcases (hphase.unwatched.2 fd).mp hnone with hmem | hnone
    · rw [Finset.mem_sort, hm₁.closeSet_eq] at hmem
      exact hclosing hmem
    · exact h₄ (fun hhung ↦ hclosing (hm₁.hung_subset hhung)) hnone
  · intro fd hwatched
    rw [ne_eq, hphase.unwatched.2, not_or] at hwatched
    obtain ⟨hopen, hslot⟩ := hm₁.slots.watched fd hwatched.2
    refine ⟨by rw [hphase.unwatched.1]; exact hopen, ?_⟩
    rw [hphase.slot_eq, if_neg hwatched.1]
    exact hslot
  · have hset := hm₁.closeSet_eq
    rw [hset] at hphase
    exact ⟨hphase.slot_eq, hphase.unwatched, hphase.serial_eq, hphase.notes_eq⟩

end EventManager

end Coypu
