import Coypu.Event.Closing

/-!
# What the notes tell

The notes of a call of `Wait` tell what happened to the slots, in its order: replayed on the slots
as they were, they give the slots as they are (`Inv.wait_told`). So what the callbacks keep beside
the slots can be followed along the notes.
-/

set_option autoImplicit false

namespace Coypu

namespace EventNote

/-- The slots behind a note. A slot counts as empty as soon as its close callback is called. -/
def tell (slots : ℕ → Option EventCB) : EventNote → (ℕ → Option EventCB) × Unit
  | .registered cb _ => (Function.update slots cb.fd (some cb), ())
  | .closeCB cb => (Function.update slots cb.fd none, ())
  | .unregistered cb => (Function.update slots cb.fd none, ())
  | .closed _ => (slots, ())

/-- The note can be told of the slots. -/
def Fits (slots : ℕ → Option EventCB) : EventNote → Prop
  | .registered cb found => found = slots cb.fd
  | .closeCB cb => slots cb.fd = some cb ∧ cb.cf = true
  | .unregistered cb => slots cb.fd = if cb.cf then none else some cb
  | .closed _ => True

end EventNote

namespace EventManager

open EventNote

variable {m m' : EventManager} {slots₀ slots : ℕ → Option EventCB} {notes : List EventNote}

/-- The notes can be told, one behind the other, and give the slots. -/
structure Tells (slots₀ : ℕ → Option EventCB) (notes : List EventNote)
    (slots : ℕ → Option EventCB) : Prop where
  fits : Run.Steps tell Fits slots₀ notes
  slots_eq : (Run.run tell slots₀ notes).1 = slots

namespace Tells

theorem append (h : Tells slots₀ notes slots) {n : EventNote} (hn : n.Fits slots) :
    Tells slots₀ (notes ++ [n]) (tell slots n).1 := by
  refine ⟨Run.steps_concat.mpr ⟨h.fits, ?_⟩, ?_⟩
  · rwa [h.slots_eq]
  · rw [Run.run_concat, h.slots_eq]

theorem closeNotes (h : Tells slots₀ notes m.fdToCB)
    (hself : ∀ fd cb, m.fdToCB fd = some cb → cb.fd = fd) (fd : ℕ) :
    Tells slots₀ (notes ++ m.closeNotes fd) (Function.update m.fdToCB fd none) := by
  unfold EventManager.closeNotes
  cases hcb : m.fdToCB fd with
  | none =>
    have hsame : Function.update m.fdToCB fd none = m.fdToCB := by
      rw [← hcb]
      exact Function.update_eq_self _ _
    simpa only [hsame, List.append_nil] using h
  | some cb =>
    obtain rfl := hself fd cb hcb
    by_cases hcf : cb.cf = true
    · have hclose := h.append (n := .closeCB cb) ⟨hcb, hcf⟩
      have hend := hclose.append (n := .unregistered cb) (by
        rw [Fits, if_pos hcf]
        exact Function.update_self ..)
      simp only [if_pos hcf]
      rw [List.append_assoc] at hend
      simpa only [EventNote.tell, Function.update_idem] using hend
    · simp only [if_neg hcf, List.nil_append]
      refine h.append (n := .unregistered cb) ?_
      rw [Fits, if_neg hcf]
      exact hcb

end Tells

/-- The manager has the slots that its notes tell. A slot belongs to the descriptor of its number,
and a descriptor that is not open is not watched. -/
structure Told (slots₀ : ℕ → Option EventCB) (m : EventManager) : Prop where
  tells : Tells slots₀ m.notes m.fdToCB
  self : ∀ fd cb, m.fdToCB fd = some cb → cb.fd = fd
  watched : ∀ fd, m.kernel.isOpen fd = false → m.kernel.watched fd = none

namespace Told

theorem congr (h : Told slots₀ m) (hslot : m'.fdToCB = m.fdToCB) (hnotes : m'.notes = m.notes)
    (hopen : ∀ fd, m'.kernel.isOpen fd = false → m.kernel.isOpen fd = false)
    (hwatched : ∀ fd, m.kernel.watched fd = none → m'.kernel.watched fd = none) :
    Told slots₀ m' where
  tells := by
    rw [hnotes, hslot]
    exact h.tells
  self := by
    rw [hslot]
    exact h.self
  watched fd hfd := hwatched fd (h.watched fd (hopen fd hfd))

theorem modify (h : Told slots₀ m) (fd : ℕ) (out : Bool) :
    Told slots₀ { m with kernel := (m.kernel.epollModify fd out).2 } := by
  refine h.congr rfl rfl (fun fd' hopen ↦ ?_) fun fd' hnone ↦ ?_
  · rwa [(watched_modify m.kernel fd out fd').2] at hopen
  · exact (watched_modify m.kernel fd out fd').1.mpr hnone

theorem act (h : Told slots₀ m) {a : EventAction} (ha : m.ActionPossible a) :
    Told slots₀ (m.act a) := by
  cases a with
  | setWrite fd => exact h.modify fd true
  | accept fd rf wf cf =>
    by_cases hfd : fd = 0
    · rw [hfd, act_accept_zero]
      refine h.congr rfl rfl (fun fd' hopen ↦ ?_) fun _ hnone ↦ hnone
      simp only [Kernel.opened, Function.update_apply] at hopen
      split_ifs at hopen
      exact hopen
    · rw [act_accept hfd (h.watched fd ha)]
      refine ⟨h.tells.append rfl, fun fd' cb hcb ↦ ?_, fun fd' hopen ↦ ?_⟩
      · simp only [Function.update_apply] at hcb
        split_ifs at hcb with heq
        · rw [← Option.some.inj hcb, heq]
        · exact h.self fd' cb hcb
      · simp only [Kernel.watch, Kernel.opened, Function.update_apply] at hopen ⊢
        split_ifs at hopen with heq
        rw [if_neg heq]
        exact h.watched fd' hopen

theorem foldl_act {actions : List EventAction} (h : Told slots₀ m)
    (hok : Run.Steps actStep ActionPossible m actions) :
    Told slots₀ (actions.foldl EventManager.act m) := by
  induction actions generalizing m with
  | nil => exact h
  | cons a actions ih => exact ih (h.act hok.1) hok.2

variable {cb : EventCB} {e : Ready}

theorem handleRead (h : Told slots₀ m)
    (hok : (e.event.readable && cb.rf) = true → Run.Steps actStep ActionPossible m e.read.actions) :
    Told slots₀ (m.handleRead cb e) := by
  unfold EventManager.handleRead
  split_ifs with hcalled hret
  · exact (h.foldl_act (hok hcalled)).congr rfl rfl (fun _ hopen ↦ hopen) fun _ hnone ↦ hnone
  · exact h.foldl_act (hok hcalled)
  · exact h

theorem handleWrite (h : Told slots₀ m)
    (hok : (e.event.epollout && cb.wf) = true →
      Run.Steps actStep ActionPossible m e.write.actions) :
    Told slots₀ (m.handleWrite cb e) := by
  unfold EventManager.handleWrite
  split_ifs with hcalled hneg hzero
  · exact (h.foldl_act (hok hcalled)).congr rfl rfl (fun _ hopen ↦ hopen) fun _ hnone ↦ hnone
  · exact (h.foldl_act (hok hcalled)).modify _ false
  · exact h.foldl_act (hok hcalled)
  · exact h

theorem handleHangUp (h : Told slots₀ m) (cb : EventCB) (e : Ready) :
    Told slots₀ (m.handleHangUp cb e) := by
  unfold EventManager.handleHangUp
  split_ifs
  · refine ⟨h.tells.append trivial, h.self, fun fd hopen ↦ ?_⟩
    simp only [note, Kernel.close, Function.update_apply] at hopen ⊢
    split_ifs at hopen ⊢
    · rfl
    · exact h.watched fd hopen
  · exact h

theorem handle (h : Told slots₀ m) (hok : m.EventPossible e) (hm' : m.handle e = some m') :
    Told slots₀ m' := by
  obtain ⟨cb, hcb, rfl⟩ := eq_of_handle hm'
  obtain ⟨hread, hwrite⟩ := hok cb hcb
  have hcount : Told slots₀ (m.countEvent e.event.fd) :=
    h.congr rfl rfl (fun _ hopen ↦ hopen) fun _ hnone ↦ hnone
  exact ((hcount.handleRead hread).handleWrite hwrite).handleHangUp cb e

/-- The loop. The induction is on the events. -/
theorem foldlM_handle {es : List Ready} (h : Told slots₀ m)
    (hok : Run.Steps handleStep EventPossible m es)
    (hm' : es.foldlM EventManager.handle m = some m') : Told slots₀ m' := by
  induction es generalizing m with
  | nil => exact Option.some.inj hm' ▸ h
  | cons e es ih =>
    rw [List.foldlM_cons] at hm'
    obtain ⟨m₁, hm₁, hrest⟩ := Option.bind_eq_some_iff.mp hm'
    obtain ⟨hpossible, hnext⟩ := hok
    rw [handleStep, hm₁] at hnext
    exact ih (h.handle hpossible hm₁) hnext hrest

theorem closeOne (h : Told slots₀ m) {closing : ℕ → List ℕ} {fd : ℕ}
    (hm' : m.closeOne closing fd = some m') : Told slots₀ m' := by
  have hslot : m.fdToCB fd ≠ none := by
    intro hnone
    rw [EventManager.closeOne, hnone, Option.map_none] at hm'
    exact absurd hm' (Option.some_ne_none m').symm
  obtain ⟨k, hk, heq⟩ := closeOne_eq closing hslot
  obtain rfl := Option.some.inj (heq.symm.trans hm')
  refine ⟨h.tells.closeNotes h.self fd, fun fd' cb hcb ↦ ?_, fun fd' hopen ↦ ?_⟩
  · simp only [Function.update_apply] at hcb
    split_ifs at hcb
    exact h.self fd' cb hcb
  · rw [hk.1] at hopen
    exact (hk.2 fd').mpr (.inr (h.watched fd' hopen))

/-- The close phase. The induction is on the descriptors. -/
theorem foldlM_closeOne {closing : ℕ → List ℕ} {fds : List ℕ} (h : Told slots₀ m)
    (hm' : fds.foldlM (EventManager.closeOne · closing) m = some m') : Told slots₀ m' := by
  induction fds generalizing m with
  | nil => exact Option.some.inj hm' ▸ h
  | cons fd fds ih =>
    rw [List.foldlM_cons] at hm'
    obtain ⟨m₁, hm₁, hrest⟩ := Option.bind_eq_some_iff.mp hm'
    exact ih (h.closeOne hm₁) hrest

end Told

/-- **The notes of `Wait`** tell what happened to the slots. -/
theorem Inv.wait_told (h : m.Inv) {b : Batch} (hb : m.BatchPossible b) (hm' : m.wait b = some m') :
    Tells m.fdToCB m'.notes m'.fdToCB := by
  have hstart : Told m.fdToCB { m with notes := [] } :=
    ⟨⟨trivial, rfl⟩, fun fd cb hcb ↦ (h.slots.slot fd cb hcb).1,
      fun fd hopen ↦ h.slots.watched_eq_none hopen⟩
  obtain ⟨m₁, hloop, hrest⟩ := Option.bind_eq_some_iff.mp hm'
  obtain ⟨m₂, hclose, rfl⟩ := Option.map_eq_some_iff.mp hrest
  exact ((hstart.foldlM_handle hb.numbers hloop).foldlM_closeOne hclose).tells

end EventManager

end Coypu
