import Coypu.Feed.Context
import Mathlib.Data.List.Count

/-!
# One connection for each feed

A feed has a connection, or an event that connects it is queued, and never both, and Kraken is
connected at most 17 times (`run_connectsOnce`). Unless Kraken has used these up, each feed has its
connection as soon as the queue is empty (`run_reconnects`).
-/

set_option autoImplicit false

namespace Coypu

namespace EventCBManager

variable {m : EventCBManager}

instance (m : EventCBManager) : DecidablePred m.Possible
  | .register _ => .isTrue trivial
  | .queue u => inferInstanceAs (Decidable (u ∈ m.cbMap))
  | .event _ _ => inferInstanceAs (Decidable (_ ∧ _ ∧ _ ∧ _ ∧ _))
  | .round => inferInstanceAs (Decidable (m.phase ≠ .idle))

theorem handleWrite_keeps (m : EventCBManager) :
    m.handleWrite.queue = m.queue ∧ m.handleWrite.cbMap = m.cbMap := by
  unfold handleWrite write
  split_ifs <;> exact ⟨rfl, rfl⟩

theorem event_keeps (readable writable : Bool) :
    (m.event readable writable).queue = m.queue ∧
      (m.event readable writable).cbMap = m.cbMap := by
  unfold event
  split_ifs
  · exact m.handleWrite_keeps
  · exact ⟨rfl, rfl⟩
  · exact ⟨rfl, rfl⟩
  · exact m.handleWrite_keeps
  · exact ⟨rfl, rfl⟩

theorem round_cbMap : m.round.1.cbMap = m.cbMap := by
  unfold round
  split
  · rfl
  · split_ifs
    · exact (handleWrite_keeps _).2
    · rfl
  · rfl

theorem queueEvent_of_lt (h : m.queue.length < maxSize) (u : UInt64) :
    m.queueEvent u = ({ m with queue := m.queue ++ [u], epollout := true }, ⟨[u], []⟩) := if_pos h

end EventCBManager

open Kraken

namespace ContextOp

/-- An event of the eventfd, or a round. -/
def IsEvent : ContextOp → Prop
  | .event _ _ | .round _ => True
  | _ => False

instance : DecidablePred IsEvent
  | .event _ _ | .round _ => .isTrue trivial
  | .close _ | .krakenText _ _ | .gdaxText _ _ | .adminQueue _ | .request _ => .isFalse id

/-- What it is for the `EventCBManager`. -/
def cbOp : ContextOp → CBOp
  | .event readable writable => .event readable writable
  | _ => .round

theorem isEvent_cbOp {op : ContextOp} (h : op.IsEvent) : EventCBManager.IsEvent op.cbOp := by
  cases op <;> trivial

end ContextOp

namespace CoypuContext

variable {D : Type*} {c : PageLayout} {n : Numbers D} {s s' : CoypuContext}

instance (s : CoypuContext) : DecidablePred s.Possible
  | .event readable writable =>
    inferInstanceAs (Decidable (s.cbManager.Possible (.event readable writable)))
  | .round fd => inferInstanceAs (Decidable (_ ∧ 0 < fd ∧ s.connections fd.toNat = none))
  | .close fd => inferInstanceAs (Decidable (s.connections fd ≠ none ∧ _))
  | .krakenText fd _ => inferInstanceAs (Decidable (s.connections fd = some .kraken))
  | .gdaxText fd (.snapshot _ _ _) =>
    inferInstanceAs (Decidable (s.connections fd = some .gdax ∧ True))
  | .gdaxText fd (.l2update product _) =>
    inferInstanceAs (Decidable (s.connections fd = some .gdax ∧ (s.gdaxBooks product).isSome))
  | .gdaxText fd .clearBooks =>
    inferInstanceAs (Decidable (s.connections fd = some .gdax ∧ False))
  | .adminQueue u => decidable_of_iff (u ∈ s.cbManager.cbMap ∧
      (u ≠ FeedSource.gdax.wsConnect ∧ u ≠ FeedSource.kraken.wsConnect) ∧
      s.cbManager.queue.length + 2 ≤ EventCBManager.maxSize)
    (and_congr_right fun _ ↦ and_congr_left fun _ ↦
      ⟨fun h e ↦ e.casesOn h.1 h.2, fun h ↦ ⟨h .gdax, h .kraken⟩⟩)
  | .request request => inferInstanceAs (Decidable (request.type = _ ∨ request.type = _))

/-- The first event is taken, and these are left. -/
abbrev popped (s : CoypuContext) (queue : List UInt64) : CoypuContext :=
  { s with cbManager := { s.cbManager with queue := queue } }

/-- The callback of a type clears the books of a source, or connects a source, or does nothing
here. -/
theorem callback_cases {fd : ℤ} (hpos : 0 < fd) (u : UInt64) :
    (∃ e : FeedSource, u = e.bookClear ∧ s.callback fd u = some (s.clearBooks e)) ∨
      (∃ e : FeedSource, u = e.wsConnect ∧ s.callback fd u = some { s with
        fd := Function.update s.fd e fd
        connections := Function.update s.connections fd.toNat (some e) }) ∨
      (∀ e : FeedSource, u ≠ e.bookClear ∧ u ≠ e.wsConnect) ∧ s.callback fd u = some s := by
  by_cases hclear : ∃ e : FeedSource, u = e.bookClear
  · obtain ⟨e, rfl⟩ := hclear
    refine .inl ⟨e, rfl, ?_⟩
    cases e
    · exact if_pos rfl
    · exact (if_neg (by decide)).trans (if_pos rfl)
  by_cases hconnect : ∃ e : FeedSource, u = e.wsConnect
  · obtain ⟨e, rfl⟩ := hconnect
    refine .inr (.inl ⟨e, rfl, ?_⟩)
    cases e
    · exact (if_neg (by decide)).trans
        ((if_neg (by decide)).trans ((if_pos rfl).trans (if_pos hpos)))
    · exact (if_neg (by decide)).trans ((if_neg (by decide)).trans
        ((if_neg (by decide)).trans ((if_pos rfl).trans (if_pos hpos))))
  · rw [not_exists] at hclear hconnect
    refine .inr (.inr ⟨fun e ↦ ⟨hclear e, hconnect e⟩, ?_⟩)
    rw [callback, if_neg (hclear .gdax), if_neg (hclear .kraken), if_neg (hconnect .gdax),
      if_neg (hconnect .kraken)]

variable (c n) in
/-- What a round does: it is the last one, or it takes an event and runs its callback. -/
theorem round_cases (h : s.cbManager.Inv) {fd : ℤ} (hop : s.Possible (.round fd)) :
    (s.cbManager.queue = [] ∧ ∃ m : EventCBManager, m.Inv ∧ m.queue = [] ∧
        m.cbMap = s.cbManager.cbMap ∧
        s.step c n (.round fd) = ({ s with cbManager := m }, some ⟨[], [], none⟩)) ∨
      ∃ u queue, s.cbManager.queue = u :: queue ∧
        EventCBManager.Inv { s.cbManager with queue := queue } ∧
        s.step c n (.round fd) =
          (((s.popped queue).callback fd u).getD (s.popped queue),
            ((s.popped queue).callback fd u).map fun _ ↦ ⟨[u], [], none⟩) := by
  have hpossible : s.cbManager.Possible .round := hop.1
  have hinv := (h.step hpossible).1
  have hmap := s.cbManager.round_cbMap
  rcases EventCBManager.round_cases h hop.1 with
    ⟨u, queue, hqueue, heq⟩ | ⟨hqueue, m, heq, hm, hm', -⟩
  · refine .inr ⟨u, queue, hqueue, ?_, ?_⟩
    · rwa [EventCBManager.step, heq] at hinv
    · simp only [step, heq]
  · refine .inl ⟨hqueue, m, hm, hm', ?_, ?_⟩
    · rwa [heq] at hmap
    · simp only [step, heq]

/-- The connections, the file descriptors of the sources, and the events that are queued. -/
structure Wired (s : CoypuContext) : Prop where
  manager : s.cbManager.Inv
  known : ∀ e : FeedSource, e.bookClear ∈ s.cbManager.cbMap
  registered : ∀ fd e, s.connections fd = some e → e.wsConnect ∈ s.cbManager.cbMap
  fd_eq : ∀ fd e, s.connections fd = some e → s.fd e = fd
  alone : ∀ fd e, s.connections fd = some e → e.wsConnect ∉ s.cbManager.queue
  count_le : ∀ e : FeedSource, s.cbManager.queue.count e.wsConnect ≤ 1
  reconnects : FeedSource.kraken.wsConnect ∈ s.cbManager.queue → s.krakenReconnects ≤ 16

namespace Wired

theorem congr (h : s.Wired) (hmanager : s'.cbManager.Inv)
    (hqueue : s'.cbManager.queue = s.cbManager.queue)
    (hmap : s'.cbManager.cbMap = s.cbManager.cbMap)
    (hfd : s'.fd = s.fd) (hconnections : s'.connections = s.connections)
    (hreconnects : s'.krakenReconnects = s.krakenReconnects) : s'.Wired where
  manager := hmanager
  known := hmap ▸ h.known
  registered := hmap ▸ hconnections ▸ h.registered
  fd_eq := hfd ▸ hconnections ▸ h.fd_eq
  alone := hqueue ▸ hconnections ▸ h.alone
  count_le := hqueue ▸ h.count_le
  reconnects := hqueue ▸ hreconnects ▸ h.reconnects

/-- An event that connects no source is queued. -/
theorem queue (h : s.Wired) {u : UInt64} (hu : u ∈ s.cbManager.cbMap)
    (hne : ∀ e : FeedSource, u ≠ e.wsConnect)
    (hroom : s.cbManager.queue.length < EventCBManager.maxSize) : (s.queue u).Wired := by
  have heq := EventCBManager.queueEvent_of_lt hroom u
  have hmem : ∀ e : FeedSource, e.wsConnect ∈ s.cbManager.queue ++ [u] ↔
      e.wsConnect ∈ s.cbManager.queue := by
    intro e
    rw [List.mem_append, List.mem_singleton, or_iff_left (hne e).symm]
  have hpossible : s.cbManager.Possible (.queue u) := hu
  have hmanager := (h.manager.step hpossible).1
  rw [EventCBManager.step, heq] at hmanager
  rw [CoypuContext.queue, heq]
  refine ⟨hmanager, h.known, h.registered, h.fd_eq, fun fd e he ↦ ?_, fun e ↦ ?_, fun he ↦ ?_⟩
  · exact mt (hmem e).mp (h.alone fd e he)
  · rw [List.count_append, List.count_singleton, if_neg (by simpa using hne e)]
    exact h.count_le e
  · exact h.reconnects ((hmem _).mp he)

/-- An event that connects a source is queued, of which there is no connection. -/
theorem queue_wsConnect (h : s.Wired) {e : FeedSource} (hknown : e.wsConnect ∈ s.cbManager.cbMap)
    (hnone : ∀ fd, s.connections fd ≠ some e) (hnot : e.wsConnect ∉ s.cbManager.queue)
    (hreconnects : e = .kraken → s.krakenReconnects ≤ 16)
    (hroom : s.cbManager.queue.length < EventCBManager.maxSize) :
    (s.queue e.wsConnect).Wired := by
  have hpossible : s.cbManager.Possible (.queue e.wsConnect) := hknown
  have hmanager := (h.manager.step hpossible).1
  have heq := EventCBManager.queueEvent_of_lt hroom e.wsConnect
  rw [EventCBManager.step, heq] at hmanager
  rw [CoypuContext.queue, heq]
  refine ⟨hmanager, h.known, h.registered, h.fd_eq, fun fd e' he' ↦ ?_, fun e' ↦ ?_, fun he ↦ ?_⟩
  · simp only [List.mem_append, List.mem_singleton, FeedSource.wsConnect_inj, not_or]
    refine ⟨h.alone fd e' he', ?_⟩
    rintro rfl
    exact hnone fd he'
  · simp only [List.count_append, List.count_singleton, beq_iff_eq, FeedSource.wsConnect_inj]
    split_ifs with heq
    · rw [← heq, List.count_eq_zero.mpr hnot]
    · exact h.count_le e'
  · rcases List.mem_append.mp he with hmem | hmem
    · exact h.reconnects hmem
    · exact hreconnects (FeedSource.wsConnect_inj.mp (List.mem_singleton.mp hmem)).symm

/-- An event is taken that connects no source. -/
theorem popped (h : s.Wired) {u : UInt64} {queue : List UInt64}
    (hqueue : s.cbManager.queue = u :: queue) (hne : ∀ e : FeedSource, u ≠ e.wsConnect)
    (hmanager : EventCBManager.Inv { s.cbManager with queue := queue }) :
    (s.popped queue).Wired := by
  have hmem : ∀ e : FeedSource, e.wsConnect ∈ s.cbManager.queue ↔ e.wsConnect ∈ queue := by
    intro e
    rw [hqueue, List.mem_cons, or_iff_right (hne e).symm]
  refine ⟨hmanager, h.known, h.registered, h.fd_eq, fun fd e he ↦ ?_, fun e ↦ ?_, fun he ↦ ?_⟩
  · exact mt (hmem e).mpr (h.alone fd e he)
  · have hcount := h.count_le e
    rw [hqueue] at hcount
    exact Nat.le_trans List.count_le_count_cons hcount
  · exact h.reconnects ((hmem _).mpr he)

/-- An event is taken that connects a source. -/
theorem connected (h : s.Wired) {e : FeedSource} {queue : List UInt64} {fd : ℤ}
    (hqueue : s.cbManager.queue = e.wsConnect :: queue) (hpos : 0 < fd)
    (hmanager : EventCBManager.Inv { s.cbManager with queue := queue }) :
    Wired { s with
      cbManager := { s.cbManager with queue := queue }
      fd := Function.update s.fd e fd
      connections := Function.update s.connections fd.toNat (some e) } := by
  have hmem : e.wsConnect ∈ s.cbManager.queue := hqueue ▸ List.mem_cons_self
  have hnone : ∀ fd, s.connections fd ≠ some e := fun fd hfd ↦ h.alone fd e hfd hmem
  have hcount := h.count_le
  simp only [hqueue, List.count_cons, beq_iff_eq, FeedSource.wsConnect_inj] at hcount
  have hnot : e.wsConnect ∉ queue := by
    have hone := hcount e
    rw [if_pos rfl] at hone
    exact List.count_eq_zero.mp (by omega)
  -- a connection is the new one, or one of the other source
  have hcases : ∀ {fd' : ℕ} {e' : FeedSource},
      Function.update s.connections fd.toNat (some e) fd' = some e' →
      (fd' = fd.toNat ∧ e' = e) ∨ (e' ≠ e ∧ s.connections fd' = some e') := by
    intro fd' e' hfd'
    rw [Function.update_apply] at hfd'
    split_ifs at hfd' with heq
    · exact .inl ⟨heq, (Option.some.inj hfd').symm⟩
    · refine .inr ⟨?_, hfd'⟩
      rintro rfl
      exact hnone _ hfd'
  refine ⟨hmanager, h.known, fun fd' e' he' ↦ ?_, fun fd' e' he' ↦ ?_, fun fd' e' he' ↦ ?_,
    fun e' ↦ ?_, fun he ↦ ?_⟩
  · rcases hcases he' with ⟨-, rfl⟩ | ⟨-, hold⟩
    · exact h.manager.known _ hmem
    · exact h.registered _ _ hold
  · rcases hcases he' with ⟨rfl, rfl⟩ | ⟨hne, hold⟩
    · exact (Function.update_self ..).trans (Int.toNat_of_nonneg (Int.le_of_lt hpos)).symm
    · exact (Function.update_of_ne hne ..).trans (h.fd_eq _ _ hold)
  · rcases hcases he' with ⟨-, rfl⟩ | ⟨-, hold⟩
    · exact hnot
    · have halone := h.alone _ _ hold
      rw [hqueue] at halone
      exact fun hin ↦ halone (List.mem_cons_of_mem _ hin)
  · exact Nat.le_trans (Nat.le_add_right ..) (hcount e')
  · exact h.reconnects (hqueue ▸ List.mem_cons_of_mem _ he)

theorem unregister (h : s.Wired) {e : FeedSource} {fd : ℕ} (hfd : s.connections fd = some e)
    (reconnects : ℕ) (hreconnects : e ≠ .kraken → reconnects = s.krakenReconnects) :
    Wired { s with
      connections := Function.update s.connections fd none
      krakenReconnects := reconnects } ∧
      ∀ fd', Function.update s.connections fd none fd' ≠ some e := by
  have hcases : ∀ {fd' : ℕ} {e' : FeedSource},
      Function.update s.connections fd none fd' = some e' →
      fd' ≠ fd ∧ s.connections fd' = some e' := by
    intro fd' e' hfd'
    rw [Function.update_apply] at hfd'
    split_ifs at hfd' with heq
    exact ⟨heq, hfd'⟩
  refine ⟨⟨h.manager, h.known, fun fd' e' he' ↦ h.registered _ _ (hcases he').2,
    fun fd' e' he' ↦ h.fd_eq _ _ (hcases he').2, fun fd' e' he' ↦ h.alone _ _ (hcases he').2,
    h.count_le, fun he ↦ ?_⟩, fun fd' hfd' ↦ ?_⟩
  · have hne : e ≠ .kraken := by
      rintro rfl
      exact h.alone fd _ hfd he
    exact (hreconnects hne).symm ▸ h.reconnects he
  · obtain ⟨hne, hold⟩ := hcases hfd'
    exact hne (Int.ofNat_inj.mp ((h.fd_eq _ _ hold).symm.trans (h.fd_eq _ _ hfd)))

theorem queue_both (h : s.Wired) {e : FeedSource} (hknown : e.wsConnect ∈ s.cbManager.cbMap)
    (hnone : ∀ fd, s.connections fd ≠ some e) (hnot : e.wsConnect ∉ s.cbManager.queue)
    (hreconnects : e = .kraken → s.krakenReconnects ≤ 16)
    (hroom : s.cbManager.queue.length + 2 ≤ EventCBManager.maxSize) :
    ((s.queue e.bookClear).queue e.wsConnect).Wired := by
  have hfirst : (s.queue e.bookClear).Wired := h.queue (h.known e) e.bookClear_ne (by omega)
  have hqueue : s.queue e.bookClear = { s with cbManager :=
      { s.cbManager with queue := s.cbManager.queue ++ [e.bookClear], epollout := true } } := by
    rw [CoypuContext.queue, EventCBManager.queueEvent_of_lt (by omega)]
  rw [hqueue] at hfirst ⊢
  refine hfirst.queue_wsConnect hknown hnone ?_ hreconnects ?_
  · rw [List.mem_append, List.mem_singleton, or_iff_left (e.bookClear_ne e).symm]
    exact hnot
  · rw [List.length_append, List.length_singleton]
    omega

theorem closeSSL (h : s.Wired) {e : FeedSource} {fd : ℕ} (hfd : s.connections fd = some e)
    (hroom : s.cbManager.queue.length + 2 ≤ EventCBManager.maxSize) : (s.closeSSL e fd).Wired := by
  have hknown := h.registered fd e hfd
  have hnot := h.alone fd e hfd
  cases e with
  | gdax =>
    obtain ⟨hwired, hnone⟩ := h.unregister hfd _ fun _ ↦ rfl
    exact hwired.queue_both hknown hnone hnot (fun he ↦ FeedSource.noConfusion he) hroom
  | kraken =>
    obtain ⟨hwired, hnone⟩ := h.unregister hfd (s.krakenReconnects + 1) fun hne ↦ absurd rfl hne
    rw [CoypuContext.closeSSL]
    dsimp only
    split_ifs with hmax
    · exact hwired.queue_both hknown hnone hnot (fun _ ↦ hmax) hroom
    · exact hwired

theorem main (doGdax doKraken : Bool) : (main doGdax doKraken).Wired := by
  have hpossible : Run.Steps EventCBManager.step EventCBManager.Possible .new
      (mainOps doGdax doKraken) := by
    cases doGdax <;> cases doKraken <;> decide
  have hmanager := (Run.Throughout.of_step (fun _ _ hm hop ↦ (hm.step hop).1)
    EventCBManager.inv_new hpossible).last
  have hnone : ∀ {fd : ℕ} {e : FeedSource},
      (CoypuContext.main doGdax doKraken).connections fd ≠ some e := (Option.some_ne_none _).symm
  refine ⟨hmanager, fun e ↦ ?_, fun fd e he ↦ absurd he hnone, fun fd e he ↦ absurd he hnone,
    fun fd e he ↦ absurd he hnone, fun e ↦ ?_, fun _ ↦ Nat.zero_le _⟩
  · cases e <;> cases doGdax <;> cases doKraken <;> decide
  · cases e <;> cases doGdax <;> cases doKraken <;> decide

/-- **A step.** -/
theorem step (h : s.Wired) {op : ContextOp} (hop : s.Possible op) :
    (s.step c n op).1.Wired := by
  cases op with
  | event readable writable =>
    obtain ⟨hqueue, hmap⟩ := s.cbManager.event_keeps readable writable
    have hpossible : s.cbManager.Possible (.event readable writable) := hop
    exact h.congr (h.manager.step hpossible).1 hqueue hmap rfl rfl rfl
  | round fd =>
    rcases round_cases c n h.manager hop with
      ⟨hqueue, m, hm, hm', hmap, heq⟩ | ⟨u, queue, hqueue, hm, heq⟩
    · rw [heq]
      exact h.congr hm (hm'.trans hqueue.symm) hmap rfl rfl rfl
    · rw [heq]
      rcases callback_cases (s := s.popped queue) hop.2.1 u
        with ⟨e, rfl, hcall⟩ | ⟨e, rfl, hcall⟩ | ⟨hne, hcall⟩
      · rw [hcall]
        have hpopped := h.popped hqueue e.bookClear_ne hm
        cases e
        · exact hpopped.congr hm rfl rfl rfl rfl rfl
        · exact hpopped.congr hm rfl rfl rfl rfl rfl
      · rw [hcall]
        exact h.connected hqueue hop.2.1 hm
      · rw [hcall]
        exact h.popped hqueue (fun e ↦ (hne e).2) hm
  | close fd =>
    obtain ⟨hfd, hroom⟩ := hop
    obtain ⟨e, he⟩ := Option.ne_none_iff_exists'.mp hfd
    simp only [CoypuContext.step, he]
    exact h.closeSSL he hroom
  | krakenText fd message => exact h.congr h.manager rfl rfl rfl rfl rfl
  | gdaxText fd message => exact h.congr h.manager rfl rfl rfl rfl rfl
  | adminQueue u =>
    obtain ⟨hu, hne, hroom⟩ := hop
    exact h.queue hu hne (by omega)
  | request request => exact h

end Wired

/-! ## At most one connection -/

/-- A source has at most one connection, which has its file descriptor, or is going to be connected
once. -/
structure ConnectedOnce (s : CoypuContext) : Prop where
  unique : ∀ e fd fd', s.connections fd = some e → s.connections fd' = some e → fd = fd'
  fd_eq : ∀ e fd, s.connections fd = some e → s.fd e = fd
  notQueued : ∀ e fd, s.connections fd = some e → e.wsConnect ∉ s.cbManager.queue
  queuedOnce : ∀ e : FeedSource, s.cbManager.queue.count e.wsConnect ≤ 1

theorem Wired.connectedOnce (h : s.Wired) : s.ConnectedOnce where
  unique _ _ _ hfd hfd' := Int.ofNat_inj.mp ((h.fd_eq _ _ hfd).symm.trans (h.fd_eq _ _ hfd'))
  fd_eq e fd := h.fd_eq fd e
  notQueued e fd := h.alone fd e
  queuedOnce := h.count_le

/-- How often a step connects Kraken. -/
def krakenConnects (t : Option (ContextTrace D)) : ℕ :=
  (t.elim [] ContextTrace.ran).count FeedSource.kraken.wsConnect

theorem krakenConnects_map {α : Type*} {f : α → ContextTrace D} (h : ∀ a, (f a).ran = [])
    (o : Option α) : krakenConnects (o.map f) = 0 := by
  cases o with
  | none => rfl
  | some a =>
    rw [krakenConnects, Option.map_some, Option.elim_some, h]
    rfl

/-- How often Kraken can still be connected. -/
def krakenLeft (s : CoypuContext) : ℕ :=
  if FeedSource.kraken.wsConnect ∈ s.cbManager.queue then 17 - s.krakenReconnects
  else 16 - s.krakenReconnects

theorem krakenLeft_congr (hqueue : FeedSource.kraken.wsConnect ∈ s'.cbManager.queue ↔
    FeedSource.kraken.wsConnect ∈ s.cbManager.queue)
    (hreconnects : s'.krakenReconnects = s.krakenReconnects) : s'.krakenLeft = s.krakenLeft := by
  rw [krakenLeft, krakenLeft, hreconnects]
  exact if_congr hqueue rfl rfl

/-- An event that does not connect Kraken is queued. -/
theorem krakenLeft_queue {u : UInt64} (hu : u ≠ FeedSource.kraken.wsConnect) :
    (s.queue u).krakenLeft = s.krakenLeft := by
  refine krakenLeft_congr ?_ rfl
  rw [queue, EventCBManager.queueEvent]
  split_ifs
  · rw [List.mem_append, List.mem_singleton, or_iff_left hu.symm]
  · exact Iff.rfl

theorem krakenLeft_le : s.krakenLeft ≤ 17 - s.krakenReconnects := by
  unfold krakenLeft
  split_ifs <;> omega

theorem krakenLeft_closeSSL {e : FeedSource} {fd : ℕ}
    (hnot : e = .kraken → FeedSource.kraken.wsConnect ∉ s.cbManager.queue) :
    (s.closeSSL e fd).krakenLeft ≤ s.krakenLeft := by
  cases e with
  | gdax =>
    have heq : (s.closeSSL .gdax fd).krakenLeft = _ := krakenLeft_queue (by decide)
    rw [heq, krakenLeft_queue (by decide)]
    exact Nat.le_refl _
  | kraken =>
    have hleft : s.krakenLeft = 16 - s.krakenReconnects := if_neg (hnot rfl)
    have hreconnects : (s.closeSSL .kraken fd).krakenReconnects = s.krakenReconnects + 1 := by
      rw [closeSSL]
      dsimp only
      split_ifs <;> rfl
    have hle := krakenLeft_le (s := s.closeSSL .kraken fd)
    omega

/-- **A step** pays for the connection that it makes. -/
theorem Wired.krakenLeft_step (h : s.Wired) {op : ContextOp} (hop : s.Possible op) :
    krakenConnects (s.step c n op).2 + (s.step c n op).1.krakenLeft ≤ s.krakenLeft := by
  cases op with
  | event readable writable =>
    refine Nat.le_of_eq ((Nat.zero_add _).trans (krakenLeft_congr ?_ rfl))
    rw [CoypuContext.step, (s.cbManager.event_keeps readable writable).1]
  | round fd =>
    rcases round_cases c n h.manager hop with
      ⟨hqueue, m, -, hm, -, heq⟩ | ⟨u, queue, hqueue, -, heq⟩
    · rw [heq]
      refine Nat.le_of_eq ((Nat.zero_add _).trans (krakenLeft_congr ?_ rfl))
      rw [hm, hqueue]
    · rw [heq]
      -- the events that are left
      have hother : u ≠ FeedSource.kraken.wsConnect → ∀ s' : CoypuContext,
          s'.cbManager.queue = queue → s'.krakenReconnects = s.krakenReconnects →
          [u].count FeedSource.kraken.wsConnect + s'.krakenLeft ≤ s.krakenLeft := by
        intro hu s' hs' hreconnects
        rw [List.count_singleton, if_neg (by simpa using hu), Nat.zero_add]
        refine Nat.le_of_eq (krakenLeft_congr ?_ hreconnects)
        rw [hs', hqueue, List.mem_cons, or_iff_right hu.symm]
      rcases callback_cases (s := s.popped queue) hop.2.1 u
        with ⟨e, rfl, hcall⟩ | ⟨e, rfl, hcall⟩ | ⟨hne, hcall⟩
      · rw [hcall]
        cases e
        · exact hother (FeedSource.bookClear_ne _ _) _ rfl rfl
        · exact hother (FeedSource.bookClear_ne _ _) _ rfl rfl
      · rw [hcall]
        by_cases he : e = .kraken
        · subst he
          have hmem : FeedSource.kraken.wsConnect ∈ s.cbManager.queue := hqueue ▸ List.mem_cons_self
          have hcount := h.count_le .kraken
          rw [hqueue, List.count_cons_self] at hcount
          have hnot : FeedSource.kraken.wsConnect ∉ queue := List.count_eq_zero.mp (by omega)
          have hreconnects := h.reconnects hmem
          have hleft : s.krakenLeft = 17 - s.krakenReconnects := if_pos hmem
          simp only [Option.getD_some, Option.map_some, krakenConnects, Option.elim_some,
            List.count_singleton_self]
          rw [krakenLeft, if_neg hnot, hleft]
          dsimp only
          omega
        · exact hother (mt FeedSource.wsConnect_inj.mp he) _ rfl rfl
      · rw [hcall]
        exact hother (hne .kraken).2 _ rfl rfl
  | close fd =>
    obtain ⟨hfd, hroom⟩ := hop
    obtain ⟨e, he⟩ := Option.ne_none_iff_exists'.mp hfd
    simp only [CoypuContext.step, he]
    refine (Nat.zero_add _).trans_le (krakenLeft_closeSSL ?_)
    rintro rfl
    exact h.alone fd _ he
  | krakenText fd message =>
    exact Nat.le_of_eq ((congrArg (· + _) (krakenConnects_map (fun _ ↦ rfl) _)).trans
      (Nat.zero_add _))
  | gdaxText fd message =>
    exact Nat.le_of_eq ((congrArg (· + _) (krakenConnects_map (fun _ ↦ rfl) _)).trans
      (Nat.zero_add _))
  | adminQueue u => exact Nat.le_of_eq ((Nat.zero_add _).trans (krakenLeft_queue (hop.2.1 .kraken)))
  | request request =>
    exact Nat.le_of_eq ((congrArg (· + _) (krakenConnects_map (fun _ ↦ rfl) _)).trans
      (Nat.zero_add _))

/-- **A feed has one connection** at a time, and Kraken is connected at most 17 times. -/
theorem run_connectsOnce (c : PageLayout) (n : Numbers D) (doGdax doKraken : Bool)
    (ops : List ContextOp) (hops : Run.Steps (step c n) Possible (main doGdax doKraken) ops) :
    Run.Throughout (step c n) ConnectedOnce (main doGdax doKraken) ops ∧
      ((Run.run (step c n) (main doGdax doKraken) ops).2.map krakenConnects).sum ≤ 17 := by
  have hmain := Wired.main doGdax doKraken
  refine ⟨(Run.Throughout.of_step (fun _ _ h hop ↦ h.step hop) hmain hops).mono
    fun _ h ↦ h.connectedOnce, ?_⟩
  have hrun := Run.run_potential (fun _ _ h hop ↦ ⟨h.step hop, h.krakenLeft_step hop⟩) hmain hops
  have hle := krakenLeft_le (s := main doGdax doKraken)
  exact Nat.le_trans (Nat.le_trans (Nat.le_add_right ..) hrun) (Nat.le_trans hle (Nat.sub_le ..))

/-- Kraken is connected, and again when the connection is closed. -/
theorem run_connectsOnce_kraken :
    Run.Throughout (step BookType ⟨id, Gdax.wholeCoins⟩) ConnectedOnce (main false true)
      [.event false true, .event true false, .round 7, .round 8, .close 7, .event false true,
        .event true false, .round 8, .round 8, .round 9] ∧
    ((Run.run (step BookType ⟨id, Gdax.wholeCoins⟩) (main false true)
      [.event false true, .event true false, .round 7, .round 8, .close 7, .event false true,
        .event true false, .round 8, .round 8, .round 9]).2.map krakenConnects).sum ≤ 17 :=
  run_connectsOnce _ _ _ _ _ (by decide)

/-! ## A connection in time -/

/-- A source has a connection, or is going to be connected, unless it is Kraken and has been
connected as often as it may. -/
def Waiting (e : FeedSource) (s : CoypuContext) : Prop :=
  (∃ fd, s.connections fd = some e) ∨ e.wsConnect ∈ s.cbManager.queue ∨
    e = .kraken ∧ 16 < s.krakenReconnects

theorem Waiting.mono {e : FeedSource} (h : s.Waiting e)
    (hconnections : ∀ fd, s.connections fd = some e → s'.connections fd = some e)
    (hqueue : e.wsConnect ∈ s.cbManager.queue → e.wsConnect ∈ s'.cbManager.queue)
    (hreconnects : s.krakenReconnects ≤ s'.krakenReconnects) : s'.Waiting e := by
  rcases h with ⟨fd, hfd⟩ | hmem | ⟨he, hmax⟩
  · exact .inl ⟨fd, hconnections fd hfd⟩
  · exact .inr (.inl (hqueue hmem))
  · exact .inr (.inr ⟨he, Nat.lt_of_lt_of_le hmax hreconnects⟩)

theorem mem_queue_of_mem {u v : UInt64} (h : u ∈ s.cbManager.queue) :
    u ∈ (s.queue v).cbManager.queue := by
  rw [queue, EventCBManager.queueEvent]
  split_ifs
  · exact List.mem_append_left _ h
  · exact h

theorem mem_queue (hroom : s.cbManager.queue.length < EventCBManager.maxSize) (u : UInt64) :
    u ∈ (s.queue u).cbManager.queue := by
  rw [queue, EventCBManager.queueEvent_of_lt hroom]
  exact List.mem_append_right _ (List.mem_singleton_self u)

theorem length_queue_le (s : CoypuContext) (u : UInt64) :
    (s.queue u).cbManager.queue.length ≤ s.cbManager.queue.length + 1 := by
  rw [queue, EventCBManager.queueEvent]
  split_ifs
  · exact Nat.le_of_eq (List.length_append ..)
  · exact Nat.le_succ _

/-- A connection is closed: its source is going to be connected, or is Kraken and has been. -/
theorem waiting_closeSSL (e : FeedSource) (fd : ℕ)
    (hroom : s.cbManager.queue.length + 2 ≤ EventCBManager.maxSize) :
    (s.closeSSL e fd).Waiting e := by
  have hboth : ∀ s' : CoypuContext, s'.cbManager.queue = s.cbManager.queue →
      ((s'.queue e.bookClear).queue e.wsConnect).Waiting e := by
    intro s' hs'
    have hlength := s'.length_queue_le e.bookClear
    rw [hs'] at hlength
    exact .inr (.inl (mem_queue (by omega) _))
  cases e with
  | gdax => exact hboth _ rfl
  | kraken =>
    rw [closeSSL]
    dsimp only
    split_ifs with hmax
    · exact hboth _ rfl
    · exact .inr (.inr ⟨rfl, Nat.not_le.mp hmax⟩)

theorem Waiting.closeSSL {e e' : FeedSource} (h : s.Waiting e) {fd : ℕ} (hne : e' ≠ e)
    (hfd : s.connections fd = some e') : (s.closeSSL e' fd).Waiting e := by
  have hconnections : ∀ fd', s.connections fd' = some e →
      Function.update s.connections fd none fd' = some e := by
    intro fd' hfd'
    refine (Function.update_of_ne ?_ ..).trans hfd'
    rintro rfl
    rw [hfd] at hfd'
    exact hne (Option.some.inj hfd')
  cases e' with
  | gdax =>
    exact h.mono hconnections (fun hmem ↦ mem_queue_of_mem (mem_queue_of_mem hmem)) (Nat.le_refl _)
  | kraken =>
    rw [CoypuContext.closeSSL]
    dsimp only
    split_ifs
    · exact h.mono hconnections (fun hmem ↦ mem_queue_of_mem (mem_queue_of_mem hmem))
        (Nat.le_succ _)
    · exact h.mono hconnections id (Nat.le_succ _)

theorem Waiting.step {e : FeedSource} (hwaiting : s.Waiting e) (h : s.Wired) {op : ContextOp}
    (hop : s.Possible op) : (s.step c n op).1.Waiting e := by
  cases op with
  | event readable writable =>
    refine hwaiting.mono (fun _ hfd ↦ hfd) (fun hmem ↦ ?_) (Nat.le_refl _)
    rwa [CoypuContext.step, (s.cbManager.event_keeps readable writable).1]
  | round fd =>
    rcases round_cases c n h.manager hop with
      ⟨hqueue, m, -, hm, -, heq⟩ | ⟨u, queue, hqueue, -, heq⟩
    · rw [heq]
      refine hwaiting.mono (fun _ hfd ↦ hfd) (fun hmem ↦ ?_) (Nat.le_refl _)
      rwa [hm, ← hqueue]
    · rw [heq]
      have hmem : u ≠ e.wsConnect → e.wsConnect ∈ s.cbManager.queue → e.wsConnect ∈ queue := by
        intro hu hmem
        rwa [hqueue, List.mem_cons, or_iff_right hu.symm] at hmem
      rcases callback_cases (s := s.popped queue) hop.2.1 u
        with ⟨e', rfl, hcall⟩ | ⟨e', rfl, hcall⟩ | ⟨hne, hcall⟩
      · rw [hcall]
        cases e'
        · exact hwaiting.mono (fun _ hfd ↦ hfd) (hmem (FeedSource.bookClear_ne _ _)) (Nat.le_refl _)
        · exact hwaiting.mono (fun _ hfd ↦ hfd) (hmem (FeedSource.bookClear_ne _ _)) (Nat.le_refl _)
      · rw [hcall]
        by_cases heq : e' = e
        · subst heq
          exact .inl ⟨fd.toNat, Function.update_self ..⟩
        · refine hwaiting.mono (fun fd' hfd' ↦ ?_) (hmem (mt FeedSource.wsConnect_inj.mp heq))
            (Nat.le_refl _)
          refine (Function.update_of_ne ?_ ..).trans hfd'
          rintro rfl
          rw [hop.2.2] at hfd'
          exact Option.some_ne_none _ hfd'.symm
      · rw [hcall]
        exact hwaiting.mono (fun _ hfd ↦ hfd) (hmem (hne e).2) (Nat.le_refl _)
  | close fd =>
    obtain ⟨hfd, hroom⟩ := hop
    obtain ⟨e', he'⟩ := Option.ne_none_iff_exists'.mp hfd
    simp only [CoypuContext.step, he']
    by_cases heq : e' = e
    · exact heq ▸ waiting_closeSSL e' fd hroom
    · exact hwaiting.closeSSL heq he'
  | krakenText fd message => exact hwaiting.mono (fun _ hfd ↦ hfd) id (Nat.le_refl _)
  | gdaxText fd message => exact hwaiting.mono (fun _ hfd ↦ hfd) id (Nat.le_refl _)
  | adminQueue u => exact hwaiting.mono (fun _ hfd ↦ hfd) mem_queue_of_mem (Nat.le_refl _)
  | request request => exact hwaiting

/-- A source that `main` connects. -/
def enabled (doGdax doKraken : Bool) : FeedSource → Bool
  | .gdax => doGdax
  | .kraken => doKraken

theorem waiting_main {doGdax doKraken : Bool} {e : FeedSource} (he : enabled doGdax doKraken e) :
    (main doGdax doKraken).Waiting e := by
  refine .inr (.inl ?_)
  cases e <;> cases doGdax <;> cases doKraken <;> revert he <;> decide

/-- An event of the eventfd, or a round, is one of the `EventCBManager`. -/
theorem step_cbManager (h : s.Wired) {op : ContextOp} (hop : s.Possible op) (hevent : op.IsEvent) :
    (s.step c n op).1.cbManager = (s.cbManager.step op.cbOp).1 ∧ s.cbManager.Possible op.cbOp := by
  cases op with
  | event readable writable => exact ⟨rfl, hop⟩
  | round fd =>
    refine ⟨?_, hop.1⟩
    rcases EventCBManager.round_cases h.manager hop.1 with ⟨u, queue, -, heq⟩ | ⟨-, m, heq, -⟩
    · simp only [CoypuContext.step, ContextOp.cbOp, EventCBManager.step, heq]
      rcases callback_cases (s := s.popped queue) hop.2.1 u
        with ⟨e', -, hcall⟩ | ⟨e', -, hcall⟩ | ⟨-, hcall⟩
      · rw [hcall]
        cases e' <;> rfl
      · rw [hcall]
        rfl
      · rw [hcall]
        rfl
    · simp only [CoypuContext.step, ContextOp.cbOp, EventCBManager.step, heq]
  | close fd => exact absurd hevent id
  | krakenText fd message => exact absurd hevent id
  | gdaxText fd message => exact absurd hevent id
  | adminQueue u => exact absurd hevent id
  | request request => exact absurd hevent id

/-- The induction is on the steps. -/
theorem run_cbManager (h : s.Wired) {ops : List ContextOp}
    (hops : Run.Steps (step c n) Possible s ops) (hevents : ∀ op ∈ ops, op.IsEvent) :
    (Run.run (step c n) s ops).1.cbManager =
        (Run.run EventCBManager.step s.cbManager (ops.map ContextOp.cbOp)).1 ∧
      Run.Steps EventCBManager.step EventCBManager.Possible s.cbManager
        (ops.map ContextOp.cbOp) := by
  induction ops generalizing s with
  | nil => exact ⟨rfl, trivial⟩
  | cons op ops ih =>
    obtain ⟨hop, hrest⟩ := hops
    obtain ⟨hevent, hothers⟩ := List.forall_mem_cons.mp hevents
    obtain ⟨heq, hpossible⟩ := step_cbManager (c := c) (n := n) h hop hevent
    obtain ⟨hrun, hsteps⟩ := ih (h.step hop) hrest hothers
    rw [heq] at hrun hsteps
    exact ⟨hrun, hpossible, hsteps⟩

/-- **A feed that is down is connected** before long: when nothing but events and rounds has
happened for as many steps as events are queued, and two more, each feed has its connection, unless
Kraken has had all of its own. -/
theorem run_reconnects (c : PageLayout) (n : Numbers D) (doGdax doKraken : Bool)
    (ops more : List ContextOp) (hops : Run.Steps (step c n) Possible (main doGdax doKraken) ops)
    (hmore : Run.Steps (step c n) Possible (Run.run (step c n) (main doGdax doKraken) ops).1 more)
    (hevents : ∀ op ∈ more, op.IsEvent)
    (hlength : (Run.run (step c n) (main doGdax doKraken) ops).1.cbManager.queue.length + 2 ≤
      more.length) (e : FeedSource) (he : enabled doGdax doKraken e) :
    let s := (Run.run (step c n) (Run.run (step c n) (main doGdax doKraken) ops).1 more).1
    (∃ fd, s.connections fd = some e) ∨ e = .kraken ∧ 16 < s.krakenReconnects := by
  intro s
  have hboth {s : CoypuContext} {ops : List ContextOp} (h : s.Wired ∧ s.Waiting e)
      (hops : Run.Steps (step c n) Possible s ops) :
      (Run.run (step c n) s ops).1.Wired ∧ (Run.run (step c n) s ops).1.Waiting e := by
    have hall : Run.Throughout (step c n) (fun s ↦ s.Wired ∧ s.Waiting e) s ops :=
      Run.Throughout.of_step (fun _ _ h hop ↦ ⟨h.1.step hop, h.2.step h.1 hop⟩) h hops
    exact hall.last
  have hmid := hboth ⟨Wired.main doGdax doKraken, waiting_main he⟩ hops
  obtain ⟨hrun, hsteps⟩ := run_cbManager hmid.1 hmore hevents
  have hqueue : s.cbManager.queue = [] := by
    rw [show s.cbManager = _ from hrun]
    refine hmid.1.manager.queue_eq_nil hsteps (fun op hop ↦ ?_) ?_
    · obtain ⟨op', hop', rfl⟩ := List.mem_map.mp hop
      exact ContextOp.isEvent_cbOp (hevents op' hop')
    · rw [List.length_map]
      exact Nat.le_trans EventCBManager.remaining_le hlength
  have hlast := hboth hmid hmore
  rcases hlast.2 with hfd | hmem | hmax
  · exact .inl hfd
  · rw [show (Run.run (step c n) _ more).1.cbManager.queue = [] from hqueue] at hmem
    exact absurd hmem List.not_mem_nil
  · exact .inr hmax

/-- Kraken is closed, and connected again. -/
theorem run_reconnects_kraken :
    let s := (Run.run (step BookType ⟨id, Gdax.wholeCoins⟩) (Run.run
      (step BookType ⟨id, Gdax.wholeCoins⟩) (main false true)
        [.event false true, .event true false, .round 7, .round 8, .close 7]).1
      [.event false true, .event true false, .round 8, .round 9]).1
    (∃ fd, s.connections fd = some .kraken) ∨
      FeedSource.kraken = .kraken ∧ 16 < s.krakenReconnects :=
  run_reconnects _ _ _ _ _ _ (by decide) (by decide) (by decide) (by decide) _ rfl

end CoypuContext

end Coypu
