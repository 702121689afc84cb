import Coypu.Event.Closing
import Coypu.Server.Clients

/-!
# The servers

The event manager with the tables of the clients. What is put into the publish log is not told by
the notes: marks and writes of a batch are taken in front of it, since no client leaves before the
end of the batch.

Every client is in the tables of its server and is watched, no assertion fails, one that leaves is
in no table any more, and nobody else notices, unless a number is given away in the batch in which
its descriptor hung up (`Servers.run_servesClients`).
-/

set_option autoImplicit false

namespace Coypu

open MultiPositionedStreamLog

variable {publishSize : ℕ}

structure Servers (publishSize : ℕ) where
  eventMgr : EventManager
  clients : Clients publishSize

/-- A callback acts outside of a batch, `Wait` is called, or the publish log is used: by the feeds,
for a mark that a client asks for, or to write to a client. -/
inductive ServersOp
  | act (a : EventAction)
  | wait (b : Batch) (kind : ℕ → Option ServerKind)
  | publish (l : List UInt8) (limit : Option ℕ)
  | mark (fd : ℕ) (offset : UInt64)
  | markEnd (fd : ℕ)
  | write (fd : ℕ) (find : ℕ → Bool) (cb : Transport.Writer)

namespace Servers

variable (s : Servers publishSize)

def new (isOpen : ℕ → Bool) (reserve : ℕ → ℕ → ℕ) (stream : LogRWStream publishSize) :
    Servers publishSize :=
  ⟨EventManager.new isOpen reserve, fun _ ↦ none, fun _ ↦ false,
    MultiPositionedStreamLog.new stream, fun _ _ ↦ false⟩

def setPublish (publish : MultiPositionedStreamLog publishSize) : Servers publishSize :=
  { s with clients := { s.clients with publish := publish } }

/-- The end of `onText`: `EPOLLOUT` is asked for if the mark was made. -/
def marked (fd : ℕ) (r : Bool × MultiPositionedStreamLog publishSize) :
    Servers publishSize × Bool :=
  let s := s.setPublish r.2
  if r.1 then
    let w := s.eventMgr.setWrite fd
    ({ s with eventMgr := w.2 }, decide (w.1 = 0))
  else (s, false)

/-- A step, and whether all went well: `Wait` returned and all assertions held, or the mark was
made and `EPOLLOUT` asked for. -/
def step : ServersOp → Servers publishSize × Bool
  | .act a => ({ s with eventMgr := s.eventMgr.act a }, true)
  | .wait b kind =>
    match s.eventMgr.wait b with
    | none => (s, false)
    | some eventMgr =>
      let r := Run.run (Clients.onNote · kind) s.clients eventMgr.notes
      (⟨eventMgr, r.1⟩, r.2.all id)
  | .publish l limit => (s.setPublish (s.clients.publish.push l limit), true)
  | .mark fd offset => s.marked fd (s.clients.publish.mark fd offset.toNat)
  | .markEnd fd => s.marked fd (s.clients.publish.markEnd fd)
  | .write fd find cb =>
    let log := s.clients.publish
    (s.setPublish (log.writev (log.availableAt fd) fd find cb).2.2, true)

/-- Numbers of descriptors that hung up are not given away before the end of the batch, and no slot
is moved while `Wait` uses it. A client of the websocket service can ask for a mark, and those that
have a stream are written to. -/
def Meets : ServersOp → Prop
  | .act a => s.eventMgr.ActionPossible a
  | .wait b _ => s.eventMgr.BatchPossible b ∧ s.eventMgr.NumbersFresh (.wait b) ∧
      s.eventMgr.ReferencesHold (.wait b)
  | .publish _ _ => True
  | .mark fd _ | .markEnd fd => s.clients.connections .websocket fd = true
  | .write fd _ _ => s.clients.txtBufs fd = true

/-- The tables agree with the slots, and every client is open and watched. -/
structure Consistent : Prop where
  agrees : s.clients.Agrees s.eventMgr.fdToCB
  watched : ∀ fd, s.clients.owner fd ≠ none →
    s.eventMgr.kernel.isOpen fd = true ∧ s.eventMgr.kernel.watched fd ≠ none

/-- What a batch is to the clients. -/
structure BatchServes (b : Batch) (kind : ℕ → Option ServerKind) (s' : Servers publishSize) :
    Prop where
  leave : ∀ e ∈ b.events, s.eventMgr.leaves e = true → s'.clients.owner e.event.fd = none
  stay : ∀ fd, s.clients.owner fd ≠ none →
    (∀ e ∈ b.events, e.event.fd = fd → s.eventMgr.leaves e = false) →
    s'.eventMgr.fdToCB fd = s.eventMgr.fdToCB fd ∧ Clients.Kept s.clients s'.clients fd
  arrive : ∀ fd cb, s.eventMgr.fdToCB fd = none → s'.eventMgr.fdToCB fd = some cb →
    s'.clients.owner fd = Clients.ofCB kind cb ∧ s'.clients.publish.curOffset fd = unset

/-- The step goes well and leaves the tables as they have to be, and a batch does to the clients
what it is to do. -/
def ServesClients (op : ServersOp) : Prop :=
  (s.step op).2 = true ∧ (s.step op).1.Consistent ∧
    ∀ b kind, op = .wait b kind → s.BatchServes b kind (s.step op).1

structure Inv : Prop where
  eventMgr : s.eventMgr.Inv
  agrees : s.clients.Agrees s.eventMgr.fdToCB

variable {s}

theorem Inv.consistent (h : s.Inv) : s.Consistent := by
  refine ⟨h.agrees, fun fd hfd ↦ ?_⟩
  obtain ⟨server, hserver⟩ := Option.ne_none_iff_exists'.mp hfd
  obtain ⟨cb, hcb, -⟩ := (h.agrees fd).owned server hserver
  have hwatched := (h.eventMgr.slots.slot fd cb hcb).2.2.2 (Finset.notMem_empty fd)
  exact ⟨(h.eventMgr.slots.watched fd hwatched).1, hwatched⟩

/-! ## The publish log -/

/-- A change of the log that adds no position but one of a client of the websocket service. -/
theorem Inv.setPublish (h : s.Inv) {publish : MultiPositionedStreamLog publishSize}
    (hlength : publish.curOffsets.length = s.clients.publish.curOffsets.length)
    (hoffset : ∀ fd, publish.curOffset fd ≠ unset →
      s.clients.publish.curOffset fd ≠ unset ∨ s.clients.owner fd = some .websocket) :
    (s.setPublish publish).Inv := by
  refine ⟨h.eventMgr, fun fd ↦ ?_⟩
  obtain ⟨hconnected, hstored, hplaced, hmarked, howned⟩ := h.agrees fd
  refine ⟨hconnected, hstored, fun server hserver hstreams ↦ ?_, fun hset ↦ ?_, howned⟩
  · exact hlength.symm ▸ hplaced server hserver hstreams
  · exact (hoffset fd hset).elim hmarked id

theorem Inv.marked (h : s.Inv) {fd : ℕ} (howner : s.clients.owner fd = some .websocket)
    (offset : ℕ) :
    (s.marked fd (true, s.clients.publish.setOffset fd offset)).2 = true ∧
      (s.marked fd (true, s.clients.publish.setOffset fd offset)).1.Inv := by
  have hplace := (h.agrees fd).placed .websocket howner rfl
  have hlog : (s.setPublish (s.clients.publish.setOffset fd offset)).Inv := by
    refine h.setPublish List.length_set fun fd' hset ↦ ?_
    rw [curOffset_setOffset hplace] at hset
    split_ifs at hset with heq
    · exact Or.inr (heq.symm ▸ howner)
    · exact Or.inl hset
  have hwatched := (h.consistent.watched fd (by rw [howner]; exact Option.some_ne_none _)).2
  have hmodify : s.eventMgr.kernel.epollModify fd true
      = (0, s.eventMgr.kernel.watch fd (some true)) := if_neg hwatched
  refine ⟨?_, hlog.eventMgr.act (a := .setWrite fd) trivial, hlog.agrees⟩
  show decide ((s.eventMgr.kernel.epollModify fd true).1 = 0) = true
  rw [hmodify]
  rfl

theorem Inv.write (h : s.Inv) {fd : ℕ} (find : ℕ → Bool) (cb : Transport.Writer) (size : ℕ) :
    (s.setPublish (s.clients.publish.writev size fd find cb).2.2).Inv := by
  rcases writev_cases s.clients.publish size fd find cb with ⟨hm, -, -⟩ | ⟨v, hset, -, -, -, hm⟩
  · rw [hm]
    exact h.setPublish rfl fun fd' hset ↦ Or.inl hset
  · rw [hm]
    have hplace := lt_of_curOffset_ne hset
    split_ifs
    · refine h.setPublish List.length_set fun fd' hset' ↦ Or.inl ?_
      rw [curOffset_setOffset hplace] at hset'
      split_ifs at hset' with heq
      · exact heq.symm ▸ hset
      · exact hset'
    · exact h.setPublish rfl fun fd' hset ↦ Or.inl hset

/-! ## The event manager -/

theorem Inv.act (h : s.Inv) {a : EventAction} (ha : s.eventMgr.ActionPossible a) :
    (s.step (.act a)).1.Inv := by
  refine ⟨h.eventMgr.act ha, ?_⟩
  cases a with
  | setWrite fd => exact h.agrees
  | accept fd rf wf cf =>
    show s.clients.Agrees (s.eventMgr.act (.accept fd rf wf cf)).fdToCB
    by_cases hfd : fd = 0
    · rw [hfd, EventManager.act_accept_zero]
      exact h.agrees
    · rw [EventManager.act_accept hfd (h.eventMgr.slots.watched_eq_none ha)]
      have hslot := h.eventMgr.slots.slot_eq_none ha (Finset.notMem_empty fd)
      have howner : s.clients.owner fd = none := by
        refine (h.agrees fd).owner_eq_none fun cb hcb ↦ ?_
        rw [hslot] at hcb
        exact absurd hcb (Option.some_ne_none cb).symm
      exact h.agrees.update ((h.agrees fd).of_owner_eq_none howner _)
        fun fd' _ ↦ Clients.Kept.refl s.clients fd'

theorem Inv.wait (h : s.Inv) {b : Batch} (kind : ℕ → Option ServerKind)
    (hb : s.eventMgr.BatchPossible b) (hfresh : s.eventMgr.NumbersFresh (.wait b))
    (hrefs : s.eventMgr.ReferencesHold (.wait b)) :
    (s.step (.wait b kind)).2 = true ∧ (s.step (.wait b kind)).1.Inv ∧
      s.BatchServes b kind (s.step (.wait b kind)).1 := by
  obtain ⟨m₁, m', hloop, hwait, hinv, hphase⟩ := h.eventMgr.wait hb hrefs
  obtain ⟨m'', hwait', hclean, -⟩ :=
    (EventManager.neverConfused_iff h.eventMgr hb).mpr ⟨hfresh, hrefs⟩
  obtain rfl : m'' = m' := Option.some.inj (hwait'.symm.trans hwait)
  have htells := h.eventMgr.wait_told hb hwait
  obtain ⟨hok, hfollows⟩ := Clients.Follows.run h.agrees kind htells.fits hclean
  rw [htells.slots_eq] at hfollows
  have hstep : s.step (.wait b kind) =
      (⟨m'', (Run.run (Clients.onNote · kind) s.clients m''.notes).1⟩,
        (Run.run (Clients.onNote · kind) s.clients m''.notes).2.all id) := by
    simp only [step, hwait]
  rw [hstep]
  refine ⟨List.all_eq_true.mpr hok, ⟨hinv, hfollows.agrees⟩, ?_, ?_, hfollows.arrived⟩
  · intro e he hleaves
    have hclosing := (EventManager.mem_closing_iff hb he).mpr hleaves
    have hslot := hphase.slot_eq e.event.fd
    rw [if_pos ((Finset.mem_sort _).mpr hclosing)] at hslot
    refine (hfollows.agrees e.event.fd).owner_eq_none fun cb hcb ↦ ?_
    rw [hslot] at hcb
    exact absurd hcb (Option.some_ne_none cb).symm
  · intro fd howner hstays
    have hslot : s.eventMgr.fdToCB fd ≠ none := by
      obtain ⟨server, hserver⟩ := Option.ne_none_iff_exists'.mp howner
      obtain ⟨cb, hcb, -⟩ := (h.agrees fd).owned server hserver
      rw [hcb]
      exact Option.some_ne_none cb
    refine hfollows.kept fd hslot fun cb hcb ↦ ?_
    -- the close phase ends the registrations of the descriptors that leave
    have hphaseNotes : ∀ n, n ∈ ((s.eventMgr.progress b).closing.sort (· ≤ ·)).flatMap
        m₁.closeNotes → n ≠ .closeCB cb ∧ n ≠ .unregistered cb := by
      intro n hn
      obtain ⟨fd', hfd', cb', hcb', hn⟩ := EventManager.mem_flatMap_closeNotes hn
      have hne : cb' ≠ cb := by
        rintro rfl
        have hself := (hloop.slots.slot fd' cb' hcb').1
        obtain ⟨e, he, hleaves, hfd⟩ :=
          EventManager.exists_of_mem_closing ((Finset.mem_sort _).mp hfd')
        rw [hstays e he (hfd.trans (hself.symm.trans hcb))] at hleaves
        exact Bool.false_ne_true hleaves
      rcases hn with rfl | rfl
      · exact ⟨fun heq ↦ hne (EventNote.closeCB.inj heq), EventNote.noConfusion⟩
      · exact ⟨EventNote.noConfusion, fun heq ↦ hne (EventNote.unregistered.inj heq)⟩
    rw [hphase.notes_eq, List.mem_append, List.mem_append, not_or, not_or]
    exact ⟨⟨(hloop.quiet cb).1, fun hn ↦ (hphaseNotes _ hn).1 rfl⟩,
      (hloop.quiet cb).2, fun hn ↦ (hphaseNotes _ hn).2 rfl⟩

/-! ## All steps -/

theorem Inv.step (h : s.Inv) {op : ServersOp} (hop : s.Meets op) :
    (s.step op).1.Inv ∧ s.ServesClients op := by
  have hwebsocket : ∀ fd, s.clients.connections .websocket fd = true →
      s.clients.owner fd = some .websocket := fun fd ↦ ((h.agrees fd).connected .websocket).mp
  suffices hstep : (s.step op).2 = true ∧ (s.step op).1.Inv ∧
      ∀ b kind, op = .wait b kind → s.BatchServes b kind (s.step op).1 from
    ⟨hstep.2.1, hstep.1, hstep.2.1.consistent, hstep.2.2⟩
  cases op with
  | act a => exact ⟨rfl, h.act hop, fun b kind hwait ↦ ServersOp.noConfusion hwait⟩
  | wait b kind =>
    obtain ⟨hok, hinv, hserves⟩ := h.wait kind hop.1 hop.2.1 hop.2.2
    refine ⟨hok, hinv, ?_⟩
    rintro _ _ ⟨rfl, rfl⟩
    exact hserves
  | publish l limit =>
    refine ⟨rfl, ?_, fun b kind hwait ↦ ServersOp.noConfusion hwait⟩
    exact h.setPublish rfl fun fd hset ↦ Or.inl hset
  | mark fd offset =>
    have howner := hwebsocket fd hop
    have hplace := (h.agrees fd).placed .websocket howner rfl
    have hmark : s.clients.publish.mark fd offset.toNat
      = (true, s.clients.publish.setOffset fd offset.toNat) := if_pos hplace
    obtain ⟨hok, hinv⟩ := h.marked howner offset.toNat
    rw [← hmark] at hok hinv
    exact ⟨hok, hinv, fun b kind hwait ↦ ServersOp.noConfusion hwait⟩
  | markEnd fd =>
    have howner := hwebsocket fd hop
    have hplace := (h.agrees fd).placed .websocket howner rfl
    have hmark : s.clients.publish.markEnd fd
      = (true, s.clients.publish.setOffset fd s.clients.publish.stream.available) := if_pos hplace
    obtain ⟨hok, hinv⟩ := h.marked howner s.clients.publish.stream.available
    rw [← hmark] at hok hinv
    exact ⟨hok, hinv, fun b kind hwait ↦ ServersOp.noConfusion hwait⟩
  | write fd find cb =>
    exact ⟨rfl, h.write find cb _, fun b kind hwait ↦ ServersOp.noConfusion hwait⟩

theorem inv_new (isOpen : ℕ → Bool) (reserve : ℕ → ℕ → ℕ) (stream : LogRWStream publishSize) :
    (new isOpen reserve stream).Inv := by
  have hnone : ∀ fd server, (new isOpen reserve stream).clients.owner fd ≠ some server :=
    fun fd server ↦ (Option.some_ne_none server).symm
  refine ⟨EventManager.inv_new isOpen reserve,
    fun fd ↦ ⟨?_, ?_, ?_, fun hset ↦ absurd rfl hset, ?_⟩⟩
  · exact fun server ↦ iff_of_false Bool.false_ne_true (hnone fd server)
  · refine iff_of_false Bool.false_ne_true ?_
    rintro ⟨server, hserver, -⟩
    exact hnone fd server hserver
  · exact fun server hserver ↦ absurd hserver (hnone fd server)
  · exact fun server hserver ↦ absurd hserver (hnone fd server)

/-- **The servers serve their clients** in a run in which no number is given away in the batch in
which its descriptor hung up, and no slot is moved while it is used. -/
theorem run_servesClients (isOpen : ℕ → Bool) (reserve : ℕ → ℕ → ℕ)
    (stream : LogRWStream publishSize) (ops : List ServersOp)
    (hok : Run.Steps step Meets (new isOpen reserve stream) ops) :
    Run.Steps step ServesClients (new isOpen reserve stream) ops :=
  Run.Steps.of_invariant (P := Inv) (fun _ _ h hop ↦ (Inv.step h hop).1)
    (fun _ _ h hop ↦ (Inv.step h hop).2) (inv_new isOpen reserve stream) hok

/-- A client of the websocket service asks for a mark and hangs up. Another one is accepted behind
it, for the admin service. -/
def markThenHangUp : List ServersOp :=
  [.act (.accept 3 true false false),
    .wait ⟨[⟨⟨3, true, false, false, false, false, false⟩, ⟨[.accept 4 true true true], 0⟩,
      ⟨[], 0⟩⟩], fun _ ↦ []⟩ (fun _ ↦ some .websocket),
    .mark 4 0,
    .wait ⟨[⟨⟨4, true, false, false, false, false, true⟩, ⟨[], 0⟩, ⟨[], 0⟩⟩,
      ⟨⟨3, true, false, false, false, false, false⟩, ⟨[.accept 5 true true true], 0⟩, ⟨[], 0⟩⟩],
      fun _ ↦ []⟩ (fun _ ↦ some .admin)]

def tenZeros : LogRWStream 2 := LogRWStream.new 2 4096 LogRWStream.smallPage_pos (fun _ ↦ 0) 10
  (by decide)

theorem run_servesClients_marked :
    Run.Steps step ServesClients (new EventManager.standard EventManager.doubled tenZeros)
      markThenHangUp := by
  refine run_servesClients EventManager.standard EventManager.doubled tenZeros _
    ⟨rfl, ⟨⟨?_, ?_, ?_⟩, ?_, ?_⟩, ?_, ⟨⟨?_, ?_, ?_⟩, ?_, ?_, ?_, trivial⟩, trivial⟩
  · intro e he
    rw [List.mem_singleton.mp he]
    exact Option.some_ne_none false
  · exact List.nodup_singleton _
  · exact ⟨fun cb _ ↦ ⟨fun _ ↦ ⟨rfl, trivial⟩, fun _ ↦ trivial⟩, trivial⟩
  · exact List.pairwise_singleton _ _
  · exact ⟨.of_read (le_refl 0) rfl rfl, trivial⟩
  · unfold Meets
    decide +kernel
  · intro e he
    rcases List.mem_pair.mp he with rfl | rfl
    · decide +kernel
    · decide +kernel
  · show ([4, 3] : List ℕ).Nodup
    decide
  · refine ⟨fun cb _ ↦ ⟨fun _ ↦ trivial, fun _ ↦ trivial⟩,
      fun cb _ ↦ ⟨fun _ ↦ ⟨?_, trivial⟩, fun _ ↦ trivial⟩, trivial⟩
    unfold EventManager.ActionPossible
    decide +kernel
  · unfold EventManager.NumbersFresh
    decide +kernel
  · exact .of_accepted_nil rfl rfl
  · exact .of_read (le_refl 0) rfl rfl

end Servers

end Coypu
