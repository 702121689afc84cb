import Coypu.Event.Notes
import Coypu.Store.MultiPositionedStreamLog

/-!
# The clients of the servers

`main` listens for four kinds of clients. A client that is accepted is entered in the tables of its
server and registered for events, and its close callback takes it out again. Along the notes of the
event manager the tables agree with its slots, as long as every registration finds its slot empty
(`Follows.run`).

Of the connections of the four managers only the descriptors are kept here. No client has the number
zero, which is that of the standard input.
-/

set_option autoImplicit false

namespace Coypu

open MultiPositionedStreamLog

variable {publishSize : ℕ}

/-- What a client is accepted for: the websocket and the HTTP/2 service, and the two of
`SetupSimpleServer`. -/
inductive ServerKind
  | websocket
  | http2
  | admin
  | proto
deriving DecidableEq

/-- The clients have a stream for what they send, and a place in the publish log. -/
def ServerKind.streams : ServerKind → Bool
  | websocket | http2 => true
  | admin | proto => false

/-- The tables, and whose callbacks are in a slot of the event manager. -/
structure Clients (publishSize : ℕ) where
  owner : ℕ → Option ServerKind
  txtBufs : ℕ → Bool
  publish : MultiPositionedStreamLog publishSize
  connections : ServerKind → ℕ → Bool

namespace Clients

variable (s : Clients publishSize) (kind : ℕ → Option ServerKind)

def setConnection (server : ServerKind) (fd : ℕ) (present : Bool) : Clients publishSize :=
  { s with
    connections := Function.update s.connections server
      (Function.update (s.connections server) fd present) }

/-- `AcceptWebsocketClient` and `AcceptHTTP2Client`, up to the registration for events. There is
nothing if an assertion fails. -/
def acceptStreaming (server : ServerKind) (fd : ℕ) : Option (Clients publishSize) :=
  let s := { s with txtBufs := Function.update s.txtBufs fd true }
  if s.publish.curOffset fd ≠ unset then none
  else
    let s := { s with publish := s.publish.register fd unset }
    if s.connections server fd then none else some (s.setConnection server fd true)

/-- The callback of a descriptor that is listened on. -/
def acceptCB (fd : ℕ) : ServerKind → Option (Clients publishSize)
  | .websocket => s.acceptStreaming .websocket fd
  | .http2 => s.acceptStreaming .http2 fd
  | .admin => some (s.setConnection .admin fd true)
  | .proto => some (s.setConnection .proto fd true)

def closeStreaming (server : ServerKind) (fd : ℕ) : Clients publishSize :=
  let s := { s with publish := (s.publish.unregister fd).2 }
  let s := s.setConnection server fd false
  { s with txtBufs := Function.update s.txtBufs fd false }

/-- The close callback of a client. -/
def closeCB (fd : ℕ) : ServerKind → Clients publishSize
  | .websocket => s.closeStreaming .websocket fd
  | .http2 => s.closeStreaming .http2 fd
  | .admin => s.setConnection .admin fd false
  | .proto => s.setConnection .proto fd false

def setOwner (fd : ℕ) (server : Option ServerKind) : Clients publishSize :=
  { s with owner := Function.update s.owner fd server }

/-- Whose client is registered. `kind` says what the descriptors that are accepted are. What has no
close callback is nobody's client. -/
def ofCB (cb : EventCB) : Option ServerKind := if cb.cf then kind cb.fd else none

/-- What was done when the note was made, and whether all assertions hold. -/
def onNote : EventNote → Clients publishSize × Bool
  | .registered cb found =>
    match ofCB kind cb with
    | none => (s.setOwner cb.fd none, found.isNone)
    | some server =>
      match s.acceptCB cb.fd server with
      | none => (s, false)
      | some s' => (s'.setOwner cb.fd (some server), found.isNone)
  | .closeCB cb => (((s.owner cb.fd).elim s (s.closeCB cb.fd)).setOwner cb.fd none, true)
  | .unregistered cb => (s.setOwner cb.fd none, true)
  | .closed _ => (s, true)

/-- Of a descriptor everything is as it was. -/
structure Kept (s s' : Clients publishSize) (fd : ℕ) : Prop where
  owner_eq : s'.owner fd = s.owner fd
  txtBufs_eq : s'.txtBufs fd = s.txtBufs fd
  curOffset_eq : s'.publish.curOffset fd = s.publish.curOffset fd
  length_le : s.publish.curOffsets.length ≤ s'.publish.curOffsets.length
  connections_eq : ∀ server, s'.connections server fd = s.connections server fd

/-- A client is in the tables of its server and in no others. It has a slot, with a close callback.
Where there is none, the tables have nothing. -/
structure AgreesAt (slot : Option EventCB) (s : Clients publishSize) (fd : ℕ) : Prop where
  connected : ∀ server, s.connections server fd = true ↔ s.owner fd = some server
  stored : s.txtBufs fd = true ↔ ∃ server ∈ s.owner fd, server.streams = true
  placed : ∀ server ∈ s.owner fd, server.streams = true → fd < s.publish.curOffsets.length
  marked : s.publish.curOffset fd ≠ unset → s.owner fd = some .websocket
  owned : ∀ server, s.owner fd = some server → ∃ cb, slot = some cb ∧ cb.cf = true

/-- The tables agree with the slots. -/
def Agrees (slots : ℕ → Option EventCB) (s : Clients publishSize) : Prop :=
  ∀ fd, AgreesAt (slots fd) s fd

variable {s kind} {s' s'' : Clients publishSize} {fd : ℕ} {server : ServerKind}
  {slot slot' : Option EventCB} {slots slots₀ : ℕ → Option EventCB}

/-! ## One descriptor -/

namespace Kept

theorem refl (s : Clients publishSize) (fd : ℕ) : Kept s s fd :=
  ⟨rfl, rfl, rfl, Nat.le_refl _, fun _ ↦ rfl⟩

theorem trans (h : Kept s s' fd) (h' : Kept s' s'' fd) : Kept s s'' fd :=
  ⟨h'.owner_eq.trans h.owner_eq, h'.txtBufs_eq.trans h.txtBufs_eq,
    h'.curOffset_eq.trans h.curOffset_eq, Nat.le_trans h.length_le h'.length_le,
    fun server ↦ (h'.connections_eq server).trans (h.connections_eq server)⟩

theorem setConnection {fd' : ℕ} (hne : fd ≠ fd') (s : Clients publishSize) (server : ServerKind)
    (present : Bool) : Kept s (s.setConnection server fd' present) fd := by
  refine ⟨rfl, rfl, rfl, Nat.le_refl _, fun server' ↦ ?_⟩
  simp only [Clients.setConnection, Function.update_apply]
  split_ifs with heq
  · rw [heq]
    exact Function.update_of_ne hne ..
  · rfl

theorem setOwner {fd' : ℕ} (hne : fd ≠ fd') (s : Clients publishSize) (server : Option ServerKind) :
    Kept s (s.setOwner fd' server) fd :=
  ⟨Function.update_of_ne hne .., rfl, rfl, Nat.le_refl _, fun _ ↦ rfl⟩

end Kept

theorem acceptStreaming_eq (hunset : s.publish.curOffset fd = unset)
    (hnone : s.connections server fd = false) : s.acceptStreaming server fd
      = some ({ s with
        txtBufs := Function.update s.txtBufs fd true
        publish := s.publish.register fd unset }.setConnection server fd true) := by
  unfold acceptStreaming
  simp only [hunset, hnone, ne_eq, not_true_eq_false, if_false, Bool.false_eq_true]

theorem length_register (log : MultiPositionedStreamLog publishSize) (fd offset : ℕ) :
    log.curOffsets.length ≤ (log.register fd offset).curOffsets.length ∧
      fd < (log.register fd offset).curOffsets.length := by
  simp only [register, List.length_set, List.length_append, List.length_replicate]
  omega

theorem curOffset_unregister (log : MultiPositionedStreamLog publishSize) (fd fd' : ℕ) :
    (log.unregister fd).2.curOffset fd' = (if fd' = fd then unset else log.curOffset fd') ∧
      (log.unregister fd).2.curOffsets.length = log.curOffsets.length := by
  unfold unregister
  by_cases hle : log.curOffsets.length ≤ fd
  · rw [if_pos hle]
    refine ⟨?_, rfl⟩
    split_ifs with heq
    · rw [heq]
      exact curOffset_of_le hle
    · rfl
  · rw [if_neg hle]
    exact ⟨curOffset_setOffset (Nat.lt_of_not_le hle), List.length_set⟩

theorem kept_acceptCB {fd' : ℕ} (hne : fd ≠ fd') (h : s.acceptCB fd' server = some s') :
    Kept s s' fd := by
  have hstreaming : ∀ {server}, s.acceptStreaming server fd' = some s' → Kept s s' fd := by
    intro server h
    unfold acceptStreaming at h
    simp only at h
    split_ifs at h
    rw [← Option.some.inj h]
    have hfirst : Kept s { s with
        txtBufs := Function.update s.txtBufs fd' true
        publish := s.publish.register fd' unset } fd := by
      refine ⟨rfl, Function.update_of_ne hne .., ?_, (length_register ..).1, fun _ ↦ rfl⟩
      exact curOffset_register.trans (if_neg hne)
    exact hfirst.trans (Kept.setConnection hne _ server true)
  cases server with
  | websocket => exact hstreaming h
  | http2 => exact hstreaming h
  | admin => exact Option.some.inj h ▸ Kept.setConnection hne s .admin true
  | proto => exact Option.some.inj h ▸ Kept.setConnection hne s .proto true

theorem kept_closeCB {fd' : ℕ} (hne : fd ≠ fd') (server : ServerKind) :
    Kept s (s.closeCB fd' server) fd := by
  have hstreaming (server : ServerKind) : Kept s (s.closeStreaming server fd') fd := by
    obtain ⟨hoffset, hlength⟩ := curOffset_unregister s.publish fd' fd
    rw [if_neg hne] at hoffset
    have hfirst : Kept s { s with publish := (s.publish.unregister fd').2 } fd :=
      ⟨rfl, rfl, hoffset, Nat.le_of_eq hlength.symm, fun _ ↦ rfl⟩
    refine (hfirst.trans (Kept.setConnection hne _ server false)).trans ?_
    exact ⟨rfl, Function.update_of_ne hne .., rfl, Nat.le_refl _, fun _ ↦ rfl⟩
  cases server with
  | websocket => exact hstreaming .websocket
  | http2 => exact hstreaming .http2
  | admin => exact Kept.setConnection hne s .admin false
  | proto => exact Kept.setConnection hne s .proto false

namespace AgreesAt

theorem congr (h : AgreesAt slot s fd) (hkept : Kept s s' fd) : AgreesAt slot s' fd where
  connected server := by
    rw [hkept.connections_eq, hkept.owner_eq]
    exact h.connected server
  stored := by
    rw [hkept.txtBufs_eq, hkept.owner_eq]
    exact h.stored
  placed server hserver hstreams := by
    rw [hkept.owner_eq] at hserver
    exact Nat.lt_of_lt_of_le (h.placed server hserver hstreams) hkept.length_le
  marked hset := by
    rw [hkept.curOffset_eq] at hset
    rw [hkept.owner_eq]
    exact h.marked hset
  owned server hserver := by
    rw [hkept.owner_eq] at hserver
    exact h.owned server hserver

theorem owner_eq_none (h : AgreesAt slot s fd) (hslot : ∀ cb ∈ slot, cb.cf = false) :
    s.owner fd = none := by
  cases howner : s.owner fd with
  | none => rfl
  | some server =>
    obtain ⟨cb, hcb, hcf⟩ := h.owned server howner
    rw [hslot cb hcb] at hcf
    exact absurd hcf Bool.false_ne_true

theorem absent (h : AgreesAt slot s fd) (howner : s.owner fd = none) :
    (∀ server, s.connections server fd = false) ∧ s.txtBufs fd = false ∧
      s.publish.curOffset fd = unset := by
  refine ⟨fun server ↦ ?_, ?_, ?_⟩
  · rw [← Bool.not_eq_true, h.connected server, howner]
    exact (Option.some_ne_none server).symm
  · rw [← Bool.not_eq_true, h.stored, howner]
    rintro ⟨server, hserver, -⟩
    exact absurd hserver (Option.some_ne_none server).symm
  · by_contra hset
    rw [h.marked hset] at howner
    exact Option.some_ne_none _ howner

/-- Where the tables have nothing, nobody's client can be registered, and a slot can be given
up. -/
theorem of_absent (hconnections : ∀ server, s.connections server fd = false)
    (htxtBufs : s.txtBufs fd = false) (hoffset : s.publish.curOffset fd = unset)
    (slot : Option EventCB) : AgreesAt slot (s.setOwner fd none) fd := by
  have howner : (s.setOwner fd none).owner fd = none := Function.update_self ..
  have hnone : ∀ server, ¬(s.setOwner fd none).owner fd = some server := fun server ↦ by
    rw [howner]
    exact (Option.some_ne_none server).symm
  refine ⟨fun server ↦ iff_of_false ?_ (hnone server), iff_of_false ?_ ?_, ?_, ?_, ?_⟩
  · exact (hconnections server).symm ▸ Bool.false_ne_true
  · exact htxtBufs.symm ▸ Bool.false_ne_true
  · rintro ⟨server, hserver, -⟩
    exact hnone server hserver
  · exact fun server hserver ↦ absurd hserver (hnone server)
  · exact fun hset ↦ absurd hoffset hset
  · exact fun server hserver ↦ absurd hserver (hnone server)

/-- **A client** is accepted. -/
theorem acceptCB (h : AgreesAt slot s fd) (howner : s.owner fd = none) (server : ServerKind)
    {cb : EventCB} (hcf : cb.cf = true) :
    ∃ s', s.acceptCB fd server = some s' ∧ s'.publish.curOffset fd = unset ∧
      AgreesAt (some cb) (s'.setOwner fd (some server)) fd := by
  obtain ⟨hconnections, htxtBufs, hoffset⟩ := h.absent howner
  -- the connections of the server have the descriptor then
  have hset : ∀ (t : Clients publishSize) (server server' : ServerKind),
      t.connections = s.connections →
      ((t.setConnection server fd true).connections server' fd = true ↔
        some server = some server') := by
    intro t server server' ht
    simp only [setConnection, ht, Function.update_apply]
    split_ifs with heq
    · simp [heq]
    · rw [hconnections]
      simp [Ne.symm heq]
  have howned : ∀ server', some server = some server' → ∃ cb', some cb = some cb' ∧ cb'.cf = true :=
    fun _ _ ↦ ⟨cb, rfl, hcf⟩
  have hself (t : Clients publishSize) : (t.setOwner fd (some server)).owner fd = some server :=
    Function.update_self ..
  have hunset : (s.publish.register fd unset).curOffset fd = unset :=
    curOffset_register.trans (if_pos rfl)
  have hstreaming : server.streams = true → ∃ s', s.acceptStreaming server fd = some s' ∧
      s'.publish.curOffset fd = unset ∧
      AgreesAt (some cb) (s'.setOwner fd (some server)) fd := by
    intro hstreams
    refine ⟨_, acceptStreaming_eq hoffset (hconnections server), hunset, ?_⟩
    refine ⟨fun server' ↦ ?_, ?_, fun _ _ _ ↦ (length_register ..).2, fun hne ↦ ?_, ?_⟩
    · rw [hself]
      exact hset _ server server' rfl
    · rw [hself]
      exact iff_of_true (Function.update_self ..) ⟨server, rfl, hstreams⟩
    · exact absurd hunset hne
    · rw [hself]
      exact howned
  have hsimple : server.streams = false →
      AgreesAt (some cb) ((s.setConnection server fd true).setOwner fd (some server)) fd := by
    intro hstreams
    refine ⟨fun server' ↦ ?_, ?_, fun server' hserver' hstreams' ↦ ?_, fun hne ↦ ?_, ?_⟩
    · rw [hself]
      exact hset s server server' rfl
    · rw [hself]
      refine iff_of_false (htxtBufs.symm ▸ Bool.false_ne_true) ?_
      rintro ⟨server', hserver', hstreams'⟩
      rw [← Option.some.inj hserver', hstreams] at hstreams'
      exact Bool.false_ne_true hstreams'
    · rw [hself] at hserver'
      rw [← Option.some.inj hserver', hstreams] at hstreams'
      exact absurd hstreams' Bool.false_ne_true
    · exact absurd hoffset hne
    · rw [hself]
      exact howned
  cases server with
  | websocket => exact hstreaming rfl
  | http2 => exact hstreaming rfl
  | admin => exact ⟨_, rfl, hoffset, hsimple rfl⟩
  | proto => exact ⟨_, rfl, hoffset, hsimple rfl⟩

/-- **A client leaves.** -/
theorem closeCB (h : AgreesAt slot s fd) (slot' : Option EventCB) :
    AgreesAt slot' (((s.owner fd).elim s (s.closeCB fd)).setOwner fd none) fd := by
  cases howner : s.owner fd with
  | none =>
    obtain ⟨hconnections, htxtBufs, hoffset⟩ := h.absent howner
    exact of_absent hconnections htxtBufs hoffset slot'
  | some server =>
    have hothers : ∀ (t : Clients publishSize) (server' : ServerKind),
        t.connections = s.connections →
        (t.setConnection server fd false).connections server' fd = false := by
      intro t server' ht
      simp only [setConnection, ht, Function.update_apply]
      split_ifs with heq
      · simp
      · rw [← Bool.not_eq_true, h.connected, howner]
        exact fun hsome ↦ heq (Option.some.inj hsome).symm
    have hoffset : (s.publish.unregister fd).2.curOffset fd = unset :=
      (curOffset_unregister s.publish fd fd).1.trans (if_pos rfl)
    have hsimple : server.streams = false →
        AgreesAt slot' ((s.setConnection server fd false).setOwner fd none) fd := by
      intro hstreams
      refine of_absent (fun server' ↦ hothers s server' rfl) ?_ ?_ slot'
      · rw [← Bool.not_eq_true]
        refine fun htxt ↦ ?_
        obtain ⟨server', hserver', hstreams'⟩ := h.stored.mp htxt
        rw [howner] at hserver'
        rw [← Option.some.inj hserver', hstreams] at hstreams'
        exact Bool.false_ne_true hstreams'
      · by_contra hset
        have hweb := h.marked hset
        rw [howner] at hweb
        rw [Option.some.inj hweb] at hstreams
        exact Bool.noConfusion hstreams
    cases server with
    | websocket =>
      exact of_absent (s := s.closeStreaming .websocket fd) (fun server' ↦ hothers _ server' rfl)
        (Function.update_self ..) hoffset slot'
    | http2 =>
      exact of_absent (s := s.closeStreaming .http2 fd) (fun server' ↦ hothers _ server' rfl)
        (Function.update_self ..) hoffset slot'
    | admin => exact hsimple rfl
    | proto => exact hsimple rfl

theorem of_owner_eq_none (h : AgreesAt slot s fd) (howner : s.owner fd = none)
    (slot' : Option EventCB) : AgreesAt slot' s fd := by
  refine ⟨h.connected, h.stored, h.placed, h.marked, fun server hserver ↦ ?_⟩
  rw [howner] at hserver
  exact absurd hserver (Option.some_ne_none server).symm

end AgreesAt

/-! ## One note -/

theorem Agrees.update (h : Agrees slots s) (hself : AgreesAt slot s' fd)
    (hothers : ∀ fd', fd' ≠ fd → Kept s s' fd') : Agrees (Function.update slots fd slot) s' := by
  intro fd'
  by_cases heq : fd' = fd
  · rw [heq, Function.update_self]
    exact hself
  · rw [Function.update_of_ne heq]
    exact (h fd').congr (hothers fd' heq)

theorem Agrees.registered (kind : ℕ → Option ServerKind) (h : Agrees slots s) {cb : EventCB}
    (hslot : slots cb.fd = none) :
    ∃ s', s.onNote kind (.registered cb none) = (s', true) ∧
      Agrees (Function.update slots cb.fd (some cb)) s' ∧ (∀ fd, fd ≠ cb.fd → Kept s s' fd) ∧
      s'.owner cb.fd = ofCB kind cb ∧ s'.publish.curOffset cb.fd = unset := by
  have howner : s.owner cb.fd = none := by
    refine (h cb.fd).owner_eq_none fun cb' hcb' ↦ ?_
    rw [hslot] at hcb'
    exact absurd hcb' (Option.some_ne_none cb').symm
  cases hserver : ofCB kind cb with
  | none =>
    obtain ⟨hconnections, htxtBufs, hoffset⟩ := (h cb.fd).absent howner
    have hothers : ∀ fd, fd ≠ cb.fd → Kept s (s.setOwner cb.fd none) fd :=
      fun fd hne ↦ Kept.setOwner hne s none
    refine ⟨s.setOwner cb.fd none, ?_, ?_, hothers, Function.update_self .., hoffset⟩
    · simp only [onNote, hserver, Option.isNone_none]
    · exact h.update (AgreesAt.of_absent hconnections htxtBufs hoffset _) hothers
  | some server =>
    have hcf : cb.cf = true := by
      unfold ofCB at hserver
      split_ifs at hserver with hcf
      exact hcf
    obtain ⟨s', hs', hunset, hagrees⟩ := (h cb.fd).acceptCB howner server hcf
    have hothers : ∀ fd, fd ≠ cb.fd → Kept s (s'.setOwner cb.fd (some server)) fd :=
      fun fd hne ↦ (kept_acceptCB hne hs').trans (Kept.setOwner hne s' _)
    refine ⟨s'.setOwner cb.fd (some server), ?_, ?_, hothers, Function.update_self .., hunset⟩
    · simp only [onNote, hserver, hs', Option.isNone_none]
    · exact h.update hagrees hothers

theorem Agrees.closeCB (kind : ℕ → Option ServerKind) (h : Agrees slots s) (cb : EventCB) :
    Agrees (Function.update slots cb.fd none) (s.onNote kind (.closeCB cb)).1 ∧
      ∀ fd, fd ≠ cb.fd → Kept s (s.onNote kind (.closeCB cb)).1 fd := by
  have hothers : ∀ fd, fd ≠ cb.fd → Kept s (s.onNote kind (.closeCB cb)).1 fd := by
    intro fd hne
    refine Kept.trans ?_ (Kept.setOwner hne _ none)
    cases s.owner cb.fd with
    | none => exact Kept.refl s fd
    | some server => exact kept_closeCB hne server
  exact ⟨h.update ((h cb.fd).closeCB none) hothers, hothers⟩

theorem Agrees.unregistered (kind : ℕ → Option ServerKind) (h : Agrees slots s) {cb : EventCB}
    (hfits : (EventNote.unregistered cb).Fits slots) :
    Agrees (Function.update slots cb.fd none) (s.onNote kind (.unregistered cb)).1 ∧
      ∀ fd, fd ≠ cb.fd → Kept s (s.onNote kind (.unregistered cb)).1 fd := by
  have hothers : ∀ fd, fd ≠ cb.fd → Kept s (s.onNote kind (.unregistered cb)).1 fd :=
    fun fd hne ↦ Kept.setOwner hne s none
  have howner : s.owner cb.fd = none := by
    refine (h cb.fd).owner_eq_none fun cb' hcb' ↦ ?_
    rw [EventNote.Fits] at hfits
    rw [hfits] at hcb'
    split_ifs at hcb' with hcf
    · exact absurd hcb' (Option.some_ne_none cb').symm
    · rw [← Option.some.inj hcb']
      exact Bool.eq_false_of_not_eq_true hcf
  obtain ⟨hconnections, htxtBufs, hoffset⟩ := (h cb.fd).absent howner
  exact ⟨h.update (AgreesAt.of_absent hconnections htxtBufs hoffset _) hothers, hothers⟩

/-! ## The notes of a batch -/

/-- Where the tables are behind the notes, from `s₀` and `slots₀` on. -/
structure Follows (kind : ℕ → Option ServerKind) (slots₀ : ℕ → Option EventCB)
    (s₀ : Clients publishSize) (notes : List EventNote) (slots : ℕ → Option EventCB)
    (s : Clients publishSize) : Prop where
  agrees : Agrees slots s
  kept : ∀ fd, slots₀ fd ≠ none →
    (∀ cb, cb.fd = fd → .closeCB cb ∉ notes ∧ .unregistered cb ∉ notes) →
    slots fd = slots₀ fd ∧ Kept s₀ s fd
  arrived : ∀ fd cb, slots₀ fd = none → slots fd = some cb →
    s.owner fd = ofCB kind cb ∧ s.publish.curOffset fd = unset

namespace Follows

variable {s₀ : Clients publishSize} {notes : List EventNote}

theorem not_mem_of_append {n : EventNote}
    (h : ∀ cb : EventCB, cb.fd = fd →
      .closeCB cb ∉ notes ++ [n] ∧ .unregistered cb ∉ notes ++ [n]) :
    (∀ cb : EventCB, cb.fd = fd → .closeCB cb ∉ notes ∧ .unregistered cb ∉ notes) ∧
      ∀ cb : EventCB, n = .closeCB cb ∨ n = .unregistered cb → fd ≠ cb.fd := by
  simp only [List.mem_append, List.mem_singleton, not_or] at h
  refine ⟨fun cb hcb ↦ ⟨(h cb hcb).1.1, (h cb hcb).2.1⟩, ?_⟩
  rintro cb (hn | hn) hcb
  · exact (h cb hcb.symm).1.2 hn.symm
  · exact (h cb hcb.symm).2.2 hn.symm

theorem ended (h : Follows kind slots₀ s₀ notes slots s) {n : EventNote} {cb : EventCB}
    (hn : n = .closeCB cb ∨ n = .unregistered cb)
    (hagrees : Agrees (Function.update slots cb.fd none) (s.onNote kind n).1)
    (hothers : ∀ fd, fd ≠ cb.fd → Kept s (s.onNote kind n).1 fd) :
    Follows kind slots₀ s₀ (notes ++ [n]) (Function.update slots cb.fd none)
      (s.onNote kind n).1 := by
  refine ⟨hagrees, fun fd hfd hquiet ↦ ?_, fun fd cb' hfd hslot ↦ ?_⟩
  · obtain ⟨hquiet, hends⟩ := not_mem_of_append hquiet
    have hne := hends cb hn
    obtain ⟨hslot, hkept⟩ := h.kept fd hfd hquiet
    exact ⟨(Function.update_of_ne hne ..).trans hslot, hkept.trans (hothers fd hne)⟩
  · simp only [Function.update_apply] at hslot
    split_ifs at hslot with heq
    rw [(hothers fd heq).owner_eq, (hothers fd heq).curOffset_eq]
    exact h.arrived fd cb' hfd hslot

theorem step (h : Follows kind slots₀ s₀ notes slots s) {n : EventNote} (hfits : n.Fits slots)
    (hclean : ∀ cb found, n = .registered cb found → found = none) :
    (s.onNote kind n).2 = true ∧
      Follows kind slots₀ s₀ (notes ++ [n]) (n.tell slots).1 (s.onNote kind n).1 := by
  cases n with
  | registered cb found =>
    obtain rfl := hclean cb found rfl
    obtain ⟨s', hs', hagrees, hothers, howner, hunset⟩ := h.agrees.registered kind hfits.symm
    rw [hs']
    refine ⟨rfl, hagrees, fun fd hfd hquiet ↦ ?_, fun fd cb' hfd hslot ↦ ?_⟩
    · obtain ⟨hslot, hkept⟩ := h.kept fd hfd (not_mem_of_append hquiet).1
      have hne : fd ≠ cb.fd := by
        rintro rfl
        exact hfd (hslot.symm.trans hfits.symm)
      exact ⟨(Function.update_of_ne hne ..).trans hslot, hkept.trans (hothers fd hne)⟩
    · simp only [EventNote.tell, Function.update_apply] at hslot
      split_ifs at hslot with heq
      · rw [heq, ← Option.some.inj hslot]
        exact ⟨howner, hunset⟩
      · rw [(hothers fd heq).owner_eq, (hothers fd heq).curOffset_eq]
        exact h.arrived fd cb' hfd hslot
  | closeCB cb =>
    obtain ⟨hagrees, hothers⟩ := h.agrees.closeCB kind cb
    exact ⟨rfl, h.ended (.inl rfl) hagrees hothers⟩
  | unregistered cb =>
    obtain ⟨hagrees, hothers⟩ := h.agrees.unregistered kind hfits
    exact ⟨rfl, h.ended (.inr rfl) hagrees hothers⟩
  | closed fd =>
    refine ⟨rfl, h.agrees, fun fd' hfd hquiet ↦ ?_, h.arrived⟩
    exact h.kept fd' hfd (not_mem_of_append hquiet).1

/-- **The tables follow the notes.** The induction is on the notes. -/
theorem run (h : Agrees slots₀ s₀) (kind : ℕ → Option ServerKind)
    (hfits : Run.Steps EventNote.tell EventNote.Fits slots₀ notes)
    (hclean : ∀ cb found, .registered cb found ∈ notes → found = none) :
    (∀ ok ∈ (Run.run (onNote · kind) s₀ notes).2, ok = true) ∧
      Follows kind slots₀ s₀ notes (Run.run EventNote.tell slots₀ notes).1
        (Run.run (onNote · kind) s₀ notes).1 := by
  induction notes using List.reverseRecOn with
  | nil =>
    refine ⟨fun ok hok ↦ absurd hok List.not_mem_nil, h, fun fd _ _ ↦ ⟨rfl, Kept.refl s₀ fd⟩, ?_⟩
    intro fd cb hfd hslot
    exact absurd (hfd.symm.trans hslot) (Option.some_ne_none cb).symm
  | append_singleton notes n ih =>
    rw [Run.steps_concat] at hfits
    have hearlier : ∀ cb found, .registered cb found ∈ notes → found = none :=
      fun cb found hmem ↦ hclean cb found (List.mem_append_left _ hmem)
    obtain ⟨hok, hfollows⟩ := ih hfits.1 hearlier
    have hlast : ∀ cb found, n = .registered cb found → found = none := by
      rintro cb found rfl
      exact hclean cb found (List.mem_append_right _ (List.mem_singleton_self _))
    obtain ⟨hone, hnext⟩ := hfollows.step hfits.2 hlast
    rw [Run.run_concat_snd, Run.run_concat, Run.run_concat]
    refine ⟨fun ok hmem ↦ ?_, hnext⟩
    rcases List.mem_append.mp hmem with hmem | hmem
    · exact hok ok hmem
    · rw [List.mem_singleton.mp hmem]
      exact hone

end Follows

end Clients

end Coypu
