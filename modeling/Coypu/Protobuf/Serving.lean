import Coypu.Buf.Writev
import Coypu.Protobuf.Dispatching
import Coypu.Protobuf.Responding

/-!
# Requests and responses

A connection of the proto socket has both a read buffer and a write buffer. `Read` hands a request
to the callback, which writes the response, and `Write` sends what waits. So each request that has
arrived in full is answered once, on the connection that it came from, and the peer gets the
responses in the order of its requests (`ProtoServer.Answers`), whatever the other connections do
and however the descriptors are used again.

What the callback answers depends on more than the request; the function that it is at the time of
a `Read` is an argument of that step.
-/

set_option autoImplicit false

namespace Coypu

open FlatMemory Transport

/-- A manager with both sides of its connections, the requests of each with their responses, and the
bytes that each peer received. -/
structure ProtoServer (Req Resp : Type) where
  feed : ProtoFeed Req
  responder : ProtoResponder
  served : ℕ → List (Dispatch Req × Resp)
  received : ℕ → List UInt8

inductive ServerOp (Req Resp : Type) where
  | register (fd : ℕ)
  | unregister (fd : ℕ)
  | read (fd : ℕ) (cb : Reader UInt8) (processRequest : Req → Resp)
  | write (fd : ℕ) (cb : Writer)

/-- At most one request is dispatched, for the descriptor that is read from. -/
theorem ProtoConnection.process_events {Req : Type} {lib : ProtoLib Req} {fd : ℕ}
    {con con' : ProtoConnection} {request request' : Req} {events : List (Dispatch Req)}
    (h : con.process lib fd request = some (events, con', request')) :
    events = [] ∨ ∃ d, events = [d] ∧ d.fd = fd := by
  rw [process] at h
  split_ifs at h with havail
  · obtain ⟨c, -, h⟩ := Option.bind_eq_some_iff.mp h
    split_ifs at h with hsize
    · rw [dispatch] at h
      obtain ⟨r, -, h⟩ := Option.bind_eq_some_iff.mp h
      split_ifs at h
      cases hcb : lib.cb with
      | none =>
        rw [hcb] at h
        exact Or.inl (congrArg Prod.fst (Option.some.inj h)).symm
      | some cb =>
        rw [hcb] at h
        exact Or.inr ⟨_, (congrArg Prod.fst (Option.some.inj h)).symm, rfl⟩
    · exact Or.inl (congrArg Prod.fst (Option.some.inj h)).symm
  · exact Or.inl (congrArg Prod.fst (Option.some.inj h)).symm

namespace ProtoServer

variable {Req Resp : Type} (lib : ProtoLib Req) (rlib : ResponseLib Resp)
  (s : ProtoServer Req Resp)

def new (request : Req) : ProtoServer Req Resp :=
  ⟨.new request, ⟨fun _ ↦ none⟩, fun _ ↦ [], fun _ ↦ []⟩

/-- The requests that a `Read` hands to the callback. -/
def dispatches (fd : ℕ) (cb : Reader UInt8) : List (Dispatch Req) :=
  ((s.feed.step lib (.read fd cb)).2.map Prod.snd).getD []

/-- A step, and whether the call returned. -/
def step : ServerOp Req Resp → ProtoServer Req Resp × Bool
  | .register fd =>
    match s.feed.manager.connections fd with
    | none =>
      (⟨(s.feed.step lib (.register fd)).1,
        ⟨Function.update s.responder.connections fd
          (some (BipBuf.new (fun _ ↦ 0) ProtoConnection.capacity))⟩,
        Function.update s.served fd [], Function.update s.received fd []⟩, true)
    | some _ => ({ s with feed := (s.feed.step lib (.register fd)).1 }, true)
  | .unregister fd =>
    ({ s with
        feed := (s.feed.step lib (.unregister fd)).1
        responder := ⟨Function.update s.responder.connections fd none⟩ }, true)
  | .read fd cb processRequest =>
    ({ s with
        feed := (s.feed.step lib (.read fd cb)).1
        responder := (s.dispatches lib fd cb).foldl (fun m d ↦
          (m.writeResponse rlib d.fd (processRequest d.request)).2) s.responder
        served := Function.update s.served fd (s.served fd ++
          (s.dispatches lib fd cb).map fun d ↦ (d, processRequest d.request)) },
      (s.feed.step lib (.read fd cb)).2.isSome)
  | .write fd cb =>
    match s.responder.connections fd with
    | none => (s, true)
    | some b =>
      ({ s with
          responder := ⟨Function.update s.responder.connections fd (some (b.writev cb).buf)⟩
          received := Function.update s.received fd
            (s.received fd ++ b.accepted (b.writev cb)) }, true)

/-- The requests are such as the code can handle, there is room for the response to each, and the
lengths that a `Write` uses are right. -/
def Meets (decode : Req → List UInt8 → Option Req) (s : ProtoServer Req Resp) :
    ServerOp Req Resp → Prop
  | .register _ | .unregister _ => True
  | .read fd cb processRequest => s.feed.Meets decode (.read fd cb) ∧
      ∀ d ∈ s.dispatches lib fd cb, ∀ b, s.responder.connections fd = some b →
        5 + (rlib.encode (processRequest d.request)).length ≤ b.free
  | .write fd cb => ∀ b, s.responder.connections fd = some b → b.WritevFits (.writev cb)

/-- The responses as they are on the wire. -/
def responses (l : List (Dispatch Req × Resp)) : List UInt8 :=
  l.flatMap fun p ↦ ProtoResponder.frame rlib p.2

/-- The call returns, and behind it each connection has served the requests that have arrived on it
in full, and what the peer received and what waits for it are the responses. -/
def Answers (decode : Req → List UInt8 → Option Req) (s : ProtoServer Req Resp)
    (op : ServerOp Req Resp) : Prop :=
  (s.step lib rlib op).2 = true ∧ ∀ fd con,
    (s.step lib rlib op).1.feed.manager.connections fd = some con →
      (∀ messages, Requests decode messages →
        (s.step lib rlib op).1.feed.arrived fd <+: protoFrames messages →
          List.Forall₂ (fun message p ↦ ProtoFeed.Called decode fd message p.1)
            (messages.take (Delimited.Format.count (messages.map protoFrame)
              ((s.step lib rlib op).1.feed.arrived fd).length))
            ((s.step lib rlib op).1.served fd)) ∧
        ∃ l, (s.step lib rlib op).1.responder.waiting fd = some l ∧
          (s.step lib rlib op).1.received fd ++ l
            = responses rlib ((s.step lib rlib op).1.served fd)

/-- What holds between the steps. -/
structure Inv (decode : Req → List UInt8 → Option Req) (s : ProtoServer Req Resp) : Prop where
  feed : s.feed.Inv decode
  wf : s.responder.Wf
  isSome_eq : ∀ fd, (s.feed.manager.connections fd).isSome
    = (s.responder.connections fd).isSome
  dispatched_eq : ∀ fd, (s.feed.manager.connections fd).isSome = true →
    s.feed.dispatched fd = (s.served fd).map Prod.fst
  bytes_eq : ∀ fd b, s.responder.connections fd = some b →
    s.received fd ++ b.contents = responses rlib (s.served fd)

variable {lib rlib s} {decode : Req → List UInt8 → Option Req} {fd : ℕ}

theorem inv_new (decode : Req → List UInt8 → Option Req) (request : Req) :
    (new request : ProtoServer Req Resp).Inv rlib decode where
  feed := ProtoFeed.inv_new decode request
  wf _ _ hb := absurd hb (by simp [new])
  isSome_eq _ := rfl
  dispatched_eq _ hcon := absurd hcon (by simp [new, ProtoFeed.new, ProtoManager.new])
  bytes_eq _ _ hb := absurd hb (by simp [new])

theorem Inv.answers (h : s.Inv rlib decode) {con : ProtoConnection}
    (hcon : s.feed.manager.connections fd = some con) :
    (∀ messages, Requests decode messages → s.feed.arrived fd <+: protoFrames messages →
      List.Forall₂ (fun message p ↦ ProtoFeed.Called decode fd message p.1)
        (messages.take (Delimited.Format.count (messages.map protoFrame)
          (s.feed.arrived fd).length)) (s.served fd)) ∧
      ∃ l, s.responder.waiting fd = some l ∧
        s.received fd ++ l = responses rlib (s.served fd) := by
  obtain ⟨done, hkept⟩ := h.feed fd con hcon
  have hsome : (s.feed.manager.connections fd).isSome = true := by rw [hcon]; rfl
  refine ⟨fun messages hmessages hl ↦ ?_, ?_⟩
  · have hcalled := (hkept.dispatched_eq hmessages hl).1
    rw [h.dispatched_eq fd hsome] at hcalled
    exact List.forall₂_map_right_iff.mp hcalled
  · obtain ⟨b, hb⟩ := Option.isSome_iff_exists.mp ((h.isSome_eq fd).symm.trans hsome)
    exact ⟨b.contents, by rw [ProtoResponder.waiting, hb, Option.map_some], h.bytes_eq fd b hb⟩

/-! ## Steps -/

theorem Inv.register (h : s.Inv rlib decode)
    (hfeed : (s.feed.step lib (.register fd)).1.Inv decode) :
    (s.step lib rlib (.register fd)).1.Inv rlib decode := by
  cases hcon : s.feed.manager.connections fd with
  | some con =>
    have hsame : (s.feed.step lib (.register fd)).1 = s.feed := by
      simp only [ProtoFeed.step, ProtoManager.step, hcon]
    simp only [step, hcon, hsame]
    exact h
  | none =>
    have hnew : (BipBuf.new (fun _ ↦ 0) ProtoConnection.capacity : BipBuf .int UInt8).Wf :=
      (BipBuf.rep_new _ _).wf (BipBuf.bounded_new _ _)
    simp only [step, hcon]
    refine ⟨hfeed, fun fd' b hb ↦ ?_, fun fd' ↦ ?_, fun fd' hsome ↦ ?_, fun fd' b hb ↦ ?_⟩
    · simp only [Function.update_apply] at hb
      split_ifs at hb with hfd
      · rw [← Option.some.inj hb]
        exact hnew
      · exact h.wf fd' b hb
    · simp only [ProtoFeed.step, ProtoManager.step, hcon, ProtoManager.set, Function.update_apply]
      split_ifs
      · rfl
      · exact h.isSome_eq fd'
    · simp only [ProtoFeed.step, ProtoManager.step, hcon, ProtoManager.set,
        Function.update_apply] at hsome ⊢
      split_ifs at hsome ⊢
      · rfl
      · exact h.dispatched_eq fd' hsome
    · simp only [Function.update_apply] at hb ⊢
      split_ifs at hb ⊢
      · obtain rfl := Option.some.inj hb
        rw [(BipBuf.rep_new (fun _ ↦ 0) ProtoConnection.capacity).contents_eq]
        rfl
      · exact h.bytes_eq fd' b hb

theorem Inv.unregister (h : s.Inv rlib decode)
    (hfeed : (s.feed.step lib (.unregister fd)).1.Inv decode) :
    (s.step lib rlib (.unregister fd)).1.Inv rlib decode := by
  have hconnections : ∀ fd', (s.feed.step lib (.unregister fd)).1.manager.connections fd'
      = if fd' = fd then none else s.feed.manager.connections fd' := by
    intro fd'
    simp only [ProtoFeed.step, ProtoManager.step]
    cases hcon : s.feed.manager.connections fd with
    | none =>
      split_ifs with hfd
      · rw [hfd, hcon]
      · rfl
    | some con => simp only [ProtoManager.set, Function.update_apply]
  simp only [step]
  refine ⟨hfeed, fun fd' b hb ↦ ?_, fun fd' ↦ ?_, fun fd' hsome ↦ ?_, fun fd' b hb ↦ ?_⟩
  · simp only [Function.update_apply] at hb
    split_ifs at hb
    exact h.wf fd' b hb
  · simp only [hconnections, Function.update_apply]
    split_ifs
    · rfl
    · exact h.isSome_eq fd'
  · rw [hconnections] at hsome
    split_ifs at hsome
    · exact absurd hsome (by decide)
    · exact h.dispatched_eq fd' hsome
  · simp only [Function.update_apply] at hb
    split_ifs at hb
    exact h.bytes_eq fd' b hb

theorem Inv.write (h : s.Inv rlib decode) {cb : Writer}
    (hok : s.Meets lib rlib decode (.write fd cb)) :
    (s.step lib rlib (.write fd cb)).1.Inv rlib decode := by
  cases hbuf : s.responder.connections fd with
  | none =>
    simp only [step, hbuf]
    exact h
  | some b =>
    obtain ⟨hwf, hgather, -, hdrop⟩ := (h.wf fd b hbuf).writev cb (hok b hbuf)
    simp only [step, hbuf]
    refine ⟨h.feed, fun fd' b' hb' ↦ ?_, fun fd' ↦ ?_, h.dispatched_eq, fun fd' b' hb' ↦ ?_⟩
    · simp only [Function.update_apply] at hb'
      split_ifs at hb'
      · rw [← Option.some.inj hb']
        exact hwf
      · exact h.wf fd' b' hb'
    · simp only [Function.update_apply]
      split_ifs with hfd
      · rw [hfd, h.isSome_eq fd, hbuf]
        rfl
      · exact h.isSome_eq fd'
    · simp only [Function.update_apply] at hb' ⊢
      split_ifs at hb' ⊢ with hfd
      · rw [← Option.some.inj hb', hdrop, BipBuf.accepted, hgather, List.append_assoc,
          List.take_append_drop, hfd]
        exact h.bytes_eq fd b hbuf
      · exact h.bytes_eq fd' b' hb'

theorem foldl_writeResponse (hrlib : rlib.Lawful) {m : ProtoResponder} {b : BipBuf .int UInt8}
    (hb : m.connections fd = some b) (hwf : b.Wf) {events : List (Dispatch Req)}
    (hevents : events = [] ∨ ∃ d, events = [d] ∧ d.fd = fd) {processRequest : Req → Resp}
    (hroom : ∀ d ∈ events, 5 + (rlib.encode (processRequest d.request)).length ≤ b.free) :
    ∃ b', events.foldl (fun m d ↦ (m.writeResponse rlib d.fd (processRequest d.request)).2) m
        = ⟨Function.update m.connections fd (some b')⟩ ∧ b'.Wf ∧
      b'.contents = b.contents ++
        responses rlib (events.map fun d ↦ (d, processRequest d.request)) := by
  rcases hevents with rfl | ⟨d, rfl, rfl⟩
  · refine ⟨b, ?_, hwf, (List.append_nil _).symm⟩
    rw [List.foldl_nil, ← hb, Function.update_eq_self]
  · have hfree := hroom d List.mem_cons_self
    obtain ⟨-, hwf', hcontents⟩ :=
      ProtoResponder.respond_of_room (processRequest d.request) hrlib hwf (by omega)
    rw [List.take_of_length_le (by omega)] at hcontents
    refine ⟨_, ?_, hwf', ?_⟩
    · rw [List.foldl_cons, List.foldl_nil, ProtoResponder.writeResponse]
      simp only [hb]
    · rw [hcontents, responses, List.map_singleton, List.flatMap_singleton]
      rfl

theorem Inv.read (hdec : lib.Decodes decode) {callback : ℕ → Req → Req}
    (hcb : lib.cb = some callback) (hrlib : rlib.Lawful) (h : s.Inv rlib decode) {cb : Reader UInt8}
    {processRequest : Req → Resp} (hok : s.Meets lib rlib decode (.read fd cb processRequest)) :
    (s.step lib rlib (.read fd cb processRequest)).1.Inv rlib decode ∧
      (s.step lib rlib (.read fd cb processRequest)).2 = true := by
  obtain ⟨hmeets, hroom⟩ := hok
  cases hcon : s.feed.manager.connections fd with
  | none =>
    have hfeed : s.feed.step lib (.read fd cb) = (s.feed, some (-1, [])) := by
      simp only [ProtoFeed.step, ProtoManager.step, hcon]
    simp only [step, dispatches, hfeed, Option.map_some, Option.getD_some, List.foldl_nil,
      List.map_nil, List.append_nil, Function.update_eq_self, Option.isSome_some, and_true]
    exact h
  | some con =>
    obtain ⟨hreturns, hinv, -⟩ := h.feed.read hdec hcb hcon hmeets
    obtain ⟨b, hb⟩ := Option.isSome_iff_exists.mp
      ((h.isSome_eq fd).symm.trans (by rw [hcon]; rfl))
    cases hread : s.feed.manager.read lib fd cb con with
    | none =>
      simp only [ProtoFeed.step, ProtoManager.step, hcon, hread] at hreturns
      exact absurd hreturns (by simp)
    | some r =>
      obtain ⟨⟨events, con', request'⟩, hprocess, rfl⟩ := Option.map_eq_some_iff.mp hread
      have hevents : s.dispatches lib fd cb = events := by
        simp only [dispatches, ProtoFeed.step, ProtoManager.step, hcon, hread, Option.map_some,
          Option.getD_some]
      have hconnections : (s.feed.step lib (.read fd cb)).1.manager.connections
          = Function.update s.feed.manager.connections fd (some con') := by
        simp only [ProtoFeed.step, ProtoManager.step, hcon, hread, ProtoManager.set]
      have hdispatched : (s.feed.step lib (.read fd cb)).1.dispatched
          = Function.update s.feed.dispatched fd (s.feed.dispatched fd ++ events) := by
        simp only [ProtoFeed.step, ProtoManager.step, hcon, hread, Option.map_some,
          Option.getD_some]
      rw [hevents] at hroom
      obtain ⟨b', hfold, hwf', hcontents⟩ := foldl_writeResponse hrlib hb (h.wf fd b hb)
        (ProtoConnection.process_events hprocess) fun d hd ↦ hroom d hd b hb
      simp only [step, hevents, hfold]
      refine ⟨⟨hinv, fun fd' c hc ↦ ?_, fun fd' ↦ ?_, fun fd' hsome ↦ ?_, fun fd' c hc ↦ ?_⟩,
        hreturns⟩
      · simp only [Function.update_apply] at hc
        split_ifs at hc
        · rw [← Option.some.inj hc]
          exact hwf'
        · exact h.wf fd' c hc
      · simp only [hconnections, Function.update_apply]
        split_ifs
        · rfl
        · exact h.isSome_eq fd'
      · simp only [hconnections, hdispatched, Function.update_apply] at hsome ⊢
        split_ifs at hsome ⊢ with hfd
        · rw [List.map_append, List.map_map, h.dispatched_eq fd (by rw [hcon]; rfl)]
          exact congrArg _ (List.map_id _).symm
        · exact h.dispatched_eq fd' hsome
      · simp only [Function.update_apply] at hc ⊢
        split_ifs at hc ⊢ with hfd
        · rw [← Option.some.inj hc, hcontents, ← List.append_assoc, hfd, h.bytes_eq fd b hb,
            responses, responses, responses, List.flatMap_append]
        · exact h.bytes_eq fd' c hc

theorem Inv.step (hdec : lib.Decodes decode) {callback : ℕ → Req → Req}
    (hcb : lib.cb = some callback) (hrlib : rlib.Lawful) (h : s.Inv rlib decode)
    {op : ServerOp Req Resp} (hok : s.Meets lib rlib decode op) :
    (s.step lib rlib op).1.Inv rlib decode ∧ (s.step lib rlib op).2 = true := by
  cases op with
  | register fd =>
    have hmeets : ProtoFeed.Meets decode s.feed (.register fd) := trivial
    refine ⟨h.register (h.feed.step hdec hcb hmeets).1, ?_⟩
    rw [ProtoServer.step]
    split <;> rfl
  | unregister fd =>
    have hmeets : ProtoFeed.Meets decode s.feed (.unregister fd) := trivial
    exact ⟨h.unregister (h.feed.step hdec hcb hmeets).1, rfl⟩
  | read fd cb processRequest => exact h.read hdec hcb hrlib hok
  | write fd cb =>
    refine ⟨h.write hok, ?_⟩
    rw [ProtoServer.step]
    split <;> rfl

/-- **Requests are answered once, in their order, to whom they came from.** -/
theorem run_answersEach (hdec : lib.Decodes decode) {callback : ℕ → Req → Req}
    (hcb : lib.cb = some callback) (hrlib : rlib.Lawful) (request : Req)
    (ops : List (ServerOp Req Resp))
    (hok : Run.Steps (step lib rlib) (Meets lib rlib decode) (new request) ops) :
    Run.Steps (step lib rlib) (Answers lib rlib decode) (new request) ops :=
  Run.Steps.of_invariant (P := Inv rlib decode)
    (fun _ _ hs hop ↦ (hs.step hdec hcb hrlib hop).1)
    (fun _ _ hs hop ↦ ⟨(hs.step hdec hcb hrlib hop).2, fun _ _ hcon ↦
      (hs.step hdec hcb hrlib hop).1.answers hcon⟩) (inv_new decode request) hok

/-- Two peers, of which one is answered in two parts. -/
theorem run_answersEach_two :
    Run.Steps (step (ProtoLib.plain true) ProtoResponder.byteLib)
      (Answers (ProtoLib.plain true) ProtoResponder.byteLib fun request l ↦ some (request ++ l))
      (new [])
      [.register 5, .register 6, .read 5 (Reader.ofList [0, 0, 0, 0, 1, 9] (by decide)) id,
        .read 6 (Reader.ofList [0, 0, 0, 0, 1, 8] (by decide)) id,
        .write 5 (Writer.atMost 4 (by decide)), .write 5 (Writer.atMost 4 (by decide))] := by
  have hrequests (x : UInt8) : Requests (fun request l ↦ some (request ++ l)) [[x]] :=
    ProtoFeed.requests_plain (by simp [protoFrame])
  refine run_answersEach (ProtoLib.plain_decodes true) rfl ProtoResponder.byteLib_lawful [] _
    ⟨trivial, trivial, ⟨fun con hcon ↦ ⟨⟨_, hrequests 9, ?_⟩, ?_⟩, ?_⟩,
      ⟨fun con hcon ↦ ⟨⟨_, hrequests 8, ?_⟩, ?_⟩, ?_⟩, ?_, ?_, trivial⟩
  · revert con
    decide +kernel
  · revert con
    decide +kernel
  · intro d hd b hb
    obtain rfl := Option.some.inj hb
    revert d
    decide +kernel
  · revert con
    decide +kernel
  · revert con
    decide +kernel
  · intro d hd b hb
    obtain rfl := Option.some.inj hb
    revert d
    decide +kernel
  · intro b hb
    obtain rfl := Option.some.inj hb
    exact fun _ ↦ Or.inl (by decide +kernel)
  · intro b hb
    obtain rfl := Option.some.inj hb
    exact fun _ ↦ Or.inl (by decide +kernel)

end ProtoServer

end Coypu
