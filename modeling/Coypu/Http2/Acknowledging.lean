import Coypu.Http2.Delimiting
import Coypu.Http2.Sending
import Coypu.Http2.Writing
import Mathlib.Data.Bool.Count

/-!
# Acknowledging settings

Each `SETTINGS` frame is answered with one that has the flag `ACK`, whether or not it has this flag
itself; the first frame of a connection is answered with the settings of the server as well
(`settingsReplies`). So there are as many acknowledgements as settings exactly as long as none are
received (`run_acks_iff`), and two endpoints that answer in this way never come to rest
(`Exchange.settles_iff`).

What is received and what is sent is tracked beside the manager (`GrpcSettings`), whose write
buffers may be written at any time.
-/

set_option autoImplicit false

namespace Coypu

open Http2 SendCall Transport

/-- The flag `ACK`. -/
def H2Header.isAck (hdr : H2Header) : Bool := decide (hdr.flags &&& 0x1 = 0x1)

/-- The `SETTINGS` frames among those that were sent, each with whether it is an acknowledgement. -/
def settingsOf {Req : Type} (events : List (GrpcEvent Req)) : List Bool :=
  events.filterMap fun
    | .sent hdr => if hdr.type = H2FrameType.settings.value then some hdr.isAck else none
    | .header _ | .decoded _ | .handed _ => none

/-- What is sent in answer to a `SETTINGS` frame. -/
def settingsReplies (first : Bool) : List Bool := (if first then [false] else []) ++ [true]

/-- The settings of the server, which has none. -/
def SendCall.plainSettings : SendCall := frame (H2Header.new .settings) []

/-- The answer to settings. -/
def SendCall.ackSettings : SendCall := frame { H2Header.new .settings with flags := 0x1 } []

/-- There is room for what is sent in answer to a `SETTINGS` frame: `SendFrame` returns `true`. -/
def H2Connection.SettingsRoom (con : H2Connection) : Prop :=
  if con.frameCount = 1 then (plainSettings.send con.writeBuf).1 = true ∧
    (ackSettings.send (plainSettings.send con.writeBuf).2).1 = true
  else (ackSettings.send con.writeBuf).1 = true

instance (con : H2Connection) : Decidable con.SettingsRoom :=
  inferInstanceAs (Decidable (ite _ (_ ∧ _) _))

theorem settingsOf_append {Req : Type} (events events' : List (GrpcEvent Req)) :
    settingsOf (events ++ events') = settingsOf events ++ settingsOf events' :=
  List.filterMap_append

/-! ## One call -/

namespace GrpcCall

variable {σ Req Resp : Type} {lib : GrpcLib σ Req Resp} {c c' : GrpcCall σ Req} {n : ℕ}

theorem pushAll_events (ls : List (List UInt8)) : (c.pushAll ls).events = c.events := by
  induction ls generalizing c with
  | nil => rfl
  | cons l ls ih =>
    rw [pushAll]
    split_ifs
    · exact ih
    · rfl

theorem sendAll_events (hdr : H2Header) (ls : List (List UInt8)) :
    (c.sendAll hdr ls).events
      = c.events ++ if (c.push hdr.toBytes).1 = true then [.sent hdr] else [] := by
  rw [sendAll]
  by_cases hret : (c.push hdr.toBytes).1 = true
  · simp only [if_pos hret]
    exact pushAll_events ls
  · simp only [if_neg hret]
    exact (List.append_nil _).symm

theorem settingsOf_sendAll {hdr : H2Header} (htype : hdr.type ≠ H2FrameType.settings.value)
    (ls : List (List UInt8)) : settingsOf (c.sendAll hdr ls).events = settingsOf c.events := by
  rw [sendAll_events, settingsOf_append]
  split_ifs
  · simp [settingsOf, htype]
  · exact List.append_nil _

theorem settingsOf_sendHeaderFrame (fields : List Field) (flags : UInt8) :
    settingsOf (c.sendHeaderFrame lib fields flags).events = settingsOf c.events := by
  rw [sendHeaderFrame]
  cases lib.deflate fields with
  | none => rfl
  | some data =>
    refine settingsOf_sendAll ?_ _
    show H2FrameType.headers.value ≠ _
    decide

theorem settingsOf_respond {request : Req} (heq : c.respond lib request = some c') :
    settingsOf c'.events = settingsOf c.events := by
  rw [respond] at heq
  simp only at heq
  split_ifs at heq
  rw [← Option.some.inj heq, settingsOf_sendHeaderFrame, sendGRPCFrame, settingsOf_sendAll,
    settingsOf_sendHeaderFrame, emit, settingsOf_append]
  · exact List.append_nil _
  · show H2FrameType.data.value ≠ _
    decide

theorem popValue_eq {value : List UInt8} (heq : c.popValue lib n = some (value, c')) :
    ∃ stream, c' = c.withStream stream := by
  obtain ⟨r, -, hr⟩ := Option.bind_eq_some_iff.mp heq
  split_ifs at hr
  exact ⟨r.2, (Prod.mk.inj (Option.some.inj hr)).2.symm⟩

theorem settingsLoop_eq {fuel i : ℕ} (heq : settingsLoop lib n fuel i c = some c') :
    ∃ stream, c' = c.withStream stream := by
  induction fuel generalizing i c with
  | zero => exact absurd heq (by simp [settingsLoop])
  | succ fuel ih =>
    rw [settingsLoop] at heq
    split_ifs at heq
    · obtain ⟨⟨v, c₁⟩, hr, heq⟩ := Option.bind_eq_some_iff.mp heq
      obtain ⟨⟨v', c₂⟩, hr', heq⟩ := Option.bind_eq_some_iff.mp heq
      obtain ⟨stream₁, rfl⟩ := popValue_eq hr
      obtain ⟨stream₂, rfl⟩ := popValue_eq hr'
      obtain ⟨stream, rfl⟩ := ih heq
      exact ⟨stream, rfl⟩
    · exact ⟨c.con.stream, (Option.some.inj heq).symm⟩

theorem settingsOf_sendFrame {hdr : H2Header} (htype : hdr.type = H2FrameType.settings.value)
    (hroom : ((SendCall.frame hdr []).send c.con.writeBuf).1 = true) :
    settingsOf (c.sendFrame hdr []).events = settingsOf c.events ++ [hdr.isAck] ∧
      (c.sendFrame hdr []).con.writeBuf = ((SendCall.frame hdr []).send c.con.writeBuf).2 := by
  have hpush : (c.push hdr.toBytes).1 = true := by
    rw [send, pushParts] at hroom
    by_contra hret
    exact Bool.false_ne_true ((congrArg Prod.fst (if_neg hret)).symm.trans hroom)
  refine ⟨?_, sendAll_writeBuf hdr _⟩
  rw [sendFrame, sendAll_events, if_pos hpush, settingsOf_append]
  exact congrArg (settingsOf c.events ++ ·) (by simp [settingsOf, htype])

/-- **The answer to settings.** -/
theorem settingsFrame_sent (hroom : c.con.SettingsRoom) (heq : c.settingsFrame lib n = some c') :
    settingsOf c'.events
      = settingsOf c.events ++ settingsReplies (decide (c.con.frameCount = 1)) := by
  have hack {c₁ c₂ : GrpcCall σ Req} {i fuel : ℕ} (hloop : settingsLoop lib n fuel i c₁ = some c₂)
      (hroom : (ackSettings.send c₁.con.writeBuf).1 = true) :
      settingsOf (c₂.sendFrame { H2Header.new .settings with flags := 0x1 } []).events
        = settingsOf c₁.events ++ [true] := by
    obtain ⟨stream, rfl⟩ := settingsLoop_eq hloop
    exact (settingsOf_sendFrame (c := c₁.withStream stream) rfl hroom).1
  rw [H2Connection.SettingsRoom] at hroom
  rw [settingsFrame] at heq
  simp only at heq
  split_ifs at hroom heq with hfirst
  -- the first frame is answered with settings in front
  · obtain ⟨c₂, hloop, rfl⟩ := Option.map_eq_some_iff.mp heq
    have htype : (H2Header.new .settings).type = H2FrameType.settings.value := rfl
    obtain ⟨hplain, hbuf⟩ := settingsOf_sendFrame htype hroom.1
    rw [hack hloop (by rw [hbuf]; exact hroom.2), hplain, settingsReplies, hfirst,
      List.append_assoc]
    rfl
  · obtain ⟨c₂, hloop, rfl⟩ := Option.map_eq_some_iff.mp heq
    rw [hack hloop hroom, settingsReplies, decide_eq_false hfirst]
    rfl

theorem frame_sent (htype : c.con.hdr.type ≠ H2FrameType.settings.value)
    (heq : c.frame lib n = some c') : settingsOf c'.events = settingsOf c.events := by
  rw [frame] at heq
  split_ifs at heq
  · rw [headersFrame_eq (le_of_headersFrame heq)] at heq
    obtain ⟨r, -, heq⟩ := Option.bind_eq_some_iff.mp heq
    obtain ⟨block, -, heq⟩ := Option.bind_eq_some_iff.mp heq
    obtain ⟨q, -, rfl⟩ := Option.map_eq_some_iff.mp heq
    exact (settingsOf_append _ _).trans (List.append_nil _)
  · obtain ⟨r, -, heq⟩ := Option.bind_eq_some_iff.mp heq
    simp only at heq
    split_ifs at heq
    · obtain ⟨q, -, heq⟩ := Option.bind_eq_some_iff.mp heq
      split_ifs at heq
      exact settingsOf_respond (c := (c.withStream r.2).withStream q.2.stream) heq
    · rw [mismatchFrame] at heq
      split_ifs at heq
      rw [← Option.some.inj heq, settingsOf_sendHeaderFrame]
      rfl
  · obtain ⟨⟨v, c₁⟩, hr, heq⟩ := Option.bind_eq_some_iff.mp heq
    obtain ⟨⟨v', c₂⟩, hr', heq⟩ := Option.bind_eq_some_iff.mp heq
    obtain ⟨q, -, rfl⟩ := Option.map_eq_some_iff.mp heq
    obtain ⟨stream₁, rfl⟩ := popValue_eq hr
    obtain ⟨stream₂, rfl⟩ := popValue_eq hr'
    rfl
  · rw [windowUpdateFrame] at heq
    split_ifs at heq
    obtain ⟨⟨v, c₁⟩, hr, rfl⟩ := Option.map_eq_some_iff.mp heq
    obtain ⟨stream, rfl⟩ := popValue_eq hr
    rfl
  · rw [← Option.some.inj heq]
    rfl

/-- The `SETTINGS` frame that the next call handles, if it does: whether it is an
acknowledgement. -/
def settingsNext (con : H2Connection) : Option Bool :=
  con.atPayload.bind fun con ↦
    if con.hdr.type = H2FrameType.settings.value then some con.hdr.isAck else none

theorem Reads.settingsOf_eq (h : Reads c c') : settingsOf c'.events = settingsOf c.events := by
  obtain ⟨header, hevents⟩ := h.events_eq
  rw [hevents, settingsOf_append]
  cases header <;> exact List.append_nil _

/-- **One acknowledgement for each settings frame**, whatever its flags. -/
theorem processFrames_acks {r : ℤ × GrpcCall σ Req} (hevents : c.events = [])
    (hroom : ∀ con ∈ c.con.atPayload, con.hdr.type = H2FrameType.settings.value → con.SettingsRoom)
    (heq : c.processFrames lib = some r) :
    (settingsOf r.2.events).count true = (settingsNext c.con).toList.length := by
  have hnil : settingsOf c.events = [] := by rw [hevents]; rfl
  rw [settingsNext]
  cases hcon : c.con.atPayload with
  | none =>
    rw [(reads_of_not_atPayload hcon heq).settingsOf_eq, hnil]
    rfl
  | some con =>
    obtain ⟨c₁, hreads, rfl, hcall⟩ := processFrames_reads lib hcon
    rw [hcall] at heq
    obtain ⟨c₂, hframe, rfl⟩ := Option.map_eq_some_iff.mp heq
    have hbefore : settingsOf c₁.events = [] := hreads.settingsOf_eq.trans hnil
    rw [Option.bind_some]
    by_cases htype : c₁.con.hdr.type = H2FrameType.settings.value
    · have hsettings : c₁.settingsFrame lib c₁.con.hdr.length = some c₂ := by
        rw [← hframe, frame, htype]
        rfl
      have hsent := settingsFrame_sent (hroom _ hcon htype) hsettings
      rw [hbefore, List.nil_append] at hsent
      have hfinish : settingsOf c₂.finish.2.events = settingsOf c₂.events := rfl
      rw [if_pos htype, hfinish, hsent]
      cases decide (c₁.con.frameCount = 1) <;> rfl
    · have hsent : settingsOf c₂.finish.2.events = [] := (frame_sent htype hframe).trans hbefore
      rw [if_neg htype, hsent]
      rfl

end GrpcCall

/-! ## Runs -/

/-- What happens to a manager: a call, or a `Write` of a connection. -/
inductive GrpcIo where
  | call (op : GrpcOp)
  | write (fd : ℕ) (cb : Writer)

/-- `Write` of a connection that publishes nothing, with what the transport takes. -/
def HTTP2GRPCManager.write {σ Req : Type} (m : HTTP2GRPCManager σ Req) (fd : ℕ) (cb : Writer) :
    HTTP2GRPCManager σ Req :=
  match m.connections fd with
  | none => m
  | some con =>
    m.set fd (some (con.write (none : Option (MultiPositionedStreamLog 1)) fd
      (fun _ ↦ true) cb).2.1)

/-- A manager with the `SETTINGS` frames that were received and sent on each connection, each with
whether it is an acknowledgement. -/
structure GrpcSettings (σ Req : Type) where
  manager : HTTP2GRPCManager σ Req
  received : ℕ → List Bool
  sent : ℕ → List Bool

namespace GrpcSettings

variable {σ Req Resp : Type}

def new (inflater : σ) (request : Req) : GrpcSettings σ Req :=
  ⟨.new inflater request, fun _ ↦ [], fun _ ↦ []⟩

/-- The frames that were received and sent behind a call. A new connection has none, and a call
that does not return sends none. -/
def record (s : GrpcSettings σ Req) (answer : Option (ℤ × List (GrpcEvent Req))) :
    GrpcOp → (ℕ → List Bool) × (ℕ → List Bool)
  | .registerConnection fd =>
    match s.manager.connections fd with
    | none => (Function.update s.received fd [], Function.update s.sent fd [])
    | some _ => (s.received, s.sent)
  | .processFrames fd =>
    match s.manager.connections fd, answer with
    | some con, some r =>
      (Function.update s.received fd (s.received fd ++ (GrpcCall.settingsNext con).toList),
        Function.update s.sent fd (s.sent fd ++ settingsOf r.2))
    | _, _ => (s.received, s.sent)
  | .unregister _ | .receive _ _ => (s.received, s.sent)

def step (lib : GrpcLib σ Req Resp) (s : GrpcSettings σ Req) :
    GrpcIo → GrpcSettings σ Req × Option (ℤ × List (GrpcEvent Req))
  | .write fd cb => ({ s with manager := s.manager.write fd cb }, some (0, []))
  | .call op =>
    let r := s.manager.step lib op
    (⟨r.1, (s.record r.2 op).1, (s.record r.2 op).2⟩, r.2)

/-- There is room for what is sent in answer to settings. -/
def Room (s : GrpcSettings σ Req) : GrpcIo → Prop
  | .call (.processFrames fd) => ∀ con ∈ s.manager.connections fd, ∀ con₁ ∈ con.atPayload,
      con₁.hdr.type = H2FrameType.settings.value → con₁.SettingsRoom
  | .call (.registerConnection _) | .call (.unregister _) | .call (.receive _ _) | .write _ _ =>
    True

instance (s : GrpcSettings σ Req) : DecidablePred s.Room
  | .call (.processFrames _) => inferInstanceAs (Decidable (∀ con ∈ s.manager.connections _,
      ∀ con₁ ∈ con.atPayload, _ → _))
  | .call (.registerConnection _) | .call (.unregister _) | .call (.receive _ _) | .write _ _ =>
    .isTrue trivial

/-- As many acknowledgements were sent on each connection as settings were received. -/
def Acknowledged (s : GrpcSettings σ Req) : Prop :=
  ∀ fd, (s.sent fd).count true = (s.received fd).length

variable {lib : GrpcLib σ Req Resp} {s : GrpcSettings σ Req} {io : GrpcIo}

theorem Acknowledged.step (h : s.Acknowledged) (hroom : s.Room io) :
    Acknowledged (s.step lib io).1 := by
  intro fd'
  cases io with
  | write fd cb => exact h fd'
  | call op =>
    cases op with
    | registerConnection fd =>
      simp only [GrpcSettings.step, record]
      cases s.manager.connections fd with
      | none =>
        simp only [Function.update_apply]
        split_ifs
        · rfl
        · exact h fd'
      | some con => exact h fd'
    | unregister | receive => exact h fd'
    | processFrames fd =>
      simp only [GrpcSettings.step, record]
      cases hcon : s.manager.connections fd with
      | none => exact h fd'
      | some con =>
        cases hcall : (s.manager.call con).processFrames lib with
        | none =>
          rw [HTTP2GRPCManager.step_of_none hcon hcall]
          exact h fd'
        | some r =>
          rw [HTTP2GRPCManager.step_of_some hcon hcall]
          simp only [Function.update_apply]
          split_ifs with hfd
          · rw [List.count_append, List.length_append, h fd,
              GrpcCall.processFrames_acks rfl (hroom con hcon) hcall]
            rfl
          · exact h fd'

end GrpcSettings

/-! ## Two endpoints -/

/-- Two endpoints that have sent each other settings: how many frames each of them has received, as
a 32-bit number, and which `SETTINGS` frames are under way to it. -/
structure Exchange where
  frameCount : Bool → ℕ
  flight : Bool → List Bool

namespace Exchange

/-- An endpoint receives the first frame that is under way to it, and answers as `ProcessFrames`
does. -/
def step (x : Exchange) (e : Bool) : Option Exchange :=
  match x.flight e with
  | [] => none
  | _ :: rest =>
    let frameCount := CInt.toUnsigned 32 (x.frameCount e + 1 : ℕ)
    some ⟨Function.update x.frameCount e frameCount,
      Function.update (Function.update x.flight e rest) (!e)
        (x.flight (!e) ++ settingsReplies (decide (frameCount = 1)))⟩

/-- Frames can be received in this order. -/
def Runs : List Bool → Exchange → Prop
  | [], _ => True
  | e :: es, x => ∃ x', x.step e = some x' ∧ Runs es x'

/-- Only so many frames are exchanged. -/
def Settles (x : Exchange) : Prop := ∃ n, ∀ es, Runs es x → es.length ≤ n

variable {x x' : Exchange} {e : Bool}

theorem flight_of_step (h : x.step e = some x') : x'.flight (!e) ≠ [] := by
  rw [step] at h
  cases hflight : x.flight e with
  | nil =>
    rw [hflight] at h
    exact absurd h (by simp)
  | cons b rest =>
    rw [hflight] at h
    rw [← Option.some.inj h]
    simp [settingsReplies]

theorem exists_runs (h : x.flight e ≠ []) (n : ℕ) : ∃ es, Runs es x ∧ es.length = n := by
  induction n generalizing x e with
  | zero => exact ⟨[], trivial, rfl⟩
  | succ n ih =>
    obtain ⟨x', hx'⟩ : ∃ x', x.step e = some x' := by
      rw [step]
      cases hflight : x.flight e with
      | nil => exact absurd hflight h
      | cons b rest => exact ⟨_, rfl⟩
    obtain ⟨es, hruns, hlen⟩ := ih (flight_of_step hx')
    exact ⟨e :: es, ⟨x', hx', hruns⟩, congrArg (· + 1) hlen⟩

/-- **The exchange comes to rest** only if nothing was sent. -/
theorem settles_iff : x.Settles ↔ ∀ e, x.flight e = [] := by
  constructor
  · rintro ⟨n, hn⟩ e
    by_contra hflight
    obtain ⟨es, hruns, hlen⟩ := exists_runs hflight (n + 1)
    have hle := hn es hruns
    omega
  · intro h
    refine ⟨0, fun es hruns ↦ ?_⟩
    cases es with
    | nil => exact Nat.le_refl 0
    | cons e es =>
      obtain ⟨x', hx', -⟩ := hruns
      rw [step, h e] at hx'
      exact absurd hx' (by simp)

end Exchange

namespace GrpcSettings

variable {σ Req Resp : Type}

/-- **Where settings are acknowledged once, and acknowledgements never.** In every state of a run
with room in the write buffers, the acknowledgements sent on a connection are as many as the
settings received that are none themselves, exactly if no acknowledgement was received on it. And
two endpoints that answer settings in this way exchange finitely many frames only if nothing was
sent. -/
theorem run_acks_iff (lib : GrpcLib σ Req Resp) (inflater : σ) (request : Req) (ios : List GrpcIo)
    (hroom : Run.Steps (step lib) Room (new inflater request) ios) :
    (∀ fd, ((Run.run (step lib) (new inflater request) ios).1.sent fd).count true
        = ((Run.run (step lib) (new inflater request) ios).1.received fd).count false ↔
      true ∉ (Run.run (step lib) (new inflater request) ios).1.received fd) ∧
      ∀ x : Exchange, x.Settles ↔ ∀ e, x.flight e = [] := by
  refine ⟨fun fd ↦ ?_, fun x ↦ Exchange.settles_iff⟩
  have hacks : Acknowledged (Run.run (step lib) (new inflater request) ios).1 :=
    (Run.Throughout.of_step (P := Acknowledged) (fun _ _ hs hok ↦ hs.step hok) (fun _ ↦ rfl)
      hroom).last
  rw [hacks fd, ← List.count_eq_zero]
  have hsum := List.count_true_add_count_false
    ((Run.run (step lib) (new inflater request) ios).1.received fd)
  omega

/-- `l` arrives behind the preface, and a frame of it is handled, and another one. -/
def settingsRun (l : List UInt8) (h : (http2Hdr ++ l).length < 2 ^ 31) : List GrpcIo :=
  (GrpcFeed.arriving l h ++ [GrpcOp.processFrames 3, .processFrames 3]).map .call

/-- Settings, and a window update. -/
def settingsThenUpdate : List GrpcIo :=
  settingsRun ([0, 0, 0, 4, 0, 0, 0, 0, 0] ++ [0, 0, 4, 8, 0, 0, 0, 0, 0, 0, 1, 0, 0]) (by decide)

theorem run_acks_settings :
    ((Run.run (step (GrpcLib.plain true)) (new () []) settingsThenUpdate).1.sent 3).count true
      = ((Run.run (step (GrpcLib.plain true)) (new () []) settingsThenUpdate).1.received 3).count
        false :=
  ((run_acks_iff (GrpcLib.plain true) () [] settingsThenUpdate (by decide +kernel)).1 3).mpr
    (by decide +kernel)

/-- An acknowledgement is acknowledged, and two endpoints with settings under way never rest. -/
theorem not_acks_of_ack :
    (¬∀ ios : List GrpcIo, Run.Steps (step (GrpcLib.plain true)) Room (new () []) ios → ∀ fd,
      ((Run.run (step (GrpcLib.plain true)) (new () []) ios).1.sent fd).count true
        = ((Run.run (step (GrpcLib.plain true)) (new () []) ios).1.received fd).count false) ∧
      ¬Exchange.Settles ⟨fun _ ↦ 0, fun _ ↦ [false]⟩ := by
  constructor
  · intro h
    have hcount := h (settingsRun ([0, 0, 0, 4, 0, 0, 0, 0, 0] ++ [0, 0, 0, 4, 1, 0, 0, 0, 0])
      (by decide)) (by decide +kernel) 3
    revert hcount
    decide +kernel
  · intro h
    exact absurd (Exchange.settles_iff.mp h true) (by simp)

end GrpcSettings

end Coypu
