import Coypu.Http2.Service
import Mathlib.Data.List.Infix

/-!
# The server and its service

The server does for each client what the service does (`GrpcServer.Refines`). Its bytes arrive in
any pieces, frames are handled when their connection is read, and answers wait in a write buffer
until the transport takes them. The clients get what the service sends, each in its order, as long
as the frames are such as the service handles and there is room for the answers.

The frames that the server has handled are tracked beside it, in the order in which it has handled
them (`GrpcServer`). The invariant is `GrpcServer.Matches`.
-/

set_option autoImplicit false

namespace Coypu

open Http2 SendCall Transport

/-! ## The next frame -/

namespace H2Connection

/-- The frame that the next call handles, if it has arrived. -/
def frameNext (con : H2Connection) : Option (List UInt8) :=
  con.nextFrame.bind fun r ↦
    if r.2 + r.1.length ≤ con.stream.log.available then
      some ((con.stream.received.drop (r.2 - http2FrameHdrSize)).take
        (http2FrameHdrSize + r.1.length))
    else none

variable {con : H2Connection} {l : List UInt8}

/-- The header of frame `n`. -/
def hdrAt (l : List UInt8) (n : ℕ) : H2Header :=
  (H2Header.ofBytes (frameFormat.header l (frameFormat.start l n))).clearBit

theorem start_succ_hdrAt (l : List UInt8) (n : ℕ) :
    frameFormat.start l (n + 1)
      = frameFormat.start l n + (http2FrameHdrSize + (hdrAt l n).length) := Nat.add_assoc _ _ _

/-- The header and the payload that a call looks at are where the frames before it end. -/
theorem AtFrame.eq_of_nextFrame (h : con.AtFrame l) {r : H2Header × ℕ}
    (hr : con.nextFrame = some r) :
    r = (hdrAt l con.frameCount, frameFormat.start l con.frameCount + http2FrameHdrSize) := by
  rw [nextFrame] at hr
  rcases h.position with ⟨hstate, hoffset⟩ | ⟨hstate, hoffset, hhdr⟩
  · rw [hstate] at hr
    simp only at hr
    split_ifs at hr
    rw [← Option.some.inj hr, h.received_eq, hoffset, hdrAt]
  · rw [hstate] at hr
    rw [← Option.some.inj hr, hoffset, hhdr, hdrAt]

theorem AtFrame.frameNext_eq (h : con.AtFrame l) : con.frameNext =
    if frameFormat.start l (con.frameCount + 1) ≤ l.length then
      some ((l.drop (frameFormat.start l con.frameCount)).take
        (http2FrameHdrSize + (hdrAt l con.frameCount).length))
    else none := by
  obtain ⟨k, hahead⟩ := h.ahead
  have hend := hahead.offset_eq
  have hlen := PositionedLog.length_received con.stream
  rw [h.received_eq] at hlen
  rw [frameNext, start_succ_hdrAt, h.received_eq]
  cases hnext : con.nextFrame with
  | none =>
    rw [Option.bind_none, if_neg]
    -- the header has not arrived
    rw [nextFrame] at hnext
    rcases h.position with ⟨hstate, hoffset⟩ | ⟨hstate, -⟩
    · rw [hstate, hahead.available_eq] at hnext
      simp only at hnext
      split_ifs at hnext
      omega
    · rw [hstate] at hnext
      exact absurd hnext (by simp)
  | some r =>
    rw [h.eq_of_nextFrame hnext, Option.bind_some]
    simp only
    rw [Nat.add_sub_cancel, ← hlen, Nat.add_assoc]

theorem AtFrame.of_frameNext (h : con.AtFrame l) {bytes : List UInt8}
    (hbytes : con.frameNext = some bytes) :
    frameFormat.start l (con.frameCount + 1) ≤ l.length ∧
      l.take (frameFormat.start l (con.frameCount + 1))
        = l.take (frameFormat.start l con.frameCount) ++ bytes ∧
      GrpcService.frameHeader bytes = hdrAt l con.frameCount ∧
      bytes.drop http2FrameHdrSize
        = (l.drop (frameFormat.start l con.frameCount + http2FrameHdrSize)).take
          (hdrAt l con.frameCount).length := by
  rw [h.frameNext_eq] at hbytes
  split_ifs at hbytes with hle
  obtain rfl := Option.some.inj hbytes
  refine ⟨hle, ?_, ?_, ?_⟩
  · rw [start_succ_hdrAt, List.take_add]
  · rw [GrpcService.frameHeader, List.take_take, Nat.min_eq_left (Nat.le_add_right _ _)]
    rfl
  · rw [List.drop_take, List.drop_drop, Nat.add_sub_cancel_left]

theorem AtFrame.isRecord_of_frameNext (h : con.AtFrame l) {bytes : List UInt8}
    (hbytes : con.frameNext = some bytes) : frameFormat.IsRecord bytes := by
  rw [h.frameNext_eq] at hbytes
  split_ifs at hbytes with hle
  obtain rfl := Option.some.inj hbytes
  have hsize : frameFormat.headerSize = http2FrameHdrSize := rfl
  rw [start_succ_hdrAt] at hle
  have hlen : ((l.drop (frameFormat.start l con.frameCount)).take
      (http2FrameHdrSize + (hdrAt l con.frameCount).length)).length
        = http2FrameHdrSize + (hdrAt l con.frameCount).length := by
    rw [List.length_take, List.length_drop]
    omega
  refine ⟨by omega, hlen.trans ?_⟩
  rw [List.take_take, Nat.min_eq_left (by omega)]
  rfl

/-- If no frame is next, what has arrived behind those that were handled is not one. -/
theorem AtFrame.not_complete (h : con.AtFrame l) (hnone : con.frameNext = none) :
    ¬frameFormat.Complete (l.drop (frameFormat.start l con.frameCount)) := by
  rw [h.frameNext_eq] at hnone
  split_ifs at hnone with hle
  rintro ⟨hheader, hlen⟩
  have hstart := h.start_le
  rw [List.length_drop] at hheader hlen
  rw [← Delimited.Format.header] at hlen
  rw [Delimited.Format.start_succ] at hle
  omega

end H2Connection

/-! ## One call -/

namespace GrpcCall

variable {σ Req Resp : Type} {lib : GrpcLib σ Req Resp} {decode : Req → List UInt8 → Option Req}
  {c : GrpcCall σ Req} {l k : List UInt8}

/-- The service handles the next frame, and there is room for the answer. -/
def NextHandled (lib : GrpcLib σ Req Resp) (decode : Req → List UInt8 → Option Req)
    (c : GrpcCall σ Req) : Prop :=
  ∀ bytes ∈ c.con.frameNext, c.con.stream.curOffset + http2FrameHdrSize + 5 < 2 ^ 31 ∧
    ((GrpcService.handle lib decode c.inflater c.request c.con.lastPathMatch
      (decide (c.con.frameCount = 0)) (GrpcService.frameHeader bytes)
      (bytes.drop http2FrameHdrSize)).any fun r ↦
        decide ((r.calls.flatMap SendCall.bytes).length ≤ c.con.writeBuf.free)) = true

instance (c : GrpcCall σ Req) : Decidable (NextHandled lib decode c) :=
  inferInstanceAs (Decidable (∀ bytes ∈ c.con.frameNext, _))

theorem NextHandled.nextFits (h : c.con.AtFrame l) (hok : NextHandled lib decode c) :
    NextFits lib decode c := by
  intro r hr hle
  have hnext : c.con.frameNext = some ((c.con.stream.received.drop (r.2 - http2FrameHdrSize)).take
      (http2FrameHdrSize + r.1.length)) := by
    rw [H2Connection.frameNext, hr, Option.bind_some, if_pos hle]
  obtain ⟨hbound, hany⟩ := hok _ hnext
  obtain ⟨q, hq, -⟩ := (Option.any_eq_true _ _).mp hany
  obtain ⟨-, -, hheader, hpayload⟩ := h.of_frameNext hnext
  obtain rfl := h.eq_of_nextFrame hr
  have hstart : frameFormat.start l c.con.frameCount ≤ c.con.stream.curOffset := by
    rcases h.position with ⟨-, hoffset⟩ | ⟨-, hoffset, -⟩ <;> omega
  rw [hheader, hpayload] at hq
  rw [h.received_eq]
  exact fits_of_handle (c := c.withCon { c.con with
    hdr := H2Connection.hdrAt l c.con.frameCount
    stream := { c.con.stream with
      curOffset := frameFormat.start l c.con.frameCount + http2FrameHdrSize } })
    (by simp only [withCon]; omega) hq

/-- Nothing was handled. -/
def Waits (c c' : GrpcCall σ Req) : Prop :=
  Does ⟨c.inflater, c.request, c.con.lastPathMatch, []⟩ c c' ∧
    c'.con.frameCount = c.con.frameCount

/-- One frame was handled, as the service does it. -/
def Handles (lib : GrpcLib σ Req Resp) (decode : Req → List UInt8 → Option Req)
    (bytes : List UInt8) (c c' : GrpcCall σ Req) : Prop :=
  ∃ r, GrpcService.handle lib decode c.inflater c.request c.con.lastPathMatch
      (decide (c.con.frameCount = 0)) (GrpcService.frameHeader bytes)
      (bytes.drop http2FrameHdrSize) = some r ∧
    (r.calls.flatMap SendCall.bytes).length ≤ c.con.writeBuf.free ∧ Does r c c' ∧
    c'.con.frameCount = c.con.frameCount + 1

theorem waits_of_reads {c' : GrpcCall σ Req} (h : Reads c c')
    (hcount : c'.con.frameCount = c.con.frameCount) : Waits c c' :=
  ⟨⟨h.inflater_eq, h.request_eq, h.match_eq, h.writeBuf_eq⟩, hcount⟩

theorem processFrame_handles (hdec : lib.Decodes decode) (h : c.con.AtFrame l)
    (hstate : c.con.state = .readFrame) :
    (c.con.frameNext = none ∧ c.processFrame lib = some (0, c)) ∨
      ∃ bytes, c.con.frameNext = some bytes ∧ ∀ r, c.con.stream.curOffset + 5 < 2 ^ 31 →
        GrpcService.handle lib decode c.inflater c.request c.con.lastPathMatch
          (decide (c.con.frameCount = 0)) (GrpcService.frameHeader bytes)
          (bytes.drop http2FrameHdrSize) = some r →
        ∃ q, c.processFrame lib = some q ∧ Does r c q.2 ∧
          q.2.con.frameCount = c.con.frameCount + 1 := by
  obtain ⟨k, hahead⟩ := h.ahead
  have hlooks : c.con.nextFrame = some (c.con.hdr, c.con.stream.curOffset) := by
    rw [H2Connection.nextFrame, hstate]
  obtain ⟨hhdr, hoffset⟩ := Prod.mk.inj (h.eq_of_nextFrame hlooks)
  have hk : l.drop (frameFormat.start l c.con.frameCount + http2FrameHdrSize) = k := by
    rw [← hoffset, ← h.received_eq, hahead.drop_received]
  have hend := hahead.offset_eq
  have hlen := PositionedLog.length_received c.con.stream
  rw [h.received_eq] at hlen
  have hstart := H2Connection.start_succ_hdrAt l c.con.frameCount
  rw [← hhdr] at hstart
  cases hnext : c.con.frameNext with
  | none =>
    refine Or.inl ⟨rfl, processFrame_of_not_counted (if_neg ?_)⟩
    rw [h.frameNext_eq] at hnext
    split_ifs at hnext with hle
    rw [hahead.available_eq]
    omega
  | some bytes =>
    obtain ⟨hle, -, hheader, hpayload⟩ := h.of_frameNext hnext
    refine Or.inr ⟨bytes, rfl, fun r hbound hr ↦ ?_⟩
    rw [hheader, hpayload, hk, ← hhdr] at hr
    have hfits : c.con.hdr.length ≤ k.length := by omega
    have hcount : CInt.toUnsigned 32 (c.con.frameCount + 1 : ℕ) = c.con.frameCount + 1 :=
      CInt.toUnsigned_natCast h.frameCount_lt
    set c₁ := c.withCon { c.con with
      frameCount := CInt.toUnsigned 32 (c.con.frameCount + 1 : ℕ) } with hc₁
    -- the first frame is the one that is counted as such
    have hfirst : decide (c₁.con.frameCount = 1) = decide (c.con.frameCount = 0) := by
      rw [hc₁, withCon]
      simp only [hcount, Nat.add_eq_right]
    have hr₁ : GrpcService.handle lib decode c₁.inflater c₁.request c₁.con.lastPathMatch
        (decide (c₁.con.frameCount = 1)) c₁.con.hdr (k.take c₁.con.hdr.length) = some r := by
      rw [hfirst]
      exact hr
    obtain ⟨c₂, hframe, hdoes⟩ := frame_does (c := c₁) hdec hahead hfits hbound hr₁
    have hmoved := frame_moved (c := c₁) hdec hahead hfits (fits_of_handle hbound hr₁) hframe
    have hcounted : c.con.counted = some c₁.con := if_pos (by rwa [hahead.available_eq])
    refine ⟨c₂.finish, ?_,
      ⟨hdoes.inflater_eq, hdoes.request_eq, hdoes.match_eq, hdoes.writeBuf_eq⟩,
      hmoved.frameCount_eq.trans hcount⟩
    rw [processFrame_of_counted hcounted]
    exact Option.map_eq_some_iff.mpr ⟨c₂, hframe, rfl⟩

/-- **A call** handles the next frame, or nothing if it has not arrived. -/
theorem processFrames_handles (hdec : lib.Decodes decode) (h : c.con.AtFrame l)
    (hok : NextHandled lib decode c) : ∃ q, c.processFrames lib = some q ∧
      ((c.con.frameNext = none ∧ Waits c q.2) ∨
        ∃ bytes, c.con.frameNext = some bytes ∧ Handles lib decode bytes c q.2) := by
  have hrefl : Waits c c := ⟨⟨rfl, rfl, rfl, rfl⟩, rfl⟩
  -- behind a header that is read here, the call goes on as at a payload
  have hgo (c₁ : GrpcCall σ Req) (hreads : Reads c c₁) (hframe : c₁.con.AtFrame l)
      (hstate : c₁.con.state = .readFrame) (hcount : c₁.con.frameCount = c.con.frameCount)
      (hoffset : c₁.con.stream.curOffset ≤ c.con.stream.curOffset + http2FrameHdrSize) :
      ∃ q, c₁.processFrame lib = some q ∧
        ((c.con.frameNext = none ∧ Waits c q.2) ∨
          ∃ bytes, c.con.frameNext = some bytes ∧ Handles lib decode bytes c q.2) := by
    have hnext : c₁.con.frameNext = c.con.frameNext := by
      rw [hframe.frameNext_eq, h.frameNext_eq, hcount]
    rcases processFrame_handles hdec hframe hstate with ⟨hnone, heq⟩ | ⟨bytes, hsome, hdoes⟩
    · exact ⟨_, heq, Or.inl ⟨hnext.symm.trans hnone, waits_of_reads hreads hcount⟩⟩
    · obtain ⟨hbound, hany⟩ := hok bytes (hnext.symm.trans hsome)
      obtain ⟨r, hr, hroom⟩ := (Option.any_eq_true _ _).mp hany
      obtain ⟨q, heq, hq, hcount'⟩ := hdoes r (by omega)
        (by rw [hreads.inflater_eq, hreads.request_eq, hreads.match_eq, hcount, hr])
      refine ⟨q, heq, Or.inr ⟨bytes, hnext.symm.trans hsome, r, hr, of_decide_eq_true hroom,
        ⟨hq.inflater_eq, hq.request_eq, hq.match_eq, ?_⟩, hcount'.trans (by rw [hcount])⟩⟩
      rw [hq.writeBuf_eq, hreads.writeBuf_eq]
  obtain ⟨k, hahead⟩ := h.ahead
  rcases h.position with ⟨hstate, hoffset⟩ | ⟨hstate, -⟩
  · rw [processFrames, hstate, hahead.available_eq]
    simp only
    split_ifs with hlen
    · obtain ⟨r, cache, hpop, hahead', hr⟩ := hahead.pop hlen
      rw [hpop, hr (by decide), Option.bind_some]
      have htake : k.take http2FrameHdrSize
          = frameFormat.header l (frameFormat.start l c.con.frameCount) := by
        rw [Delimited.Format.header, ← hoffset, ← h.received_eq, hahead.drop_received]
        rfl
      refine hgo _ (reads_header _ _ _ _) ⟨h.received_eq, ⟨_, hahead'⟩, Or.inr ⟨rfl, ?_, ?_⟩⟩ rfl
        rfl (Nat.le_refl _)
      · exact congrArg (· + http2FrameHdrSize) hoffset
      · exact congrArg (fun bytes ↦ (H2Header.ofBytes bytes).clearBit) htake
    · refine ⟨_, rfl, Or.inl ⟨?_, hrefl⟩⟩
      rw [H2Connection.frameNext, H2Connection.nextFrame, hstate, hahead.available_eq]
      simp only
      rw [if_neg hlen, Option.bind_none]
  · rw [processFrames, hstate]
    exact hgo c ⟨rfl, rfl, rfl, rfl, none, (List.append_nil _).symm⟩ h hstate rfl
      (Nat.le_add_right _ _)

variable (lib c) in
theorem processFrames_connecting (hstate : c.con.state = .connecting) :
    c.processFrames lib = some (c.more, c) ∧ c.con.frameNext = none := by
  rw [processFrames, H2Connection.frameNext, H2Connection.nextFrame, hstate]
  exact ⟨rfl, rfl⟩

end GrpcCall

/-! ## Reading and writing -/

namespace H2Connection

variable {con : H2Connection}

theorem processConnecting_keeps : con.processConnecting.2.writeBuf = con.writeBuf ∧
    con.processConnecting.2.lastPathMatch = con.lastPathMatch ∧
    con.processConnecting.2.frameCount = con.frameCount := by
  rw [processConnecting]
  split_ifs
  · simp only
    split
    · exact ⟨rfl, rfl, rfl⟩
    · split_ifs <;> exact ⟨rfl, rfl, rfl⟩
  · exact ⟨rfl, rfl, rfl⟩

theorem receive_keeps (cb : Reader UInt8) : (con.receive cb).2.writeBuf = con.writeBuf ∧
    (con.receive cb).2.lastPathMatch = con.lastPathMatch ∧
    (con.receive cb).2.frameCount = con.frameCount := by
  rw [receive]
  split_ifs <;> first
    | exact ⟨rfl, rfl, rfl⟩
    | exact processConnecting_keeps

/-- The bytes that a `Write` sends. -/
def sentBytes (con : H2Connection) (fd : ℕ) (cb : Writer) : List UInt8 :=
  (writeOut con.writeBuf (none : Option (MultiPositionedStreamLog 1)) fd (fun _ ↦ true) cb).bytes

/-- The connection behind a `Write`. -/
def written (con : H2Connection) (fd : ℕ) (cb : Writer) : H2Connection :=
  (con.write (none : Option (MultiPositionedStreamLog 1)) fd (fun _ ↦ true) cb).2.1

theorem written_spec (h : con.writeBuf.Wf) (fd : ℕ) {cb : Writer}
    (hfits : con.writeBuf.WritevFits (.writev cb)) :
    ∃ b, con.written fd cb = { con with writeBuf := b } ∧ b.Wf ∧
      con.sentBytes fd cb ++ b.contents = con.writeBuf.contents := by
  refine ⟨_, rfl, ?_⟩
  rw [sentBytes, writeOut]
  split_ifs
  · obtain ⟨hwf, hgather, -, hdrop⟩ := h.writev cb hfits
    refine ⟨hwf, ?_⟩
    simp only
    rw [hdrop, BipBuf.accepted, hgather, List.take_append_drop]
  · exact ⟨h, rfl⟩

end H2Connection

/-! ## Runs -/

/-- The server: a manager with what arrived, the bytes that each client has got, and what the
clients did as the service sees it. -/
structure GrpcServer (σ Req : Type) where
  feed : GrpcFeed σ Req
  received : ℕ → List UInt8
  events : List ClientEvent

namespace GrpcServer

variable {σ Req Resp : Type}

def new (inflater : σ) (request : Req) : GrpcServer σ Req :=
  ⟨.new inflater request, fun _ ↦ [], []⟩

/-- What the service sees of a call. -/
def follow (s : GrpcServer σ Req) : GrpcOp → List ClientEvent
  | .registerConnection fd =>
    match s.feed.manager.connections fd with
    | none => [.connect fd]
    | some _ => []
  | .processFrames fd =>
    match s.feed.manager.connections fd with
    | none => []
    | some con => (con.frameNext.map (.frame fd)).toList
  | .unregister _ | .receive _ _ => []

/-- What the clients have got behind a call. A new one has nothing. -/
def hold (s : GrpcServer σ Req) : GrpcOp → ℕ → List UInt8
  | .registerConnection fd =>
    match s.feed.manager.connections fd with
    | none => Function.update s.received fd []
    | some _ => s.received
  | .unregister _ | .receive _ _ | .processFrames _ => s.received

/-- A step, and whether the call returned. -/
def step (lib : GrpcLib σ Req Resp) (s : GrpcServer σ Req) : GrpcIo → GrpcServer σ Req × Bool
  | .call op =>
    (⟨(s.feed.step lib op).1, s.hold op, s.events ++ s.follow op⟩, (s.feed.step lib op).2.isSome)
  | .write fd cb =>
    match s.feed.manager.connections fd with
    | none => (s, true)
    | some con =>
      ({ s with
          feed := { s.feed with manager := s.feed.manager.write fd cb }
          received := Function.update s.received fd
            (s.received fd ++ con.sentBytes fd cb) }, true)

/-- A descriptor is registered once, nothing is read from a client that sent another preface, the
service handles the frames and there is room for its answers, and the lengths that a `Write` uses
are right. -/
def Meets (lib : GrpcLib σ Req Resp) (decode : Req → List UInt8 → Option Req)
    (s : GrpcServer σ Req) : GrpcIo → Prop
  | .call (.registerConnection fd) => (s.feed.manager.connections fd).isNone = true
  | .call (.unregister _) => True
  | .call (.receive fd _) => ∀ con ∈ s.feed.manager.connections fd,
      ¬H2Connection.Refused (s.feed.arrived fd) ∧ con.stream.log.available < 2 ^ 32
  | .call (.processFrames fd) => ∀ con ∈ s.feed.manager.connections fd,
      ¬H2Connection.Refused (s.feed.arrived fd) ∧
        (s.feed.manager.call con).NextHandled lib decode
  | .write fd cb => ∀ con ∈ s.feed.manager.connections fd, con.writeBuf.WritevFits (.writev cb)

instance (arrived : List UInt8) : Decidable (H2Connection.Refused arrived) :=
  inferInstanceAs (Decidable (_ ≤ _ ∧ ¬_ <+: _))

instance (b : BipBuf .uint64 UInt8) (cb : Writer) : Decidable (b.WritevFits (.writev cb)) :=
  inferInstanceAs (Decidable (0 < b.available → b.tail < b.head ∨ _ ∧ _ ∨ _ ∧ _ ∧ _))

instance (lib : GrpcLib σ Req Resp) (decode : Req → List UInt8 → Option Req)
    (s : GrpcServer σ Req) : DecidablePred (s.Meets lib decode)
  | .call (.registerConnection _) => inferInstanceAs (Decidable (_ = true))
  | .call (.unregister _) => .isTrue trivial
  | .call (.receive _ _) =>
    inferInstanceAs (Decidable (∀ con ∈ s.feed.manager.connections _, _ ∧ _))
  | .call (.processFrames _) =>
    inferInstanceAs (Decidable (∀ con ∈ s.feed.manager.connections _, _ ∧ _))
  | .write _ _ => inferInstanceAs (Decidable (∀ con ∈ s.feed.manager.connections _, _))

/-- What the service has handled for a client, and what it has sent, is what the server has. -/
structure Serves (frames : List (List UInt8)) (pathMatch : Bool) (sent : List SendCall)
    (arrived received : List UInt8) (con : H2Connection) : Prop where
  framed : con.Framed arrived
  records : ∀ bytes ∈ frames, frameFormat.IsRecord bytes
  frameCount_eq : con.frameCount = frames.length
  frames_eq : frames.flatten = (arrived.drop http2InitSize).take
    (frameFormat.start (arrived.drop http2InitSize) con.frameCount)
  match_eq : con.lastPathMatch = pathMatch
  wf : con.writeBuf.Wf
  sent_eq : received ++ con.writeBuf.contents = sent.flatMap SendCall.bytes

/-- The server is where the service is. -/
structure Matches (t : GrpcService σ Req) (s : GrpcServer σ Req) : Prop where
  inflater_eq : s.feed.manager.inflater = t.inflater
  request_eq : s.feed.manager.request = t.request
  serves : ∀ fd con, s.feed.manager.connections fd = some con →
    Serves (t.frames fd) (t.pathMatch fd) (t.sent fd) (s.feed.arrived fd) (s.received fd) con

variable {lib : GrpcLib σ Req Resp} {decode : Req → List UInt8 → Option Req} {s : GrpcServer σ Req}
  {t : GrpcService σ Req} {fd : ℕ}

theorem matches_new (inflater : σ) (request : Req) :
    Matches (.new inflater request) (new inflater request) where
  inflater_eq := rfl
  request_eq := rfl
  serves _ _ hcon := absurd hcon (by simp [new, GrpcFeed.new, HTTP2GRPCManager.new])

theorem serves_new :
    Serves [] false [] [] [] (H2Connection.new (PositionedLog.createAnonStore 128)) where
  framed := H2Connection.framed_new
  records _ hbytes := absurd hbytes List.not_mem_nil
  frameCount_eq := rfl
  frames_eq := rfl
  match_eq := rfl
  wf := (BipBuf.rep_new _ _).wf (BipBuf.bounded_new _ _)
  sent_eq := by
    rw [H2Connection.new, (BipBuf.rep_new (fun _ ↦ 0) H2Connection.capacity).contents_eq]
    rfl

theorem Serves.receive {frames : List (List UInt8)} {pathMatch : Bool} {sent : List SendCall}
    {arrived received : List UInt8} {con : H2Connection}
    (h : Serves frames pathMatch sent arrived received con) (cb : Reader UInt8)
    (hne : ¬H2Connection.Refused arrived) (hfits : con.stream.log.available < 2 ^ 32) :
    Serves frames pathMatch sent (arrived ++ con.delivered cb) received (con.receive cb).2 := by
  obtain ⟨hbuf, hmatch, hcount⟩ := con.receive_keeps cb
  refine ⟨h.framed.receive cb fun _ _ ↦ hfits, h.records, hcount.trans h.frameCount_eq, ?_,
    hmatch.trans h.match_eq, ?_, ?_⟩
  · rw [hcount, h.frames_eq]
    rcases h.framed with hconnecting | ⟨hpre, hframe⟩ | hrefused
    · rw [hconnecting.frameCount_eq]
      rfl
    · have hle := hpre.length_le
      rw [H2Connection.length_http2Hdr] at hle
      rw [List.drop_append_of_le_length hle, Delimited.Format.start_append hframe.start_le,
        List.take_append_of_le_length hframe.start_le]
    · exact absurd hrefused hne
  · rw [hbuf]
    exact h.wf
  · rw [hbuf]
    exact h.sent_eq

theorem Serves.written {frames : List (List UInt8)} {pathMatch : Bool} {sent : List SendCall}
    {arrived received : List UInt8} {con : H2Connection}
    (h : Serves frames pathMatch sent arrived received con) (fd : ℕ) {cb : Writer}
    (hfits : con.writeBuf.WritevFits (.writev cb)) :
    Serves frames pathMatch sent arrived (received ++ con.sentBytes fd cb) (con.written fd cb) := by
  obtain ⟨b, heq, hwf, hcontents⟩ := H2Connection.written_spec h.wf fd hfits
  rw [heq]
  refine ⟨?_, h.records, h.frameCount_eq, h.frames_eq, h.match_eq, hwf, ?_⟩
  · rcases h.framed with hconnecting | ⟨hpre, hframe⟩ | hrefused
    · exact Or.inl ⟨hconnecting.state_eq, hconnecting.length_lt, hconnecting.rep,
        hconnecting.tail_eq, hconnecting.capacity_eq, hconnecting.stream_eq,
        hconnecting.frameCount_eq⟩
    · exact Or.inr (Or.inl ⟨hpre, hframe.received_eq, hframe.ahead, hframe.position⟩)
    · exact Or.inr (Or.inr hrefused)
  · rw [List.append_assoc, hcontents]
    exact h.sent_eq

/-- **A call for a client** handles its next frame as the service does, or nothing. -/
theorem Serves.processFrames (hdec : lib.Decodes decode) {m : HTTP2GRPCManager σ Req}
    {frames : List (List UInt8)} {pathMatch : Bool} {sent : List SendCall}
    {arrived received : List UInt8} {con : H2Connection}
    (h : Serves frames pathMatch sent arrived received con) (hne : ¬H2Connection.Refused arrived)
    (hok : (m.call con).NextHandled lib decode) :
    ∃ q, (m.call con).processFrames lib = some q ∧
      ((con.frameNext = none ∧ q.2.inflater = m.inflater ∧ q.2.request = m.request ∧
          Serves frames pathMatch sent arrived received q.2.con) ∨
        ∃ bytes r, con.frameNext = some bytes ∧
          GrpcService.handle lib decode m.inflater m.request pathMatch frames.isEmpty
            (GrpcService.frameHeader bytes) (bytes.drop http2FrameHdrSize) = some r ∧
          q.2.inflater = r.inflater ∧ q.2.request = r.request ∧
          Serves (frames ++ [bytes]) r.pathMatch (sent ++ r.calls) arrived received q.2.con) := by
  rcases h.framed with hconnecting | ⟨hpre, hframe⟩ | hrefused
  · obtain ⟨heq, hnone⟩ := GrpcCall.processFrames_connecting lib (m.call con) hconnecting.state_eq
    exact ⟨_, heq, Or.inl ⟨hnone, rfl, rfl, h⟩⟩
  · obtain ⟨⟨ret, c'⟩, heq, hcases⟩ :=
      GrpcCall.processFrames_handles (c := m.call con) hdec hframe hok
    obtain ⟨hframed, -⟩ := GrpcFeed.framed_processFrames hdec h.framed
      (fun _ ↦ hok.nextFits hframe) heq
    refine ⟨_, heq, hcases.imp ?_ ?_⟩
    · rintro ⟨hnone, hdoes, hcount⟩
      refine ⟨hnone, hdoes.inflater_eq, hdoes.request_eq, hframed, h.records,
        hcount.trans h.frameCount_eq, ?_, hdoes.match_eq.trans h.match_eq, ?_, ?_⟩
      · rw [hcount]
        exact h.frames_eq
      · rw [hdoes.writeBuf_eq]
        exact h.wf
      · rw [hdoes.writeBuf_eq]
        exact h.sent_eq
    · rintro ⟨bytes, hsome, r, hr, hroom, hdoes, hcount⟩
      obtain ⟨-, htake, -⟩ := hframe.of_frameNext hsome
      obtain ⟨hwf, hcontents⟩ := sendEach_of_room h.wf
        (fun call hcall ↦ (GrpcService.handle_madeBy hr call hcall).length_len) hroom
      have hfirst : decide (con.frameCount = 0) = frames.isEmpty := by
        rw [h.frameCount_eq]
        cases frames <;> rfl
      refine ⟨bytes, r, hsome, ?_, hdoes.inflater_eq, hdoes.request_eq, hframed,
        fun bytes' hbytes ↦ ?_, ?_, ?_, hdoes.match_eq, ?_, ?_⟩
      · rw [← hfirst, ← h.match_eq]
        exact hr
      · rcases List.mem_append.mp hbytes with hbytes | hbytes
        · exact h.records bytes' hbytes
        · rw [List.mem_singleton.mp hbytes]
          exact hframe.isRecord_of_frameNext hsome
      · rw [List.length_append, ← h.frameCount_eq]
        exact hcount
      · rw [hcount, List.flatten_concat, h.frames_eq]
        exact htake.symm
      · rw [hdoes.writeBuf_eq]
        exact hwf
      · rw [hdoes.writeBuf_eq]
        refine (congrArg (received ++ ·) hcontents).trans ?_
        rw [← List.append_assoc, List.flatMap_append]
        exact congrArg (· ++ _) h.sent_eq
  · exact absurd hrefused hne

/-! ## Steps -/

theorem Matches.update (h : Matches t s) (fd : ℕ) {frames : List (List UInt8)} {pathMatch : Bool}
    {sent : List SendCall} {arrived received : List UInt8} {con : H2Connection}
    (hcon : Serves frames pathMatch sent arrived received con) (fd' : ℕ) (con' : H2Connection)
    (hcon' : Function.update s.feed.manager.connections fd (some con) fd' = some con') :
    Serves (Function.update t.frames fd frames fd') (Function.update t.pathMatch fd pathMatch fd')
      (Function.update t.sent fd sent fd') (Function.update s.feed.arrived fd arrived fd')
      (Function.update s.received fd received fd') con' := by
  by_cases hfd : fd' = fd
  · subst hfd
    rw [Function.update_self] at hcon'
    simp only [Function.update_self]
    rwa [← Option.some.inj hcon']
  · rw [Function.update_of_ne hfd] at hcon'
    simp only [Function.update_of_ne hfd]
    exact h.serves fd' con' hcon'

theorem Matches.step_unseen (h : Matches t s) {io : GrpcIo} (hok : Meets lib decode s io)
    (hunseen : ∀ fd, io ≠ .call (.registerConnection fd) ∧ io ≠ .call (.processFrames fd)) :
    (s.step lib io).2 = true ∧ (s.step lib io).1.events = s.events ∧
      Matches t (s.step lib io).1 := by
  cases io with
  | write fd cb =>
    rw [step]
    cases hcon : s.feed.manager.connections fd with
    | none => exact ⟨rfl, rfl, h⟩
    | some con =>
      have hwrite : s.feed.manager.write fd cb
          = s.feed.manager.set fd (some (con.written fd cb)) := by
        rw [HTTP2GRPCManager.write, hcon]
        rfl
      simp only [hwrite]
      have hall := h.update fd ((h.serves fd con hcon).written fd (hok con hcon))
      simp only [Function.update_eq_self] at hall
      exact ⟨trivial, trivial, h.inflater_eq, h.request_eq, hall⟩
  | call op =>
    cases op with
    | registerConnection fd => exact absurd rfl (hunseen fd).1
    | processFrames fd => exact absurd rfl (hunseen fd).2
    | unregister fd =>
      rw [step, follow, hold, List.append_nil, GrpcFeed.step, HTTP2GRPCManager.step]
      cases hcon : s.feed.manager.connections fd with
      | none => exact ⟨rfl, rfl, h.inflater_eq, h.request_eq, h.serves⟩
      | some con =>
        refine ⟨rfl, rfl, h.inflater_eq, h.request_eq, fun fd' con' hcon' ↦ ?_⟩
        simp only [HTTP2GRPCManager.set, Function.update_apply] at hcon'
        split_ifs at hcon'
        exact h.serves fd' con' hcon'
    | receive fd cb =>
      rw [step, follow, hold, List.append_nil, GrpcFeed.step, HTTP2GRPCManager.step,
        GrpcFeed.arrive]
      cases hcon : s.feed.manager.connections fd with
      | none => exact ⟨rfl, rfl, h.inflater_eq, h.request_eq, h.serves⟩
      | some con =>
        obtain ⟨hne, hfits⟩ := hok con hcon
        have hall := h.update fd ((h.serves fd con hcon).receive cb hne hfits)
        simp only [Function.update_eq_self] at hall
        exact ⟨rfl, rfl, h.inflater_eq, h.request_eq, hall⟩

theorem Matches.step_register (h : Matches t s)
    (hok : Meets lib decode s (.call (.registerConnection fd))) :
    (s.step lib (.call (.registerConnection fd))).2 = true ∧
      (s.step lib (.call (.registerConnection fd))).1.events = s.events ++ [.connect fd] ∧
      Matches (t.step lib decode (.connect fd)).1
        (s.step lib (.call (.registerConnection fd))).1 := by
  have hnone : s.feed.manager.connections fd = none := Option.isNone_iff_eq_none.mp hok
  rw [step, follow, hold, GrpcFeed.step, HTTP2GRPCManager.step, GrpcFeed.arrive, hnone]
  exact ⟨rfl, rfl, h.inflater_eq, h.request_eq, h.update fd serves_new⟩

theorem Matches.step_processFrames (hdec : lib.Decodes decode) (h : Matches t s)
    (hok : Meets lib decode s (.call (.processFrames fd))) :
    (s.step lib (.call (.processFrames fd))).2 = true ∧
      (((s.step lib (.call (.processFrames fd))).1.events = s.events ∧
          Matches t (s.step lib (.call (.processFrames fd))).1) ∨
        ∃ bytes, (s.step lib (.call (.processFrames fd))).1.events
            = s.events ++ [.frame fd bytes] ∧
          Matches (t.step lib decode (.frame fd bytes)).1
            (s.step lib (.call (.processFrames fd))).1) := by
  rw [step, follow, hold]
  cases hcon : s.feed.manager.connections fd with
  | none =>
    rw [GrpcFeed.step, HTTP2GRPCManager.step, hcon]
    exact ⟨rfl, Or.inl ⟨List.append_nil _, h.inflater_eq, h.request_eq, h.serves⟩⟩
  | some con =>
    obtain ⟨hne, hhandled⟩ := hok con hcon
    obtain ⟨⟨ret, c'⟩, heq, hcases⟩ :=
      (h.serves fd con hcon).processFrames hdec hne hhandled
    have hstep : s.feed.step lib (.processFrames fd) = (⟨{ s.feed.manager.set fd (some c'.con) with
        inflater := c'.inflater, request := c'.request }, s.feed.arrived⟩,
          some (ret, c'.events)) := by
      rw [GrpcFeed.step, HTTP2GRPCManager.step_of_some hcon heq]
      rfl
    rw [hstep]
    refine ⟨rfl, ?_⟩
    rcases hcases with ⟨hnone, hinflater, hrequest, hserves⟩ |
      ⟨bytes, r, hsome, hr, hinflater, hrequest, hserves⟩
    · have hall := h.update fd hserves
      simp only [Function.update_eq_self] at hall
      refine Or.inl ⟨?_, hinflater.trans h.inflater_eq, hrequest.trans h.request_eq, hall⟩
      show s.events ++ (con.frameNext.map (ClientEvent.frame fd)).toList = s.events
      rw [hnone]
      exact List.append_nil _
    · rw [h.inflater_eq, h.request_eq] at hr
      have hall := h.update fd hserves
      simp only [Function.update_eq_self] at hall
      refine Or.inr ⟨bytes, ?_, ?_⟩
      · show s.events ++ (con.frameNext.map (ClientEvent.frame fd)).toList = _
        rw [hsome]
        rfl
      · rw [GrpcService.step, hr]
        exact ⟨hinflater, hrequest, hall⟩

/-! ## Refinement -/

/-- What the service has done when the clients did what they did. -/
def service (lib : GrpcLib σ Req Resp) (decode : Req → List UInt8 → Option Req) (inflater : σ)
    (request : Req) (s : GrpcServer σ Req) : GrpcService σ Req :=
  (Run.run (GrpcService.step lib decode) (.new inflater request) s.events).1

/-- **One step** of the server is one of the service, or none. -/
theorem Matches.step (hdec : lib.Decodes decode) {inflater : σ} {request : Req}
    (h : Matches (s.service lib decode inflater request) s) {io : GrpcIo}
    (hok : Meets lib decode s io) :
    (s.step lib io).2 = true ∧
      Matches ((s.step lib io).1.service lib decode inflater request) (s.step lib io).1 := by
  have hunseen (hother : ∀ fd, io ≠ .call (.registerConnection fd) ∧
      io ≠ .call (.processFrames fd)) : (s.step lib io).2 = true ∧
        Matches ((s.step lib io).1.service lib decode inflater request) (s.step lib io).1 := by
    obtain ⟨hreturns, hevents, hmatches⟩ := h.step_unseen hok hother
    rw [service, hevents]
    exact ⟨hreturns, hmatches⟩
  cases io with
  | write fd cb => exact hunseen fun _ ↦ ⟨nofun, nofun⟩
  | call op =>
    cases op with
    | unregister fd | receive fd cb => exact hunseen fun _ ↦ ⟨nofun, nofun⟩
    | registerConnection fd =>
      obtain ⟨hreturns, hevents, hmatches⟩ := h.step_register hok
      rw [service, hevents, Run.run_concat]
      exact ⟨hreturns, hmatches⟩
    | processFrames fd =>
      obtain ⟨hreturns, ⟨hevents, hmatches⟩ | ⟨bytes, hevents, hmatches⟩⟩ :=
        h.step_processFrames hdec hok
      · rw [service, hevents]
        exact ⟨hreturns, hmatches⟩
      · rw [service, hevents, Run.run_concat]
        exact ⟨hreturns, hmatches⟩

/-- Of the frames that a client sends behind the preface the first ones are handled, up to one that
has not arrived if the next call has none to handle; and what the client has got and what waits for
it is what the service sent. -/
def ServesClient (t : GrpcService σ Req) (s : GrpcServer σ Req) (fd : ℕ)
    (con : H2Connection) : Prop :=
  (∀ frames : List (List UInt8), (∀ bytes ∈ frames, frameFormat.IsRecord bytes) →
      s.feed.arrived fd <+: http2Hdr ++ frames.flatten → t.frames fd <+: frames ∧
        (con.frameNext = none → t.frames fd = frames.take (Delimited.Format.count frames
          ((s.feed.arrived fd).length - http2InitSize)))) ∧
    s.received fd ++ con.writeBuf.contents = (t.sent fd).flatMap SendCall.bytes

/-- The call returns, and behind it each client is served as by the service that handled the same
frames, in the same order. -/
def Refines (lib : GrpcLib σ Req Resp) (decode : Req → List UInt8 → Option Req) (inflater : σ)
    (request : Req) (s : GrpcServer σ Req) (io : GrpcIo) : Prop :=
  (s.step lib io).2 = true ∧
    ∀ fd con, (s.step lib io).1.feed.manager.connections fd = some con →
      ServesClient ((s.step lib io).1.service lib decode inflater request) (s.step lib io).1 fd con

theorem Matches.servesClient (h : Matches t s) {con : H2Connection}
    (hcon : s.feed.manager.connections fd = some con) : ServesClient t s fd con := by
  obtain ⟨hframed, hrecords, hcount, hframes, -, -, hsent⟩ := h.serves fd con hcon
  refine ⟨fun frames hsends harrived ↦ ?_, hsent⟩
  set l := (s.feed.arrived fd).drop http2InitSize with hl
  have hpos : 0 < frameFormat.headerSize := by decide
  have hrest : l <+: frames.flatten := by
    have hdrop := harrived.drop http2InitSize
    rwa [← H2Connection.length_http2Hdr, List.drop_left, H2Connection.length_http2Hdr] at hdrop
  have hsplit : l = (t.frames fd).flatten ++ l.drop (frameFormat.start l con.frameCount) := by
    rw [hframes, List.take_append_drop]
  refine ⟨(Delimited.Format.prefix_drop hrecords hsends hpos (hsplit ▸ hrest)).1, fun hnone ↦ ?_⟩
  have hincomplete : ¬frameFormat.Complete (l.drop (frameFormat.start l con.frameCount)) := by
    rcases hframed with hconnecting | ⟨-, hframe⟩ | ⟨hlen, hother⟩
    · rw [hl, List.drop_eq_nil_of_le (Nat.le_of_lt hconnecting.length_lt), List.drop_nil]
      decide
    · exact hframe.not_complete hnone
    · rw [← H2Connection.length_http2Hdr] at hlen
      exact absurd (List.prefix_of_prefix_length_le (List.prefix_append _ _) harrived hlen) hother
  have htake := Delimited.Format.eq_take_count hrecords hsends hpos (hsplit ▸ hrest) hincomplete
  rwa [← hsplit, hl, List.length_drop] at htake

/-- **The server does what the service does**, for each of its clients. -/
theorem run_refines (hdec : lib.Decodes decode) (inflater : σ) (request : Req) (ios : List GrpcIo)
    (hok : Run.Steps (step lib) (Meets lib decode) (new inflater request) ios) :
    Run.Steps (step lib) (Refines lib decode inflater request) (new inflater request) ios :=
  Run.Steps.of_invariant (P := fun s ↦ Matches (s.service lib decode inflater request) s)
    (fun _ _ hs hio ↦ (hs.step hdec hio).2)
    (fun _ _ hs hio ↦ ⟨(hs.step hdec hio).1, fun _ _ hcon ↦ (hs.step hdec hio).2.servesClient hcon⟩)
    (matches_new inflater request) hok

/-- Two clients, of which one sends its settings in two parts and the other one asks for a path that
is not served. -/
def twoClients : List GrpcIo :=
  [.call (.registerConnection 3), .call (.registerConnection 4),
    .call (.receive 3 (Reader.ofList (http2Hdr ++ [0, 0, 6, 4, 0, 0]) (by decide))),
    .call (.processFrames 3),
    .call (.receive 4 (Reader.ofList (http2Hdr ++ GrpcFeed.threeFrames) (by decide))),
    .call (.processFrames 4),
    .call (.receive 3 (Reader.ofList [0, 0, 0, 0, 3, 0, 0, 0, 100] (by decide))),
    .call (.processFrames 3), .write 4 (Writer.atMost 10 (by decide)), .call (.processFrames 4),
    .call (.processFrames 4), .write 3 (Writer.atMost 20 (by decide)),
    .write 4 (Writer.atMost 20 (by decide))]

theorem run_refines_two :
    Run.Steps (step (GrpcLib.plain true)) (Refines (GrpcLib.plain true)
      (fun request l ↦ some (request ++ l)) () []) (new () []) twoClients :=
  run_refines (GrpcLib.plain_decodes true) () [] _ (by decide +kernel)

end GrpcServer

end Coypu
