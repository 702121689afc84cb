import Coypu.Http2.Acknowledging
import Coypu.Http2.Asserting
import Coypu.Http2.Interleaving

/-!
# The service frame by frame

What the gRPC server is for, without buffers, streams and descriptors that are ready: a client
connects and sends frames, and each frame is handled as a whole (`GrpcService.step`). The inflater
and the request that messages are merged into belong to the service and not to a client, so that the
frames of all clients are handled in one order.

A frame is handled if it is as the code expects (`GrpcService.handle`). The handlers of
`ProcessFrames` then do what this says to the members of the manager and to the write buffer
(`GrpcCall.frame_does`), and take the frame from the stream.
-/

set_option autoImplicit false

namespace Coypu

open FlatMemory Http2 SendCall

/-! ## What is sent -/

namespace GrpcLib

variable {σ Req Resp : Type} (lib : GrpcLib σ Req Resp)

/-- The frame of `SendHeaderFrame`, if the fields can be encoded. -/
def headerCalls (id : ℕ) (fields : List Field) (flags : UInt8) : List SendCall :=
  ((lib.deflate fields).map fun data ↦ frame
    { (H2Header.new .headers).setLength data.length with flags := flags, id := id } data).toList

/-- The answer to a request: a header, the response and a trailing header. -/
def responseCalls (id : ℕ) (resp : Resp) : List SendCall :=
  lib.headerCalls id
      [(ascii ":status", ascii "200"), (ascii "content-type", ascii "application/grpc+proto")]
      H2Flags.endHeaders.value ++
    [grpc { (H2Header.new .data).setLength (5 + (lib.serialize resp).length) with id := id }
      (lib.serialize resp)] ++
    lib.headerCalls id [(ascii "grpc-status", ascii "0")]
      (H2Flags.endHeaders.value ||| H2Flags.endStream.value)

/-- The answer to data for another path. -/
def notFoundCalls (id : ℕ) : List SendCall :=
  lib.headerCalls id [(ascii ":status", ascii "404")]
    (H2Flags.endHeaders.value ||| H2Flags.endStream.value)

end GrpcLib

/-- The answer to settings. The first frame of a client is answered with settings of the server,
too. -/
def settingsCalls (first : Bool) : List SendCall :=
  (if first then [plainSettings] else []) ++ [ackSettings]

/-! ## The service -/

/-- What the service knows: the inflater and the request, and of each client the frames it has sent,
whether its last header block was for the path that is served, and what was sent to it. -/
structure GrpcService (σ Req : Type) where
  inflater : σ
  request : Req
  frames : ℕ → List (List UInt8)
  pathMatch : ℕ → Bool
  sent : ℕ → List SendCall

/-- What a client does. -/
inductive ClientEvent where
  | connect (fd : ℕ)
  | frame (fd : ℕ) (bytes : List UInt8)
deriving DecidableEq, Repr

namespace GrpcService

/-- What a frame makes of the inflater, of the request and of the path of its client, and what is
sent in answer to it. -/
structure Handled (σ Req : Type) where
  inflater : σ
  request : Req
  pathMatch : Bool
  calls : List SendCall

variable {σ Req Resp : Type} (lib : GrpcLib σ Req Resp) (decode : Req → List UInt8 → Option Req)

/-- A frame is handled, if it is one that the server expects. -/
def handle (inflater : σ) (request : Req) (pathMatch first : Bool) (hdr : H2Header)
    (payload : List UInt8) : Option (Handled σ Req) :=
  if hdr.type = H2FrameType.headers.value then
    if http2HeaderBufSize ≤ payload.length then none
    else (lib.inflateBlock inflater pathMatch payload).map fun r ↦ ⟨r.1, request, r.2.1, []⟩
  else if hdr.type = H2FrameType.data.value then
    if payload.length < 5 ∨ GrpcCall.grpcLen payload ≠ payload.length - 5 then none
    else if pathMatch = false then some ⟨inflater, request, pathMatch, lib.notFoundCalls hdr.id⟩
    else if payload.headD 0 ≠ 0 then none
    else (decode request (payload.drop 5)).bind fun request ↦
      if initialSettingsMaxFrameSize ≤ (lib.serialize (lib.cb request).1).length + 5 then none
      else some ⟨inflater, (lib.cb request).2, pathMatch,
        lib.responseCalls hdr.id (lib.cb request).1⟩
  else if hdr.type = H2FrameType.goaway.value then
    if 8 ≤ payload.length ∧ payload.length ≤ 1032 then some ⟨inflater, request, pathMatch, []⟩
    else none
  else if hdr.type = H2FrameType.windowUpdate.value then
    if payload.length = 4 then some ⟨inflater, request, pathMatch, []⟩ else none
  else if hdr.type = H2FrameType.settings.value then
    if payload.length % 6 = 0 then some ⟨inflater, request, pathMatch, settingsCalls first⟩
    else none
  else some ⟨inflater, request, pathMatch, []⟩

end GrpcService

namespace GrpcLib

variable {σ Req Resp : Type} {lib : GrpcLib σ Req Resp} {call : SendCall}

theorem headerCalls_madeBy {id : ℕ} {fields : List Field} {flags : UInt8}
    (h : call ∈ lib.headerCalls id fields flags) : MadeBy lib call := by
  obtain ⟨data, hdata, rfl⟩ := Option.map_eq_some_iff.mp (Option.mem_toList.mp h)
  exact .header hdata flags id

theorem responseCalls_madeBy {id : ℕ} {resp : Resp} (h : call ∈ lib.responseCalls id resp) :
    MadeBy lib call := by
  rcases List.mem_append.mp h with h | h
  · rcases List.mem_append.mp h with h | h
    · exact headerCalls_madeBy h
    · rw [List.mem_singleton.mp h]
      exact .response resp id
  · exact headerCalls_madeBy h

variable (lib) in
theorem settingsCalls_madeBy {first : Bool} (h : call ∈ settingsCalls first) : MadeBy lib call := by
  rcases List.mem_append.mp h with h | h
  · split_ifs at h
    · rw [List.mem_singleton.mp h]
      exact .settings 0
    · exact absurd h List.not_mem_nil
  · rw [List.mem_singleton.mp h]
    exact .settings 1

end GrpcLib

namespace GrpcService

variable {σ Req Resp : Type} {lib : GrpcLib σ Req Resp} {decode : Req → List UInt8 → Option Req}

theorem handle_madeBy {inflater : σ} {request : Req} {pathMatch first : Bool} {hdr : H2Header}
    {payload : List UInt8} {r : Handled σ Req}
    (hr : handle lib decode inflater request pathMatch first hdr payload = some r) :
    ∀ call ∈ r.calls, MadeBy lib call := by
  intro call hcall
  rw [handle] at hr
  split_ifs at hr
  · obtain ⟨q, -, rfl⟩ := Option.map_eq_some_iff.mp hr
    exact absurd hcall List.not_mem_nil
  · rw [← Option.some.inj hr] at hcall
    exact GrpcLib.headerCalls_madeBy hcall
  · obtain ⟨request', -, hr⟩ := Option.bind_eq_some_iff.mp hr
    split_ifs at hr
    rw [← Option.some.inj hr] at hcall
    exact GrpcLib.responseCalls_madeBy hcall
  · rw [← Option.some.inj hr] at hcall
    exact absurd hcall List.not_mem_nil
  · rw [← Option.some.inj hr] at hcall
    exact absurd hcall List.not_mem_nil
  · rw [← Option.some.inj hr] at hcall
    exact GrpcLib.settingsCalls_madeBy lib hcall
  · rw [← Option.some.inj hr] at hcall
    exact absurd hcall List.not_mem_nil

variable (lib) (decode)

/-- The header of a frame, as the server reads it. -/
def frameHeader (bytes : List UInt8) : H2Header :=
  (H2Header.ofBytes (bytes.take http2FrameHdrSize)).clearBit

def new (inflater : σ) (request : Req) : GrpcService σ Req :=
  ⟨inflater, request, fun _ ↦ [], fun _ ↦ false, fun _ ↦ []⟩

variable (t : GrpcService σ Req)

/-- What a client does, and what is sent to it then. -/
def step : ClientEvent → GrpcService σ Req × Option (List SendCall)
  | .connect fd =>
    ({ t with
        frames := Function.update t.frames fd []
        pathMatch := Function.update t.pathMatch fd false
        sent := Function.update t.sent fd [] }, some [])
  | .frame fd bytes =>
    match handle lib decode t.inflater t.request (t.pathMatch fd) (t.frames fd).isEmpty
      (frameHeader bytes) (bytes.drop http2FrameHdrSize) with
    | none => (t, none)
    | some r =>
      (⟨r.inflater, r.request, Function.update t.frames fd (t.frames fd ++ [bytes]),
        Function.update t.pathMatch fd r.pathMatch,
        Function.update t.sent fd (t.sent fd ++ r.calls)⟩, some r.calls)

end GrpcService

/-! ## The write buffer -/

section WriteBuf

variable {b : BipBuf .uint64 UInt8} {calls : List SendCall}

theorem pushParts_keeps (h : b.Wf) (ls : List (List UInt8)) :
    (pushParts ls b).2.Wf ∧ (pushParts ls b).2.capacity = b.capacity := by
  induction ls generalizing b with
  | nil => exact ⟨h, rfl⟩
  | cons l ls ih =>
    obtain ⟨hwf, hcap, -⟩ :=
      (BipBuf.pushBlock_refines h.rep h.bounded (fun i ↦ l.getD i 0) l.length).keeping h
    rw [pushParts]
    split_ifs
    · obtain ⟨hrest, hcap'⟩ := ih hwf
      exact ⟨hrest, hcap'.trans hcap⟩
    · exact ⟨hwf, hcap⟩

/-- **Frames that fit** are behind what the buffer held. -/
theorem sendEach_of_room (h : b.Wf) (hhdr : ∀ call ∈ calls, call.hdr.len.length = 3)
    (hroom : (calls.flatMap bytes).length ≤ b.free) :
    (sendEach calls b).Wf ∧ (sendEach calls b).contents = b.contents ++ calls.flatMap bytes := by
  induction calls generalizing b with
  | nil => exact ⟨h, (List.append_nil _).symm⟩
  | cons call calls ih =>
    rw [List.flatMap_cons, List.length_append] at hroom
    obtain ⟨-, hcontents⟩ := send_of_room h (hhdr call List.mem_cons_self)
      (Nat.le_of_add_right_le hroom)
    obtain ⟨hwf, hcap⟩ : (call.send b).2.Wf ∧ (call.send b).2.capacity = b.capacity :=
      pushParts_keeps h _
    have hfree : (call.send b).2.free = b.free - call.bytes.length := by
      rw [hwf.rep.free_eq, h.rep.free_eq, hcap, hcontents, List.length_append, Nat.sub_add_eq]
    obtain ⟨hwf', hrest⟩ := ih hwf (fun call' hmem ↦ hhdr call' (List.mem_cons_of_mem _ hmem))
      (by omega)
    refine ⟨hwf', ?_⟩
    rw [sendEach, List.foldl_cons, ← sendEach, hrest, hcontents, List.flatMap_cons,
      List.append_assoc]

end WriteBuf

/-! ## Header blocks -/

theorem PositionedLog.Ahead.blockOf {s : AnonStreamType} {l : List UInt8} {n : ℕ} (h : s.Ahead l)
    (hn : n ≤ l.length) :
    ∃ r cache, s.pop n = some (r, s.moved n cache) ∧ (s.moved n cache).Ahead (l.drop n) ∧
      GrpcCall.blockOf n r = some (l.take n) := by
  obtain ⟨r, cache, hpop, hahead, hr⟩ := h.pop hn
  refine ⟨r, cache, hpop, hahead, ?_⟩
  rcases Nat.eq_zero_or_pos n with rfl | hpos
  · cases r with
    | none => rfl
    | some k =>
      obtain ⟨q, hq, hk⟩ := Option.map_eq_some_iff.mp hpop
      obtain ⟨r, log⟩ := q
      obtain rfl : r = some k := congrArg Prod.fst hk
      have hsound : OneShotCache.Sound s.log.pageSize s.log.cache := h.streaming.sound
      rw [List.length_eq_zero_iff.mp (PagedLog.length_of_pop hsound h.page_lt hq)]
      rfl
  · rw [hr hpos]
    rfl

/-! ## The handlers -/

namespace GrpcCall

variable {σ Req Resp : Type} {lib : GrpcLib σ Req Resp} {decode : Req → List UInt8 → Option Req}
  {c c' c'' : GrpcCall σ Req} {l : List UInt8} {n : ℕ} {calls calls' : List SendCall}

/-- Frames were sent, and nothing else was done. -/
structure Sends (calls : List SendCall) (c c' : GrpcCall σ Req) : Prop where
  con_eq : c'.con = { c.con with writeBuf := sendEach calls c.con.writeBuf }
  inflater_eq : c'.inflater = c.inflater
  request_eq : c'.request = c.request

theorem Sends.trans (h : Sends calls c c') (h' : Sends calls' c' c'') :
    Sends (calls ++ calls') c c'' := by
  refine ⟨?_, h'.inflater_eq.trans h.inflater_eq, h'.request_eq.trans h.request_eq⟩
  rw [h'.con_eq, h.con_eq, sendEach, sendEach, sendEach, List.foldl_append]

theorem sends_sendAll (call : SendCall) : Sends [call] c (c.sendAll call.hdr call.parts) := by
  obtain ⟨⟨b, hcon⟩, hinflater, hrequest, -⟩ := sending_sendAll (c := c) rfl call.parts
  have hbuf := sendAll_writeBuf (c := c) call.hdr call.parts
  rw [hcon] at hbuf
  exact ⟨hcon.trans (congrArg (fun b ↦ { c.con with writeBuf := b }) hbuf), hinflater, hrequest⟩

variable (lib c) in
theorem sends_sendHeaderFrame (fields : List Field) (flags : UInt8) :
    Sends (lib.headerCalls c.con.hdr.id fields flags) c (c.sendHeaderFrame lib fields flags) := by
  rw [sendHeaderFrame, GrpcLib.headerCalls]
  cases lib.deflate fields with
  | none => exact ⟨rfl, rfl, rfl⟩
  | some data => exact sends_sendAll (.frame _ data)

theorem respond_sends {request : Req}
    (hsize : ¬initialSettingsMaxFrameSize ≤ (lib.serialize (lib.cb request).1).length + 5) :
    ∃ c', c.respond lib request = some c' ∧
      Sends (lib.responseCalls c.con.hdr.id (lib.cb request).1)
        { c with request := (lib.cb request).2 } c' := by
  refine ⟨_, if_neg fun hboth ↦ hsize hboth.2, ?_⟩
  set c₁ : GrpcCall σ Req :=
    GrpcCall.emit { c with request := (lib.cb request).2 } (.handed request)
  have hhanded : Sends [] { c with request := (lib.cb request).2 } c₁ := ⟨rfl, rfl, rfl⟩
  have hbegin := sends_sendHeaderFrame lib c₁
    [(ascii ":status", ascii "200"), (ascii "content-type", ascii "application/grpc+proto")]
    H2Flags.endHeaders.value
  set c₂ := c₁.sendHeaderFrame lib
    [(ascii ":status", ascii "200"), (ascii "content-type", ascii "application/grpc+proto")]
    H2Flags.endHeaders.value
  have hdata := sends_sendAll (c := c₂) (.grpc
    { (H2Header.new .data).setLength (5 + (lib.serialize (lib.cb request).1).length) with
      id := c₂.con.hdr.id } (lib.serialize (lib.cb request).1))
  set c₃ := c₂.sendAll _ _
  have hend := sends_sendHeaderFrame lib c₃ [(ascii "grpc-status", ascii "0")]
    (H2Flags.endHeaders.value ||| H2Flags.endStream.value)
  -- the identifier is the same in all of them
  have hid₂ : c₂.con.hdr.id = c.con.hdr.id := by rw [hbegin.con_eq]; rfl
  have hid₃ : c₃.con.hdr.id = c.con.hdr.id := by rw [hdata.con_eq]; exact hid₂
  rw [hid₂] at hdata
  rw [hid₃] at hend
  exact ((hhanded.trans hbegin).trans hdata).trans hend

/-- A call did what the handling of a frame says. -/
structure Does (r : GrpcService.Handled σ Req) (c c' : GrpcCall σ Req) : Prop where
  inflater_eq : c'.inflater = r.inflater
  request_eq : c'.request = r.request
  match_eq : c'.con.lastPathMatch = r.pathMatch
  writeBuf_eq : c'.con.writeBuf = sendEach r.calls c.con.writeBuf

theorem Sends.does {c₀ : GrpcCall σ Req} (h : Sends calls c₀ c')
    (hbuf : c₀.con.writeBuf = c.con.writeBuf) :
    Does ⟨c₀.inflater, c₀.request, c₀.con.lastPathMatch, calls⟩ c c' := by
  refine ⟨h.inflater_eq, h.request_eq, ?_, ?_⟩
  · rw [h.con_eq]
  · rw [h.con_eq, hbuf]

theorem headersFrame_does (h : c.con.stream.Ahead l) (hn : n ≤ l.length)
    (hlen : n < http2HeaderBufSize) {q : σ × Bool × List Field}
    (hq : lib.inflateBlock c.inflater c.con.lastPathMatch (l.take n) = some q) :
    ∃ c', c.headersFrame lib n = some c' ∧ Does ⟨q.1, c.request, q.2.1, []⟩ c c' := by
  obtain ⟨r, cache, hpop, -, hblock⟩ := h.blockOf hn
  refine ⟨({ c.withStream (c.con.stream.moved n cache) with inflater := q.1 }.withCon
    { (c.withStream (c.con.stream.moved n cache)).con with lastPathMatch := q.2.1 }).emit
      (.decoded q.2.2), ?_, rfl, rfl, rfl, rfl⟩
  rw [headersFrame_eq (lib.le_maxHeaders hlen), hpop, Option.bind_some, hblock, Option.bind_some,
    inflateHeaderBlock]
  exact Option.map_eq_some_iff.mpr ⟨q, hq, rfl⟩

theorem pop_five (h : c.con.stream.Ahead l) (hn : n ≤ l.length) (hfive : 5 ≤ n)
    (hgrpc : grpcLen (l.take n) = (l.take n).length - 5) :
    ∃ cache, c.con.stream.pop 5 = some (some (l.take 5), c.con.stream.moved 5 cache) ∧
      (c.con.stream.moved 5 cache).Ahead (l.drop 5) ∧ Bytes.decode ((l.take 5).drop 1) = n - 5 := by
  obtain ⟨r, cache, hpop, hahead, hr⟩ := h.pop (Nat.le_trans hfive hn)
  rw [hr (by decide)] at hpop
  refine ⟨cache, hpop, hahead, ?_⟩
  rw [grpcLen, List.take_take, Nat.min_eq_left hfive, List.length_take, Nat.min_eq_left hn] at hgrpc
  exact hgrpc

theorem dataFrame_mismatch (h : c.con.stream.Ahead l) (hn : n ≤ l.length) (hfive : 5 ≤ n)
    (hgrpc : grpcLen (l.take n) = (l.take n).length - 5) (hmatch : c.con.lastPathMatch = false) :
    ∃ c', c.dataFrame lib = some c' ∧
      Does ⟨c.inflater, c.request, c.con.lastPathMatch, lib.notFoundCalls c.con.hdr.id⟩ c c' := by
  obtain ⟨cache, hpop, hahead, hlen⟩ := pop_five h hn hfive hgrpc
  obtain ⟨hskip, -⟩ := hahead.skip (n := n - 5) (by rw [List.length_drop]; omega)
  have hsent := sends_sendHeaderFrame lib
    (c.withStream ((c.con.stream.moved 5 cache).skip (n - 5)).2)
    [(ascii ":status", ascii "404")] (H2Flags.endHeaders.value ||| H2Flags.endStream.value)
  refine ⟨_, ?_, hsent.does rfl⟩
  rw [dataFrame, hpop, Option.bind_some, Option.getD_some]
  simp only [hlen, hmatch, Bool.false_eq_true, if_false]
  rw [mismatchFrame]
  simp only [withStream, withCon, hskip]
  exact if_neg fun hboth ↦ absurd hboth.2 (by decide)

theorem dataFrame_match (hdec : lib.Decodes decode) (h : c.con.stream.Ahead l) (hn : n ≤ l.length)
    (hfive : 5 ≤ n) (hoffset : c.con.stream.curOffset + 5 < 2 ^ 31)
    (hgrpc : grpcLen (l.take n) = (l.take n).length - 5) (hmatch : c.con.lastPathMatch = true)
    (hplain : (l.take n).headD 0 = 0) {request : Req}
    (hrequest : decode c.request ((l.take n).drop 5) = some request)
    (hsize : ¬initialSettingsMaxFrameSize ≤ (lib.serialize (lib.cb request).1).length + 5) :
    ∃ c', c.dataFrame lib = some c' ∧ Does ⟨c.inflater, (lib.cb request).2, c.con.lastPathMatch,
      lib.responseCalls c.con.hdr.id (lib.cb request).1⟩ c c' := by
  obtain ⟨cache, hpop, hahead, hlen⟩ := pop_five h hn hfive hgrpc
  have hrest : (l.drop 5).take (n - 5) = (l.take n).drop 5 := by rw [List.drop_take]
  have hle : n - 5 ≤ (l.drop 5).length := by rw [List.length_drop]; omega
  have hmerged := hdec.merged hrequest
  rw [← hrest, List.length_take, Nat.min_eq_left hle] at hmerged
  obtain ⟨a, t, hrun, rfl, -⟩ :=
    LogZeroCopyInputStream.run_of_takes hahead hoffset hle hmerged lib.asserts
  obtain ⟨c', hrespond, hsent⟩ := respond_sends (c := (c.withStream
    (c.con.stream.moved 5 cache)).withStream t.stream) hsize
  have hhead : (l.take 5).headD 0 = 0 := by
    rw [← hplain]
    cases l with
    | nil => rfl
    | cons x l =>
      obtain ⟨m, rfl⟩ : ∃ m, n = m + 1 := ⟨n - 1, by omega⟩
      rfl
  refine ⟨c', ?_, hsent.does rfl⟩
  rw [dataFrame, hpop, Option.bind_some, Option.getD_some]
  simp only [hlen, hmatch, if_true]
  rw [if_neg fun hboth ↦ hboth.2 hhead, requestFrame]
  refine Option.bind_eq_some_iff.mpr ⟨_, hrun, ?_⟩
  rw [if_neg fun hboth ↦ Bool.noConfusion hboth.2]
  exact hrespond

theorem goawayFrame_does (lib : GrpcLib σ Req Resp) (h : c.con.stream.Ahead l) (hn : n ≤ l.length)
    (hlen : 8 ≤ n ∧ n ≤ 1032) :
    ∃ c', c.goawayFrame lib n = some c' ∧
      Does ⟨c.inflater, c.request, c.con.lastPathMatch, []⟩ c c' := by
  have hrest : min 1024 (CInt.toUnsigned 32 ((n : ℤ) - 8)) = n - 8 := by
    rw [CInt.toUnsigned_of_mem (by omega) (by omega)]
    omega
  obtain ⟨c', heq, -⟩ := goawayFrame_returns lib h (n := n) (by rw [hrest]; omega)
  refine ⟨c', heq, ?_⟩
  obtain ⟨⟨v, c₁⟩, hr, heq⟩ := Option.bind_eq_some_iff.mp heq
  obtain ⟨⟨v', c₂⟩, hr', heq⟩ := Option.bind_eq_some_iff.mp heq
  obtain ⟨q, -, rfl⟩ := Option.map_eq_some_iff.mp heq
  obtain ⟨stream₁, rfl⟩ := popValue_eq hr
  obtain ⟨stream₂, rfl⟩ := popValue_eq hr'
  exact ⟨rfl, rfl, rfl, rfl⟩

theorem windowUpdateFrame_does (lib : GrpcLib σ Req Resp) (h : c.con.stream.Ahead l)
    (hn : n ≤ l.length) (hlen : n = 4) :
    ∃ c', c.windowUpdateFrame lib n = some c' ∧
      Does ⟨c.inflater, c.request, c.con.lastPathMatch, []⟩ c c' := by
  obtain ⟨c₁, hpop, -⟩ := popValue_moved lib (n := 4) h (by decide) (hlen ▸ hn)
  obtain ⟨stream, rfl⟩ := popValue_eq hpop
  rw [windowUpdateFrame, if_neg fun hboth ↦ hboth.2 hlen, hpop]
  exact ⟨_, rfl, rfl, rfl, rfl, rfl⟩

theorem settingsFrame_does (lib : GrpcLib σ Req Resp) (h : c.con.stream.Ahead l)
    (hn : n ≤ l.length) (hsix : n % 6 = 0) : ∃ c', c.settingsFrame lib n = some c' ∧
      Does ⟨c.inflater, c.request, c.con.lastPathMatch,
        settingsCalls (decide (c.con.frameCount = 1))⟩ c c' := by
  obtain ⟨c₁, hc₁, hfirst⟩ : ∃ c₁, c₁ = (if c.con.frameCount = 1 then
      c.sendFrame (H2Header.new .settings) [] else c) ∧
      Sends (if decide (c.con.frameCount = 1) = true then [plainSettings] else []) c c₁ := by
    refine ⟨_, rfl, ?_⟩
    simp only [decide_eq_true_iff]
    split_ifs
    · exact sends_sendAll plainSettings
    · exact ⟨rfl, rfl, rfl⟩
  have hahead : c₁.con.stream.Ahead l := by
    rw [hfirst.con_eq]
    exact h
  obtain ⟨c₂, hloop⟩ := settingsLoop_returns lib (i := 0) hahead hn hsix (Nat.lt_succ_self n)
  obtain ⟨stream, rfl⟩ := settingsLoop_eq hloop
  have hack := sends_sendAll (c := c₁.withStream stream) ackSettings
  refine ⟨_, ?_, hack.inflater_eq.trans hfirst.inflater_eq,
    hack.request_eq.trans hfirst.request_eq, ?_, ?_⟩
  · rw [settingsFrame, ← hc₁]
    simp only
    rw [if_neg fun hboth ↦ hboth.2 hsix, hloop]
    rfl
  · rw [hack.con_eq, withStream, withCon, hfirst.con_eq]
  · rw [hack.con_eq, withStream, withCon, hfirst.con_eq, settingsCalls, sendEach, sendEach,
      sendEach, List.foldl_append]

/-- **The handler of a frame** does what its handling says. -/
theorem frame_does (hdec : lib.Decodes decode) (h : c.con.stream.Ahead l)
    (hn : c.con.hdr.length ≤ l.length) (hoffset : c.con.stream.curOffset + 5 < 2 ^ 31)
    {r : GrpcService.Handled σ Req} (hr : GrpcService.handle lib decode c.inflater c.request
      c.con.lastPathMatch (decide (c.con.frameCount = 1)) c.con.hdr (l.take c.con.hdr.length)
        = some r) : ∃ c', c.frame lib c.con.hdr.length = some c' ∧ Does r c c' := by
  have hlen : (l.take c.con.hdr.length).length = c.con.hdr.length := by
    rw [List.length_take, Nat.min_eq_left hn]
  rw [GrpcService.handle, hlen] at hr
  rw [frame]
  by_cases hheaders : c.con.hdr.type = H2FrameType.headers.value
  · rw [if_pos hheaders] at hr ⊢
    split_ifs at hr with hbig
    obtain ⟨q, hq, rfl⟩ := Option.map_eq_some_iff.mp hr
    exact headersFrame_does h hn (Nat.not_le.mp hbig) hq
  rw [if_neg hheaders] at hr ⊢
  by_cases hdata : c.con.hdr.type = H2FrameType.data.value
  · rw [if_pos hdata] at hr ⊢
    split_ifs at hr with hcut hpath hflag
    · obtain ⟨hfive, hgrpc⟩ := not_or.mp hcut
      rw [← Option.some.inj hr]
      exact dataFrame_mismatch h hn (Nat.not_lt.mp hfive)
        ((not_not.mp hgrpc).trans (congrArg (· - 5) hlen.symm)) hpath
    · obtain ⟨hfive, hgrpc⟩ := not_or.mp hcut
      obtain ⟨request, hrequest, hr⟩ := Option.bind_eq_some_iff.mp hr
      split_ifs at hr with hsize
      rw [← Option.some.inj hr]
      exact dataFrame_match hdec h hn (Nat.not_lt.mp hfive) hoffset
        ((not_not.mp hgrpc).trans (congrArg (· - 5) hlen.symm)) (Bool.not_eq_false _ ▸ hpath)
        (not_not.mp hflag) hrequest hsize
  rw [if_neg hdata] at hr ⊢
  by_cases hgoaway : c.con.hdr.type = H2FrameType.goaway.value
  · rw [if_pos hgoaway] at hr ⊢
    split_ifs at hr with hbounds
    rw [← Option.some.inj hr]
    exact goawayFrame_does lib h hn hbounds
  rw [if_neg hgoaway] at hr ⊢
  by_cases hwindow : c.con.hdr.type = H2FrameType.windowUpdate.value
  · rw [if_pos hwindow] at hr ⊢
    split_ifs at hr with hfour
    rw [← Option.some.inj hr]
    exact windowUpdateFrame_does lib h hn hfour
  rw [if_neg hwindow] at hr ⊢
  by_cases hsettings : c.con.hdr.type = H2FrameType.settings.value
  · rw [if_pos hsettings] at hr ⊢
    split_ifs at hr with hsix
    rw [← Option.some.inj hr]
    exact settingsFrame_does lib h hn hsix
  rw [if_neg hsettings] at hr ⊢
  rw [← Option.some.inj hr]
  exact ⟨_, rfl, rfl, rfl, rfl, rfl⟩

theorem fits_of_handle {first : Bool} {payload : List UInt8} {r : GrpcService.Handled σ Req}
    (hoffset : c.con.stream.curOffset + 5 < 2 ^ 31)
    (hr : GrpcService.handle lib decode c.inflater c.request c.con.lastPathMatch first c.con.hdr
      payload = some r) : Fits lib decode c payload := by
  rw [GrpcService.handle] at hr
  rw [Fits]
  by_cases hheaders : c.con.hdr.type = H2FrameType.headers.value
  · rw [if_pos hheaders]
    trivial
  rw [if_neg hheaders] at hr ⊢
  by_cases hdata : c.con.hdr.type = H2FrameType.data.value
  · rw [if_pos hdata] at hr ⊢
    split_ifs at hr with hcut hpath hflag
    all_goals obtain ⟨hfive, hgrpc⟩ := not_or.mp hcut
    · exact ⟨Nat.not_lt.mp hfive, not_not.mp hgrpc, fun hmatch ↦
        Bool.noConfusion (hpath.symm.trans hmatch)⟩
    · obtain ⟨request, hrequest, -⟩ := Option.bind_eq_some_iff.mp hr
      exact ⟨Nat.not_lt.mp hfive, not_not.mp hgrpc, fun _ ↦ ⟨hoffset, Or.inl
        (Option.isSome_iff_exists.mpr ⟨request, hrequest⟩)⟩⟩
  rw [if_neg hdata] at hr ⊢
  by_cases hgoaway : c.con.hdr.type = H2FrameType.goaway.value
  · rw [if_pos hgoaway] at hr ⊢
    split_ifs at hr with hbounds
    exact hbounds
  rw [if_neg hgoaway] at hr ⊢
  by_cases hwindow : c.con.hdr.type = H2FrameType.windowUpdate.value
  · rw [if_pos hwindow] at hr ⊢
    split_ifs at hr with hfour
    exact Or.inl hfour
  rw [if_neg hwindow] at hr ⊢
  by_cases hsettings : c.con.hdr.type = H2FrameType.settings.value
  · rw [if_pos hsettings] at hr ⊢
    split_ifs at hr with hsix
    exact Or.inl hsix
  rw [if_neg hsettings]
  trivial

end GrpcCall

end Coypu
