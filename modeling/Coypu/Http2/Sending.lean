import Coypu.Buf.Mixed
import Coypu.Http2.Consuming
import Mathlib.Logic.Relation

/-!
# Sending a frame whole

`SendFrame` and `SendGRPCFrame` push a frame in two or four parts, and return `false` at the first
that does not fit. What was pushed before it stays: where there is room for the header and not for
all of the frame, the write buffer is left with a header that says more than is behind it.

The header is filled in elsewhere, with a length that is the number of the bytes behind it in each
of the calls that `ProcessFrames` and `SendHeaderFrame` make (`MadeBy`, `processFrames_sends`).
-/

set_option autoImplicit false

namespace Coypu

open FlatMemory Http2

/-! ## The pushes -/

/-- A list is pushed part by part, up to the first part that does not fit. -/
def pushParts : List (List UInt8) → BipBuf .uint64 UInt8 → Bool × BipBuf .uint64 UInt8
  | [], b => (true, b)
  | l :: ls, b =>
    let o := b.pushBlock (some fun i ↦ l.getD i 0) l.length
    if o.ret then pushParts ls o.buf else (false, o.buf)

/-- A call of `SendFrame` or of `SendGRPCFrame`. -/
inductive SendCall where
  | frame (hdr : H2Header) (data : List UInt8)
  | grpc (hdr : H2Header) (data : List UInt8)

namespace SendCall

def hdr : SendCall → H2Header
  | frame hdr _ => hdr
  | grpc hdr _ => hdr

/-- The parts behind the header. -/
def parts : SendCall → List (List UInt8)
  | frame _ data => if data.length = 0 then [] else [data]
  | grpc _ data => [[0], Bytes.encode 4 data.length] ++ if data.length = 0 then [] else [data]

/-- What belongs behind the header. -/
def payload : SendCall → List UInt8
  | frame _ data => data
  | grpc _ data => [0] ++ Bytes.encode 4 data.length ++ data

/-- The whole frame. -/
def bytes (call : SendCall) : List UInt8 := call.hdr.toBytes ++ call.payload

/-- What the call returns, which is whether it asks for the descriptor to be written to, and the
write buffer. -/
def send (call : SendCall) (writeBuf : BipBuf .uint64 UInt8) : Bool × BipBuf .uint64 UInt8 :=
  pushParts (call.hdr.toBytes :: call.parts) writeBuf

/-- The calls are made one after another, whatever they return. -/
def sendEach (calls : List SendCall) (writeBuf : BipBuf .uint64 UInt8) : BipBuf .uint64 UInt8 :=
  calls.foldl (fun b call ↦ (call.send b).2) writeBuf

/-- The calls that `ProcessFrames` and `SendHeaderFrame` make. -/
inductive MadeBy {σ Req Resp : Type} (lib : GrpcLib σ Req Resp) : SendCall → Prop where
  | header {fields : List Field} {data : List UInt8} (hdata : lib.deflate fields = some data)
      (flags : UInt8) (id : ℕ) :
      MadeBy lib
        (frame { (H2Header.new .headers).setLength data.length with flags := flags, id := id } data)
  | response (resp : Resp) (id : ℕ) :
      MadeBy lib (grpc { (H2Header.new .data).setLength
        (5 + (lib.serialize resp).length) with id := id }
        (lib.serialize resp))
  | settings (flags : UInt8) : MadeBy lib (frame { H2Header.new .settings with flags := flags } [])

/-- A call returns `true` with the frame behind what the buffer held, or `false` with the buffer as
it was. -/
def SendsWhole (call : SendCall) (b : BipBuf .uint64 UInt8) : Prop :=
  if (call.send b).1 = true then (call.send b).2.contents = b.contents ++ call.bytes
  else (call.send b).2 = b

/-- If a call returns `true` the length in the header is the number of bytes behind it. -/
def Describes (call : SendCall) (b : BipBuf .uint64 UInt8) : Prop :=
  (call.send b).1 = true →
    (call.send b).2.contents.length = b.contents.length + http2FrameHdrSize + call.hdr.length

end SendCall

section Parts

variable {b : BipBuf .uint64 UInt8} {ls : List (List UInt8)}

theorem pushParts_of_room (h : b.Wf) (hne : ∀ l ∈ ls, l ≠ []) (hroom : ls.flatten.length ≤ b.free) :
    (pushParts ls b).1 = true ∧ (pushParts ls b).2.contents = b.contents ++ ls.flatten := by
  induction ls generalizing b with
  | nil => exact ⟨rfl, (List.append_nil _).symm⟩
  | cons l ls ih =>
    rw [List.flatten_cons, List.length_append] at hroom
    obtain ⟨hret, hwf, hcontents, hfree⟩ := BipBuf.pushBlock_of_room h (fun i ↦ l.getD i 0)
      (List.length_pos_iff.mpr (hne l List.mem_cons_self)) (by omega)
    obtain ⟨hall, hrest⟩ := ih hwf (fun l hl ↦ hne l (List.mem_cons_of_mem _ hl)) (by omega)
    rw [pushParts, if_pos hret]
    refine ⟨hall, ?_⟩
    rw [hrest, hcontents, load_getD, List.flatten_cons, List.append_assoc]

theorem pushParts_of_no_room (h : b.Wf) (hne : ∀ l ∈ ls, l ≠ [])
    (hroom : b.free < ls.flatten.length) :
    (pushParts ls b).1 = false ∧ b.contents.length ≤ (pushParts ls b).2.contents.length := by
  induction ls generalizing b with
  | nil => exact absurd hroom (Nat.not_lt_zero _)
  | cons l ls ih =>
    rw [List.flatten_cons, List.length_append] at hroom
    rw [pushParts]
    -- the part does not fit, or one of those behind it
    rcases Nat.lt_or_ge b.free l.length with hlt | hle
    · rw [BipBuf.pushBlock_of_no_room _ hlt]
      exact ⟨rfl, Nat.le_refl _⟩
    · obtain ⟨hret, hwf, hcontents, hfree⟩ := BipBuf.pushBlock_of_room h (fun i ↦ l.getD i 0)
        (List.length_pos_iff.mpr (hne l List.mem_cons_self)) hle
      obtain ⟨hall, hrest⟩ := ih hwf (fun l hl ↦ hne l (List.mem_cons_of_mem _ hl)) (by omega)
      rw [if_pos hret]
      refine ⟨hall, Nat.le_trans ?_ hrest⟩
      rw [hcontents, List.length_append]
      exact Nat.le_add_right _ _

end Parts

namespace SendCall

variable {call : SendCall} {b : BipBuf .uint64 UInt8} {σ Req Resp : Type} {lib : GrpcLib σ Req Resp}

theorem flatten_parts : call.parts.flatten = call.payload := by
  cases call with
  | frame hdr data => cases data <;> simp [parts, payload]
  | grpc hdr data => cases data <;> simp [parts, payload]

theorem ne_nil_of_mem_parts {l : List UInt8} (hl : l ∈ call.parts) : l ≠ [] := by
  cases call with
  | frame hdr data =>
    rw [parts] at hl
    split_ifs at hl with hdata
    · exact absurd hl List.not_mem_nil
    · rw [List.mem_singleton.mp hl]
      exact List.length_pos_iff.mp (Nat.pos_of_ne_zero hdata)
  | grpc hdr data =>
    rw [parts, List.mem_append, List.mem_cons, List.mem_singleton] at hl
    rcases hl with (rfl | rfl) | hl
    · exact List.cons_ne_nil _ _
    · exact List.length_pos_iff.mp (by rw [Bytes.length_encode]; decide)
    · split_ifs at hl with hdata
      · exact absurd hl List.not_mem_nil
      · rw [List.mem_singleton.mp hl]
        exact List.length_pos_iff.mp (Nat.pos_of_ne_zero hdata)

theorem length_toBytes {hdr : H2Header} (hhdr : hdr.len.length = 3) :
    hdr.toBytes.length = http2FrameHdrSize := by
  rw [H2Header.toBytes, List.length_append, List.length_append, List.length_reverse,
    Bytes.length_encode, hhdr]
  rfl

/-! ## One call -/

theorem ne_nil_of_mem_frame (hhdr : call.hdr.len.length = 3) :
    ∀ l ∈ call.hdr.toBytes :: call.parts, l ≠ [] := by
  intro l hl
  rcases List.mem_cons.mp hl with rfl | hl
  · exact List.length_pos_iff.mp (by rw [length_toBytes hhdr]; decide)
  · exact ne_nil_of_mem_parts hl

theorem flatten_frame : (call.hdr.toBytes :: call.parts).flatten = call.bytes := by
  rw [List.flatten_cons, flatten_parts, bytes]

theorem send_of_room (h : b.Wf) (hhdr : call.hdr.len.length = 3)
    (hroom : call.bytes.length ≤ b.free) :
    (call.send b).1 = true ∧ (call.send b).2.contents = b.contents ++ call.bytes := by
  rw [← flatten_frame] at hroom ⊢
  exact pushParts_of_room h (ne_nil_of_mem_frame hhdr) hroom

theorem send_of_no_header (hhdr : call.hdr.len.length = 3) (hroom : b.free < http2FrameHdrSize) :
    call.send b = (false, b) := by
  rw [← length_toBytes hhdr] at hroom
  rw [send, pushParts, BipBuf.pushBlock_of_no_room _ hroom]
  rfl

theorem send_of_cut (h : b.Wf) (hhdr : call.hdr.len.length = 3)
    (hheader : http2FrameHdrSize ≤ b.free) (hroom : b.free < call.bytes.length) :
    (call.send b).1 = false ∧ b.contents.length < (call.send b).2.contents.length := by
  have hlen := length_toBytes hhdr
  obtain ⟨hret, hwf, hcontents, hfree⟩ := BipBuf.pushBlock_of_room h
    (fun i ↦ call.hdr.toBytes.getD i 0)
    (n := call.hdr.toBytes.length) (by rw [hlen]; decide) (by omega)
  rw [bytes, List.length_append, ← flatten_parts] at hroom
  have hne : ∀ l ∈ call.parts, l ≠ [] := fun l hl ↦ ne_nil_of_mem_parts hl
  obtain ⟨hcut, hrest⟩ := pushParts_of_no_room hwf hne (by omega)
  rw [send, pushParts, if_pos hret]
  refine ⟨hcut, Nat.lt_of_lt_of_le ?_ hrest⟩
  have hpos : 0 < http2FrameHdrSize := by decide
  rw [hcontents, List.length_append, length_load, hlen]
  omega

theorem sendsWhole_iff (h : b.Wf) (hhdr : call.hdr.len.length = 3) :
    call.SendsWhole b ↔ b.free < http2FrameHdrSize ∨ call.bytes.length ≤ b.free := by
  rw [SendsWhole]
  rcases Nat.lt_or_ge b.free http2FrameHdrSize with hlt | hheader
  · rw [send_of_no_header hhdr hlt]
    exact iff_of_true rfl (Or.inl hlt)
  rcases Nat.lt_or_ge b.free call.bytes.length with hlt | hroom
  -- the header stays in the buffer
  · obtain ⟨hret, hlonger⟩ := send_of_cut h hhdr hheader hlt
    rw [hret]
    refine iff_of_false (fun heq ↦ ?_) (by omega)
    have hsame : (call.send b).2 = b := heq
    rw [hsame] at hlonger
    exact Nat.lt_irrefl _ hlonger
  · obtain ⟨hret, hcontents⟩ := send_of_room h hhdr hroom
    rw [if_pos hret]
    exact iff_of_true hcontents (Or.inr hroom)

theorem room_of_send (h : b.Wf) (hhdr : call.hdr.len.length = 3) (hret : (call.send b).1 = true) :
    call.bytes.length ≤ b.free := by
  by_contra hroom
  rcases Nat.lt_or_ge b.free http2FrameHdrSize with hlt | hheader
  · rw [send_of_no_header hhdr hlt] at hret
    exact Bool.false_ne_true hret
  · have hcut := send_of_cut h hhdr hheader (Nat.lt_of_not_le hroom)
    exact Bool.false_ne_true (hcut.1.symm.trans hret)

theorem MadeBy.length_len (hmade : MadeBy lib call) : call.hdr.len.length = 3 := by
  cases hmade with
  | header => exact Bytes.length_encode 3 _
  | response => exact Bytes.length_encode 3 _
  | settings => rfl

theorem MadeBy.length_hdr (hmade : MadeBy lib call) (hlen : call.payload.length < 2 ^ 24) :
    call.hdr.length = call.payload.length := by
  cases hmade with
  | header => exact Bytes.decode_encode hlen
  | response resp id =>
    have hfive : (payload
      (grpc { (H2Header.new .data).setLength (5 + (lib.serialize resp).length) with id := id }
        (lib.serialize resp))).length = 5 + (lib.serialize resp).length := by
      rw [payload, List.length_append, List.length_append, Bytes.length_encode,
        List.length_singleton]
    rw [hfive] at hlen ⊢
    exact Bytes.decode_encode hlen
  | settings => rfl

theorem MadeBy.describes (hmade : MadeBy lib call) (h : b.Wf) (hcap : b.capacity < 2 ^ 24) :
    call.Describes b := by
  intro hret
  have hroom := room_of_send h hmade.length_len hret
  obtain ⟨-, hcontents⟩ := send_of_room h hmade.length_len hroom
  have hfree : b.free ≤ b.capacity := Nat.sub_le _ _
  have hlen : call.bytes.length = http2FrameHdrSize + call.payload.length := by
    rw [bytes, List.length_append, length_toBytes hmade.length_len]
  rw [hcontents, List.length_append, hlen, hmade.length_hdr (by omega), Nat.add_assoc]

end SendCall

/-! ## The calls of `ProcessFrames` -/

namespace H2Connection

variable (con : H2Connection)

/-- The connection at the payload of a frame that has arrived. -/
def counted : Option H2Connection :=
  if con.hdr.length ≤ con.stream.available then
    some { con with frameCount := CInt.toUnsigned 32 (con.frameCount + 1 : ℕ) }
  else none

/-- The connection at the payload that `ProcessFrames` goes on to, behind a header that it may have
to read. -/
def atPayload : Option H2Connection :=
  match con.state with
  | .readFrameHeader =>
    if http2FrameHdrSize ≤ con.stream.available then
      (con.stream.pop http2FrameHdrSize).bind fun r ↦ r.1.bind fun l ↦
        { con with
          stream := r.2, hdr := (H2Header.ofBytes l).clearBit, state := .readFrame }.counted
    else none
  | .readFrame => con.counted
  | .unknown | .connecting | .preHttp | .closed => none

end H2Connection

namespace GrpcCall

open SendCall

variable {σ Req Resp : Type} {lib : GrpcLib σ Req Resp} {c c' c'' : GrpcCall σ Req} {n : ℕ}

theorem pushAll_writeBuf (ls : List (List UInt8)) :
    (c.pushAll ls).con.writeBuf = (pushParts ls c.con.writeBuf).2 := by
  induction ls generalizing c with
  | nil => rfl
  | cons l ls ih =>
    rw [pushAll, pushParts]
    by_cases hret : (c.push l).1 = true
    · rw [if_pos hret, ih]
      exact (congrArg Prod.snd (if_pos hret)).symm
    · have hfails : ¬(c.con.writeBuf.pushBlock (some fun i ↦ l.getD i 0) l.length).ret = true :=
        hret
      rw [if_neg hret, if_neg hfails]
      rfl

theorem sendAll_writeBuf (hdr : H2Header) (ls : List (List UInt8)) :
    (c.sendAll hdr ls).con.writeBuf = (pushParts (hdr.toBytes :: ls) c.con.writeBuf).2 := by
  rw [sendAll, pushParts]
  by_cases hret : (c.push hdr.toBytes).1 = true
  · simp only [if_pos hret]
    rw [pushAll_writeBuf]
    exact (congrArg Prod.snd (if_pos hret)).symm
  · have hfails : ¬(c.con.writeBuf.pushBlock
      (some fun i ↦ hdr.toBytes.getD i 0) hdr.toBytes.length).ret = true :=
      hret
    simp only [if_neg hret, if_neg hfails]
    rfl

/-- What was done to the write buffer is calls of `SendFrame` and `SendGRPCFrame`. -/
def SendsOnly (lib : GrpcLib σ Req Resp) (c c' : GrpcCall σ Req) : Prop :=
  ∃ calls : List SendCall, (∀ call ∈ calls, MadeBy lib call) ∧
    c'.con.writeBuf = sendEach calls c.con.writeBuf

theorem SendsOnly.of_eq (h : c'.con.writeBuf = c.con.writeBuf) : SendsOnly lib c c' :=
  ⟨[], by simp, h⟩

theorem SendsOnly.trans (h : SendsOnly lib c c') (h' : SendsOnly lib c' c'') :
    SendsOnly lib c c'' := by
  obtain ⟨calls, hmade, hbuf⟩ := h
  obtain ⟨calls', hmade', hbuf'⟩ := h'
  refine ⟨calls ++ calls', fun call hmem ↦ (List.mem_append.mp hmem).elim (hmade call)
    (hmade' call), ?_⟩
  rw [hbuf', hbuf, sendEach, sendEach, sendEach, List.foldl_append]

theorem SendsOnly.one {call : SendCall} (hmade : MadeBy lib call)
    (h : c'.con.writeBuf = (call.send c.con.writeBuf).2) : SendsOnly lib c c' :=
  ⟨[call], by simpa using hmade, h⟩

/-- What a call does, but for decoding a header block and handing over a request. -/
inductive Effect (lib : GrpcLib σ Req Resp) : GrpcCall σ Req → GrpcCall σ Req → Prop where
  | moved {c : GrpcCall σ Req} (con : H2Connection) (hbuf : con.writeBuf = c.con.writeBuf)
      (hmatch : con.lastPathMatch = c.con.lastPathMatch) : Effect lib c (c.withCon con)
  | header {c : GrpcCall σ Req} (bytes : List UInt8) : Effect lib c (c.emit (.header bytes))
  | sent {c : GrpcCall σ Req} {call : SendCall} (hmade : MadeBy lib call) :
      Effect lib c (c.sendAll call.hdr call.parts)

/-- Effects one after another. -/
abbrev Effects (lib : GrpcLib σ Req Resp) : GrpcCall σ Req → GrpcCall σ Req → Prop :=
  Relation.ReflTransGen (Effect lib)

theorem effects_withStream (stream : AnonStreamType) : Effects lib c (c.withStream stream) :=
  .single (.moved _ rfl rfl)

theorem effects_sendFrame {hdr : H2Header} {data : List UInt8}
    (hmade : MadeBy lib (.frame hdr data)) : Effects lib c (c.sendFrame hdr data) := by
  have hsent : Effect lib c (c.sendAll hdr (SendCall.frame hdr data).parts) := .sent hmade
  exact .single hsent

theorem effects_sendHeaderFrame (fields : List Field) (flags : UInt8) :
    Effects lib c (c.sendHeaderFrame lib fields flags) := by
  rw [sendHeaderFrame]
  rcases Option.eq_none_or_eq_some (lib.deflate fields) with hnone | ⟨data, hsome⟩
  · rw [hnone]
  · simp only [hsome]
    exact effects_sendFrame (.header hsome flags c.con.hdr.id)

theorem effects_sendSettings (flags : UInt8) :
    Effects lib c (c.sendFrame { H2Header.new .settings with flags := flags } []) :=
  effects_sendFrame (.settings flags)

/-- A request is handed over, and answered: the header, the data and the trailing header. -/
theorem respond_effects {request : Req} (heq : c.respond lib request = some c') :
    Effects lib (({ c with request := (lib.cb request).2 } : GrpcCall σ Req).emit
      (.handed request)) c' := by
  rw [respond] at heq
  simp only at heq
  split_ifs at heq
  obtain rfl := Option.some.inj heq
  exact ((effects_sendHeaderFrame _ _).tail (.sent (.response _ _))).trans
    (effects_sendHeaderFrame _ _)

theorem popValue_effects {value : List UInt8} (heq : c.popValue lib n = some (value, c')) :
    Effects lib c c' := by
  obtain ⟨r, -, hr⟩ := Option.bind_eq_some_iff.mp heq
  split_ifs at hr
  obtain ⟨-, rfl⟩ := Prod.mk.inj (Option.some.inj hr)
  exact effects_withStream _

theorem mismatchFrame_effects (heq : c.mismatchFrame lib n = some c') : Effects lib c c' := by
  rw [mismatchFrame] at heq
  split_ifs at heq
  obtain rfl := Option.some.inj heq
  exact (effects_withStream _).trans (effects_sendHeaderFrame _ _)

theorem goawayFrame_effects (heq : c.goawayFrame lib n = some c') : Effects lib c c' := by
  obtain ⟨r, hr, heq⟩ := Option.bind_eq_some_iff.mp heq
  obtain ⟨r', hr', heq⟩ := Option.bind_eq_some_iff.mp heq
  obtain ⟨q, -, rfl⟩ := Option.map_eq_some_iff.mp heq
  exact ((popValue_effects hr).trans (popValue_effects hr')).trans (effects_withStream _)

theorem windowUpdateFrame_effects (heq : c.windowUpdateFrame lib n = some c') :
    Effects lib c c' := by
  rw [windowUpdateFrame] at heq
  split_ifs at heq
  obtain ⟨r, hr, rfl⟩ := Option.map_eq_some_iff.mp heq
  exact (popValue_effects hr).tail (.moved _ rfl rfl)

theorem settingsLoop_effects {fuel i : ℕ} (heq : settingsLoop lib n fuel i c = some c') :
    Effects lib c c' := by
  induction fuel generalizing i c with
  | zero => exact absurd heq (by simp [settingsLoop])
  | succ fuel ih =>
    rw [settingsLoop] at heq
    split_ifs at heq
    · obtain ⟨r, hr, heq⟩ := Option.bind_eq_some_iff.mp heq
      obtain ⟨r', hr', heq⟩ := Option.bind_eq_some_iff.mp heq
      exact ((popValue_effects hr).trans (popValue_effects hr')).trans (ih heq)
    · obtain rfl := Option.some.inj heq
      exact .refl

theorem settingsFrame_effects (heq : c.settingsFrame lib n = some c') : Effects lib c c' := by
  have hfirst : Effects lib c
    (if c.con.frameCount = 1 then c.sendFrame (H2Header.new .settings) [] else c) := by
    split_ifs
    · exact effects_sendSettings 0
    · exact .refl
  rw [settingsFrame] at heq
  simp only at heq
  split_ifs at heq hfirst
  all_goals
    obtain ⟨c₂, hloop, rfl⟩ := Option.map_eq_some_iff.mp heq
    exact (hfirst.trans (settingsLoop_effects hloop)).trans (effects_sendSettings 0x1)

/-- **What a frame does.** Only `HEADERS` decode a block, and only `DATA` hand over a request. -/
theorem frame_cases (heq : c.frame lib n = some c') :
    (c.con.hdr.type = H2FrameType.headers.value ∧ c.headersFrame lib n = some c') ∨
      (c.con.hdr.type = H2FrameType.data.value ∧ c.dataFrame lib = some c') ∨
      (c.con.hdr.type ≠ H2FrameType.headers.value ∧ c.con.hdr.type ≠ H2FrameType.data.value ∧
        Effects lib c c') := by
  rw [frame] at heq
  split_ifs at heq with hheaders hdata
  · exact Or.inl ⟨hheaders, heq⟩
  · exact Or.inr (Or.inl ⟨hdata, heq⟩)
  · exact Or.inr (Or.inr ⟨hheaders, hdata, goawayFrame_effects heq⟩)
  · exact Or.inr (Or.inr ⟨hheaders, hdata, windowUpdateFrame_effects heq⟩)
  · exact Or.inr (Or.inr ⟨hheaders, hdata, settingsFrame_effects heq⟩)
  · obtain rfl := Option.some.inj heq
    exact Or.inr (Or.inr ⟨hheaders, hdata, effects_withStream _⟩)

/-- The block of a `HEADERS` frame, from what `Pop` gives. -/
def blockOf (len : ℕ) (data : Option (List UInt8)) : Option (List UInt8) :=
  match data with
  | some block => some block
  | none => if len = 0 then some [] else none

theorem headersFrame_eq (hlen : n ≤ lib.maxHeaders) :
    c.headersFrame lib n = (c.con.stream.pop n).bind fun r ↦
      (blockOf n r.1).bind ((c.withStream r.2).inflateHeaderBlock lib) := by
  rw [headersFrame, if_neg (Nat.not_lt.mpr hlen)]
  congr 1
  funext r
  cases hdata : r.1 with
  | some block => rfl
  | none =>
    simp only [blockOf]
    split_ifs <;> rfl

theorem le_of_headersFrame (heq : c.headersFrame lib n = some c') : n ≤ lib.maxHeaders := by
  by_contra hbig
  rw [headersFrame, if_pos (Nat.not_le.mp hbig)] at heq
  exact absurd heq (by simp)

theorem dataFrame_cases (heq : c.dataFrame lib = some c') :
    (c.con.lastPathMatch = false ∧ Effects lib c c') ∨
      ∃ r, c.con.lastPathMatch = true ∧ c.con.stream.pop 5 = some r ∧
        (c.withStream r.2).requestFrame lib (Bytes.decode ((r.1.getD [0, 0, 0, 0, 0]).drop 1))
          = some c' := by
  obtain ⟨r, hpop, hr⟩ := Option.bind_eq_some_iff.mp heq
  simp only at hr
  split_ifs at hr with hmatch
  · exact Or.inr ⟨r, hmatch, hpop, hr⟩
  · exact Or.inl ⟨Bool.eq_false_iff.mpr hmatch,
      (effects_withStream r.2).trans (mismatchFrame_effects hr)⟩

theorem Effects.keeps_state (h : Effects lib c c') :
    c'.inflater = c.inflater ∧ c'.request = c.request ∧ c'.con.lastPathMatch
      = c.con.lastPathMatch := by
  induction h with
  | refl => exact ⟨rfl, rfl, rfl⟩
  | tail _ heffect ih =>
    obtain ⟨hinflater, hrequest, hmatch⟩ := ih
    cases heffect with
    | moved con hbuf hmatch' => exact ⟨hinflater, hrequest, hmatch'.trans hmatch⟩
    | header bytes => exact ⟨hinflater, hrequest, hmatch⟩
    | sent hmade =>
      obtain ⟨⟨b, hcon⟩, hinflater', hrequest', -⟩ := sending_sendAll rfl _
      exact ⟨hinflater'.trans hinflater, hrequest'.trans hrequest, by rw [hcon]; exact hmatch⟩

/-- The only events are of headers that are read, and of frames that are sent. -/
theorem Effects.filterMap_events {β : Type} {f : GrpcEvent Req → Option β} (h : Effects lib c c')
    (hheader : ∀ bytes, f (.header bytes) = none) (hsent : ∀ hdr, f (.sent hdr) = none) :
    c'.events.filterMap f = c.events.filterMap f := by
  induction h with
  | refl => rfl
  | tail _ heffect ih =>
    refine Eq.trans ?_ ih
    cases heffect with
    | moved => rfl
    | header bytes => simp [emit, hheader]
    | sent hmade =>
      obtain ⟨-, -, -, hdrs, -, hevents⟩ := sending_sendAll rfl _
      rw [hevents, List.filterMap_append, List.filterMap_map]
      simp [hsent]

/-! ## The write buffer -/

theorem Effects.sendsOnly (h : Effects lib c c') : SendsOnly lib c c' := by
  induction h with
  | refl => exact .of_eq rfl
  | tail _ heffect ih =>
    refine ih.trans ?_
    cases heffect with
    | moved con hbuf => exact .of_eq hbuf
    | header bytes => exact .of_eq rfl
    | sent hmade => exact .one hmade (sendAll_writeBuf _ _)

theorem headersFrame_sends (heq : c.headersFrame lib n = some c') : SendsOnly lib c c' := by
  rw [headersFrame_eq (le_of_headersFrame heq)] at heq
  obtain ⟨r, -, heq⟩ := Option.bind_eq_some_iff.mp heq
  obtain ⟨block, -, heq⟩ := Option.bind_eq_some_iff.mp heq
  obtain ⟨q, -, rfl⟩ := Option.map_eq_some_iff.mp heq
  exact .of_eq rfl

theorem dataFrame_sends (heq : c.dataFrame lib = some c') : SendsOnly lib c c' := by
  rcases dataFrame_cases heq with ⟨-, heffects⟩ | ⟨r, -, -, hr⟩
  · exact heffects.sendsOnly
  · obtain ⟨q, -, hq⟩ := Option.bind_eq_some_iff.mp hr
    split_ifs at hq
    exact SendsOnly.trans (.of_eq rfl) (respond_effects hq).sendsOnly

theorem frame_sends (heq : c.frame lib n = some c') : SendsOnly lib c c' := by
  rcases frame_cases heq with ⟨-, hheaders⟩ | ⟨-, hdata⟩ | ⟨-, -, heffects⟩
  · exact headersFrame_sends hheaders
  · exact dataFrame_sends hdata
  · exact heffects.sendsOnly

/-- Behind a frame. -/
def finish (c : GrpcCall σ Req) : ℤ × GrpcCall σ Req :=
  let c' := c.withCon { c.con with state := .readFrameHeader }
  (c'.more, c')

variable (lib) in
theorem finish_effects : Effects lib c c.finish.2 := .single (.moved _ rfl rfl)

theorem processFrame_of_counted {con : H2Connection} (h : c.con.counted = some con) :
    c.processFrame lib = ((c.withCon con).frame lib con.hdr.length).map finish := by
  rw [H2Connection.counted] at h
  split_ifs at h with hlen
  obtain rfl := Option.some.inj h
  rw [processFrame]
  exact if_pos hlen

theorem processFrame_of_not_counted (h : c.con.counted = none) :
    c.processFrame lib = some (0, c) := by
  rw [H2Connection.counted] at h
  split_ifs at h with hlen
  rw [processFrame]
  exact if_neg hlen

/-- What comes in front of a payload: the stream may move, and a header may be read. -/
structure Reads (c c' : GrpcCall σ Req) : Prop where
  inflater_eq : c'.inflater = c.inflater
  request_eq : c'.request = c.request
  writeBuf_eq : c'.con.writeBuf = c.con.writeBuf
  match_eq : c'.con.lastPathMatch = c.con.lastPathMatch
  events_eq : ∃ header : Option (List UInt8), c'.events = c.events ++ (header.map .header).toList

theorem Reads.effects (h : Reads c c') : Effects lib c c' := by
  obtain ⟨header, hevents⟩ := h.events_eq
  have hmoved : Effects lib c (c.withCon c'.con) := .single (.moved _ h.writeBuf_eq h.match_eq)
  cases header with
  | none =>
    have heq : c' = c.withCon c'.con := by
      cases c'
      exact GrpcCall.mk.injEq .. ▸ ⟨rfl, h.inflater_eq, h.request_eq, by simpa using hevents⟩
    rwa [← heq] at hmoved
  | some l =>
    have heq : c' = (c.withCon c'.con).emit (.header l) := by
      cases c'
      exact GrpcCall.mk.injEq .. ▸ ⟨rfl, h.inflater_eq, h.request_eq, hevents⟩
    have hheader := hmoved.tail (.header l)
    rwa [← heq] at hheader

theorem reads_counted {con : H2Connection} (h : c.con.counted = some con) :
    Reads c (c.withCon con) := by
  rw [H2Connection.counted] at h
  split_ifs at h
  obtain rfl := Option.some.inj h
  exact ⟨rfl, rfl, rfl, rfl, none, (List.append_nil _).symm⟩

theorem reads_header (stream : AnonStreamType) (hdr : H2Header) (state : H2ConnectionState)
    (l : List UInt8) :
    Reads c ((c.withCon { c.con with stream := stream, hdr := hdr, state := state }).emit
      (.header l)) :=
  ⟨rfl, rfl, rfl, rfl, some l, rfl⟩

variable (lib) in
theorem processFrames_reads {con : H2Connection} (h : c.con.atPayload = some con) :
    ∃ c₁, Reads c c₁ ∧ c₁.con = con ∧
      c.processFrames lib = (c₁.frame lib con.hdr.length).map finish := by
  rw [H2Connection.atPayload] at h
  rw [processFrames]
  cases hstate : c.con.state with
  | readFrameHeader =>
    simp only [hstate] at h ⊢
    split_ifs at h ⊢
    obtain ⟨r, hpop, h⟩ := Option.bind_eq_some_iff.mp h
    obtain ⟨l, hl, h⟩ := Option.bind_eq_some_iff.mp h
    rw [hpop, Option.bind_some, hl]
    refine ⟨_, ?_, rfl, processFrame_of_counted h⟩
    rw [H2Connection.counted] at h
    split_ifs at h
    obtain rfl := Option.some.inj h
    exact ⟨rfl, rfl, rfl, rfl, some l, rfl⟩
  | readFrame =>
    simp only [hstate] at h ⊢
    exact ⟨_, reads_counted h, rfl, processFrame_of_counted h⟩
  | _ =>
    simp only [hstate] at h
    exact absurd h (by simp)

variable (lib) in
theorem processFrames_of_atPayload {con : H2Connection} (h : c.con.atPayload = some con) :
    ∃ c₁, Effects lib c c₁ ∧ c₁.con = con ∧
      c.processFrames lib = (c₁.frame lib con.hdr.length).map finish := by
  obtain ⟨c₁, hreads, hrest⟩ := processFrames_reads lib h
  exact ⟨c₁, hreads.effects, hrest⟩

theorem reads_of_not_atPayload (h : c.con.atPayload = none) {r : ℤ × GrpcCall σ Req}
    (heq : c.processFrames lib = some r) : Reads c r.2 := by
  have hrefl : Reads c c := ⟨rfl, rfl, rfl, rfl, none, (List.append_nil _).symm⟩
  rw [H2Connection.atPayload] at h
  rw [processFrames] at heq
  cases hstate : c.con.state with
  | readFrameHeader =>
    simp only [hstate] at h heq
    split_ifs at h heq
    · obtain ⟨⟨data, stream⟩, hpop, hr⟩ := Option.bind_eq_some_iff.mp heq
      -- a header that cannot be read is an error, and behind one that is read the payload is
      -- missing
      cases data with
      | none =>
        obtain rfl := Option.some.inj hr
        exact ⟨rfl, rfl, rfl, rfl, none, (List.append_nil _).symm⟩
      | some l =>
        rw [hpop, Option.bind_some, Option.bind_some] at h
        simp only at hr
        rw [processFrame_of_not_counted h] at hr
        obtain rfl := Option.some.inj hr
        exact reads_header _ _ _ l
    · obtain rfl := Option.some.inj heq
      exact hrefl
  | readFrame =>
    simp only [hstate] at h heq
    rw [processFrame_of_not_counted h] at heq
    obtain rfl := Option.some.inj heq
    exact hrefl
  | _ =>
    simp only [hstate] at heq
    obtain rfl := Option.some.inj heq
    exact hrefl

theorem processFrames_of_not_atPayload (h : c.con.atPayload = none) {r : ℤ × GrpcCall σ Req}
    (heq : c.processFrames lib = some r) :
    Effects lib c r.2 := (reads_of_not_atPayload h heq).effects

/-- **What `ProcessFrames` does to the write buffer** is calls with headers that it has filled in,
or that `SendHeaderFrame` has. -/
theorem processFrames_sends {r : ℤ × GrpcCall σ Req} (heq : c.processFrames lib = some r) :
    SendsOnly lib c r.2 := by
  cases hcon : c.con.atPayload with
  | none => exact (processFrames_of_not_atPayload hcon heq).sendsOnly
  | some con =>
    obtain ⟨c₁, hbefore, -, hcall⟩ := processFrames_of_atPayload lib hcon
    rw [hcall] at heq
    obtain ⟨c₂, hframe, rfl⟩ := Option.map_eq_some_iff.mp heq
    exact (hbefore.sendsOnly.trans (frame_sends hframe)).trans (finish_effects lib).sendsOnly

end GrpcCall

/-! ## Every call -/

namespace SendCall

variable {σ Req Resp : Type} {lib : GrpcLib σ Req Resp} {call : SendCall} {b : BipBuf .uint64 UInt8}

/-- **Where a frame is sent whole or not at all.** A call of `SendFrame` or `SendGRPCFrame` returns
`true` with the whole frame behind what the buffer held, or `false` with the buffer as it was,
exactly if there is no room for the header or room for the frame. In the calls that `ProcessFrames`
and `SendHeaderFrame` make, and these are all that they do to the write buffer, the header then has
the number of the bytes behind it for its length. -/
theorem sends_iff (h : b.Wf) (hcap : b.capacity < 2 ^ 24) (hhdr : call.hdr.len.length = 3) :
    (call.SendsWhole b ∧ (MadeBy lib call → call.Describes b) ↔
        b.free < http2FrameHdrSize ∨ call.bytes.length ≤ b.free) ∧
      ∀ (c : GrpcCall σ Req) (r : ℤ × GrpcCall σ Req), c.processFrames lib = some r →
        GrpcCall.SendsOnly lib c r.2 := by
  refine ⟨?_, fun c r heq ↦ GrpcCall.processFrames_sends heq⟩
  rw [sendsWhole_iff h hhdr]
  exact and_iff_left fun hmade ↦ hmade.describes h hcap

/-- A write buffer as a connection has it, with `n` bytes in front of the end of the array. -/
def filledTo (n : ℕ) : BipBuf .uint64 UInt8 :=
  { BipBuf.new (fun _ ↦ 7) H2Connection.capacity with head := n }

theorem filledTo_wf {n : ℕ} (hn : n < 32768) : (filledTo n).Wf :=
  ⟨hn, H2Connection.capacity.pos, fun hf ↦ absurd hf Bool.false_ne_true⟩

/-- A message of three bytes with its length in front, on stream 1. -/
def dataCall : SendCall := grpc { (H2Header.new .data).setLength 8 with id := 1 } [1, 2, 3]

/-- It is sent behind the bytes that wait. -/
theorem sends_dataCall :
    dataCall.SendsWhole (filledTo 20000) ∧
      (MadeBy (GrpcLib.plain true) dataCall → dataCall.Describes (filledTo 20000)) :=
  (sends_iff (filledTo_wf (by decide)) (by decide) rfl).1.mpr (Or.inr (by decide))

/-- Twelve bytes are free in a write buffer: a header for four bytes is put there, and stays there
without them when the call fails. -/
theorem not_sends_of_short :
    let call := frame ((H2Header.new .headers).setLength 4) [1, 2, 3, 4]
    (filledTo 32756).free = 12 ∧ ¬call.SendsWhole (filledTo 32756) := by
  refine ⟨by decide, fun h ↦ ?_⟩
  rcases (sendsWhole_iff (filledTo_wf (by decide)) rfl).mp h with hheader | hroom
  · exact absurd hheader (by decide)
  · exact absurd hroom (by decide)

end SendCall

end Coypu
