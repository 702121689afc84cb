import Coypu.Http.WebSocket
import Coypu.Http2.Header
import Coypu.Library.Run
import Coypu.Protobuf.LogStream

/-!
# The gRPC server

`HTTP2GRPCManager` takes the frames of its connections as they arrive, decodes their headers with an
inflater of nghttp2 and their requests with protobuf, and answers. The inflater and the message that
requests are decoded into are members of the manager.

nghttp2, protobuf and the callback are parameters (`GrpcLib`). `none` stands for a call that does
not return: an assertion fails, or memory is touched that must not be. Whether assertions are
compiled in is a parameter, too, since the release build leaves them out.
-/

set_option autoImplicit false

namespace Coypu

open Http2 Transport

/-- A header field: its name and its value. -/
abbrev Field := List UInt8 × List UInt8

/-- What a call of `nghttp2_hd_inflate_hd2` does: how many bytes it takes, or an error, the field
that it emits, if any, and whether the block is at its end. -/
structure Inflated (σ : Type) where
  inflater : σ
  ret : ℤ
  emit : Option Field
  final : Bool

/-- What the manager is given: the path of the service, an inflater and a deflater, the decoder of
a request of some length, the callback, which may write to the request, and the encoder of
responses. -/
structure GrpcLib (σ Req Resp : Type) where
  asserts : Bool
  path : List UInt8
  inflate : σ → List UInt8 → Inflated σ
  inflateEnd : σ → σ
  deflate : List Field → Option (List UInt8)
  mergeFrom : Req → ℕ → ZeroCopy.Program (Req × Bool)
  cb : Req → Resp × Req
  serialize : Resp → List UInt8

/-- The longest header block that is inflated: the array for it has `http2HeaderBufSize` bytes, and
the assertion asks for less. -/
def GrpcLib.maxHeaders {σ Req Resp : Type} (lib : GrpcLib σ Req Resp) : ℕ :=
  if lib.asserts then http2HeaderBufSize - 1 else http2HeaderBufSize

theorem GrpcLib.le_maxHeaders {σ Req Resp : Type} (lib : GrpcLib σ Req Resp) {n : ℕ}
    (h : n < http2HeaderBufSize) : n ≤ lib.maxHeaders := by
  rw [maxHeaders]
  split_ifs <;> omega

inductive H2ConnectionState where
  | unknown
  | connecting
  | preHttp
  | readFrameHeader
  | readFrame
  | closed
deriving DecidableEq, Repr

/-- A stream of its own pages. -/
abbrev AnonStreamType := PositionedLog OneShotCache 128

structure H2Connection where
  httpBuf : BipBuf .uint64 UInt8
  writeBuf : BipBuf .uint64 UInt8
  stream : AnonStreamType
  hdr : H2Header
  frameCount : ℕ
  state : H2ConnectionState
  windowSize : ℕ
  lastPathMatch : Bool

/-- What a call does that can be seen: the bytes of a header that it reads, the fields that it
decodes, a request that it hands to the callback, and the header of a frame that it sends. -/
inductive GrpcEvent (Req : Type) where
  | header (l : List UInt8)
  | decoded (fields : List Field)
  | handed (request : Req)
  | sent (hdr : H2Header)
deriving DecidableEq

/-- What a call works on: a connection and the members of the manager, and what it did so far. -/
structure GrpcCall (σ Req : Type) where
  con : H2Connection
  inflater : σ
  request : Req
  events : List (GrpcEvent Req)

namespace GrpcCall

variable {σ Req Resp : Type} (lib : GrpcLib σ Req Resp) (c : GrpcCall σ Req)

def emit (event : GrpcEvent Req) : GrpcCall σ Req := { c with events := c.events ++ [event] }

def withCon (con : H2Connection) : GrpcCall σ Req := { c with con := con }

def withStream (stream : AnonStreamType) : GrpcCall σ Req :=
  c.withCon { c.con with stream := stream }

/-! ## Sending -/

/-- `Push` of a list, and whether there is room for it. -/
def push (l : List UInt8) : Bool × GrpcCall σ Req :=
  let o := c.con.writeBuf.pushBlock (some fun i ↦ l.getD i 0) l.length
  (o.ret, c.withCon { c.con with writeBuf := o.buf })

/-- The pushes of a frame behind its header. A push that fails ends them. -/
def pushAll : List (List UInt8) → GrpcCall σ Req → GrpcCall σ Req
  | [], c => c
  | l :: ls, c => if (c.push l).1 then pushAll ls (c.push l).2 else (c.push l).2

/-- A header and what belongs behind it. -/
def sendAll (hdr : H2Header) (ls : List (List UInt8)) : GrpcCall σ Req :=
  let r := c.push hdr.toBytes
  if r.1 then (r.2.emit (.sent hdr)).pushAll ls else r.2

/-- `SendFrame`. -/
def sendFrame (hdr : H2Header) (data : List UInt8) : GrpcCall σ Req :=
  c.sendAll hdr (if data.length = 0 then [] else [data])

/-- `SendGRPCFrame`: the data behind a byte that says that it is not compressed, and its length. -/
def sendGRPCFrame (hdr : H2Header) (data : List UInt8) : GrpcCall σ Req :=
  c.sendAll hdr ([[0], Bytes.encode 4 data.length] ++ if data.length = 0 then [] else [data])

/-- `SendHeaderFrame`, with a deflater of its own. The stream is that of the last header that was
read. -/
def sendHeaderFrame (fields : List Field) (flags : UInt8) : GrpcCall σ Req :=
  match lib.deflate fields with
  | none => c
  | some data =>
    let headers := (H2Header.new .headers).setLength data.length
    c.sendFrame { headers with flags := flags, id := c.con.hdr.id } data

/-! ## Header blocks -/

/-- `strncmp` of at most `n` characters finds no difference. -/
def strncmpEq : ℕ → List UInt8 → List UInt8 → Bool
  | 0, _, _ => true
  | n + 1, a, b =>
    let x := a.headD 0
    decide (x = b.headD 0) && (decide (x = 0) || strncmpEq n a.tail b.tail)

/-- Whether the path matches, behind a field. Names and values are compared up to the shorter
length. -/
def pathMatch (lastPathMatch : Bool) (field : Field) : Bool :=
  -- an empty name counts as `:path`, and a first part of the path as the path
  if strncmpEq (min field.1.length 5) field.1 (ascii ":path") then
    strncmpEq (min field.2.length lib.path.length) field.2 lib.path
  else lastPathMatch

/-- The loop of `inflate_header_block`: the inflater, whether the path matches, and the fields. A
call that emits a field takes a byte of the block at least. -/
def inflateLoop : ℕ → σ → Bool → List UInt8 → List Field → Option (σ × Bool × List Field)
  | 0, _, _, _, _ => none
  | fuel + 1, inflater, lastPathMatch, block, fields =>
    let r := lib.inflate inflater block
    if r.ret < 0 then some (r.inflater, lastPathMatch, fields)
    else
      let rest := block.drop r.ret.toNat
      let lastPathMatch' := r.emit.elim lastPathMatch (pathMatch lib lastPathMatch)
      let fields' := fields ++ r.emit.toList
      if r.final then some (lib.inflateEnd r.inflater, lastPathMatch', fields')
      else if r.emit = none ∧ rest = [] then some (r.inflater, lastPathMatch', fields')
      else inflateLoop fuel r.inflater lastPathMatch' rest fields'

/-- `inflate_header_block`. -/
def inflateHeaderBlock (block : List UInt8) : Option (GrpcCall σ Req) :=
  (inflateLoop lib (block.length + 1) c.inflater c.con.lastPathMatch block []).map fun r ↦
    ({ c with inflater := r.1 }.withCon { c.con with lastPathMatch := r.2.1 }).emit (.decoded r.2.2)

/-! ## Frames -/

/-- `HEADERS`. The payload goes to an array, which it must fit in; one that is not filled is not
read. -/
def headersFrame (len : ℕ) : Option (GrpcCall σ Req) :=
  if lib.maxHeaders < len then none
  else (c.con.stream.pop len).bind fun r ↦
    match r.1 with
    | some data => (c.withStream r.2).inflateHeaderBlock lib data
    | none => if len = 0 then (c.withStream r.2).inflateHeaderBlock lib [] else none

/-- The answer to a request. -/
def respond (request : Req) : Option (GrpcCall σ Req) :=
  let r := lib.cb request
  let c₁ := ({ c with request := r.2 } : GrpcCall σ Req).emit (.handed request)
  let c₂ := c₁.sendHeaderFrame lib
    [(ascii ":status", ascii "200"), (ascii "content-type", ascii "application/grpc+proto")]
    H2Flags.endHeaders.value
  let s := lib.serialize r.1
  if lib.asserts = true ∧ initialSettingsMaxFrameSize ≤ s.length + 5 then none
  else
    -- the identifier is that of the last header read, in all three frames
    let dataFrame := { (H2Header.new .data).setLength (5 + s.length) with id := c₂.con.hdr.id }
    let c₃ := c₂.sendGRPCFrame dataFrame s
    some (c₃.sendHeaderFrame lib [(ascii "grpc-status", ascii "0")]
      (H2Flags.endHeaders.value ||| H2Flags.endStream.value))

/-- `DATA` of a request, behind the five bytes in front of it. The coded stream gives back what it
does not need when it is destroyed, behind the answer, which does not touch the stream. -/
def requestFrame (grpcLen : ℕ) : Option (GrpcCall σ Req) :=
  ((lib.mergeFrom c.request grpcLen).run (LogZeroCopyInputStream.source lib.asserts 128)
      (.new c.con.stream c.con.stream.curOffset)).bind fun r ↦
    if lib.asserts = true ∧ r.1.2 = false then none else (c.withStream r.2.stream).respond lib r.1.1

/-- `DATA` for another path. -/
def mismatchFrame (grpcLen : ℕ) : Option (GrpcCall σ Req) :=
  let r := c.con.stream.skip grpcLen
  if lib.asserts = true ∧ r.1 = false then none
  else some ((c.withStream r.2).sendHeaderFrame lib [(ascii ":status", ascii "404")]
    (H2Flags.endHeaders.value ||| H2Flags.endStream.value))

/-- `DATA`: a byte, the length of the message, and the message. -/
def dataFrame : Option (GrpcCall σ Req) :=
  (c.con.stream.pop 5).bind fun r ↦
    -- the array is cleared before the `Pop`, and nobody looks whether that succeeds
    let data := r.1.getD [0, 0, 0, 0, 0]
    let grpcLen := Bytes.decode (data.drop 1)
    if c.con.lastPathMatch then
      if lib.asserts = true ∧ data.headD 0 ≠ 0 then none
      else (c.withStream r.2).requestFrame lib grpcLen
    else (c.withStream r.2).mismatchFrame lib grpcLen

/-- `Pop` of a value that must succeed. A `Pop` that fails leaves a zero. -/
def popValue (size : ℕ) : Option (List UInt8 × GrpcCall σ Req) :=
  (c.con.stream.pop size).bind fun r ↦
    if lib.asserts = true ∧ r.1 = none then none
    else some (r.1.getD (List.replicate size 0), c.withStream r.2)

/-- `GOAWAY`: two values and a message, at most 1024 bytes of it. `len - 8` is unsigned. -/
def goawayFrame (len : ℕ) : Option (GrpcCall σ Req) :=
  (c.popValue lib 4).bind fun r ↦ (r.2.popValue lib 4).bind fun r ↦
    (r.2.con.stream.pop (min 1024 (CInt.toUnsigned 32 (len - 8)))).map fun q ↦ r.2.withStream q.2

/-- `WINDOW_UPDATE`. -/
def windowUpdateFrame (len : ℕ) : Option (GrpcCall σ Req) :=
  if lib.asserts = true ∧ len ≠ 4 then none
  else (c.popValue lib 4).map fun r ↦
    let value := Bytes.encode 4 (Bytes.decode r.1.reverse &&& (2 ^ 31 - 1))
    r.2.withCon { r.2.con with windowSize := Bytes.decode value.reverse }

/-- The loop over the settings from `i` on. -/
def settingsLoop (len : ℕ) : ℕ → ℕ → GrpcCall σ Req → Option (GrpcCall σ Req)
  | 0, _, _ => none
  | fuel + 1, i, c =>
    if i < len then
      (c.popValue lib 2).bind fun r ↦
        (r.2.popValue lib 4).bind fun r ↦ settingsLoop len fuel (i + 6) r.2
    else some c

/-- `SETTINGS`. The first frame is answered with settings of the server, too. -/
def settingsFrame (len : ℕ) : Option (GrpcCall σ Req) :=
  let c₁ := if c.con.frameCount = 1 then c.sendFrame (H2Header.new .settings) [] else c
  if lib.asserts = true ∧ len % 6 ≠ 0 then none
  else (settingsLoop lib len (len + 1) 0 c₁).map fun c₂ ↦
    c₂.sendFrame { H2Header.new .settings with flags := 0x1 } []

/-- The payload of a frame, by its type. -/
def frame (len : ℕ) : Option (GrpcCall σ Req) :=
  if c.con.hdr.type = H2FrameType.headers.value then c.headersFrame lib len
  else if c.con.hdr.type = H2FrameType.data.value then c.dataFrame lib
  else if c.con.hdr.type = H2FrameType.goaway.value then c.goawayFrame lib len
  else if c.con.hdr.type = H2FrameType.windowUpdate.value then c.windowUpdateFrame lib len
  else if c.con.hdr.type = H2FrameType.settings.value then c.settingsFrame lib len
  else some (c.withStream (c.con.stream.skip len).2)

/-- `1` if there is more to do. -/
def more : ℤ := if 0 < c.con.stream.available then 1 else 0

/-- `ProcessFrames` in state `READ_FRAME`. -/
def processFrame : Option (ℤ × GrpcCall σ Req) :=
  let len := c.con.hdr.length
  if len ≤ c.con.stream.available then
    let c₁ := c.withCon { c.con with frameCount := CInt.toUnsigned 32 (c.con.frameCount + 1 : ℕ) }
    (frame lib c₁ len).map fun c₂ ↦
      let c₃ := c₂.withCon { c₂.con with state := .readFrameHeader }
      (c₃.more, c₃)
  else some (0, c)

/-- `ProcessFrames`: a header and its frame, or one of the two. -/
def processFrames : Option (ℤ × GrpcCall σ Req) :=
  match c.con.state with
  | .readFrameHeader =>
    if http2FrameHdrSize ≤ c.con.stream.available then
      (c.con.stream.pop http2FrameHdrSize).bind fun r ↦
        match r.1 with
        | none => some (-1, c.withCon { c.con with stream := r.2, hdr := H2Header.new .data })
        | some l => ((c.withCon { c.con with
            stream := r.2, hdr := (H2Header.ofBytes l).clearBit, state := .readFrame }).emit
              (.header l)).processFrame lib
    else some (0, c)
  | .readFrame => c.processFrame lib
  | .unknown | .connecting | .preHttp | .closed => some (c.more, c)

end GrpcCall

/-! ## Reading -/

namespace H2Connection

/-- The buffers of a connection. -/
def capacity : Capacity .uint64 := ⟨initialSettingsMaxFrameSize * 2, by decide, by decide⟩

/-- The constructor, and what `RegisterConnection` makes of it. -/
def new (stream : AnonStreamType) : H2Connection :=
  ⟨BipBuf.new (fun _ ↦ 0) capacity, BipBuf.new (fun _ ↦ 0) capacity, stream, H2Header.new .data, 0,
    .connecting, initialSettingsMaxFrameSize, false⟩

variable (con : H2Connection)

/-- `ProcessConnecting`: the preface. What is behind it goes to the stream, whose `Push` returns
`0`, which `PopAll` reads as a refusal. -/
def processConnecting : ℤ × H2Connection :=
  if http2InitSize ≤ con.httpBuf.available then
    let o := con.httpBuf.pop http2InitSize false
    match o.ret with
    | none => (-3, { con with httpBuf := o.buf })
    | some priHdr =>
      if priHdr ≠ http2Hdr then (-2, { con with httpBuf := o.buf })
      else
        let q := o.buf.popAll (fun s d ↦ (decide ((s.push d).1 ≠ 0), (s.push d).2)) con.stream
          o.buf.available
        (0, { con with httpBuf := q.buf, stream := q.ret.2, state := .readFrameHeader })
  else (0, con)

/-- `Read`, up to the loop over the frames: its result, where it is negative. -/
def receive (cb : Reader UInt8) : ℤ × H2Connection :=
  let r : ℤ × H2Connection :=
    if con.state = .readFrameHeader ∨ con.state = .readFrame then
      ((con.stream.readv cb).1, { con with stream := (con.stream.readv cb).2 })
    else ((con.httpBuf.readv cb).ret, { con with httpBuf := (con.httpBuf.readv cb).buf })
  if r.1 < 0 then (-3, r.2)
  else if r.2.state = .connecting then r.2.processConnecting
  else (0, r.2)

end H2Connection

/-! ## Connections -/

/-- The manager: its connections by descriptor, its inflater and its request. -/
structure HTTP2GRPCManager (σ Req : Type) where
  connections : ℕ → Option H2Connection
  inflater : σ
  request : Req

/-- What happens to a manager. `Read` is `receive`, and `processFrames` while this gives a positive
number. -/
inductive GrpcOp where
  | registerConnection (fd : ℕ)
  | unregister (fd : ℕ)
  | receive (fd : ℕ) (cb : Reader UInt8)
  | processFrames (fd : ℕ)

namespace HTTP2GRPCManager

variable {σ Req Resp : Type} (lib : GrpcLib σ Req Resp) (m : HTTP2GRPCManager σ Req)

/-- The constructor, with a new inflater and an empty request. -/
def new (inflater : σ) (request : Req) : HTTP2GRPCManager σ Req := ⟨fun _ ↦ none, inflater, request⟩

/-- The connection of a descriptor is replaced. -/
def set (fd : ℕ) (con : Option H2Connection) : HTTP2GRPCManager σ Req :=
  { m with connections := Function.update m.connections fd con }

/-- A call for a connection. -/
def call (con : H2Connection) : GrpcCall σ Req := ⟨con, m.inflater, m.request, []⟩

/-- `ProcessFrames` for a connection: its result, the manager and what it did. -/
def processFrames (fd : ℕ) (con : H2Connection) :
    Option ((ℤ × List (GrpcEvent Req)) × HTTP2GRPCManager σ Req) :=
  ((m.call con).processFrames lib).map fun r ↦
    ((r.1, r.2.events),
      { m.set fd (some r.2.con) with inflater := r.2.inflater, request := r.2.request })

/-- A step: what it returns, and what it does. A connection that is registered twice is kept. There
is no state after a call that does not return; a run is only followed up to there. -/
def step : GrpcOp → HTTP2GRPCManager σ Req × Option (ℤ × List (GrpcEvent Req))
  | .registerConnection fd =>
    match m.connections fd with
    | none => (m.set fd (some (.new (PositionedLog.createAnonStore 128))), some (1, []))
    | some _ => (m, if lib.asserts then none else some (0, []))
  | .unregister fd =>
    match m.connections fd with
    | none => (m, some (-1, []))
    | some _ => (m.set fd none, some (0, []))
  | .receive fd cb =>
    match m.connections fd with
    | none => (m, some (-1, []))
    | some con => (m.set fd (some (con.receive cb).2), some ((con.receive cb).1, []))
  | .processFrames fd =>
    match m.connections fd with
    | none => (m, some (-1, []))
    | some con =>
      match m.processFrames lib fd con with
      | none => (m, none)
      | some r => (r.2, some r.1)

/-- The loop of `Read` over the frames. -/
def readLoop (fd : ℕ) : ℕ → HTTP2GRPCManager σ Req → Option (ℤ × HTTP2GRPCManager σ Req)
  | 0, _ => none
  | rounds + 1, m =>
    (m.step lib (.processFrames fd)).2.bind fun r ↦
      if 0 < r.1 then readLoop fd rounds (m.step lib (.processFrames fd)).1
      else some (r.1, (m.step lib (.processFrames fd)).1)

/-- `Read`. -/
def read (rounds fd : ℕ) (cb : Reader UInt8) : Option (ℤ × HTTP2GRPCManager σ Req) :=
  (m.step lib (.receive fd cb)).2.bind fun r ↦
    if r.1 < 0 then some (r.1, (m.step lib (.receive fd cb)).1)
    else readLoop lib fd rounds (m.step lib (.receive fd cb)).1

variable {lib} {m}

theorem step_of_none {fd : ℕ} {con : H2Connection} (hcon : m.connections fd = some con)
    (hcall : (m.call con).processFrames lib = none) :
    m.step lib (.processFrames fd) = (m, none) := by
  rw [step]
  simp only [hcon, processFrames, hcall, Option.map_none]

theorem step_of_some {fd : ℕ} {con : H2Connection} {ret : ℤ} {c : GrpcCall σ Req}
    (hcon : m.connections fd = some con) (hcall : (m.call con).processFrames lib = some (ret, c)) :
    m.step lib (.processFrames fd)
      = ({ m.set fd (some c.con) with inflater := c.inflater, request := c.request },
        some (ret, c.events)) := by
  rw [step]
  simp only [hcon, processFrames, hcall, Option.map_some]

theorem readLoop_eq_run {rounds fd : ℕ} {r : ℤ × HTTP2GRPCManager σ Req}
    (h : readLoop lib fd rounds m = some r) :
    ∃ n, r.2 = (Run.run (step lib) m (List.replicate n (.processFrames fd))).1 := by
  induction rounds generalizing m with
  | zero => exact absurd h (by simp [readLoop])
  | succ rounds ih =>
    obtain ⟨q, hq, hr⟩ := Option.bind_eq_some_iff.mp h
    split_ifs at hr with hpos
    · obtain ⟨n, hn⟩ := ih hr
      exact ⟨n + 1, hn⟩
    · obtain rfl := Option.some.inj hr
      exact ⟨1, rfl⟩

/-- A `Read` is a run of its steps. -/
theorem read_eq_run {rounds fd : ℕ} {cb : Reader UInt8} {r : ℤ × HTTP2GRPCManager σ Req}
    (h : m.read lib rounds fd cb = some r) :
    ∃ n, r.2 = (Run.run (step lib) m
      (.receive fd cb :: List.replicate n (.processFrames fd))).1 := by
  obtain ⟨q, hq, hr⟩ := Option.bind_eq_some_iff.mp h
  split_ifs at hr with hneg
  · obtain rfl := Option.some.inj hr
    exact ⟨0, rfl⟩
  · obtain ⟨n, hn⟩ := readLoop_eq_run hr
    exact ⟨n, hn⟩

end HTTP2GRPCManager

end Coypu
