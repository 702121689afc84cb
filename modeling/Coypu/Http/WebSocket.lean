import Coypu.Buf.Writev
import Coypu.Http.Head
import Coypu.Store.MultiPositionedStreamLog
import Coypu.Store.PositionedStream

/-!
# WebSocket connections

`WebSocketManager` as the code has it, for one connection: the frames it writes, the frames it
reads, the change of protocol after the head, and its reactions to a descriptor that is ready to be
read or written. The connection reads frames from its stream if it has one, else from the HTTP
buffer, by a template that `FrameSource` stands for.

A function that ends in `none` does not return: an assertion failed, an array was overrun or an
exception was thrown. Assertions are compiled into some builds and not into others (`asserts`).

## Parameters

The digest of a key, `computeKey`, is the caller's, as are random bytes, and the number of rounds of
the loop over the frames in the buffer: the loop of the code goes on until there are none.
-/

set_option autoImplicit false

namespace Coypu

open FlatMemory Transport WebSocket

namespace WebSocket

/-- The operation codes the program names. -/
inductive WSOPCode where
  | unknown
  | continuation
  | textFrame
  | binaryFrame
  | close
  | ping
  | pong
deriving DecidableEq, Repr

def WSOPCode.value : WSOPCode → UInt8
  | unknown => 0x99
  | continuation => 0x0
  | textFrame => 0x1
  | binaryFrame => 0x2
  | close => 0x8
  | ping => 0x9
  | pong => 0xA

inductive WSClientState where
  | unknown
  | connecting
  | open
  | openData
  | closing
  | closed
deriving DecidableEq, Repr

def wsPayload16 : UInt8 := 126

def wsPayload64 : UInt8 := 127

def wsMaskLen : ℕ := 4

/-- The capacity of the two buffers of a connection. -/
def bufferCapacity : ℕ := 64 * 1024

theorem bufferCapacity_pos : 0 < bufferCapacity := by decide

theorem bufferCapacity_lt : bufferCapacity < CapacityType.uint64.bound := by decide

/-- The frame being read. Its operation code is whatever four bits were sent. -/
structure WebSocketFrame where
  hdr : List UInt8
  mask : List UInt8
  opcode : UInt8
  masked : Bool
  len : ℕ
deriving DecidableEq

/-- The calls a connection makes to its owner. -/
inductive Call where
  | onOpen
  | onText (offset len : ℕ)
  | setWrite
deriving DecidableEq

/-- Zeros in the array of `DoOpenData`, behind all calls. -/
def zeroedData : List Call → ℕ → UInt8 := fun _ _ ↦ 0

end WebSocket

/-- A connection. The last four fields are its configuration: which callbacks are set, whether
assertions are compiled in, and what the array of `DoOpenData` holds before anything is copied
there, which is another thing behind other calls. -/
structure Con (cacheSize : ℕ) where
  httpBuf : BipBuf .uint64 UInt8
  writeBuf : BipBuf .uint64 UInt8
  stream : Option (PositionedStream cacheSize)
  head : Head
  state : WSClientState
  frame : WebSocketFrame
  mask : List UInt8
  masked : Bool
  server : Bool
  key : List UInt8
  calls : List Call
  onOpen : Bool
  onText : Bool
  asserts : Bool
  pingData : List Call → ℕ → UInt8

/-- `RegisterConnection`: a server sends no key, a client has random bytes for one. -/
def Con.registerConnection {cacheSize : ℕ} (serverCon : Bool) (randomMask : List UInt8)
    (stream : Option (PositionedStream cacheSize)) (onOpen onText asserts : Bool)
    (pingData : List Call → ℕ → UInt8) : Con cacheSize where
  httpBuf := BipBuf.new (fun _ ↦ 0) ⟨bufferCapacity, bufferCapacity_pos, bufferCapacity_lt⟩
  writeBuf := BipBuf.new (fun _ ↦ 0) ⟨bufferCapacity, bufferCapacity_pos, bufferCapacity_lt⟩
  stream := stream
  head := Head.empty
  state := .connecting
  frame := ⟨[0, 0], [0, 0, 0, 0], 0, false, 0⟩
  mask := if serverCon then [0, 0, 0, 0] else randomMask
  masked := !serverCon
  server := serverCon
  key := []
  calls := []
  onOpen := onOpen
  onText := onText
  asserts := asserts
  pingData := pingData

/-! ## Writing frames -/

/-- What a frame can be written to. -/
class FrameSink (σ : Type*) where
  free : σ → ℕ
  push : σ → List UInt8 → σ

/-- `Push` of a list. -/
def BipBuf.pushList (b : BipBuf .uint64 UInt8) (l : List UInt8) : BipBuf .uint64 UInt8 :=
  (b.pushBlock (some fun i ↦ l.getD i 0) l.length).buf

instance : FrameSink (BipBuf .uint64 UInt8) where
  free := BipBuf.free
  push := BipBuf.pushList

namespace WebSocket

/-- The second byte of a header. -/
def maskBit (masked : Bool) (len : UInt8) : UInt8 :=
  if masked then (0x7F &&& len) ||| 0x80 else 0x7F &&& len

/-- `WriteFrame`: the header and the extended length, if there is room for the frame. -/
def writeFrame {σ : Type*} [FrameSink σ] (t : σ) (code : WSOPCode) (masked : Bool) (len : ℕ) :
    Bool × σ :=
  let freeSpace := FrameSink.free t % 2 ^ 32
  -- room for a key is looked for on the side that sends none
  let spare := if masked then 0 else 4
  let hdr₀ := 0x80 ||| (0x0F &&& code.value)
  if len ≤ 125 then
    if freeSpace < (2 + len + spare) % 2 ^ 64 then (false, t)
    else (true, FrameSink.push t [hdr₀, maskBit masked (UInt8.ofNat len)])
  else if len < 2 ^ 16 - 1 then
    if freeSpace < (4 + len + spare) % 2 ^ 64 then (false, t)
    else (true, FrameSink.push (FrameSink.push t [hdr₀, maskBit masked wsPayload16])
      (Bytes.encode 2 len))
  else
    if freeSpace < (10 + len + spare) % 2 ^ 64 then (false, t)
    else (true, FrameSink.push (FrameSink.push t [hdr₀, maskBit masked wsPayload64])
      (Bytes.encode 8 len))

/-- `PushMask`: the masked bytes, one by one. -/
def pushMask (mask : List UInt8) (writeBuf : BipBuf .uint64 UInt8) (data : List UInt8) :
    BipBuf .uint64 UInt8 :=
  (Bytes.xorMask mask 0 data).foldl (fun b x ↦ (b.push x).buf) writeBuf

end WebSocket

namespace Con

variable {cacheSize : ℕ} (con : Con cacheSize)

def call (c : Call) : Con cacheSize := { con with calls := con.calls ++ [c] }

/-- What `Queue` pushes behind a header: the payload, on a client behind its key and masked. -/
def pushPayload (writeBuf : BipBuf .uint64 UInt8) (data : List UInt8) : BipBuf .uint64 UInt8 :=
  if con.masked then pushMask con.mask (writeBuf.pushList con.mask) data else writeBuf.pushList data

/-- `Queue`. -/
def queue (code : WSOPCode) (data : List UInt8) : Bool × Con cacheSize :=
  if con.state = .open ∨ con.state = .openData then
    let r := writeFrame con.writeBuf code con.masked data.length
    if r.1 then (true, { con with writeBuf := con.pushPayload r.2 data }.call .setWrite)
    else (false, con)
  else (false, con)

end Con

/-! ## Reading frames -/

/-- What frames can be read from. `unmask` is given whether assertions are compiled in. -/
class FrameSource (β : Type*) where
  available : β → ℕ
  peak : β → ℕ → Option UInt8
  pop : β → ℕ → Option (List UInt8) × β
  skip : β → ℕ → β
  currentOffset : β → ℕ
  unmask : Bool → β → ℕ → ℕ → List UInt8 → Option β
  popAt : β → ℕ → ℕ → Option (List UInt8) × β

/-- The circular buffer has no `Unmask`, and its `Pop` of three arguments takes a length and whether
to leave the items in place. -/
instance : FrameSource (BipBuf .uint64 UInt8) where
  available := BipBuf.available
  peak b offset := (b.peak offset).ret
  pop b size := ((b.pop size false).ret, (b.pop size false).buf)
  skip b size := (b.skip size).buf
  currentOffset := BipBuf.currentOffset
  unmask asserts b _ _ _ := if asserts then none else some b
  popAt b offset len :=
    ((b.pop offset (decide (len ≠ 0))).ret, (b.pop offset (decide (len ≠ 0))).buf)

instance {cacheSize : ℕ} : FrameSource (PositionedStream cacheSize) where
  available := PositionedStream.available
  peak := PositionedStream.peak
  pop := PositionedStream.pop
  skip p size := (p.skip size).2
  currentOffset := PositionedStream.currentOffset
  unmask _ p offset len mask := some (p.unmask offset len mask).2
  popAt p offset len := (p.popAt offset len, p)

namespace Con

variable {cacheSize : ℕ} (con : Con cacheSize) {β : Type*} [FrameSource β]

open FrameSource

/-- The bytes of the extended length. -/
def extended (len : UInt8) : ℕ :=
  if len = wsPayload16 then 2 else if len = wsPayload64 then 8 else 0

/-- `DoOpen`: take a header if all of it is there. A `Pop` that fails leaves what was to be read as
it was. -/
def doOpen (buf : β) : ℤ × β × Con cacheSize :=
  let avail := available buf % 2 ^ 32
  if 2 ≤ avail then
    match peak buf 1 with
    | none => (0, buf, con)
    | some peaklen =>
      let len := 0x7F &&& peaklen
      let needed := 2 + (if peaklen &&& 0x80 ≠ 0 then wsMaskLen else 0) + extended len
      if needed ≤ avail then
        let buf₁ := (pop buf 2).2
        let hdr := (pop buf 2).1.getD con.frame.hdr
        let masked := decide (hdr.getD 1 0 &&& 0x80 ≠ 0)
        -- the key is taken in front of the extended length
        let buf₂ := if masked then (pop buf₁ wsMaskLen).2 else buf₁
        let mask := if masked then (pop buf₁ wsMaskLen).1.getD con.frame.mask else con.frame.mask
        let buf₃ := if extended len = 0 then buf₂ else (pop buf₂ (extended len)).2
        let ilen := if extended len = 0 then len.toNat
          else Bytes.decode ((pop buf₂ (extended len)).1.getD [])
        (2, buf₃, { con with
          frame := ⟨hdr, mask, hdr.getD 0 0 &&& 0x0F, masked, ilen⟩
          state := .openData })
      else (1, buf, con)
  else (1, buf, con)

/-- The first `len` bytes of an array behind the copying of `l` to its beginning. -/
def filledTo (array : ℕ → UInt8) (len : ℕ) (l : List UInt8) : List UInt8 :=
  (List.range len).map fun i ↦ l.getD i (array i)

theorem length_filledTo (array : ℕ → UInt8) (len : ℕ) (l : List UInt8) :
    (filledTo array len l).length = len := by
  rw [filledTo, List.length_map, List.length_range]

theorem filledTo_length (array : ℕ → UInt8) (l : List UInt8) : filledTo array l.length l = l := by
  refine List.ext_getElem (length_filledTo array _ l) fun i _ hi ↦ ?_
  simp only [filledTo, List.getElem_map, List.getElem_range]
  exact List.getD_eq_getElem l _ hi

/-- `Unmask` of the payload, if it is masked. -/
def unmaskFrame (buf : β) (offset : ℕ) : Option β :=
  if con.frame.masked then unmask con.asserts buf offset con.frame.len con.frame.mask else some buf

/-- The answer to a ping, from an array of 1024 bytes. There is none if an assertion fails, or if
the array is left. -/
def doPing (buf : β) (offset : ℕ) : Option (ℤ × β × Con cacheSize) :=
  if con.asserts ∧ 1024 ≤ con.frame.len then none
  else
    match con.unmaskFrame buf offset with
    | none => none
    | some buf₁ =>
      let r := popAt buf₁ offset con.frame.len
      if 1024 < (r.1.getD []).length then none
      else
        -- the answer has `len` bytes, however many were copied
        let q := con.queue .pong (filledTo (con.pingData con.calls) con.frame.len (r.1.getD []))
        if con.asserts ∧ q.1 = false ∨ 1024 < con.frame.len ∧ q.1 then none
        else some (1, r.2, q.2)

/-- The longest payload that is read from a stream and answered. -/
def maxPing : ℕ := if con.asserts then 1023 else 1024

theorem maxPing_le : con.maxPing ≤ 1024 := by
  rw [maxPing]
  split_ifs <;> decide

theorem le_maxPing {n : ℕ} (h : n < 1024) : n ≤ con.maxPing := by
  rw [maxPing]
  split_ifs <;> omega

variable {con} in
theorem doPing_of_popAt {buf buf₁ : β} {offset : ℕ} {data : List UInt8}
    (hun : con.unmaskFrame buf offset = some buf₁)
    (hpop : ((popAt buf₁ offset con.frame.len).1.getD []) = data)
    (hlen : data.length = con.frame.len) :
    con.doPing buf offset = if con.maxPing < con.frame.len then none
      else
        let q := con.queue .pong data
        if con.asserts && !q.1 then none
        else some (1, (popAt buf₁ offset con.frame.len).2, q.2) := by
  have hfill : filledTo (con.pingData con.calls) con.frame.len data = data := by
    rw [← hlen]
    exact filledTo_length _ data
  rw [doPing, hun, maxPing]
  simp only [hpop, hfill, hlen]
  cases con.asserts with
  | true =>
    have hbound : 1023 < con.frame.len ↔ 1024 ≤ con.frame.len := Nat.lt_iff_add_one_le
    by_cases hlong : 1024 ≤ con.frame.len
    · simp [hbound, hlong]
    · have hshort : ¬ 1024 < con.frame.len := fun h ↦ hlong h.le
      simp [hbound, hlong, hshort]
  | false =>
    by_cases hlong : 1024 < con.frame.len
    · simp [hlong]
    · simp [hlong]

/-- `DoOpenData`: step over a payload if all of it is there, and react to the frame. -/
def doOpenData (buf : β) : Option (ℤ × β × Con cacheSize) :=
  if con.frame.len ≤ available buf then
    let offset := currentOffset buf
    let buf₁ := skip buf con.frame.len
    let con₁ := { con with state := .open }
    if con.frame.opcode = WSOPCode.textFrame.value then
      if con.onText then
        (con.unmaskFrame buf₁ offset).map fun buf₂ ↦
          (1, buf₂, con₁.call (.onText offset con.frame.len))
      else some (1, buf₁, con₁)
    else if con.frame.opcode = WSOPCode.ping.value then con₁.doPing buf₁ offset
    else if con.frame.opcode = WSOPCode.close.value then
      some (1, buf₁, { con with state := .closing })
    else some (1, buf₁, con₁)
  else some (0, buf, con)

/-! ## The change of protocol -/

/-- The bytes behind the head go to the stream. `Push` returns `0` if it took them, which `PopAll`
reads as a refusal. -/
def copyToStream : Con cacheSize :=
  match con.stream with
  | none => con
  | some stream =>
    let o := con.httpBuf.popAll (fun s d ↦ (decide ((s.push d).1 ≠ 0), (s.push d).2)) stream
      con.httpBuf.available
    { con with httpBuf := o.buf, stream := some o.ret.2 }

/-- What a server needs of a head, with the answer to its key. -/
def serverKey (computeKey : List UInt8 → Option (List UInt8)) (head : Head) :
    Option (List UInt8) :=
  let checkHeaderCount := [headerHost, headerUpgrade, headerConnection, headerSecWebsocketKey,
    headerSecWebsocketVersion].countP head.hasHeader
  if head.method = ascii "GET" ∧ head.version = ascii "HTTP/1.1" ∧ checkHeaderCount = 5 then
    (head.getHeader headerSecWebsocketKey).bind fun wskey ↦ computeKey (wskey ++ websocketGuid)
  else none

/-- What a client needs of a head: the answer to the key it sent. -/
def clientAccepts (computeKey : List UInt8 → Option (List UInt8)) (key : List UInt8) (head : Head) :
    Bool :=
  let checkHeaderCount := [headerServers, headerUpgrade, headerConnection,
    headerSecWebsocketAccept].countP head.hasHeader
  decide (checkHeaderCount = 4) && decide (head.responsecode = ascii "101")
    && decide (head.version = ascii "HTTP/1.1")
    && decide (head.getHeader headerSecWebsocketAccept =
      computeKey (Head.cStr key ++ websocketGuid))

/-- The request of a client, with its key. -/
def request (key uri host origin : List UInt8) : List (List UInt8) :=
  [ascii "GET " ++ Head.cStr uri ++ ascii " HTTP/1.1" ++ headerHttpNewline,
    headerHost ++ ascii ": " ++ Head.cStr host ++ headerHttpNewline,
    headerUpgrade ++ ascii ": websocket" ++ headerHttpNewline,
    headerConnection ++ ascii ": Upgrade" ++ headerHttpNewline,
    headerOrigin ++ ascii ": " ++ Head.cStr origin ++ headerHttpNewline,
    headerSecWebsocketVersion ++ ascii ": " ++ wsVersion ++ headerHttpNewline,
    headerSecWebsocketKey ++ ascii ": " ++ Head.cStr key ++ headerHttpNewline,
    headerHttpNewline]

/-- `Stream`: send the request. The lines are made in an array of 1024 bytes, and the length of one
that does not fit is taken for the number of bytes there. -/
def openStream (key uri host origin : List UInt8) : Option (Con cacheSize) :=
  if ∀ line ∈ request key uri host origin, line.length < 1024 then
    some ({ con with
      writeBuf := (request key uri host origin).foldl BipBuf.pushList con.writeBuf
      key := key }.call .setWrite)
  else none

/-- The response of a server. -/
def response (newKey : List UInt8) : List (List UInt8) :=
  [headerServer, headerServerUpgrade, headerServerConnection,
    headerSecWebsocketAccept ++ ascii ": " ++ Head.cStr newKey ++ headerHttpNewline,
    headerHttpNewline]

/-- The state is `OPEN` from here on. -/
def opened : Con cacheSize :=
  let con₁ := { con with state := .open }
  (if con.onOpen then con₁.call .onOpen else con₁).copyToStream

/-- `ProcessState` in state `CONNECTING`. -/
def connect (computeKey : List UInt8 → Option (List UInt8)) : Con cacheSize :=
  if con.server then
    match serverKey computeKey con.head with
    | none => con
    | some newKey =>
      ({ con with
        writeBuf := (response newKey).foldl BipBuf.pushList con.writeBuf }.opened).call .setWrite
  else if clientAccepts computeKey con.key con.head then con.opened
  else con

/-! ## One event -/

/-- `DoOpen` with what the connection reads frames from. -/
def openSource : ℤ × Con cacheSize :=
  match con.stream with
  | some stream =>
    let r := con.doOpen stream
    (r.1, { r.2.2 with stream := some r.2.1 })
  | none =>
    let r := con.doOpen con.httpBuf
    (r.1, { r.2.2 with httpBuf := r.2.1 })

/-- `DoOpenData` with what the connection reads frames from. -/
def dataSource : Option (ℤ × Con cacheSize) :=
  match con.stream with
  | some stream => (con.doOpenData stream).map fun r ↦ (r.1, { r.2.2 with stream := some r.2.1 })
  | none => (con.doOpenData con.httpBuf).map fun r ↦ (r.1, { r.2.2 with httpBuf := r.2.1 })

/-- What is available to `DoOpen`. -/
def sourceAvailable : ℕ :=
  match con.stream with
  | some stream => stream.available
  | none => con.httpBuf.available

/-- `ProcessState` in state `OPEN_DATA`, also reached from state `OPEN`. -/
def processData : Option (Bool × Con cacheSize) :=
  con.dataSource.map fun r ↦
    (decide (r.1 ≠ 0 ∧ r.2.state = .open ∧ 0 < r.2.sourceAvailable), r.2)

/-- `ProcessState`: whether to go on, and the connection. -/
def processState (computeKey : List UInt8 → Option (List UInt8)) : Option (Bool × Con cacheSize) :=
  match con.state with
  -- frames behind the head wait for the next `Read`
  | .connecting => some (false, con.connect computeKey)
  | .open =>
    let r := con.openSource
    if r.1 = 0 ∨ r.2.state ≠ .openData then some (false, r.2) else r.2.processData
  | .openData => con.processData
  | .closing => some (false, { con with state := .closed })
  | .unknown | .closed => some (false, con)

/-- The loop of `Read`. -/
def processAll (computeKey : List UInt8 → Option (List UInt8)) : ℕ → Con cacheSize →
    Option (Con cacheSize)
  | 0, _ => none
  | rounds + 1, con =>
    match con.processState computeKey with
    | none => none
    | some (true, con') => processAll computeKey rounds con'
    | some (false, con') => some con'

/-- What `Read` reads into: the stream behind the head, the HTTP buffer before. -/
def readvSource (cb : Reader UInt8) : ℤ × Con cacheSize :=
  match con.stream with
  | some stream =>
    if con.state = .open ∨ con.state = .openData then
      ((stream.readv cb).1, { con with stream := some (stream.readv cb).2 })
    else ((con.httpBuf.readv cb).ret, { con with httpBuf := (con.httpBuf.readv cb).buf })
  | none => ((con.httpBuf.readv cb).ret, { con with httpBuf := (con.httpBuf.readv cb).buf })

/-- `Read`. -/
def read (computeKey : List UInt8 → Option (List UInt8)) (rounds : ℕ) (cb : Reader UInt8) :
    Option (ℤ × Con cacheSize) :=
  let r := con.readvSource cb
  if r.1 < 0 then some (-3, r.2)
  else if r.2.state = .connecting then
    match r.2.head.handleHTTP r.2.server r.2.httpBuf with
    | none => none
    | some (ret, httpBuf, head) =>
      let con' := { r.2 with httpBuf := httpBuf, head := head }
      if ret < 0 then some (ret, con') else (processAll computeKey rounds con').map fun c ↦ (0, c)
  else (processAll computeKey rounds r.2).map fun c ↦ (0, c)

end Con

/-- What `Write` returns, the connection and the publish log it leaves, and the bytes the transport
took. -/
structure Sent (cacheSize publishSize : ℕ) where
  ret : ℤ
  con : Con cacheSize
  publish : Option (MultiPositionedStreamLog publishSize)
  bytes : List UInt8

/-- `Write`: from the write buffer if it is not empty, else from the publish log. -/
def Con.write {cacheSize publishSize : ℕ} (con : Con cacheSize)
    (publish : Option (MultiPositionedStreamLog publishSize)) (fd : ℕ) (find : ℕ → Bool)
    (cb : Writer) : Sent cacheSize publishSize :=
  if con.writeBuf.isEmpty = false then
    let o := con.writeBuf.writev cb
    ⟨if o.ret < 0 then o.ret else if o.buf.isEmpty then 0 else 1, { con with writeBuf := o.buf },
      publish, con.writeBuf.accepted o⟩
  else
    match publish with
    | none => ⟨0, con, none, []⟩
    | some m =>
      let r := m.writev (m.availableAt fd) fd find cb
      ⟨if r.1 < 0 then r.1 else if r.2.2.isEmptyAt fd then 0 else 1, con, some r.2.2,
        (gather m.stream.data r.2.1).take r.1.toNat⟩

end Coypu
