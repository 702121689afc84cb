import Coypu.Library.Bytes
import Coypu.Store.FlatLog
import Coypu.Store.PositionedLog
import Mathlib.Data.List.Sort
import Mathlib.Logic.Function.Basic

/-!
# Tags and subscriptions

A `TagStream` queues records that name a range of a stream, and hands the ranges to the descriptors
that a record is meant for: the one that it names, or those that subscribed to its tag. Each
descriptor has its own offset into the queue; how many bytes of a range a descriptor takes is up to
the callback of the stream.

An event descriptor tells the descriptors that there are records for them: `Queue` asks for write
interest in it, its `Write` event adds to its counter, and its `Read` event goes through the records
that are new.

The callbacks of the streams and the event manager are not part of it. A call of `StreamWrite` gets
the values that the callbacks return in it, and the system is the `TagStream` with its event
descriptor (`TagSystem`).
-/

set_option autoImplicit false

namespace Coypu

/-! ## Records -/

/-- The record `Tag`. Its `_pad`, which nothing reads, is left out. -/
structure TagType where
  offset : UInt64
  len : UInt64
  streamId : UInt64
  tagId : UInt32
  fd : Int32
  flags : UInt8
deriving DecidableEq

namespace TagType

/-- `sizeof(Tag)`. -/
def size : ℕ := 64

/-- The constructor without arguments. -/
def new : TagType := ⟨0, 0, 0, 0, -1, 0⟩

/-- The record in memory, with zeros for `_pad`. -/
def toBytes (t : TagType) : List UInt8 :=
  (Bytes.encode 8 t.offset.toNat).reverse ++ (Bytes.encode 8 t.len.toNat).reverse
    ++ (Bytes.encode 8 t.streamId.toNat).reverse ++ (Bytes.encode 4 t.tagId.toNat).reverse
    ++ (Bytes.encode 4 t.fd.toUInt32.toNat).reverse ++ t.flags :: List.replicate 31 0

/-- The record that some bytes are. -/
def ofBytes (l : List UInt8) : TagType where
  offset := UInt64.ofNat (Bytes.decode (l.take 8).reverse)
  len := UInt64.ofNat (Bytes.decode ((l.drop 8).take 8).reverse)
  streamId := UInt64.ofNat (Bytes.decode ((l.drop 16).take 8).reverse)
  tagId := UInt32.ofNat (Bytes.decode ((l.drop 24).take 4).reverse)
  fd := ⟨UInt32.ofNat (Bytes.decode ((l.drop 28).take 4).reverse)⟩
  flags := (l.drop 32).headD 0

/-- `TF_PERSISTENT`. -/
def isPersistent (t : TagType) : Bool := t.flags &&& 0x1 != 0

end TagType

/-! ## Subscriptions -/

/-- `TagSub`: a vector of bits. -/
structure TagSub where
  size : ℕ
  tags : ℕ → Bool

namespace TagSub

def new : TagSub := ⟨64, fun _ ↦ false⟩

variable (s : TagSub)

def isSet (tagid : UInt32) : Bool := if tagid.toNat < s.size then s.tags tagid.toNat else false

/-- `resize`, which fills with zeros. -/
def resize (n : ℕ) : TagSub := ⟨n, fun i ↦ if i < min s.size n then s.tags i else false⟩

/-- The loop of `Set`. The sum is a 32-bit integer, so that near the largest ones it does not
end. -/
def grow (tagid : UInt32) : ℕ → TagSub → Option TagSub
  | 0, _ => none
  | fuel + 1, s =>
    if s.size ≤ tagid.toNat then grow tagid fuel (s.resize (tagid + 16).toNat) else some s

/-- `Set`. A loop that does not end behind the first round does not end. -/
def set (tagid : UInt32) : Option TagSub :=
  (grow tagid 2 s).map fun s ↦ { s with tags := Function.update s.tags tagid.toNat true }

end TagSub

/-! ## The queue -/

/-- `TagOffsetStore`: the stream of the records, in a file. -/
structure TagOffsetStore where
  stream : PositionedLog (LRUCache 16) 16

namespace TagOffsetStore

/-- The constructor. The position is behind what is in the file. -/
def new (file : MappedFile) : TagOffsetStore :=
  ⟨⟨PagedLog.ofFile 16 PagedLog.systemPage PagedLog.systemPage_pos file, file.size⟩⟩

variable (s : TagOffsetStore)

def totalAvailable : ℕ := s.stream.log.available

def isEmpty : Bool := s.stream.available = 0

/-- `Append`. A file cannot grow to `2⁶³` bytes. -/
def append (tag : TagType) : Bool × TagOffsetStore :=
  if 2 ^ 63 ≤ s.totalAvailable + PagedLog.systemPage then (false, s)
  else (decide ((s.stream.push tag.toBytes).1 = 0), ⟨(s.stream.push tag.toBytes).2⟩)

/-- `ReadNext`. -/
def readNext : Option (Option TagType × TagOffsetStore) :=
  (s.stream.pop TagType.size).map fun r ↦ (r.1.map TagType.ofBytes, ⟨r.2⟩)

/-- `Read`, at an offset. -/
def read (offset : ℕ) : Option (Option TagType × TagOffsetStore) :=
  (s.stream.log.pop offset TagType.size).map fun r ↦
    (r.1.map TagType.ofBytes, ⟨{ s.stream with log := r.2 }⟩)

end TagOffsetStore

/-! ## Descriptors -/

/-- What is known of a descriptor. -/
structure FDData where
  subs : TagSub
  currentTag : TagType
  registered : Bool
  currentOffset : ℕ
  written : ℕ
  startTagOffset : ℕ

/-- A call of the callback of a stream: the range, and how much of it was taken. -/
structure StreamCall where
  streamId : UInt64
  offset : ℕ
  len : ℕ
  result : ℤ
deriving DecidableEq

/-- What a call of `StreamWrite` works on, and the calls that it made. -/
structure TagWrite where
  data : FDData
  store : TagOffsetStore
  count : ℕ
  calls : List StreamCall

namespace TagWrite

variable (results : ℕ → ℤ) (w : TagWrite)

/-- The callback of the stream of the current record is called for a range of it. -/
def call (offset len : ℕ) : TagWrite :=
  { w with calls := w.calls ++ [⟨w.data.currentTag.streamId, offset, len, results w.calls.length⟩] }

/-- The current record is passed. -/
def next : TagWrite :=
  { w with
    data := { w.data with
      currentOffset := CInt.toUnsigned 64 (w.data.currentOffset + TagType.size : ℕ)
      written := 0 }
    count := w.count + 1 }

/-- Some bytes of the current record are written. -/
def partly (written : ℕ) : TagWrite := { w with data := { w.data with written := written } }

/-- A round for a record of which some bytes are written: it returns, or goes on. -/
def resume : ℤ × TagWrite ⊕ TagWrite :=
  let t := w.data.currentTag
  let x := results w.calls.length
  let w := w.call results (CInt.toUnsigned 64 (t.offset.toNat + w.data.written : ℕ))
    (CInt.toUnsigned 64 (t.len.toNat - w.data.written))
  if x < 0 then .inl (-1, w)
  else
    let written := CInt.toUnsigned 64 (w.data.written + x)
    if written = t.len.toNat then .inr w.next else .inl (1, w.partly written)

end TagWrite

/-! ## The stream -/

structure TagStream where
  fd : ℕ
  offsetStore : TagOffsetStore
  streams : UInt64 → Bool
  fds : ℕ → Option FDData
  tag2fd : UInt32 → List ℕ
  tag2fdSize : ℕ

/-- A record that `Read` took from the queue, if it did, and the calls of `set_write` in its
round. -/
structure Wake where
  record : Option TagType
  fds : List ℕ
deriving DecidableEq

namespace TagStream

def new (fd : ℕ) (file : MappedFile) : TagStream :=
  ⟨fd, TagOffsetStore.new file, fun _ ↦ false, fun _ ↦ none, fun _ ↦ [], 0⟩

def maxRecordCount : ℕ := 128

def maxFDCount : ℕ := 16

variable (asserts : Bool) (s : TagStream) (fd : ℕ) (results : ℕ → ℤ)

/-- What is known of a descriptor is replaced. -/
def setData (data : FDData) : TagStream := { s with fds := Function.update s.fds fd (some data) }

@[simp] theorem setData_fds (data : FDData) : (s.setData fd data).fds fd = some data :=
  Function.update_self _ _ _

theorem setData_fds_of_ne {fd fd' : ℕ} (h : fd' ≠ fd) (data : FDData) :
    (s.setData fd' data).fds fd = s.fds fd :=
  Function.update_of_ne (Ne.symm h) _ _

/-- A record is for the descriptor. -/
def wants (data : FDData) (tag : TagType) : Bool :=
  (tag.fd.toInt = fd || data.subs.isSet tag.tagId) && s.streams tag.streamId

/-- An ephemeral record from before the descriptor was registered, by its offset. -/
def isOld (data : FDData) (tag : TagType) : Bool :=
  !tag.isPersistent && decide (tag.offset.toNat < data.startTagOffset)

/-- A round for a record that was read, which is the current one. An old one is not passed. -/
def first (w : TagWrite) : ℤ × TagWrite ⊕ TagWrite :=
  let t := w.data.currentTag
  if isOld w.data t then .inr w
  else if s.wants fd w.data t then
    let x := results w.calls.length
    let w := w.call results t.offset.toNat t.len.toNat
    if x < 0 then .inl (-1, w)
    else if x < t.len.toNat then .inl (1, w.partly x.toNat)
    else .inr w.next
  else .inr w.next

/-- A round of the loop of `StreamWrite`. -/
def round (w : TagWrite) : Option (ℤ × TagWrite ⊕ TagWrite) :=
  if w.data.written = 0 then
    (w.store.read w.data.currentOffset).bind fun r ↦
      match r.1 with
      | none => if asserts then none else some (.inl (-1, { w with store := r.2 }))
      | some tag => some (s.first fd results
          { w with data := { w.data with currentTag := tag }, store := r.2 })
  else some (w.resume results)

def streamWriteLoop (maxOffset : ℕ) : ℕ → TagWrite → Option (ℤ × TagWrite)
  | 0, _ => none
  | fuel + 1, w =>
    if w.count < maxFDCount ∧ w.data.currentOffset < maxOffset then
      (s.round asserts fd results w).bind fun r ↦
        match r with
        | .inl r => some r
        | .inr w => streamWriteLoop maxOffset fuel w
    else some (if w.data.currentOffset = maxOffset then 0 else 1, w)

/-- `StreamWrite`, for a number of rounds. -/
def streamWrite (rounds : ℕ) : Option (ℤ × TagWrite) :=
  (s.fds fd).bind fun data ↦
    s.streamWriteLoop asserts fd results s.offsetStore.totalAvailable rounds ⟨data, s.offsetStore,
      0, []⟩

/-- The stream behind a call of `StreamWrite`. -/
def written (w : TagWrite) : TagStream := { s.setData fd w.data with offsetStore := w.store }

/-- `Register`. -/
def register : ℤ × TagStream :=
  match s.fds fd with
  | some _ => (-1, s)
  | none => (0, s.setData fd ⟨TagSub.new, TagType.new, false, 0, 0, s.offsetStore.totalAvailable⟩)

/-- `RegisterStream`. The vector does not grow to `2⁶⁴` streams. -/
def registerStream (streamId : UInt64) : Option (ℤ × TagStream) :=
  if streamId.toNat + 1 = 2 ^ 64 then none
  else if s.streams streamId then some (-1, s)
  else some (0, { s with streams := Function.update s.streams streamId true })

/-- `Start`, up to the call of `set_write`. -/
def start (tagOffset : ℤ) : ℤ × TagStream :=
  match s.fds fd with
  | none => (-1, s)
  | some data => (0, s.setData fd
      { data with registered := true, currentOffset := CInt.toUnsigned 64 tagOffset })

/-- The size of a vector that grows by 16 until it has `n` elements. -/
def grown (size n : ℕ) : ℕ := size + 16 * ((n - size + 15) / 16)

/-- `Subscribe`. The number of elements is a 32-bit integer. -/
def subscribe (tag : UInt32) : Option TagStream :=
  let size := grown s.tag2fdSize (tag + 1).toNat
  if size ≤ tag.toNat then none
  else (s.fds fd).bind fun data ↦ (data.subs.set tag).map fun subs ↦
    let fds := if fd ∈ s.tag2fd tag then s.tag2fd tag else (s.tag2fd tag).orderedInsert (· ≤ ·) fd
    { s.setData fd { data with subs := subs } with
      tag2fd := Function.update s.tag2fd tag fds, tag2fdSize := size }

/-- `Queue`, up to the call of `set_write`. -/
def queue (tag : TagType) : TagStream :=
  { s with
    tag2fdSize := grown s.tag2fdSize (tag.tagId + 1).toNat
    offsetStore := (s.offsetStore.append tag).2 }

/-- The descriptor is registered, and was started. -/
def isStarted : Bool := (s.fds fd).any FDData.registered

/-- The loop of `Read`, with the record that was read last. Where the record names a descriptor, it
is the event descriptor that is woken. -/
def readLoop : ℕ → TagType → TagOffsetStore → Option (List Wake × TagOffsetStore)
  | 0, _, store => some ([], store)
  | n + 1, tag, store =>
    if store.isEmpty then some ([], store)
    else store.readNext.bind fun r ↦
      if asserts = true ∧ r.1 = none then none
      else
        let tag := r.1.getD tag
        if 0 < tag.fd then
          (readLoop n tag r.2).map fun q ↦ (⟨r.1, [s.fd]⟩ :: q.1, q.2)
        else if s.tag2fdSize ≤ tag.tagId.toNat then none
        else (readLoop n tag r.2).map fun q ↦
          (⟨r.1, (s.tag2fd tag.tagId).filter s.isStarted⟩ :: q.1, q.2)

/-- `Read` behind the read of the event descriptor. -/
def read : Option (List Wake × TagStream) :=
  (s.readLoop asserts maxRecordCount TagType.new s.offsetStore).map fun r ↦
    (r.1, { s with offsetStore := r.2 })

end TagStream

/-! ## The system -/

/-- A `TagStream` and its event descriptor: the counter, whether there is write interest, and
whether the event manager has the descriptor. -/
structure TagSystem where
  stream : TagStream
  counter : ℕ
  interest : Bool
  isOpen : Bool

/-- The values that the callbacks return are an argument of `streamWrite`. -/
inductive TagStreamOp where
  | register (fd : ℕ)
  | registerStream (streamId : UInt64)
  | start (fd : ℕ) (tagOffset : ℤ)
  | subscribe (fd : ℕ) (tag : UInt32)
  | queue (tag : TagType)
  | streamWrite (fd : ℕ) (results : ℕ → ℤ)
  | writeEvent
  | readEvent

/-- What a call returns, the calls of the callbacks of the streams, and the records that were taken
from the queue. -/
structure TagAnswer where
  ret : ℤ
  calls : List StreamCall
  wakes : List Wake

namespace TagSystem

/-- The system over a file. -/
def new (fd : ℕ) (file : MappedFile) : TagSystem := ⟨TagStream.new fd file, 0, false, true⟩

variable (asserts : Bool) (s : TagSystem)

/-- `set_write`, which has no effect on a descriptor that the event manager does not have. -/
def setWrite (fds : List ℕ) : TagSystem :=
  { s with interest := s.interest || (s.isOpen && fds.contains s.stream.fd) }

@[simp] theorem setWrite_stream (fds : List ℕ) : (s.setWrite fds).stream = s.stream := rfl

def ret (ret : ℤ) : Option TagAnswer := some ⟨ret, [], []⟩

/-- The `Write` event: the counter goes up, and there is no more interest. A counter that cannot go
up is an error, behind which the event manager drops the descriptor. -/
def writeEvent : TagSystem × Option TagAnswer :=
  let u := s.stream.offsetStore.totalAvailable
  if s.isOpen = false ∨ s.interest = false then (s, ret 0)
  else if s.counter + u < 2 ^ 64 - 1 then
    ({ s with counter := s.counter + u, interest := false }, ret 0)
  else if asserts then (s, none)
  else ({ s with interest := false, isOpen := false }, ret (-1))

/-- The `Read` event. There is none unless the counter is up. -/
def readEvent : TagSystem × Option TagAnswer :=
  if s.isOpen = false ∨ s.counter = 0 then (s, ret 0)
  else
    match s.stream.read asserts with
    | none => (s, none)
    | some r =>
      (({ s with stream := r.2, counter := 0 }.setWrite (r.1.flatMap Wake.fds)).setWrite
        (if r.2.offsetStore.isEmpty then [] else [s.stream.fd]), some ⟨0, [], r.1⟩)

/-- A step. There is no state after a call that does not return; a run is only followed up to
there. -/
def step (s : TagSystem) : TagStreamOp → TagSystem × Option TagAnswer
  | .register fd => ({ s with stream := (s.stream.register fd).2 }, ret (s.stream.register fd).1)
  | .registerStream streamId =>
    match s.stream.registerStream streamId with
    | none => (s, none)
    | some r => ({ s with stream := r.2 }, ret r.1)
  | .start fd tagOffset =>
    let r := s.stream.start fd tagOffset
    ({ s with stream := r.2 }.setWrite (if r.1 = 0 then [fd] else []), ret r.1)
  | .subscribe fd tag =>
    match s.stream.subscribe fd tag with
    | none => (s, none)
    | some stream => ({ s with stream := stream }, ret 0)
  | .queue tag => ({ s with stream := s.stream.queue tag }.setWrite [s.stream.fd], ret 0)
  | .streamWrite fd results =>
    match s.stream.streamWrite asserts fd results (TagStream.maxFDCount + 1) with
    | none => (s, none)
    | some r => ({ s with stream := s.stream.written fd r.2 }, some ⟨r.1, r.2.calls, []⟩)
  | .writeEvent => s.writeEvent asserts
  | .readEvent => s.readEvent asserts

end TagSystem

end Coypu
