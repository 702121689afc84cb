import Coypu.Library.Bytes
import Coypu.Library.Run
import Coypu.Protobuf.BufStream
import Mathlib.Logic.Function.Basic

/-!
# The proto socket

`ProtoManager` takes requests from its connections, each behind a byte that says whether it is
compressed and its length, and hands them to the callback. A `Read` takes at most one header and one
message. The message that requests are decoded into is a member of the manager.

protobuf and the callback are parameters (`ProtoLib`). `none` stands for a call that does not
return: an assertion fails, or memory is touched that must not be.
-/

set_option autoImplicit false

namespace Coypu

open Transport ZeroCopy

/-! ## A connection -/

/-- What the manager is given: the decoder of a message of some length, which merges it into a
request, and the callback, which may write to the request. -/
structure ProtoLib (Req : Type) where
  asserts : Bool
  mergeFrom : Req → ℕ → Program (Req × Bool)
  cb : Option (ℕ → Req → Req)

/-- A call of the callback: the descriptor and the request, and what the request was before a
message was merged into it. -/
structure Dispatch (Req : Type) where
  fd : ℕ
  target : Req
  request : Req

/-- What `Read` uses of a connection: its read buffer, and the length of the message whose header
was read, or `0`. -/
structure ProtoConnection where
  readBuf : BipBuf .int UInt8
  gSize : ℕ

namespace ProtoConnection

/-- The capacity of the buffers. -/
def capacity : Capacity .int := ⟨64 * 1024, by decide, by decide⟩

def new : ProtoConnection := ⟨BipBuf.new (fun _ ↦ 0) capacity, 0⟩

variable {Req : Type} (lib : ProtoLib Req) (fd : ℕ) (con : ProtoConnection) (request : Req)

/-- The connection behind the call of `Readv`. -/
def receive (cb : Reader UInt8) : ProtoConnection :=
  { con with readBuf := (con.readBuf.readv cb).buf }

/-- The first branch: the header is taken out of the buffer, where there is none. A `Pop` that fails
leaves a zero. -/
def takeHeader : Option ProtoConnection :=
  if con.gSize = 0 then
    let o := con.readBuf.pop 1 false
    if lib.asserts = true ∧ (o.ret.getD [0]).headD 0 ≠ 0 then none
    else
      let p := o.buf.pop 4 false
      some ⟨p.buf, Bytes.decode (p.ret.getD [0, 0, 0, 0])⟩
  else some con

/-- The second branch: a message is decoded, and handed to the callback. -/
def dispatch : Option (List (Dispatch Req) × ProtoConnection × Req) :=
  ((lib.mergeFrom request con.gSize).run BufZeroCopyInputStream.source ⟨con.readBuf, 0⟩).bind
    fun r ↦ if lib.asserts = true ∧ r.1.2 = false then none
    else
      match lib.cb with
      | none => some ([], ⟨r.2.buf, 0⟩, r.1.1)
      | some cb => some ([⟨fd, request, r.1.1⟩], ⟨r.2.buf, 0⟩, cb fd r.1.1)

/-- `Read` behind the call of `Readv`: the calls of the callback, the connection and the request. -/
def process : Option (List (Dispatch Req) × ProtoConnection × Req) :=
  if 4 ≤ con.readBuf.available then
    (con.takeHeader lib).bind fun con ↦
      if 0 < con.gSize ∧ con.gSize ≤ con.readBuf.available then con.dispatch lib fd request
      else some ([], con, request)
  else some ([], con, request)

end ProtoConnection

/-! ## The manager -/

/-- The manager: its connections by descriptor, and its request. -/
structure ProtoManager (Req : Type) where
  connections : ℕ → Option ProtoConnection
  request : Req

inductive ProtoOp where
  | register (fd : ℕ)
  | unregister (fd : ℕ)
  | read (fd : ℕ) (cb : Reader UInt8)

namespace ProtoManager

variable {Req : Type} (lib : ProtoLib Req) (m : ProtoManager Req)

/-- The constructor, with an empty request. -/
def new (request : Req) : ProtoManager Req := ⟨fun _ ↦ none, request⟩

/-- The connection of a descriptor is replaced. -/
def set (fd : ℕ) (con : Option ProtoConnection) : ProtoManager Req :=
  { m with connections := Function.update m.connections fd con }

/-- `Read` of a connection: what it returns, the calls of the callback, and the manager. -/
def read (fd : ℕ) (cb : Reader UInt8) (con : ProtoConnection) :
    Option ((ℤ × List (Dispatch Req)) × ProtoManager Req) :=
  ((con.receive cb).process lib fd m.request).map fun r ↦
    (((con.readBuf.readv cb).ret, r.1), { m.set fd (some r.2.1) with request := r.2.2 })

/-- A step: what it returns, and the calls of the callback. A connection that is registered twice is
kept. There is no state after a call that does not return; a run is only followed up to there. -/
def step : ProtoOp → ProtoManager Req × Option (ℤ × List (Dispatch Req))
  | .register fd =>
    match m.connections fd with
    | none => (m.set fd (some .new), some (1, []))
    | some _ => (m, some (0, []))
  | .unregister fd =>
    match m.connections fd with
    | none => (m, some (-1, []))
    | some _ => (m.set fd none, some (0, []))
  | .read fd cb =>
    match m.connections fd with
    | none => (m, some (-1, []))
    | some con =>
      match m.read lib fd cb con with
      | none => (m, none)
      | some r => (r.2, some r.1)

end ProtoManager

end Coypu
