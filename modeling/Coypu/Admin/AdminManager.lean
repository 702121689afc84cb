import Coypu.Buf.SocketFed
import Coypu.Http.Head
import Coypu.Util.StringUtil

/-!
# The admin socket

`AdminManager` as the code has it: the connections with the buffers they are read into, and the
callbacks of the commands. `Read` is called when a descriptor is ready. It fills the buffer and
takes the first line out of it, if there is one, splits it at its spaces, and calls the callback of
the first part with the parts.

A callback is not run here: which one is called, and with what, is the result. Nothing is ever put
into the buffer for writing, and it is left out.
-/

set_option autoImplicit false

namespace Coypu

open Transport WebSocket

structure AdminManager (κ : Type*) where
  /-- The read buffer of each connection. -/
  connections : ℤ → Option (BipBuf .uint64 UInt8)
  commands : List (List UInt8 × κ)

namespace AdminManager

/-- The parts of a line, and the callback that got them. Without one there is a warning that the
command is unknown. -/
structure Dispatch (κ : Type*) where
  cmd : List (List UInt8)
  callback : Option κ
deriving DecidableEq

variable {κ : Type*}

theorem bufCapacity_pos : 0 < 64 * 1024 := by decide

/-- `_capacity`. -/
def bufCapacity : Capacity .uint64 := ⟨64 * 1024, bufCapacity_pos, by decide⟩

/-- The size of the array a line is taken into. -/
def lineSize : ℕ := 1024 * 32

def new : AdminManager κ := ⟨fun _ ↦ none, []⟩

variable (m : AdminManager κ) (fd : ℤ)

def setConnection (con : Option (BipBuf .uint64 UInt8)) : AdminManager κ :=
  { m with connections := Function.update m.connections fd con }

@[simp] theorem setConnection_self (con : Option (BipBuf .uint64 UInt8)) :
    (m.setConnection fd con).connections fd = con :=
  Function.update_self ..

@[simp] theorem setConnection_of_ne {fd' : ℤ} (h : fd' ≠ fd) (con : Option (BipBuf .uint64 UInt8)) :
    (m.setConnection fd con).connections fd' = m.connections fd' :=
  Function.update_of_ne h ..

/-- `Register`. What a new array holds is `data`. -/
def register (data : ℕ → UInt8) : Bool × AdminManager κ :=
  match m.connections fd with
  | none => (true, m.setConnection fd (some (BipBuf.new data bufCapacity)))
  | some _ => (false, m)

def unregister : ℤ × AdminManager κ :=
  match m.connections fd with
  | none => (-1, m)
  | some _ => (0, m.setConnection fd none)

/-- `RegisterCommand`. A command keeps its first callback. -/
def registerCommand (name : List UInt8) (cb : κ) : Bool × AdminManager κ :=
  match m.commands.lookup name with
  | none => (true, { m with commands := m.commands ++ [(name, cb)] })
  | some _ => (false, m)

/-- What `Read` does with the parts of a line. -/
def dispatch : List (List UInt8) → Option (Dispatch κ)
  | [] => none
  | name :: args => some ⟨name :: args, m.commands.lookup name⟩

/-- What `Read` returns, what it dispatched, and the manager it leaves. -/
structure ReadOutcome (κ : Type*) where
  ret : ℤ
  dispatched : Option (Dispatch κ)
  manager : AdminManager κ

def read (cb : Reader UInt8) : ReadOutcome κ :=
  match m.connections fd with
  | none => ⟨-1, none, m⟩
  | some readBuf =>
    let r := (readBuf.readv cb).ret
    let found := (readBuf.readv cb).buf.find lf
    match found.ret with
    | none => ⟨r, none, m.setConnection fd (some found.buf)⟩
    | some offset =>
      if lineSize < offset + 1 then ⟨-1, none, m.setConnection fd (some found.buf)⟩
      else
        let popped := found.buf.pop (offset + 1) false
        match popped.ret with
        | none => ⟨r, none, m.setConnection fd (some popped.buf)⟩
        | some buf =>
          -- the array is taken for a string that ends with its first zero
          let s := StringUtil.trim (Head.cStr (buf.set offset 0))
          ⟨r, m.dispatch (StringUtil.split s space), m.setConnection fd (some popped.buf)⟩

end AdminManager

end Coypu
