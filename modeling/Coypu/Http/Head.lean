import Coypu.Buf.BipBuf
import Mathlib.Data.List.TakeWhile

/-!
# The head of a connection

A connection starts with an HTTP head: a request on a server, a response on a client. `HandleHTTP`
takes its lines out of the buffer as far as they have arrived. Which line is the first one it keeps
in a local variable, so every call takes the first line it finds for the request or response line.

Strings are byte lists here. A line ends with a line feed, and the byte before it is taken for a
carriage return without a look.
-/

set_option autoImplicit false

namespace Coypu

/-- The bytes of a string. -/
def ascii (s : String) : List UInt8 := s.toList.map Char.toUInt8

namespace WebSocket

/-! ## Constants -/

def cr : UInt8 := 0xD

def lf : UInt8 := 0xA

def space : UInt8 := 0x20

def colon : UInt8 := 0x3A

def maxHeaderSize : ℕ := 8 * 1024

def websocketGuid : List UInt8 := ascii "258EAFA5-E914-47DA-95CA-C5AB0DC85B11"

def headerSecWebsocketKey : List UInt8 := ascii "sec-websocket-key"

def headerSecWebsocketAccept : List UInt8 := ascii "sec-websocket-accept"

def headerSecWebsocketVersion : List UInt8 := ascii "sec-websocket-version"

def headerUpgrade : List UInt8 := ascii "upgrade"

def headerConnection : List UInt8 := ascii "connection"

def headerHost : List UInt8 := ascii "host"

def headerOrigin : List UInt8 := ascii "origin"

def headerServers : List UInt8 := ascii "server"

def wsVersion : List UInt8 := ascii "13"

def headerHttpNewline : List UInt8 := [cr, lf]

def headerServer : List UInt8 := ascii "HTTP/1.1 101 Switching Protocols" ++ headerHttpNewline

def headerServerUpgrade : List UInt8 := ascii "Upgrade: websocket" ++ headerHttpNewline

def headerServerConnection : List UInt8 := ascii "Connection: Upgrade" ++ headerHttpNewline

end WebSocket

open WebSocket

/-- What is known of the head so far. -/
structure Head where
  uri : List UInt8
  method : List UInt8
  version : List UInt8
  responsecode : List UInt8
  text : List UInt8
  headers : List (List UInt8 × List UInt8)
deriving DecidableEq

namespace Head

/-- Nothing is known. -/
def empty : Head := ⟨[], [], [], [], [], []⟩

variable (head : Head)

def hasHeader (hdr : List UInt8) : Bool := (head.headers.lookup hdr).isSome

def getHeader (hdr : List UInt8) : Option (List UInt8) := head.headers.lookup hdr

/-! ## One line -/

/-- `ToLower` of a byte. -/
def toLower (b : UInt8) : UInt8 := if 0x41 ≤ b ∧ b ≤ 0x5A then b + 0x20 else b

/-- What a `std::string` assigned from its own `c_str` keeps. -/
def cStr (l : List UInt8) : List UInt8 := l.takeWhile (· ≠ 0)

theorem zero_not_mem_cStr (l : List UInt8) : 0 ∉ cStr l := fun h ↦ by
  simpa using List.mem_takeWhile_imp h

theorem cStr_eq_self_iff {l : List UInt8} : cStr l = l ↔ 0 ∉ l := by
  constructor
  · intro h
    rw [← h]
    exact zero_not_mem_cStr l
  · intro h
    exact List.takeWhile_eq_self_iff.mpr fun _ hb ↦ decide_eq_true fun heq ↦ h (heq ▸ hb)

/-- `AddHeader` of a line without its line feed. A name that is there already keeps its value.
`none` is the value of a line that ends right behind the colon or the space: its length wraps, and
the bytes are read from behind the line. -/
def addHeader (header : List UInt8) : Option (Bool × Head) :=
  let i := header.findIdx (· = colon)
  if 0 < i ∧ i < header.length then
    let key := (header.take i).map toLower
    let skip := if header.getD (i + 1) 0 = space then 2 else 1
    if header.length < i + 1 + skip then none
    else
      let value := (header.drop (i + skip)).take (header.length - i - 1 - skip)
      if head.hasHeader key then some (false, head)
      else some (true, { head with headers := head.headers ++ [(key, value)] })
  else some (false, head)

/-- The three parts of a first line, split at its first two spaces. Where a space is missing its
position is `npos`: a part that ends there goes to the end of the line, and the part behind it is
the whole line. `none` if the line starts with a space. -/
def parts (raw : List UInt8) : Option (List UInt8 × List UInt8 × List UInt8) :=
  match raw.findIdx? (· = space) with
  | none => some (raw, raw, raw)
  | some a =>
    if a = 0 then none
    else
      match (raw.drop (a + 1)).findIdx? (· = space) with
      | none => some (raw.take a, raw.drop (a + 1), raw)
      | some n => some (raw.take a, (raw.drop (a + 1)).take n, raw.drop (a + 1 + n + 1))

/-- The request line on a server, the response line on a client. -/
def firstLine (server : Bool) (raw : List UInt8) : Head :=
  match parts raw with
  | none => head
  | some (a, b, c) =>
    if server then { head with method := cStr a, uri := cStr b, version := cStr c }
    else { head with version := cStr a, responsecode := cStr b, text := cStr c }

/-! ## The lines in the buffer -/

/-- The loop of `HandleHTTP`. `none` is an exception, for a first line of nothing but its line feed,
or a header without a value as in `addHeader`. Every round takes a byte at least, so as many rounds
as there are bytes, and one more, are enough. -/
def handleLoop (server : Bool) : ℕ → Bool → BipBuf .uint64 UInt8 → Head →
    Option (ℤ × BipBuf .uint64 UInt8 × Head)
  | 0, _, _, _ => none
  | fuel + 1, is_uri, httpBuf, head =>
    match (httpBuf.find lf).ret with
    | none => some (0, httpBuf, head)
    | some offset =>
      if offset = 1 then some (0, (httpBuf.pop (offset + 1) false).buf, head)
      else if maxHeaderSize - 1 ≤ offset then some (-3, httpBuf, head)
      else
        match (httpBuf.pop (offset + 1) false).ret with
        | none => some (-2, httpBuf, head)
        | some header =>
          if is_uri then
            if offset = 0 then none
            else handleLoop server fuel false (httpBuf.pop (offset + 1) false).buf
              (head.firstLine server (header.take (offset - 1)))
          else
            match head.addHeader (header.take offset) with
            | none => none
            | some (_, head') =>
              handleLoop server fuel false (httpBuf.pop (offset + 1) false).buf head'

/-- `HandleHTTP`: its result, the buffer it leaves, and the head as it is known then. -/
def handleHTTP (server : Bool) (httpBuf : BipBuf .uint64 UInt8) :
    Option (ℤ × BipBuf .uint64 UInt8 × Head) :=
  handleLoop server (httpBuf.available + 1) true httpBuf head

end Head

end Coypu
