import Coypu.Http.Head
import Coypu.Library.Bytes

/-!
# Frame headers

The header of an HTTP/2 frame has nine bytes: three of the length, the type, the flags, and four of
the stream identifier. `H2Header` lies over these bytes as they come, so that its `id` is the
identifier in the order of the host, which has the least significant byte first.
-/

set_option autoImplicit false

namespace Coypu

namespace Http2

/-- `PRI * HTTP/2.0`, an empty line, `SM` and an empty line. -/
def http2Hdr : List UInt8 := ascii "PRI * HTTP/2.0\r\n\r\nSM\r\n\r\n"

def http2InitSize : ℕ := 24

def http2FrameHdrSize : ℕ := 9

def http2HeaderBufSize : ℕ := 8192

def initialSettingsMaxFrameSize : ℕ := 16384

end Http2

inductive H2Flags where
  | endStream
  | endHeaders
  | padded
  | priority
deriving DecidableEq, Repr

def H2Flags.value : H2Flags → UInt8
  | endStream => 0x1
  | endHeaders => 0x4
  | padded => 0x8
  | priority => 0x20

inductive H2FrameType where
  | data
  | headers
  | priority
  | rstStream
  | settings
  | pushPromise
  | ping
  | goaway
  | windowUpdate
  | continuation
deriving DecidableEq, Repr

namespace H2FrameType

def value : H2FrameType → UInt8
  | data => 0x0
  | headers => 0x1
  | priority => 0x2
  | rstStream => 0x3
  | settings => 0x4
  | pushPromise => 0x5
  | ping => 0x6
  | goaway => 0x7
  | windowUpdate => 0x8
  | continuation => 0x9

end H2FrameType

/-- The packed header. The identifier is an integer of 32 bits. -/
structure H2Header where
  len : List UInt8
  type : UInt8
  flags : UInt8
  id : ℕ
deriving DecidableEq, Repr

namespace H2Header

/-- The constructor, and with type `0` what `Reset` leaves. -/
def new (inType : H2FrameType) : H2Header := ⟨[0, 0, 0], inType.value, 0, 0⟩

/-- The bytes of a header, read as they lie in memory. -/
def ofBytes (l : List UInt8) : H2Header :=
  ⟨l.take 3, l.getD 3 0, l.getD 4 0, Bytes.decode ((l.drop 5).take 4).reverse⟩

/-- The bytes of a header as they lie in memory. -/
def toBytes (hdr : H2Header) : List UInt8 :=
  hdr.len ++ [hdr.type, hdr.flags] ++ (Bytes.encode 4 hdr.id).reverse

def setLength (hdr : H2Header) (inlen : ℕ) : H2Header :=
  { hdr with len := Bytes.encode 3 inlen }

/-- The length of the payload. -/
def length (hdr : H2Header) : ℕ := Bytes.decode hdr.len

/-- `id &= ~(1UL << 31)`. -/
def clearBit (hdr : H2Header) : H2Header := { hdr with id := hdr.id &&& (2 ^ 31 - 1) }

end H2Header

end Coypu
