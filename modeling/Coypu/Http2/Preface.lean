import Coypu.Buf.Fill
import Coypu.Http2.Manager
import Coypu.Library.Delimited

/-!
# What arrives on a connection

The first bytes of a connection are the preface. What is behind it goes to the stream, first from
the buffer that the preface was in, then from the descriptor, so that the stream has all of it
(`AtFrame`). A connection with another preface is refused, and nothing is said about it then.
-/

set_option autoImplicit false

namespace Coypu

open FlatMemory Http2 Transport

namespace BipBuf

variable {T : CapacityType} {α : Type} {b : BipBuf T α} {l : List α}

theorem Rep.popAll_refused {σ : Type*} (h : b.Rep l) (hne : l ≠ [])
    (hend : b.tail + l.length ≤ b.capacity)
    {cb : σ → List α → Bool × σ} {s : σ} (hcb : (cb s l).1 = false) :
    (b.popAll cb s l.length).ret = (false, (cb s l).2) := by
  rw [h.popAll_ret hne, List.take_of_length_le (by omega), if_neg (by simp [hcb])]
  exact Prod.ext hcb rfl

theorem Rep.pop_tail (h : b.Rep l) (htail : b.tail = 0) {n : ℕ} (hpos : 0 < n) (hn : n ≤ l.length)
    (hlt : n < b.capacity) : (b.pop n false).buf.tail = n := by
  rw [pop_eq (by rw [h.available_eq]; omega) (by omega), advance_tail, BipBuf.afterFirst, firstPart]
  split_ifs with hwraps
  · rw [clearFull_tail, wrapTail_tail, advance_tail, advance_capacity, htail, if_neg (by omega)]
    omega
  · rw [clearFull_tail, htail]
    omega

end BipBuf

/-- HTTP/2 frames: a header of nine bytes, and what it gives the length of. -/
def Http2.frameFormat : Delimited.Format UInt8 :=
  ⟨http2FrameHdrSize, fun l ↦ (H2Header.ofBytes l).length⟩

namespace H2Connection

/-- The bytes that `Read` gets. -/
def delivered (con : H2Connection) (cb : Reader UInt8) : List UInt8 :=
  if con.state = .readFrameHeader ∨ con.state = .readFrame then (cb.run [con.stream.log.room]).bytes
  else con.httpBuf.delivered cb

/-- Less than a preface has arrived. -/
structure Connecting (arrived : List UInt8) (con : H2Connection) : Prop where
  state_eq : con.state = .connecting
  length_lt : arrived.length < http2InitSize
  rep : con.httpBuf.Rep arrived
  tail_eq : con.httpBuf.tail = 0
  capacity_eq : con.httpBuf.capacity = capacity.val
  stream_eq : con.stream = PositionedLog.createAnonStore 128
  frameCount_eq : con.frameCount = 0

/-- The stream has received `l`, and is at the header or at the payload of a frame. -/
structure AtFrame (l : List UInt8) (con : H2Connection) : Prop where
  received_eq : con.stream.received = l
  ahead : ∃ k, con.stream.Ahead k
  position : (con.state = .readFrameHeader ∧
    con.stream.curOffset = frameFormat.start l con.frameCount) ∨
    (con.state = .readFrame ∧
      con.stream.curOffset = frameFormat.start l con.frameCount + http2FrameHdrSize ∧
      con.hdr = (H2Header.ofBytes
        (frameFormat.header l (frameFormat.start l con.frameCount))).clearBit)

/-- What arrived first is another preface. -/
def Refused (arrived : List UInt8) : Prop := http2InitSize ≤ arrived.length ∧ ¬http2Hdr <+: arrived

/-- Where a connection stands. -/
def Framed (arrived : List UInt8) (con : H2Connection) : Prop :=
  con.Connecting arrived ∨ http2Hdr <+: arrived ∧ con.AtFrame (arrived.drop http2InitSize) ∨
    Refused arrived

theorem length_http2Hdr : http2Hdr.length = http2InitSize := by decide

theorem Refused.append {arrived : List UInt8} (h : Refused arrived) (l : List UInt8) :
    Refused (arrived ++ l) := by
  obtain ⟨hlen, hne⟩ := h
  refine ⟨by rw [List.length_append]; omega, fun hpre ↦ hne ?_⟩
  exact List.prefix_of_prefix_length_le hpre (List.prefix_append _ _) (by rwa [length_http2Hdr])

theorem framed_new : (H2Connection.new (PositionedLog.createAnonStore 128)).Framed [] :=
  Or.inl ⟨rfl, by decide, BipBuf.rep_new _ _, rfl, rfl, rfl, rfl⟩

variable {con : H2Connection} {arrived l : List UInt8}

theorem AtFrame.start_le (h : con.AtFrame l) : frameFormat.start l con.frameCount ≤ l.length := by
  obtain ⟨k, hahead⟩ := h.ahead
  have hoffset := hahead.offset_eq
  have hlen := PositionedLog.length_received con.stream
  rw [h.received_eq] at hlen
  rcases h.position with ⟨-, hpos⟩ | ⟨-, hpos, -⟩ <;> omega

/-- There are fewer frames than `2³²`. -/
theorem AtFrame.frameCount_lt (h : con.AtFrame l) : con.frameCount + 1 < 2 ^ 32 := by
  obtain ⟨k, hahead⟩ := h.ahead
  have havail := hahead.available_lt
  have hlen := PositionedLog.length_received con.stream
  have hstart := h.start_le
  have hmul : con.frameCount * frameFormat.headerSize ≤ frameFormat.start l con.frameCount :=
    Delimited.Format.mul_le_start con.frameCount
  have hsize : frameFormat.headerSize = 9 := rfl
  rw [h.received_eq] at hlen
  rw [PositionedLog.anonPageSize_eq] at havail
  rw [hsize] at hmul
  omega

theorem AtFrame.arrive (h : con.AtFrame l) {stream : AnonStreamType} {k : List UInt8}
    (hahead : ∃ l, stream.Ahead l) (hreceived : stream.received = con.stream.received ++ k)
    (hoffset : stream.curOffset = con.stream.curOffset) :
    AtFrame (l ++ k) { con with stream := stream } := by
  have hstart := Delimited.Format.start_append h.start_le k
  refine ⟨by rw [hreceived, h.received_eq], hahead, ?_⟩
  simp only [hoffset, hstart]
  rcases h.position with ⟨hstate, hpos⟩ | ⟨hstate, hpos, hhdr⟩
  · exact Or.inl ⟨hstate, hpos⟩
  · refine Or.inr ⟨hstate, hpos, ?_⟩
    obtain ⟨l', hahead'⟩ := h.ahead
    have hend := hahead'.offset_eq
    have hlen := PositionedLog.length_received con.stream
    rw [h.received_eq] at hlen
    have hsize : frameFormat.headerSize = http2FrameHdrSize := rfl
    rw [Delimited.Format.header_append (by omega)]
    exact hhdr

/-- Fewer than `2³²` bytes fit, and one more. -/
theorem pagesFit_of_lt {n : ℕ} (h : n < 2 ^ 32) : PagesFit PositionedLog.anonPageSize (n + 1) :=
  Nat.lt_of_le_of_lt (Nat.div_mul_le_self _ _) h

theorem AtFrame.receive (h : con.AtFrame l) (cb : Reader UInt8)
    (hfits : con.stream.log.available < 2 ^ 32) :
    AtFrame (l ++ con.delivered cb) (con.receive cb).2 := by
  obtain ⟨k, hahead⟩ := h.ahead
  obtain ⟨-, hahead', hreceived⟩ := hahead.readv cb (by
    rw [hahead.pageSize_eq]
    exact pagesFit_of_lt hfits)
  have hstate : con.state = .readFrameHeader ∨ con.state = .readFrame :=
    h.position.imp And.left And.left
  have hconnecting : ¬con.state = .connecting := by
    rcases hstate with hstate | hstate <;> rw [hstate] <;> decide
  have heq : (con.receive cb).2 = { con with stream := (con.stream.readv cb).2 } := by
    rw [H2Connection.receive]
    simp only [if_pos hstate, if_neg hconnecting]
    split_ifs <;> rfl
  rw [heq, delivered, if_pos hstate]
  exact h.arrive ⟨_, hahead'⟩ hreceived rfl

/-- What a call leaves that has taken the preface: the stream has what is behind it. -/
structure Passed (l : List UInt8) (ret : ℤ) (con : H2Connection) : Prop where
  preface : http2Hdr <+: l
  ret_eq : ret = 0
  state_eq : con.state = .readFrameHeader
  received_eq : con.stream.received = l.drop http2InitSize
  ahead : ∃ k, con.stream.Ahead k
  curOffset_eq : con.stream.curOffset = 0
  frameCount_eq : con.frameCount = 0

theorem Passed.framed {ret : ℤ} (h : Passed l ret con) : con.Framed l :=
  Or.inr (Or.inl ⟨h.preface, h.received_eq, h.ahead, Or.inl ⟨h.state_eq, by
    rw [h.curOffset_eq, h.frameCount_eq]
    rfl⟩⟩)

theorem processConnecting_cases (hstate : con.state = .connecting) (hrep : con.httpBuf.Rep l)
    (htail : con.httpBuf.tail = 0) (hcap : con.httpBuf.capacity = capacity.val)
    (hstream : con.stream = PositionedLog.createAnonStore 128) (hcount : con.frameCount = 0) :
    con.processConnecting.2.Connecting l ∨
      Passed l con.processConnecting.1 con.processConnecting.2 ∨
      Refused l ∧ con.processConnecting.1 < 0 ∧
        con.processConnecting.2.stream = PositionedLog.createAnonStore 128 := by
  have hsize : http2InitSize = 24 := rfl
  have hcapacity : con.httpBuf.capacity = 32768 := hcap
  have hfresh : (PositionedLog.createAnonStore 128).Ahead [] := PositionedLog.ahead_createAnonStore
  rw [H2Connection.processConnecting, hrep.available_eq]
  split_ifs with hlen
  · have hpop := BipBuf.pop_refines hrep http2InitSize
    have hpos : 0 < http2InitSize ∧ http2InitSize ≤ l.length := ⟨by decide, hlen⟩
    have hpoptail := hrep.pop_tail htail hpos.1 hlen (by omega)
    have hret := hpop.ret_eq
    have hrest := hpop.rep
    have hpopcap := hpop.capacity_eq
    rw [if_pos hpos] at hret hrest
    generalize con.httpBuf.pop http2InitSize false = o at hret hrest hpopcap hpoptail
    simp only [hret]
    by_cases hpreface : l.take http2InitSize = http2Hdr
    · have hpre : http2Hdr <+: l := hpreface ▸ List.take_prefix _ _
      rw [if_neg (by rw [hpreface]; exact fun hne ↦ hne rfl)]
      refine Or.inr (Or.inl ?_)
      rw [hrest.available_eq]
      -- what lies behind the preface goes to the stream in one piece, if there is any
      by_cases hempty : l.drop http2InitSize = []
      · rw [hempty, List.length_nil]
        simp only [BipBuf.popAll, Nat.not_lt_zero, if_false, if_true, hstream]
        exact ⟨hpre, rfl, rfl, hempty.symm, ⟨_, hfresh⟩, rfl, hcount⟩
      · have hend := hrest.length_le
        have hbound := hrep.length_le
        have hdrop : (l.drop http2InitSize).length = l.length - http2InitSize := List.length_drop
        obtain ⟨hret₀, -, -⟩ := hfresh.writable.push (l.drop http2InitSize)
        rw [hrest.popAll_refused hempty (by omega) (by
          rw [hstream]
          exact decide_eq_false (not_not.mpr hret₀))]
        obtain ⟨hahead, hreceived⟩ := hfresh.push (k := l.drop http2InitSize) (by
          rw [hfresh.pageSize_eq, ← hfresh.offset_eq]
          refine Nat.lt_of_le_of_lt (Nat.div_mul_le_self _ _) ?_
          rw [List.length_nil, hdrop]
          show 0 + 0 + (l.length - http2InitSize) - 1 < 2 ^ 32
          omega)
        simp only [hstream]
        exact ⟨hpre, rfl, rfl, hreceived, ⟨_, hahead⟩, rfl, hcount⟩
    · rw [if_pos hpreface]
      refine Or.inr (Or.inr ⟨⟨hlen, fun hpre ↦ hpreface ?_⟩, Int.negSucc_lt_zero 1, hstream⟩)
      have hhdr := List.prefix_iff_eq_take.mp hpre
      rw [length_http2Hdr] at hhdr
      exact hhdr.symm
  · exact Or.inl ⟨hstate, Nat.not_le.mp hlen, hrep, htail, hcap, hstream, hcount⟩

theorem Connecting.receive_cases (h : con.Connecting arrived) (cb : Reader UInt8) :
    (con.receive cb).2.Connecting (arrived ++ con.delivered cb) ∨
      Passed (arrived ++ con.delivered cb) (con.receive cb).1 (con.receive cb).2 ∨
        Refused (arrived ++ con.delivered cb) ∧ (con.receive cb).1 < 0 ∧
          (con.receive cb).2.stream = PositionedLog.createAnonStore 128 := by
  have hcap : con.httpBuf.capacity = 32768 := h.capacity_eq
  have hrep := BipBuf.readv_rep h.rep (by omega) cb
  have hframe : ¬(con.state = .readFrameHeader ∨ con.state = .readFrame) := by
    rw [h.state_eq]
    decide
  rw [H2Connection.receive, delivered, if_neg hframe]
  simp only [if_neg hframe]
  have htail := (BipBuf.readv_tail (b := con.httpBuf) cb).trans h.tail_eq
  have hcap' := (BipBuf.readv_capacity (b := con.httpBuf) cb).trans h.capacity_eq
  split_ifs with hneg hstate
  · have hnone := BipBuf.delivered_of_nonpos (Int.le_of_lt hneg)
    rw [hnone, List.append_nil] at hrep ⊢
    exact Or.inl ⟨h.state_eq, h.length_lt, hrep, htail, hcap', h.stream_eq, h.frameCount_eq⟩
  · exact processConnecting_cases h.state_eq hrep htail hcap' h.stream_eq h.frameCount_eq
  · exact absurd h.state_eq hstate

/-- **What arrives behind the preface** is in the stream. -/
theorem Framed.receive (h : con.Framed arrived) (cb : Reader UInt8)
    (hfits : http2Hdr <+: arrived → con.state = .readFrameHeader ∨ con.state = .readFrame →
      con.stream.log.available < 2 ^ 32) :
    (con.receive cb).2.Framed (arrived ++ con.delivered cb) := by
  rcases h with h | ⟨hpre, h⟩ | h
  · rcases h.receive_cases cb with hafter | hafter | ⟨hrefused, -⟩
    · exact Or.inl hafter
    · exact hafter.framed
    · exact Or.inr (Or.inr hrefused)
  · have hlen : http2InitSize ≤ arrived.length := by
      rw [← length_http2Hdr]
      exact hpre.length_le
    refine Or.inr (Or.inl ⟨hpre.trans (List.prefix_append _ _), ?_⟩)
    rw [List.drop_append_of_le_length hlen]
    exact h.receive cb (hfits hpre (h.position.imp And.left And.left))
  · exact Or.inr (Or.inr (h.append _))

end H2Connection

end Coypu
