import Coypu.Buf.Mixed
import Coypu.Http.Frame

/-!
# Queueing a frame whole

`WriteFrame` looks for room once, in front of up to four pushes whose results nobody looks at. It
adds four bytes to the header and the payload for a connection that sends no key, and none for a
connection that sends one, which is the wrong way round. A server gets more room than it needs. A
client may find room for all but the last bytes of its frame: what it pushes then is not a frame,
and `Queue` returns `true`.

The length is any number of 64 bits here; the sum may go around.
-/

set_option autoImplicit false

namespace Coypu

open FlatMemory WebSocket

namespace WebSocket

/-- The bytes of a header and a payload. -/
def frameLen (len : ℕ) : ℕ := 2 + (extension len).length + len

/-- The room that `WriteFrame` looks for. -/
def asked (len : ℕ) (masked : Bool) : ℕ := (frameLen len + if masked then 0 else 4) % 2 ^ 64

/-- The bytes of a whole frame. -/
def needed (len : ℕ) (masked : Bool) : ℕ := frameLen len + if masked then wsMaskLen else 0

theorem writeFrame_asked {b : BipBuf .uint64 UInt8} (code : WSOPCode) (masked : Bool) (len : ℕ)
    (hfree : b.free < 2 ^ 32) :
    writeFrame b code masked len = if b.free < asked len masked then (false, b)
      else (true, (b.pushList (header code masked len)).pushList (extension len)) := by
  unfold writeFrame asked frameLen extension header shortLen
  simp only [FrameSink.free, FrameSink.push, Nat.mod_eq_of_lt hfree]
  by_cases h₁ : len ≤ 125
  · simp only [if_pos h₁, List.length_nil, Nat.add_zero, BipBuf.pushList_nil]
  · by_cases h₂ : len < 2 ^ 16 - 1
    · simp only [if_neg h₁, if_pos h₂, Bytes.length_encode]
    · simp only [if_neg h₁, if_neg h₂, Bytes.length_encode]

end WebSocket

namespace BipBuf

variable {b : BipBuf .uint64 UInt8}

theorem Wf.pushList (h : b.Wf) (l : List UInt8) :
    (b.pushList l).Wf ∧ (b.pushList l).capacity = b.capacity := by
  have hkeeping := (pushBlock_refines h.rep h.bounded (fun i ↦ l.getD i 0) l.length).keeping h
  exact ⟨hkeeping.wf, hkeeping.capacity_eq⟩

theorem Wf.pushMask (h : b.Wf) (mask data : List UInt8) :
    (pushMask mask b data).Wf ∧ (pushMask mask b data).capacity = b.capacity := by
  rw [WebSocket.pushMask]
  generalize Bytes.xorMask mask 0 data = l
  induction l generalizing b with
  | nil => exact ⟨h, rfl⟩
  | cons x l ih =>
    have hkeeping := (push_refines h.rep h.bounded x).keeping h
    obtain ⟨hwf, hcap⟩ := ih hkeeping.wf
    exact ⟨hwf, hcap.trans hkeeping.capacity_eq⟩

end BipBuf

namespace Con

variable {cacheSize : ℕ} {con : Con cacheSize} {code : WSOPCode} {data : List UInt8}

/-- `Queue` returns `true` with the whole frame in the write buffer, or `false` with the buffer as
it was. -/
def QueuesWhole (con : Con cacheSize) (code : WSOPCode) (data : List UInt8) : Prop :=
  if (con.queue code data).1 = true then
    (con.queue code data).2.writeBuf.contents = con.writeBuf.contents ++ con.wire code data
  else (con.queue code data).2.writeBuf = con.writeBuf

theorem length_wire (hmask : con.mask.length = wsMaskLen) :
    (con.wire code data).length = needed data.length con.masked := by
  rw [wire, needed, frameLen]
  cases con.masked
  · simp [header]
    omega
  · simp [header, hmask]
    omega

theorem queue_of_asked (hsends : con.Sends) (hcap : con.writeBuf.capacity < 2 ^ 32) :
    con.queue code data = if con.writeBuf.free < asked data.length con.masked then (false, con)
      else (true, { con with writeBuf := con.pushPayload ((con.writeBuf.pushList
        (header code con.masked data.length)).pushList
          (extension data.length)) data }.call .setWrite) := by
  have hfree : con.writeBuf.free < 2 ^ 32 := Nat.lt_of_le_of_lt (Nat.sub_le _ _) hcap
  unfold Sends at hsends
  rw [queue, if_pos hsends, writeFrame_asked code con.masked data.length hfree]
  split_ifs
  · rfl
  · rfl

/-- A frame that fits is queued whole if `WriteFrame` finds the room that it looks for. -/
theorem queue_of_fits {c : Con cacheSize} (h : c.writeBuf.Wf) (hcap : c.writeBuf.capacity < 2 ^ 32)
    (hmask : c.mask.length = wsMaskLen) (hsends : c.Sends) (code : WSOPCode) (data : List UInt8)
    (hfits : needed data.length c.masked ≤ c.writeBuf.free) :
    (HasRoom c.writeBuf.free data.length c.masked → (c.queue code data).1 = true ∧
      (c.queue code data).2.writeBuf.contents = c.writeBuf.contents ++ c.wire code data ∧
      (c.queue code data).2.state = c.state) ∧
    (¬HasRoom c.writeBuf.free data.length c.masked → c.queue code data = (false, c)) := by
  have hfree : c.writeBuf.free = c.writeBuf.capacity - c.writeBuf.contents.length := h.rep.free_eq
  have hlen := h.rep.length_le
  refine ⟨fun hroom ↦ ?_, fun hroom ↦ ?_⟩
  · obtain ⟨hret, hbuf, hcon⟩ := queue_of_room code hsends h.buffers hcap hroom fun _ ↦ by
      rw [length_wire hmask]
      omega
    exact ⟨hret, hbuf.rep.contents_eq, by rw [hcon]⟩
  · refine queue_of_no_room (Nat.lt_of_le_of_lt (Nat.sub_le _ _) hcap) ?_ (Or.inr hroom)
    unfold needed frameLen at hfits
    omega

theorem length_pushed_le (h : con.writeBuf.Wf) (hdr ext data : List UInt8) :
    (con.pushPayload ((con.writeBuf.pushList hdr).pushList ext) data).contents.length
    ≤ con.writeBuf.capacity := by
  obtain ⟨hwf, hcap⟩ := h.pushList hdr
  obtain ⟨hwf', hcap'⟩ := hwf.pushList ext
  rw [← hcap, ← hcap', pushPayload]
  split_ifs
  · obtain ⟨hkey, hkeycap⟩ := hwf'.pushList con.mask
    obtain ⟨hlast, hlastcap⟩ := hkey.pushMask con.mask data
    rw [← hkeycap, ← hlastcap]
    exact hlast.rep.length_le
  · obtain ⟨hlast, hlastcap⟩ := hwf'.pushList data
    rw [← hlastcap]
    exact hlast.rep.length_le

variable (code) in
/-- A frame that `WriteFrame` finds room for and that does not fit is cut, and `Queue` returns
`true`. -/
theorem not_queuesWhole (h : con.writeBuf.Wf) (hcap : con.writeBuf.capacity < 2 ^ 32)
    (hmask : con.mask.length = wsMaskLen) (hsends : con.Sends)
    (hask : asked data.length con.masked ≤ con.writeBuf.free)
    (hfits : con.writeBuf.free < needed data.length con.masked) :
    (con.queue code data).1 = true ∧ ¬con.QueuesWhole code data := by
  have hfree : con.writeBuf.free = con.writeBuf.capacity - con.writeBuf.contents.length :=
    h.rep.free_eq
  have hpushed := length_pushed_le h (header code con.masked data.length)
    (extension data.length) data
  rw [QueuesWhole, queue_of_asked hsends hcap, if_neg (Nat.not_lt.mpr hask), if_pos rfl]
  refine ⟨rfl, fun heq ↦ ?_⟩
  -- the whole frame would not fit into the buffer
  have hsum := congrArg List.length heq
  rw [List.length_append, length_wire hmask] at hsum
  simp only [call] at hsum
  omega

/-- **Where `Queue` is all or nothing.** It leaves a whole frame or the buffer as it was exactly if
the connection is not open, or `WriteFrame` does not find the room that it looks for, or there is
room for the whole frame. -/
theorem queuesWhole_iff (h : con.writeBuf.Wf) (hcap : con.writeBuf.capacity < 2 ^ 32)
    (hmask : con.mask.length = wsMaskLen) :
    con.QueuesWhole code data ↔
      (con.Sends → con.writeBuf.free < asked data.length con.masked ∨
        needed data.length con.masked ≤ con.writeBuf.free) := by
  have hfree : con.writeBuf.free = con.writeBuf.capacity - con.writeBuf.contents.length :=
    h.rep.free_eq
  have hlen := h.rep.length_le
  by_cases hsends : con.Sends
  · by_cases hask : con.writeBuf.free < asked data.length con.masked
    · rw [QueuesWhole, queue_of_asked hsends hcap, if_pos hask]
      exact iff_of_true rfl fun _ ↦ Or.inl hask
    by_cases hfits : needed data.length con.masked ≤ con.writeBuf.free
    · -- the sum of `WriteFrame` does not go around for a frame that fits
      have hroom : HasRoom con.writeBuf.free data.length con.masked := by
        unfold needed at hfits
        unfold asked at hask
        rw [Nat.mod_eq_of_lt (by split_ifs <;> omega)] at hask
        exact Nat.le_of_not_lt hask
      obtain ⟨hret, hcontents, -⟩ := (queue_of_fits h hcap hmask hsends code data hfits).1 hroom
      rw [QueuesWhole, if_pos hret]
      exact iff_of_true hcontents fun _ ↦ Or.inr hfits
    · obtain ⟨-, hcut⟩ := not_queuesWhole code h hcap hmask hsends (Nat.le_of_not_lt hask)
        (Nat.lt_of_not_le hfits)
      exact iff_of_false hcut fun hcond ↦ (hcond hsends).elim hask hfits
  · have hqueue : con.queue code data = (false, con) := by
      unfold Sends at hsends
      rw [queue, if_neg hsends]
    rw [QueuesWhole, hqueue]
    exact iff_of_true rfl fun hs ↦ absurd hs hsends

/-- An open client with bytes in its write buffer up to a given place. -/
def clientFilledTo (n : ℕ) : Con 0 :=
  { registerConnection false [1, 2, 3, 4] none false false true zeroedData with
    state := .open
    writeBuf := { BipBuf.new (fun _ ↦ 7) ⟨bufferCapacity, bufferCapacity_pos, bufferCapacity_lt⟩
      with head := n } }

theorem clientFilledTo_wf {n : ℕ} (hn : n < bufferCapacity) : (clientFilledTo n).writeBuf.Wf :=
  ⟨hn, Nat.zero_lt_of_lt hn, fun hf ↦ absurd hf Bool.false_ne_true⟩

/-- A client with an empty write buffer queues a ping whole. -/
theorem queuesWhole_empty : (clientFilledTo 0).QueuesWhole .ping [5, 6] :=
  (queuesWhole_iff (clientFilledTo_wf (by decide)) (by decide) rfl).mpr fun _ ↦ Or.inr (by decide)

/-- A client with three bytes free queues a pong without a payload, which has six. -/
theorem not_queuesWhole_of_short :
    (clientFilledTo 65533).Sends ∧ (clientFilledTo 65533).writeBuf.free = 3 ∧
      ((clientFilledTo 65533).queue .pong []).1 = true ∧ ¬(clientFilledTo 65533).QueuesWhole .pong
        [] :=
  ⟨Or.inl rfl, by decide, not_queuesWhole .pong (clientFilledTo_wf (by decide)) (by decide) rfl
    (Or.inl rfl) (by decide) (by decide)⟩

end Con

end Coypu
