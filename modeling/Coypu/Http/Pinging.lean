import Coypu.Buf.Removal
import Coypu.Http.Parsing
import Coypu.Http.Queueing

/-!
# The answer to a ping

`DoOpenData` steps over the payload of a ping and reads it again, from the offset that
`CurrentOffset` gave before. On a stream that is an offset in the log, and `Pop` with an offset and
a length copies the payload from there. On the circular buffer it is the place where the next byte
will be written; `Pop` takes it for a number of bytes, and the length for whether to leave them
there. There is no `Unmask` either.

So a stream answers with the payload, if `WriteFrame` finds the room that it asks for. The circular
buffer answers with bytes from behind the ping, or with what was in the array.
-/

set_option autoImplicit false

namespace Coypu

open FlatMemory WebSocket

namespace BipBuf

variable {T : CapacityType} {α : Type*} {b : BipBuf T α} {l : List α}

@[simp] theorem skip_head (b : BipBuf T α) (n : ℕ) : (b.skip n).buf.head = b.head := by
  unfold skip
  simp only
  split_ifs <;> simp

theorem Rep.peek_head (h : b.Rep l) (hpos : 0 < b.head) (hle : b.head ≤ l.length) :
    (b.pop b.head true).ret = some (l.take b.head) := by
  refine h.peek_ret hpos hle ?_
  by_cases hfull : b.full = true
  · exact Or.inl (Or.inr hfull)
  · rcases h.of_not_full hfull with ⟨-, hlen⟩ | ⟨hlt, -⟩
    · exact Or.inr (by omega)
    · exact Or.inl (Or.inl hlt)

end BipBuf

namespace Con

variable {cacheSize : ℕ} (con : Con cacheSize)

/-- The payload of a frame with the bytes `k`. -/
def pingPayload (k : List UInt8) : List UInt8 := if con.frame.masked then unmask con.frame k else k

/-- `DoOpenData` of a ping with the bytes `k` queues one pong, with its payload, and goes on with
`l`. -/
def PongsFrom {β : Type*} [FrameSource β] [LawfulFrameSource β] (buf : β)
    (k l : List UInt8) : Prop :=
  ∃ buf' con', con.doOpenData buf = some (1, buf', con') ∧ LawfulFrameSource.Holds buf' l ∧
    con'.state = .open ∧ con'.writeBuf.contents = con.writeBuf.contents ++ con.wire .pong
      (con.pingPayload k)

/-- The same of what the connection reads frames from. -/
def Pongs (k l : List UInt8) : Prop :=
  match con.stream with
  | some stream => con.PongsFrom stream k l
  | none => con.PongsFrom con.httpBuf k l

/-- The connection reads frames from the bytes `l`. -/
def Unread (l : List UInt8) : Prop :=
  match con.stream with
  | some stream => stream.Unread l
  | none => con.httpBuf.Rep l

/-- What the circular buffer gives in place of a payload `k`, if `l` is behind it, is the payload:
there is a `Pop` of as many bytes as its head says, from `l`, or none. -/
def Rereads (k l : List UInt8) : Prop :=
  (con.frame.masked = true → con.asserts = false) ∧
    if 0 < con.httpBuf.head ∧ con.httpBuf.head ≤ l.length then
      k ≠ [] ∧ con.httpBuf.head ≤ 1024 ∧
        filledTo (con.pingData con.calls) k.length (l.take con.httpBuf.head) = con.pingPayload k
    else filledTo (con.pingData con.calls) k.length [] = con.pingPayload k

/-- The connection is at the payload `k` of a ping that is short enough, with room in the write
buffer for a pong. -/
structure AtPing (k : List UInt8) : Prop where
  opcode_eq : con.frame.opcode = WSOPCode.ping.value
  len_eq : con.frame.len = k.length
  short : k.length < 1024
  wf : con.writeBuf.Wf
  capacity_eq : con.writeBuf.capacity = bufferCapacity
  mask_len : con.mask.length = wsMaskLen
  room : needed k.length con.masked ≤ con.writeBuf.free

variable {con} {k l : List UInt8}

theorem AtPing.capacity_lt (h : con.AtPing k) : con.writeBuf.capacity < 2 ^ 32 := by
  rw [h.capacity_eq]
  decide

@[simp] theorem length_pingPayload : (con.pingPayload k).length = k.length := by
  unfold pingPayload unmask
  split_ifs <;> simp

theorem wire_inj {code : WSOPCode} {data data' : List UInt8} (hlen : data.length = data'.length) :
    con.wire code data = con.wire code data' ↔ data = data' := by
  refine ⟨fun h ↦ ?_, congrArg _⟩
  rw [wire, wire, hlen, List.append_cancel_left_eq] at h
  split_ifs at h
  · have hmasked := List.append_cancel_left h
    rw [← Bytes.xorMask_xorMask con.mask 0 data, hmasked, Bytes.xorMask_xorMask]
  · exact h

/-! ## The template -/

section Template

variable {β : Type*} [FrameSource β] [LawfulFrameSource β] {buf : β}

open FrameSource

theorem pongsFrom_iff (h : con.AtPing k) (hav : k.length ≤ available buf) :
    con.PongsFrom buf k l ↔ HasRoom con.writeBuf.free k.length con.masked ∧
      ∃ buf₁, con.unmaskFrame (skip buf k.length) (currentOffset buf) = some buf₁ ∧
        ((popAt buf₁ (currentOffset buf) k.length).1.getD []).length ≤ 1024 ∧
        filledTo (con.pingData con.calls) k.length
          ((popAt buf₁ (currentOffset buf) k.length).1.getD []) = con.pingPayload k ∧
        LawfulFrameSource.Holds (popAt buf₁ (currentOffset buf) k.length).2 l := by
  have hcap := h.capacity_lt
  obtain ⟨hop, hlen, hsmall, hwf, -, hmask, hroom⟩ := h
  have hne : WSOPCode.ping.value ≠ WSOPCode.textFrame.value := by decide
  have hdo : con.doOpenData buf = ({ con with state := .open } : Con cacheSize).doPing
      (skip buf k.length) (currentOffset buf) := by
    unfold doOpenData
    simp only [hlen, hop, if_pos hav, if_neg hne, if_true]
  have hun : ({ con with state := .open } : Con cacheSize).unmaskFrame (skip buf k.length)
      (currentOffset buf) = con.unmaskFrame (skip buf k.length) (currentOffset buf) := rfl
  unfold PongsFrom
  rw [hdo, doPing]
  simp only [hlen]
  rw [if_neg (fun hlong ↦ absurd hlong.2 (Nat.not_le.mpr hsmall)), hun]
  cases con.unmaskFrame (skip buf k.length) (currentOffset buf) with
  | none => simp
  | some buf₁ =>
    simp only [Option.some.injEq, exists_eq_left']
    generalize popAt buf₁ (currentOffset buf) k.length = r
    by_cases hbig : 1024 < (r.1.getD []).length
    · rw [if_pos hbig]
      simp [Nat.not_le.mpr hbig]
    rw [if_neg hbig]
    have hsent : (filledTo (con.pingData con.calls) k.length (r.1.getD [])).length = k.length :=
      length_filledTo _ _ _
    generalize filledTo (con.pingData con.calls) k.length (r.1.getD []) = sent at hsent
    have hqueue := queue_of_fits (c := { con with state := .open }) hwf hcap hmask
      (Or.inl rfl) .pong sent
    have hshort : ¬ 1024 < k.length := fun hlong ↦ absurd hlong (Nat.not_lt.mpr hsmall.le)
    by_cases hask : HasRoom con.writeBuf.free k.length con.masked
    · obtain ⟨hret, hcontents, hstate⟩ := (hqueue (by rwa [hsent])).1 (by rwa [hsent])
      rw [hret, if_neg (by simp [hshort])]
      constructor
      · rintro ⟨buf', con', heq, hholds, -, hsame⟩
        obtain ⟨rfl, rfl⟩ : r.2 = buf' ∧ _ = con' := by simpa using heq
        refine ⟨hask, Nat.not_lt.mp hbig, ?_, hholds⟩
        rw [hcontents, List.append_cancel_left_eq] at hsame
        exact (wire_inj (hsent.trans length_pingPayload.symm)).mp hsame
      · rintro ⟨-, -, rfl, hholds⟩
        exact ⟨_, _, rfl, hholds, hstate, hcontents⟩
    · rw [(hqueue (by rwa [hsent])).2 (by rwa [hsent])]
      refine iff_of_false ?_ fun h ↦ hask h.1
      -- nothing is queued, so the buffer is too short by a frame
      rintro ⟨buf', con', heq, -, -, hsame⟩
      split at heq
      · exact absurd heq.symm (Option.some_ne_none _)
      · obtain ⟨-, rfl⟩ : r.2 = buf' ∧ _ = con' := by simpa using heq
        have hnone := congrArg List.length hsame
        rw [List.length_append, length_wire hmask, needed, frameLen] at hnone
        simp only at hnone
        omega

end Template

/-! ## The two buffers -/

theorem pongsFrom_stream (hping : con.AtPing k) {p : PositionedStream cacheSize}
    (h : p.Unread (k ++ l)) :
    con.PongsFrom p k l ↔ HasRoom con.writeBuf.free k.length con.masked := by
  have hav : k.length ≤ FrameSource.available p := by
    rw [LawfulFrameSource.available_eq h, List.length_append]
    exact Nat.le_add_right _ _
  have hskip : FrameSource.skip p k.length = p.advance k.length :=
    congrArg Prod.snd (h.skip (by simp))
  obtain ⟨p', hun, hcons⟩ := unmaskFrame_eq h.consumed hping.len_eq
  have hpop := hcons.popAt_getD
  have hsame : (if con.frame.masked then Bytes.xorMask con.frame.mask 0 k else k)
    = con.pingPayload k := rfl
  rw [hsame, length_pingPayload] at hpop
  rw [pongsFrom_iff hping hav, hskip]
  refine and_iff_left ⟨p', hun, ?_, ?_, hcons.rest⟩
  · change ((p'.popAt p.curOffset k.length).getD []).length ≤ 1024
    rw [hpop, length_pingPayload]
    exact Nat.le_of_lt hping.short
  · change filledTo (con.pingData con.calls) k.length
      ((p'.popAt p.curOffset k.length).getD []) = con.pingPayload k
    rw [hpop]
    have hfill := filledTo_length (con.pingData con.calls) (con.pingPayload k)
    rwa [length_pingPayload] at hfill

theorem pongsFrom_httpBuf (hping : con.AtPing k) (h : con.httpBuf.Rep (k ++ l)) :
    con.PongsFrom con.httpBuf k l ↔ HasRoom con.writeBuf.free k.length con.masked ∧
      con.Rereads k l := by
  have hav : k.length ≤ FrameSource.available con.httpBuf := by
    rw [LawfulFrameSource.available_eq h, List.length_append]
    exact Nat.le_add_right _ _
  rw [pongsFrom_iff hping hav]
  refine and_congr_right fun _ ↦ ?_
  simp only [FrameSource.skip, FrameSource.currentOffset, FrameSource.popAt, BipBuf.currentOffset,
    unmaskFrame, FrameSource.unmask]
  have hhead := BipBuf.skip_head con.httpBuf k.length
  have hrest : (con.httpBuf.skip k.length).buf.Rep l := by
    have hskip := (BipBuf.skip_refines h k.length).rep
    by_cases hk : 0 < k.length ∧ k.length ≤ (k ++ l).length
    · rwa [if_pos hk, List.drop_left] at hskip
    · obtain rfl : k = [] := by simpa using hk
      rwa [if_neg hk] at hskip
  generalize (con.httpBuf.skip k.length).buf = b₁ at hhead hrest
  unfold Rereads
  by_cases habort : con.frame.masked = true ∧ con.asserts = true
  · rw [if_pos habort.1, if_pos habort.2]
    exact iff_of_false (by simp) fun hno ↦ absurd (hno.1 habort.1) (by simp [habort.2])
  have hun : (if con.frame.masked = true then
      if con.asserts = true then none else some b₁ else some b₁)
      = some b₁ := by
    split_ifs <;> simp_all
  rw [hun, and_iff_right (fun hm ↦ Bool.eq_false_iff.mpr fun ha ↦ habort ⟨hm, ha⟩)]
  simp only [Option.some.injEq, exists_eq_left', ← hhead]
  by_cases htaken : 0 < b₁.head ∧ b₁.head ≤ l.length
  · rw [if_pos htaken]
    by_cases hk : k = []
    · -- the bytes are taken, not looked at
      have hpop := BipBuf.pop_refines hrest b₁.head
      rw [if_pos htaken, if_pos htaken] at hpop
      refine iff_of_false (fun hall ↦ ?_) fun hall ↦ hall.1 hk
      have hholds := hall.2.2
      simp only [hk, List.length_nil, ne_eq, not_true_eq_false, decide_false] at hholds
      change (b₁.pop b₁.head false).buf.Rep l at hholds
      have hsame := congrArg List.length (hholds.contents_eq.symm.trans hpop.rep.contents_eq)
      rw [List.length_drop] at hsame
      omega
    · have hpeek := hrest.peek_head htaken.1 htaken.2
      have hbuf : (b₁.pop b₁.head true).buf = b₁ := by
        rw [BipBuf.peek_eq (by rw [hrest.available_eq]; omega) (by omega)]
      have hlook : decide (k.length ≠ 0) = true := decide_eq_true (mt List.length_eq_zero_iff.mp hk)
      simp only [hlook, hpeek, hbuf, Option.getD_some, List.length_take]
      rw [Nat.min_eq_left htaken.2]
      exact ⟨fun hall ↦ ⟨hk, hall.1, hall.2.1⟩, fun hall ↦ ⟨hall.2.1, hall.2.2, hrest⟩⟩
  · rw [if_neg htaken]
    have hpop (peek : Bool) : b₁.pop b₁.head peek = ⟨none, b₁, [], []⟩ := by
      rw [BipBuf.pop, hrest.available_eq]
      by_cases hlt : l.length < b₁.head
      · rw [if_pos hlt]
      · rw [if_neg hlt, if_pos (by omega)]
    rw [hpop]
    simp only [Option.getD_none, List.length_nil, Nat.zero_le, true_and]
    exact and_iff_left hrest

/-- **When a ping is answered with its own payload.** `WriteFrame` finds the room it asks for, and
the connection has a stream, or the circular buffer happens to give the payload. -/
theorem pongs_iff (hping : con.AtPing k) (hunread : con.Unread (k ++ l)) :
    con.Pongs k l ↔
      HasRoom con.writeBuf.free k.length con.masked ∧ (con.stream = none → con.Rereads k l) := by
  unfold Unread at hunread
  unfold Pongs
  cases hstream : con.stream with
  | some p =>
    rw [hstream] at hunread
    simp only [reduceCtorEq, false_imp_iff, and_true]
    exact pongsFrom_stream hping hunread
  | none =>
    rw [hstream] at hunread
    simp only [true_imp_iff]
    exact pongsFrom_httpBuf hping hunread

/-- A server behind the header of a masked ping of two bytes. -/
def pinged (stream : Option (PositionedStream 1)) : Con 1 :=
  { registerConnection true [] stream false false true zeroedData with
    state := .openData
    frame := ⟨[0x89, 0x82], [1, 2, 3, 4], 9, true, 2⟩
    httpBuf := { BipBuf.new (fun i ↦ [0x89, 0x82, 1, 2, 3, 4, 105, 107].getD i 0)
      ⟨bufferCapacity, bufferCapacity_pos, bufferCapacity_lt⟩ with head := 8, tail := 6 } }

theorem pinged_atPing (stream : Option (PositionedStream 1)) : (pinged stream).AtPing [105,
    107] where
  opcode_eq := rfl
  len_eq := rfl
  short := by decide
  wf := (BipBuf.rep_new _ _).wf (BipBuf.bounded_new _ _)
  capacity_eq := rfl
  mask_len := rfl
  room := by
    change needed 2 false ≤ bufferCapacity
    decide

theorem pinged_rep : (pinged none).httpBuf.Rep [105, 107] :=
  BipBuf.Wf.rep (b := (pinged none).httpBuf) ⟨by decide, by decide, by decide⟩

/-- With a stream it answers. -/
theorem pongs_stream :
    (pinged (some (PositionedStream.ofList 1 [105, 107] (by decide)))).Pongs [105, 107] [] := by
  have hunread : (pinged (some (PositionedStream.ofList 1 [105, 107] (by decide)))).Unread
    ([105, 107] ++ []) :=
    PositionedStream.unread_ofList (by decide)
  have hasked : HasRoom
    (pinged (some (PositionedStream.ofList 1 [105, 107] (by decide)))).writeBuf.free
      2 false := by
    change 2 + (extension 2).length + 2 + 4 ≤ bufferCapacity
    decide
  exact (pongs_iff (pinged_atPing _) hunread).mpr ⟨hasked, fun h ↦ absurd h (Option.some_ne_none _)⟩

/-- Without one, it does not return. -/
theorem not_pongs_httpBuf :
    (pinged none).AtPing [105, 107] ∧ (pinged none).Unread [105, 107] ∧
      ¬(pinged none).Pongs [105, 107] [] := by
  refine ⟨pinged_atPing none, pinged_rep, fun h ↦ ?_⟩
  have hrereads := ((pongsFrom_httpBuf (pinged_atPing none) (l := []) pinged_rep).mp h).2
  exact absurd (hrereads.1 rfl) (by decide)

end Con

end Coypu
