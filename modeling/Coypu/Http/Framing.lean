import Coypu.Http.Frame
import Coypu.Http.Source

/-!
# Frames from one connection to another

The bytes that `Queue` appends on one connection are the unread bytes of another one's stream, and
`DoOpen` and `DoOpenData` take them. What comes out is the frame that went in, except where the two
sides disagree: `WriteFrame` and `Queue` put the extended length before the key and `DoOpen` takes
the key first, and `WriteFrame` asks for room for a key on the side that sends none.

`Carries` collects the conditions, and `roundTrips_iff` says that there are no others.
-/

set_option autoImplicit false

namespace Coypu

open FlatMemory Transport WebSocket

variable {cacheSize : ℕ}

/-! ## Bits of the header -/

namespace WebSocket

theorem shortLen_table : ∀ i : Fin 128,
    0x7F &&& (0x7F &&& UInt8.ofNat i.val) = UInt8.ofNat i.val ∧
    0x7F &&& ((0x7F &&& UInt8.ofNat i.val) ||| 0x80) = UInt8.ofNat i.val ∧
    (0x7F &&& UInt8.ofNat i.val) &&& 0x80 = 0 ∧
    ((0x7F &&& UInt8.ofNat i.val) ||| 0x80) &&& 0x80 ≠ 0 := by
  decide

theorem shortLen_eq (len : ℕ) : ∃ i : Fin 128, shortLen len = UInt8.ofNat i.val := by
  unfold shortLen
  split_ifs with h₁ h₂
  · exact ⟨⟨len, by omega⟩, rfl⟩
  · exact ⟨126, rfl⟩
  · exact ⟨127, rfl⟩

theorem lengthBits_maskBit (masked : Bool) (len : ℕ) :
    0x7F &&& maskBit masked (shortLen len) = shortLen len := by
  obtain ⟨i, hi⟩ := shortLen_eq len
  rw [hi, maskBit]
  split_ifs
  · exact (shortLen_table i).2.1
  · exact (shortLen_table i).1

theorem highBit_maskBit (masked : Bool) (len : ℕ) :
    maskBit masked (shortLen len) &&& 0x80 ≠ 0 ↔ masked = true := by
  obtain ⟨i, hi⟩ := shortLen_eq len
  rw [hi, maskBit]
  cases masked with
  | false => simpa using (shortLen_table i).2.2.1
  | true => simpa using (shortLen_table i).2.2.2

/-- Every operation code but one has four bits. -/
theorem opcode_eq_iff (code : WSOPCode) :
    (0x80 ||| (0x0F &&& code.value)) &&& 0x0F = code.value ↔ code ≠ .unknown := by
  cases code <;> decide

end WebSocket

namespace Con

theorem ofNat_ne_of_lt :
    ∀ i : Fin 126, UInt8.ofNat i.val ≠ wsPayload16 ∧ UInt8.ofNat i.val ≠ wsPayload64 := by
  decide

/-- The extended length that `DoOpen` expects is the one that `WriteFrame` writes. -/
theorem extended_shortLen (len : ℕ) : extended (shortLen len) = (extension len).length := by
  by_cases h₁ : len ≤ 125
  · have hne := ofNat_ne_of_lt ⟨len, by omega⟩
    have hshort : shortLen len = UInt8.ofNat len := if_pos h₁
    rw [extended, hshort, if_neg hne.1, if_neg hne.2, extension, if_pos h₁, List.length_nil]
  · by_cases h₂ : len < 2 ^ 16 - 1
    · have hshort : shortLen len = wsPayload16 := by rw [shortLen, if_neg h₁, if_pos h₂]
      rw [extended, hshort, if_pos rfl, extension, if_neg h₁, if_pos h₂, Bytes.length_encode]
    · have hshort : shortLen len = wsPayload64 := by rw [shortLen, if_neg h₁, if_neg h₂]
      rw [extended, hshort, if_neg (by decide), if_pos rfl, extension, if_neg h₁, if_neg h₂,
        Bytes.length_encode]

theorem decode_extension {len : ℕ} (hlen : len < 2 ^ 63) :
    (if (extension len).length = 0 then (shortLen len).toNat else Bytes.decode (extension len))
      = len := by
  unfold extension shortLen
  by_cases h₁ : len ≤ 125
  · simp only [if_pos h₁, List.length_nil, if_true, UInt8.toNat_ofNat']
    omega
  · by_cases h₂ : len < 2 ^ 16 - 1
    · simp only [if_neg h₁, if_pos h₂, Bytes.length_encode]
      rw [if_neg (by decide), Bytes.decode_encode (by omega)]
    · simp only [if_neg h₁, if_neg h₂, Bytes.length_encode]
      rw [if_neg (by decide), Bytes.decode_encode (by omega)]

variable {c : Con cacheSize} {p : PositionedStream cacheSize}

/-! ## Taking a payload -/

/-- `DoOpenData` unmasks the payload where it lies. -/
def unmasksInPlace (c : Con cacheSize) : Bool :=
  c.frame.masked && ((decide (c.frame.opcode = WSOPCode.textFrame.value) && c.onText)
    || decide (c.frame.opcode = WSOPCode.ping.value))

/-- What lies in place of a payload after `DoOpenData`. -/
def inPlace (c : Con cacheSize) (k : List UInt8) : List UInt8 :=
  if c.unmasksInPlace then Bytes.xorMask c.frame.mask 0 k else k

/-- A ping can be answered: its payload fits into the array for the answer, and the assertions on
it and on the answer hold. -/
def AnswersPing (c : Con cacheSize) (len : ℕ) : Prop :=
  len ≤ c.maxPing ∧ (c.asserts = true → HasRoom c.writeBuf.free len c.masked)

/-- `Queue` succeeds exactly if it sees room. -/
theorem queue_fst {code : WSOPCode} {data : List UInt8} (hfree : c.writeBuf.free < 2 ^ 32)
    (hlen : data.length < 2 ^ 63) (hsends : c.Sends) :
    (c.queue code data).1 = true ↔ HasRoom c.writeBuf.free data.length c.masked := by
  obtain ⟨hyes, hno⟩ := writeFrame_eq code c.masked hfree hlen
  unfold Sends at hsends
  rw [queue, if_pos hsends]
  by_cases hroom : HasRoom c.writeBuf.free data.length c.masked
  · rw [hyes hroom]
    simpa using hroom
  · rw [hno hroom]
    simpa using hroom

section DoOpenData

variable {k l : List UInt8} {offset : ℕ}

theorem unmaskFrame_eq (h : p.Consumed offset k l) (hlen : c.frame.len = k.length) :
    ∃ p', c.unmaskFrame p offset = some p' ∧
      p'.Consumed offset (if c.frame.masked then Bytes.xorMask c.frame.mask 0 k else k) l := by
  rw [unmaskFrame, hlen]
  cases c.frame.masked with
  | false => exact ⟨p, rfl, h⟩
  | true => exact ⟨_, rfl, h.unmask c.frame.mask⟩

theorem doPing_eq (h : p.Consumed offset k l) (hlen : c.frame.len = k.length)
    (hfree : c.writeBuf.free < 2 ^ 32) (hsends : c.Sends) :
    (c.AnswersPing k.length → ∃ p' c', c.doPing p offset = some (1, p', c') ∧
      p'.Consumed offset (if c.frame.masked then Bytes.xorMask c.frame.mask 0 k else k) l) ∧
    (¬c.AnswersPing k.length → c.doPing p offset = none) := by
  obtain ⟨p', hp', hcons⟩ := unmaskFrame_eq h hlen
  obtain ⟨data, hdata⟩ : ∃ data, (if c.frame.masked then Bytes.xorMask c.frame.mask 0 k else k)
    = data := ⟨_, rfl⟩
  have hsize : data.length = c.frame.len := by
    rw [← hdata, hlen]
    split_ifs <;> simp
  rw [hdata] at hcons ⊢
  have hpop : (FrameSource.popAt p' offset c.frame.len).1.getD [] = data := by
    rw [← hsize]
    exact hcons.popAt_getD
  rw [AnswersPing, ← hlen, doPing_of_popAt hp' hpop hsize]
  by_cases hlong : c.maxPing < c.frame.len
  · rw [if_pos hlong]
    exact ⟨fun hans ↦ absurd hlong (Nat.not_lt.mpr hans.1), fun _ ↦ rfl⟩
  have hshort := c.maxPing_le
  have hqueue : (c.queue .pong data).1 = true ↔ HasRoom c.writeBuf.free c.frame.len c.masked := by
    rw [← hsize]
    exact queue_fst hfree (by omega) hsends
  rw [if_neg hlong]
  refine ⟨fun hans ↦ ?_, fun hans ↦ ?_⟩
  · refine ⟨p', _, if_neg ?_, hcons⟩
    simp only [Bool.and_eq_true, Bool.not_eq_true', not_and, Bool.not_eq_false]
    exact fun hasserts ↦ hqueue.mpr (hans.2 hasserts)
  · refine if_pos ?_
    simp only [not_and, not_forall, exists_prop] at hans
    obtain ⟨hasserts, hroom⟩ := hans (Nat.not_lt.mp hlong)
    simpa [hasserts] using fun hok ↦ hroom (hqueue.mp hok)

theorem doOpenData_eq (h : p.Unread (k ++ l)) (hlen : c.frame.len = k.length)
    (hfree : c.writeBuf.free < 2 ^ 32)
    (hping : c.frame.opcode = WSOPCode.ping.value → c.AnswersPing k.length) :
    ∃ p' c', c.doOpenData p = some (1, p', c') ∧ p'.Consumed p.curOffset (c.inPlace k) l := by
  have hskip := h.skip (n := k.length) (by simp)
  have hcons := h.consumed
  unfold doOpenData inPlace unmasksInPlace
  simp only [FrameSource.available, FrameSource.skip, FrameSource.currentOffset, h.available, hlen,
    hskip, PositionedStream.currentOffset]
  rw [if_pos (by simp)]
  by_cases htext : c.frame.opcode = WSOPCode.textFrame.value
  · have hne : WSOPCode.textFrame.value ≠ WSOPCode.ping.value := by decide
    simp only [htext, hne, if_true, decide_true, decide_false, Bool.or_false, Bool.true_and]
    by_cases htake : c.onText = true
    · obtain ⟨p', hp', hcons'⟩ := unmaskFrame_eq hcons hlen
      rw [if_pos htake, hp', htake, Bool.and_true]
      exact ⟨p', _, rfl, hcons'⟩
    · rw [if_neg htake, Bool.eq_false_iff.mpr htake, Bool.and_false]
      exact ⟨_, _, rfl, hcons⟩
  · simp only [htext, if_false, decide_false, Bool.false_and, Bool.false_or]
    by_cases hp : c.frame.opcode = WSOPCode.ping.value
    · obtain ⟨p', c', hdo, hcons'⟩ := (doPing_eq (c := { c with state := .open }) hcons hlen hfree
        (Or.inl rfl)).1 (hping hp)
      simp only [hp, if_true, decide_true, Bool.and_true]
      exact ⟨p', c', hdo, hcons'⟩
    · simp only [hp, if_false, decide_false, Bool.and_false, Bool.false_eq_true]
      split_ifs <;> exact ⟨_, _, rfl, hcons⟩

theorem doOpenData_of_ping (h : p.Unread (k ++ l)) (hlen : c.frame.len = k.length)
    (hfree : c.writeBuf.free < 2 ^ 32) (hp : c.frame.opcode = WSOPCode.ping.value)
    (hans : ¬c.AnswersPing k.length) : c.doOpenData p = none := by
  have hskip := h.skip (n := k.length) (by simp)
  have hne : WSOPCode.ping.value ≠ WSOPCode.textFrame.value := by decide
  unfold doOpenData
  simp only [FrameSource.available, FrameSource.skip, FrameSource.currentOffset, h.available, hlen,
    hskip, PositionedStream.currentOffset, hp, hne, if_true, if_false]
  rw [if_pos (by simp)]
  exact (doPing_eq (c := { c with state := .open }) h.consumed hlen hfree (Or.inl rfl)).2 hans

end DoOpenData

/-! ## The round trip -/

/-- The static `Unmask`. -/
def unmask (frame : WebSocketFrame) (data : List UInt8) : List UInt8 :=
  Bytes.xorMask frame.mask 0 data

/-- The payload of a frame from the bytes in its place: `DoOpenData` has unmasked them, or they
still have to be. -/
def payloadOf (c : Con cacheSize) (bytes : List UInt8) : List UInt8 :=
  if c.frame.masked && !c.unmasksInPlace then unmask c.frame bytes else bytes

/-- The bytes that `Queue` appends. -/
def appended (c : Con cacheSize) (code : WSOPCode) (data : List UInt8) : List UInt8 :=
  (c.queue code data).2.writeBuf.contents.drop c.writeBuf.contents.length

/-- `DoOpen` and `DoOpenData` take a frame with this operation code and payload from the stream, and
leave `follow`. -/
def Decodes (c : Con cacheSize) (p : PositionedStream cacheSize) (code : WSOPCode)
    (payload follow : List UInt8) : Prop :=
  ∃ p₁ c₁ p₂ c₂, c.doOpen p = (2, p₁, c₁) ∧ c₁.frame.opcode = code.value ∧
    c₁.frame.len = payload.length ∧ c₁.doOpenData p₁ = some (1, p₂, c₂) ∧
    c₁.payloadOf (load p₂.log.data p₁.curOffset c₁.frame.len) = payload ∧ p₂.Unread follow

theorem payloadOf_inPlace (k : List UInt8) :
    c.payloadOf (c.inPlace k) = if c.frame.masked then Bytes.xorMask c.frame.mask 0 k else k := by
  unfold payloadOf inPlace unmask
  by_cases hplace : c.unmasksInPlace = true
  · have hmasked : c.frame.masked = true := by
      unfold unmasksInPlace at hplace
      rw [Bool.and_eq_true] at hplace
      exact hplace.1
    simp [hplace, hmasked]
  · simp [hplace]

@[simp] theorem length_inPlace (k : List UInt8) : (c.inPlace k).length = k.length := by
  unfold inPlace
  split_ifs <;> simp

theorem doOpenData_payload {k l : List UInt8} (h : p.Unread (k ++ l))
    (hlen : c.frame.len = k.length) (hfree : c.writeBuf.free < 2 ^ 32)
    (hping : c.frame.opcode = WSOPCode.ping.value → c.AnswersPing k.length) :
    ∃ p' c', c.doOpenData p = some (1, p', c') ∧ p'.Unread l ∧
      c.payloadOf (load p'.log.data p.curOffset c.frame.len)
        = if c.frame.masked then Bytes.xorMask c.frame.mask 0 k else k := by
  obtain ⟨p', c', hdo, hcons⟩ := doOpenData_eq h hlen hfree hping
  have hload := hcons.load_eq
  rw [length_inPlace] at hload
  exact ⟨p', c', hdo, hcons.rest, by rw [hlen, hload, payloadOf_inPlace]⟩

section RoundTrip

variable {senderSize : ℕ} {s : Con senderSize} {code : WSOPCode} {payload follow : List UInt8}

/-- The key on the wire. -/
def wireKey (s : Con senderSize) : List UInt8 := if s.masked then s.mask else []

/-- The payload on the wire. -/
def wireBody (s : Con senderSize) (data : List UInt8) : List UInt8 :=
  if s.masked then Bytes.xorMask s.mask 0 data else data

theorem length_wireBody (data : List UInt8) : (s.wireBody data).length = data.length := by
  unfold wireBody
  split_ifs <;> simp

theorem wire_eq (code : WSOPCode) (data : List UInt8) :
    s.wire code data = (0x80 ||| (0x0F &&& code.value)) :: maskBit s.masked (shortLen data.length)
      :: (extension data.length ++ s.wireKey ++ s.wireBody data) := by
  unfold wire wireKey wireBody header
  cases s.masked <;> simp

theorem headerLen_wire (hmask : s.mask.length = wsMaskLen) (len : ℕ) :
    headerLen (maskBit s.masked (shortLen len))
      = 2 + s.wireKey.length + (extension len).length := by
  unfold headerLen wireKey
  rw [lengthBits_maskBit, extended_shortLen]
  by_cases hm : s.masked = true
  · rw [if_pos ((highBit_maskBit _ _).mpr hm), if_pos hm, hmask]
  · rw [if_neg (fun h ↦ hm ((highBit_maskBit _ _).mp h)), if_neg hm, List.length_nil]

/-- What `DoOpen` makes of a frame on the wire. It splits the extended length and the key the other
way round, `M` being what it takes for the key and `E` what it takes for the length. -/
theorem doOpen_wire (hmask : s.mask.length = wsMaskLen)
    (h : p.Unread (s.wire code payload ++ follow)) :
    ((s.wire code payload ++ follow).length % 2 ^ 32
        < 2 + s.wireKey.length + (extension payload.length).length → (c.doOpen p).1 = 1) ∧
    (2 + s.wireKey.length + (extension payload.length).length
        ≤ (s.wire code payload ++ follow).length % 2 ^ 32 →
      ∃ M E p₁ frame, extension payload.length ++ s.wireKey = M ++ E ∧
        M.length = s.wireKey.length ∧
        c.doOpen p = (2, p₁, { c with frame := frame, state := .openData }) ∧
        p₁.Unread (s.wireBody payload ++ follow) ∧
        frame.opcode = (0x80 ||| (0x0F &&& code.value)) &&& 0x0F ∧ frame.masked = s.masked ∧
        (s.masked = true → frame.mask = M) ∧
        frame.len = if (extension payload.length).length = 0 then (shortLen payload.length).toNat
          else Bytes.decode E) := by
  have hhead := headerLen_wire (s := s) hmask payload.length
  have hkey : (if maskBit s.masked (shortLen payload.length) &&& 0x80 ≠ 0 then wsMaskLen else 0)
      = s.wireKey.length := by
    unfold headerLen at hhead
    rw [lengthBits_maskBit, extended_shortLen] at hhead
    omega
  rw [wire_eq, List.cons_append, List.cons_append] at h ⊢
  refine ⟨fun hlt ↦ ?_, fun hle ↦ ?_⟩
  · rw [doOpen_of_lt h (by rwa [hhead])]
  rw [← hhead] at hle
  obtain ⟨p₁, hrest, hdo⟩ := doOpen_of_le (c := c) (b := p) h hle
  refine ⟨(extension payload.length ++ s.wireKey).take s.wireKey.length,
    (extension payload.length ++ s.wireKey).drop s.wireKey.length, _, _,
    (List.take_append_drop _ _).symm, by simp, hdo, ?_, rfl, ?_, ?_, ?_⟩
  · have hsum : 2 + s.wireKey.length + (extension payload.length).length
        = (extension payload.length ++ s.wireKey).length + 1 + 1 := by
      rw [List.length_append]
      omega
    rw [hhead, hsum, List.drop_succ_cons, List.drop_succ_cons, List.append_assoc,
      List.drop_left' rfl] at hrest
    exact hrest
  · rw [Bool.eq_iff_iff, decide_eq_true_iff, highBit_maskBit]
  · intro hm
    have hlen : wsMaskLen = s.wireKey.length := by rw [wireKey, if_pos hm, hmask]
    simp only [if_pos ((highBit_maskBit _ _).mpr hm)]
    rw [hlen, List.append_assoc, List.take_append_of_le_length (by simp)]
  · simp only [hkey]
    rw [lengthBits_maskBit, extended_shortLen, List.append_assoc,
      List.drop_append_of_le_length (by simp), List.take_left' (by simp)]

/-- When a frame gets through. On a server there is room for four bytes more than the frame has; on
a client the extended length and the key can be exchanged, as they can if there is no extended
length; `DoOpen` sees the whole header in the 32 bits it counts with; and a ping is answered. -/
structure Carries (s : Con senderSize) (c : Con cacheSize) (code : WSOPCode)
    (payload follow : List UInt8) : Prop where
  named : code ≠ .unknown
  spare : s.masked = false → HasRoom s.writeBuf.free payload.length false
  ordered : s.masked = true →
    extension payload.length ++ s.mask = s.mask ++ extension payload.length
  whole : 2 + s.wireKey.length + (extension payload.length).length
    ≤ (s.wire code payload ++ follow).length % 2 ^ 32
  answered : code = .ping → c.AnswersPing payload.length

/-- Room for the frame is room that `WriteFrame` sees, but for the spare room. -/
theorem hasRoom_iff {l : List UInt8} (hmask : s.mask.length = wsMaskLen)
    (hbuf : s.writeBuf.Buffers bufferCapacity l)
    (hroom : l.length + (s.wire code payload).length ≤ bufferCapacity) :
    HasRoom s.writeBuf.free payload.length s.masked ↔
      (s.masked = false → HasRoom s.writeBuf.free payload.length false) := by
  cases hm : s.masked with
  | false => simp
  | true =>
    have hfree := hbuf.free_eq
    rw [wire_eq] at hroom
    simp only [List.length_cons, List.length_append, wireKey, hm, if_true, length_wireBody,
      hmask, wsMaskLen] at hroom
    simp only [HasRoom, if_true, reduceCtorEq, false_imp_iff, iff_true]
    omega

theorem code_eq_ping_iff : code.value = WSOPCode.ping.value ↔ code = .ping := by
  cases code <;> decide

/-- The extended length and the key can be exchanged exactly if the other split finds both. -/
theorem ordered_iff {M E : List UInt8} (hsplit : extension payload.length ++ s.wireKey = M ++ E)
    (hM : M.length = s.wireKey.length) :
    (s.masked = true → extension payload.length ++ s.mask = s.mask ++ extension payload.length) ↔
      M = s.wireKey ∧ E = extension payload.length := by
  unfold wireKey at hsplit hM ⊢
  by_cases hm : s.masked = true
  · rw [if_pos hm] at hsplit hM ⊢
    constructor
    · intro hcomm
      have hswap := hsplit.symm.trans (hcomm hm)
      exact List.append_inj hswap hM
    · rintro ⟨rfl, rfl⟩ -
      exact hsplit
  · rw [if_neg hm] at hsplit hM ⊢
    obtain rfl : M = [] := List.length_eq_zero_iff.mp hM
    rw [List.append_nil, List.nil_append] at hsplit
    exact ⟨fun _ ↦ ⟨rfl, hsplit.symm⟩, fun _ hm' ↦ absurd hm' hm⟩

/-- Among the byte strings of its width, the extended length is the one that stands for the
length. -/
theorem extension_eq_iff {E : List UInt8} {len : ℕ} (hlen : len < 2 ^ 63)
    (hE : E.length = (extension len).length) :
    (if (extension len).length = 0 then (shortLen len).toNat else Bytes.decode E) = len ↔
      E = extension len := by
  have hdec := decode_extension hlen
  constructor
  · intro h
    by_cases hnil : (extension len).length = 0
    · rw [List.length_eq_zero_iff.mp hnil] at hE ⊢
      exact List.length_eq_zero_iff.mp hE
    · rw [if_neg hnil] at h hdec
      rw [← Bytes.encode_decode E, ← Bytes.encode_decode (extension len), hE, h, hdec]
  · rintro rfl
    exact hdec

theorem decodes_iff (hmask : s.mask.length = wsMaskLen) (hlen : payload.length < 2 ^ 63)
    (hfree : c.writeBuf.free < 2 ^ 32) (h : p.Unread (s.wire code payload ++ follow)) :
    c.Decodes p code payload follow ↔ code ≠ .unknown ∧
      (s.masked = true → extension payload.length ++ s.mask = s.mask ++ extension payload.length) ∧
      2 + s.wireKey.length + (extension payload.length).length
        ≤ (s.wire code payload ++ follow).length % 2 ^ 32 ∧
      (code = .ping → c.AnswersPing payload.length) := by
  obtain ⟨hshort, hfull⟩ := doOpen_wire (c := c) hmask h
  by_cases hwhole : (s.wire code payload ++ follow).length % 2 ^ 32
      < 2 + s.wireKey.length + (extension payload.length).length
  · refine ⟨?_, fun hc ↦ absurd hc.2.2.1 (Nat.not_le.mpr hwhole)⟩
    rintro ⟨p₁, c₁, p₂, c₂, hdo, -⟩
    have hret := hshort hwhole
    rw [hdo] at hret
    exact absurd hret (by simp)
  have hwhole' := Nat.not_lt.mp hwhole
  obtain ⟨M, E, p₁, frame, hsplit, hM, hdo, hunread, hop, hmasked, hkey, hilen⟩ := hfull hwhole'
  have hE : E.length = (extension payload.length).length := by
    have := congrArg List.length hsplit
    rw [List.length_append, List.length_append] at this
    omega
  have hbody : (s.wireBody payload).length = payload.length := length_wireBody payload
  obtain ⟨c₁, hc₁⟩ : ∃ c₁, c₁ = { c with frame := frame, state := .openData } := ⟨_, rfl⟩
  have hframe : c₁.frame = frame := by rw [hc₁]
  have hans : c₁.AnswersPing payload.length ↔ c.AnswersPing payload.length := by
    rw [hc₁]
    exact Iff.rfl
  have hfree₁ : c₁.writeBuf.free < 2 ^ 32 := by rwa [hc₁]
  rw [← hc₁] at hdo
  rw [← hframe] at hop hmasked hkey hilen
  rw [ordered_iff hsplit hM, ← extension_eq_iff hlen hE, ← hilen, ← opcode_eq_iff, ← hop, ← hans]
  -- `DoOpenData` of the header that `DoOpen` took
  have hdata : c₁.frame.opcode = code.value → c₁.frame.len = payload.length →
      (code = .ping → c₁.AnswersPing payload.length) →
      ∃ p₂ c₂, c₁.doOpenData p₁ = some (1, p₂, c₂) ∧ p₂.Unread follow ∧
        c₁.payloadOf (load p₂.log.data p₁.curOffset c₁.frame.len)
          = if c₁.frame.masked then Bytes.xorMask c₁.frame.mask 0 (s.wireBody payload)
            else s.wireBody payload := by
    intro hcode hlen₁ hping
    refine doOpenData_payload hunread (hlen₁.trans hbody.symm) hfree₁ fun hp ↦ ?_
    rw [hbody]
    exact hping (code_eq_ping_iff.mp (hcode.symm.trans hp))
  constructor
  · rintro ⟨q₁, c', p₂, c₂, hdo', hcode, hlen₁, hdata', hpayload, -⟩
    rw [hdo] at hdo'
    obtain ⟨rfl, rfl⟩ : p₁ = q₁ ∧ c₁ = c' := by simpa using hdo'
    have hping : code = .ping → c₁.AnswersPing payload.length := by
      intro hp
      by_contra hno
      have hnone := doOpenData_of_ping hunread (hlen₁.trans hbody.symm) hfree₁
        (hcode.trans (code_eq_ping_iff.mpr hp)) (by rwa [hbody])
      rw [hnone] at hdata'
      exact absurd hdata' (by simp)
    refine ⟨hcode, ⟨?_, hlen₁⟩, hwhole', hping⟩
    obtain ⟨q₂, d₂, hdata₂, -, hreceived⟩ := hdata hcode hlen₁ hping
    rw [hdata'] at hdata₂
    obtain ⟨rfl, rfl⟩ : p₂ = q₂ ∧ c₂ = d₂ := by simpa using hdata₂
    rw [hpayload] at hreceived
    have hEeq := (extension_eq_iff hlen hE).mp (hilen.symm.trans hlen₁)
    by_cases hm : s.masked = true
    · by_cases hshort : payload.length ≤ 125
      · have hnil : extension payload.length = [] := if_pos hshort
        rw [hEeq, hnil, List.nil_append, List.append_nil] at hsplit
        exact hsplit.symm
      · -- a payload longer than the key tells the two keys apart
        have hwire : s.wireKey = s.mask := if_pos hm
        have hwireBody : s.wireBody payload = Bytes.xorMask s.mask 0 payload := if_pos hm
        rw [if_pos (hmasked.trans hm), hkey hm, hwireBody] at hreceived
        rw [hwire] at hM ⊢
        exact (Bytes.eq_of_xorMask hM.symm (by rw [hmask, wsMaskLen]; omega) hreceived.symm).symm
    · have hwire : s.wireKey = [] := if_neg hm
      rw [hwire] at hM ⊢
      exact List.length_eq_zero_iff.mp hM
  · rintro ⟨hcode, ⟨hkeys, hlen₁⟩, -, hping⟩
    obtain ⟨p₂, c₂, hdata₂, hunread₂, hreceived⟩ := hdata hcode hlen₁ hping
    refine ⟨p₁, c₁, p₂, c₂, hdo, hcode, hlen₁, hdata₂, hreceived.trans ?_, hunread₂⟩
    by_cases hm : s.masked = true
    · have hwire : s.wireKey = s.mask := if_pos hm
      have hwireBody : s.wireBody payload = Bytes.xorMask s.mask 0 payload := if_pos hm
      rw [if_pos (hmasked.trans hm), hkey hm, hkeys, hwire, hwireBody, Bytes.xorMask_xorMask]
    · rw [if_neg (fun h ↦ hm (hmasked.symm.trans h)), wireBody, if_neg hm]

theorem appended_eq {l : List UInt8} (hsends : s.Sends)
    (hbuf : s.writeBuf.Buffers bufferCapacity l)
    (hroom : HasRoom s.writeBuf.free payload.length s.masked)
    (hfits : l.length + (s.wire code payload).length ≤ bufferCapacity) :
    s.appended code payload = s.wire code payload := by
  have hqueued := (queue_of_room _ hsends hbuf (by decide) hroom fun _ ↦ hfits).2.1
  rw [appended, hqueued.rep.contents_eq, hbuf.rep.contents_eq, List.drop_left' rfl]

/-- **Frames round-trip exactly if they are carried.** -/
theorem roundTrips_iff (hsends : s.Sends) (hwf : s.writeBuf.Wf)
    (hcap : s.writeBuf.capacity = bufferCapacity) (hmask : s.mask.length = wsMaskLen)
    (hroom : (s.wire code payload).length ≤ s.writeBuf.free)
    (hrecv : c.writeBuf.capacity = bufferCapacity)
    (hp : p.Unread (s.appended code payload ++ follow)) :
    (s.queue code payload).1 = true ∧ c.Decodes p code payload follow ↔
      s.Carries c code payload follow := by
  have hbuf := hwf.buffers
  rw [hcap] at hbuf
  have hfree := hbuf.free_eq
  have hle := hbuf.rep.length_le
  have hfits : s.writeBuf.contents.length + (s.wire code payload).length ≤ bufferCapacity := by
    omega
  have hlen : payload.length < 2 ^ 63 := by
    have hwire := congrArg List.length (wire_eq (s := s) code payload)
    simp only [List.length_cons, List.length_append, length_wireBody] at hwire
    unfold bufferCapacity at hfits
    omega
  have hfree₂ : c.writeBuf.free < 2 ^ 32 := by
    have hsub : c.writeBuf.free ≤ c.writeBuf.capacity := Nat.sub_le _ _
    unfold bufferCapacity at hrecv
    omega
  have hsees := hasRoom_iff hmask hbuf hfits
  rw [queue_fst (by unfold bufferCapacity at hfree; omega) hlen hsends]
  by_cases hroom : HasRoom s.writeBuf.free payload.length s.masked
  · rw [appended_eq hsends hbuf hroom hfits] at hp
    rw [decodes_iff hmask hlen hfree₂ hp]
    constructor
    · rintro ⟨-, hnamed, hordered, hwhole, hanswered⟩
      exact ⟨hnamed, hsees.mp hroom, hordered, hwhole, hanswered⟩
    · intro h
      exact ⟨hroom, h.named, h.ordered, h.whole, h.answered⟩
  · exact ⟨fun h ↦ absurd h.1 hroom, fun h ↦ absurd (hsees.mpr h.spare) hroom⟩

end RoundTrip

/-- A connection in state `OPEN`. -/
def openCon (serverCon : Bool) : Con 1 :=
  { registerConnection serverCon [1, 2, 3, 4] none false true true zeroedData with state := .open }

theorem buffers_openCon (serverCon : Bool) :
    (openCon serverCon).writeBuf.Buffers bufferCapacity [] :=
  ⟨BipBuf.rep_new _ _, BipBuf.bounded_new _ _, rfl⟩

theorem appended_openCon (serverCon : Bool) (code : WSOPCode) (payload : List UInt8)
    (hlen : payload.length ≤ 200) :
    (openCon serverCon).appended code payload = (openCon serverCon).wire code payload ∧
      ((openCon serverCon).wire code payload).length ≤ 220 := by
  have hext := length_extension payload.length
  have hmasklen : (openCon serverCon).mask.length = 4 := by cases serverCon <;> rfl
  have hwire : ((openCon serverCon).wire code payload).length ≤ 220 := by
    rw [wire_eq]
    simp only [List.length_cons, List.length_append, length_wireBody, wireKey]
    split_ifs <;> simp <;> omega
  refine ⟨appended_eq (Or.inl rfl) (buffers_openCon serverCon) ?_ ?_, hwire⟩
  · rw [HasRoom, (buffers_openCon serverCon).free_eq]
    simp only [bufferCapacity, List.length_nil]
    split_ifs <;> omega
  · simp only [bufferCapacity, List.length_nil]
    omega

/-- A text of two bytes from a client to a server, with a byte of the next frame behind it. -/
theorem roundTrips_text :
    ((openCon false).queue .textFrame [104, 105]).1 = true ∧
      (openCon true).Decodes (PositionedStream.ofList 1
        ((openCon false).wire .textFrame [104, 105] ++ [129]) (by decide)) .textFrame [104, 105]
        [129] := by
  have happ := (appended_openCon false .textFrame [104, 105] (by decide)).1
  refine (roundTrips_iff (Or.inl rfl) (buffers_openCon false).wf rfl rfl (by decide) rfl ?_).mpr
    ⟨by decide, fun h ↦ absurd h (by decide), by decide, by decide, fun h ↦ absurd h (by decide)⟩
  rw [happ]
  exact PositionedStream.unread_ofList _

/-- A client that sends 126 bytes: the server takes its key for the length. -/
theorem not_roundTrips_of_masked :
    ¬∀ (s c : Con 1) (p : PositionedStream 1) (code : WSOPCode) (payload follow : List UInt8),
      s.Sends → s.writeBuf.Wf → s.writeBuf.capacity = bufferCapacity →
      s.mask.length = wsMaskLen → (s.wire code payload).length ≤ s.writeBuf.free →
      c.writeBuf.capacity = bufferCapacity → c.state = .open →
      p.Unread (s.appended code payload ++ follow) →
      (s.queue code payload).1 = true ∧ c.Decodes p code payload follow := by
  intro h
  obtain ⟨happ, hlen⟩ := appended_openCon false .binaryFrame (List.replicate 126 0) (by simp)
  have hp : (PositionedStream.ofList 1 ((openCon false).wire .binaryFrame (List.replicate 126 0))
      (by omega)).Unread ((openCon false).wire .binaryFrame (List.replicate 126 0) ++ []) := by
    rw [List.append_nil]
    exact PositionedStream.unread_ofList _
  have hfree : (openCon false).writeBuf.free = bufferCapacity := (buffers_openCon false).free_eq
  have hround := (h (openCon false) (openCon true) _ .binaryFrame (List.replicate 126 0) []
    (Or.inl rfl) (buffers_openCon false).wf rfl rfl
    (by rw [hfree]; unfold bufferCapacity; omega) rfl rfl (by rw [happ]; exact hp)).2
  have hordered := ((decodes_iff rfl (by simp) (by decide) hp).mp hround).2.1 rfl
  rw [List.length_replicate] at hordered
  exact absurd hordered (by decide)

end Con

end Coypu
