import Coypu.Http2.Delimiting
import Coypu.Http2.Gate
import Coypu.Http2.Sending

/-!
# What `ProcessFrames` asserts

The lengths and the contents that a peer sends are asserted, and not checked. So a call returns if
and only if its frame is as these assertions say (`Asserted`), as long as what the handler of the
frame goes for has arrived (`Supplied`). The invariant is that the position of a stream is not
behind what it has received.
-/

set_option autoImplicit false

namespace Coypu

open Http2 Transport

/-- A call of the inflater that does not end the block takes a byte of it. -/
def GrpcLib.Progresses {σ Req Resp : Type} (lib : GrpcLib σ Req Resp) : Prop :=
  ∀ s block, (lib.inflate s block).ret < 0 ∨ (lib.inflate s block).final = true ∨
    (lib.inflate s block).emit = none ∧ block = [] ∨
      (block.drop (lib.inflate s block).ret.toNat).length < block.length

namespace H2Header

variable {σ Req Resp : Type} (hdr : H2Header)

/-- How far the handler of a frame goes, with `l` ahead. It looks at the length of the frame, or at
one in the payload. -/
def taken (l : List UInt8) : ℕ :=
  if hdr.type = H2FrameType.data.value then 5 + GrpcCall.grpcLen l
  else if hdr.type = H2FrameType.goaway.value then
    4 + (4 + min 1024 (CInt.toUnsigned 32 (hdr.length - 8)))
  else hdr.length

/-- What the handler goes for is ahead, where it does not assert this itself. The offset of a
request is an `int`. -/
def Supplied (lastPathMatch : Bool) (offset : ℕ) (l : List UInt8) : Prop :=
  if hdr.type = H2FrameType.data.value then
    5 ≤ l.length ∧ (lastPathMatch = true → offset + 5 < 2 ^ 31 ∧ hdr.taken l ≤ l.length)
  else if hdr.type = H2FrameType.goaway.value then hdr.taken l ≤ l.length
  else True

/-- The assertions of `DATA`: the message of a request is not compressed, it is decoded, and the
response to it fits a frame. What belongs to another path has arrived. -/
def DataAsserted (lib : GrpcLib σ Req Resp) (decode : Req → List UInt8 → Option Req) (request : Req)
    (lastPathMatch : Bool) (l : List UInt8) : Prop :=
  if lastPathMatch = true then
    l.headD 0 = 0 ∧ ∃ request' ∈ decode request ((l.drop 5).take (GrpcCall.grpcLen l)),
      (lib.serialize (lib.cb request').1).length + 5 < initialSettingsMaxFrameSize
  else 5 + GrpcCall.grpcLen l ≤ l.length

/-- The assertions of the handler of a frame. -/
def Asserted (lib : GrpcLib σ Req Resp) (decode : Req → List UInt8 → Option Req) (request : Req)
    (lastPathMatch : Bool) (l : List UInt8) : Prop :=
  if hdr.type = H2FrameType.headers.value then hdr.length < http2HeaderBufSize
  else if hdr.type = H2FrameType.data.value then DataAsserted lib decode request lastPathMatch l
  else if hdr.type = H2FrameType.goaway.value then True
  else if hdr.type = H2FrameType.windowUpdate.value then hdr.length = 4
  else if hdr.type = H2FrameType.settings.value then hdr.length % 6 = 0
  else True

instance (lastPathMatch : Bool) (offset : ℕ) (l : List UInt8) :
    Decidable (hdr.Supplied lastPathMatch offset l) :=
  inferInstanceAs (Decidable (ite _ _ (ite _ _ _)))

instance (lib : GrpcLib σ Req Resp) (decode : Req → List UInt8 → Option Req) (request : Req)
    (lastPathMatch : Bool) (l : List UInt8) :
    Decidable (DataAsserted lib decode request lastPathMatch l) :=
  inferInstanceAs (Decidable (ite _ (_ ∧ _) _))

instance (lib : GrpcLib σ Req Resp) (decode : Req → List UInt8 → Option Req) (request : Req)
    (lastPathMatch : Bool) (l : List UInt8) :
    Decidable (hdr.Asserted lib decode request lastPathMatch l) :=
  inferInstanceAs (Decidable (ite _ _ (ite _ _ (ite _ _ (ite _ _ (ite _ _ _))))))

end H2Header

/-! ## The handlers -/

namespace GrpcCall

variable {σ Req Resp : Type} {lib : GrpcLib σ Req Resp} {decode : Req → List UInt8 → Option Req}
  {c c' : GrpcCall σ Req} {l : List UInt8} {n : ℕ}

theorem inflateLoop_returns (hlib : lib.Progresses) {fuel : ℕ} {s : σ} {lastPathMatch : Bool}
    {block : List UInt8} {fields : List Field} (hfuel : block.length < fuel) :
    ∃ q, inflateLoop lib fuel s lastPathMatch block fields = some q := by
  induction fuel generalizing s lastPathMatch block fields with
  | zero => exact absurd hfuel (Nat.not_lt_zero _)
  | succ fuel ih =>
    rw [inflateLoop]
    simp only
    split_ifs with hneg hfinal hend
    · exact ⟨_, rfl⟩
    · exact ⟨_, rfl⟩
    · exact ⟨_, rfl⟩
    · refine ih (Nat.lt_of_lt_of_le ?_ (Nat.le_of_lt_succ hfuel))
      rcases hlib s block with hneg' | hfinal' | ⟨hnone, rfl⟩ | hless
      · exact absurd hneg' hneg
      · exact absurd hfinal' hfinal
      · exact absurd ⟨hnone, List.drop_nil⟩ hend
      · exact hless

theorem inflateHeaderBlock_returns (hlib : lib.Progresses) (block : List UInt8) :
    ∃ c', c.inflateHeaderBlock lib block = some c' := by
  have hloop : ∃ q, inflateLoop lib (block.length + 1) c.inflater c.con.lastPathMatch block []
      = some q := inflateLoop_returns hlib (Nat.lt_succ_self block.length)
  obtain ⟨q, hq⟩ := hloop
  rw [inflateHeaderBlock, hq]
  exact ⟨_, rfl⟩

theorem headersFrame_returns_iff (hasserts : lib.asserts = true) (hlib : lib.Progresses)
    (h : c.con.stream.Ahead l) (hn : n ≤ l.length) :
    (∃ c', c.headersFrame lib n = some c') ↔ n < http2HeaderBufSize := by
  have hmax : n ≤ lib.maxHeaders ↔ n < http2HeaderBufSize := by
    rw [GrpcLib.maxHeaders, if_pos hasserts]
    exact Nat.le_sub_one_iff_lt (by decide)
  rw [← hmax]
  constructor
  · rintro ⟨c', heq⟩
    exact le_of_headersFrame heq
  · intro hlen
    obtain ⟨r, cache, hpop, -, hr⟩ := h.pop hn
    rw [headersFrame_eq hlen, hpop, Option.bind_some]
    rcases Nat.eq_zero_or_pos n with rfl | hpos
    · -- an array that is not filled is not read
      cases r with
      | none => exact inflateHeaderBlock_returns hlib []
      | some block => exact inflateHeaderBlock_returns hlib block
    · rw [hr hpos]
      exact inflateHeaderBlock_returns hlib _

/-- The message of a `GOAWAY` is cut at 1024 bytes. Of a payload that is too short for one, as many
are taken. -/
theorem goawayFrame_returns (lib : GrpcLib σ Req Resp) (h : c.con.stream.Ahead l)
    (hn : 4 + (4 + min 1024 (CInt.toUnsigned 32 (n - 8))) ≤ l.length) :
    ∃ c', c.goawayFrame lib n = some c' ∧
      Moved c c' (4 + (4 + min 1024 (CInt.toUnsigned 32 (n - 8))))
        (l.drop (4 + (4 + min 1024 (CInt.toUnsigned 32 (n - 8))))) := by
  generalize hsize : min 1024 (CInt.toUnsigned 32 ((n : ℤ) - 8)) = size at hn ⊢
  obtain ⟨c₁, hpop, hmoved⟩ := popValue_moved lib (n := 4) h (by omega) (by omega)
  obtain ⟨c₂, hpop', hmoved'⟩ := popValue_moved lib (n := 4) hmoved.ahead (by omega)
    (by rw [List.length_drop]; omega)
  obtain ⟨r, cache, hpop'', hahead, -⟩ := hmoved'.ahead.pop (n := size)
    (by rw [List.length_drop, List.length_drop]; omega)
  have hall := hmoved.trans (hmoved'.trans (withStream_moved hahead))
  rw [List.drop_drop, List.drop_drop] at hall
  refine ⟨_, ?_, hall⟩
  rw [goawayFrame, hpop, Option.bind_some, hpop', Option.bind_some, hsize, hpop'']
  rfl

theorem windowUpdateFrame_returns_iff (hasserts : lib.asserts = true) (h : c.con.stream.Ahead l)
    (hn : n ≤ l.length) : (∃ c', c.windowUpdateFrame lib n = some c') ↔ n = 4 := by
  rw [windowUpdateFrame]
  constructor
  · rintro ⟨c', heq⟩
    by_contra hfour
    rw [if_pos ⟨hasserts, hfour⟩] at heq
    exact absurd heq (by simp)
  · rintro rfl
    obtain ⟨c₁, hpop, -⟩ := popValue_moved lib (n := 4) h (by omega) hn
    rw [if_neg (by simp), hpop]
    exact ⟨_, rfl⟩

theorem settingsLoop_returns (lib : GrpcLib σ Req Resp) {fuel i : ℕ} (h : c.con.stream.Ahead l)
    (hi : n - i ≤ l.length) (hdvd : (n - i) % 6 = 0) (hfuel : n - i < fuel) :
    ∃ c', settingsLoop lib n fuel i c = some c' := by
  induction fuel generalizing i c l with
  | zero => exact absurd hfuel (Nat.not_lt_zero _)
  | succ fuel ih =>
    rw [settingsLoop]
    split_ifs with hlt
    · obtain ⟨c₁, hpop, hmoved⟩ := popValue_moved lib (n := 2) h (by omega) (by omega)
      obtain ⟨c₂, hpop', hmoved'⟩ := popValue_moved lib (n := 4) hmoved.ahead (by omega)
        (by rw [List.length_drop]; omega)
      rw [hpop, Option.bind_some, hpop', Option.bind_some]
      exact ih hmoved'.ahead (by rw [List.drop_drop, List.length_drop]; omega) (by omega)
        (by omega)
    · exact ⟨c, rfl⟩

theorem settingsFrame_returns_iff (hasserts : lib.asserts = true) (h : c.con.stream.Ahead l)
    (hn : n ≤ l.length) : (∃ c', c.settingsFrame lib n = some c') ↔ n % 6 = 0 := by
  rw [settingsFrame]
  constructor
  · rintro ⟨c', heq⟩
    by_contra hsix
    rw [if_pos ⟨hasserts, hsix⟩] at heq
    exact absurd heq (by simp)
  · intro hsix
    have hfirst : Sending 0 c
        (if c.con.frameCount = 1 then c.sendFrame (H2Header.new .settings) [] else c) := by
      split_ifs
      · exact sending_sendFrame (rfl : (H2Header.new .settings).id = 0) _
      · exact .refl c
    obtain ⟨c₂, hloop⟩ := settingsLoop_returns lib (i := 0)
      (hfirst.moved h).ahead hn hsix (Nat.lt_succ_self n)
    simp only
    rw [if_neg (by simp [hsix]), hloop]
    exact ⟨_, rfl⟩

theorem mismatchFrame_returns_iff (hasserts : lib.asserts = true) (h : c.con.stream.Ahead l) :
    (∃ c', c.mismatchFrame lib n = some c') ↔ n ≤ l.length := by
  rw [mismatchFrame]
  constructor
  · rintro ⟨c', heq⟩
    by_contra hlen
    have hfails : (c.con.stream.skip n).1 = false := by
      rw [PositionedLog.skip, h.available_eq, if_neg hlen]
    simp only [hfails] at heq
    rw [if_pos ⟨hasserts, trivial⟩] at heq
    exact absurd heq (by simp)
  · intro hlen
    rw [(h.skip hlen).1]
    exact ⟨_, if_neg (by simp)⟩

theorem respond_returns_iff (hasserts : lib.asserts = true) {request : Req} :
    (∃ c', c.respond lib request = some c') ↔
      (lib.serialize (lib.cb request).1).length + 5 < initialSettingsMaxFrameSize := by
  rw [respond]
  simp only
  split_ifs with hsize
  · exact iff_of_false (by simp) (Nat.not_lt.mpr hsize.2)
  · refine iff_of_true ⟨_, rfl⟩ ?_
    exact Nat.lt_of_not_le fun hle ↦ hsize ⟨hasserts, hle⟩

/-- A request is answered if its message is decoded, and the response fits a frame. -/
theorem requestFrame_returns_iff (hasserts : lib.asserts = true) (hdec : lib.Decodes decode)
    (h : c.con.stream.Ahead l) (hoffset : c.con.stream.curOffset < 2 ^ 31) (hn : n ≤ l.length) :
    (∃ c', c.requestFrame lib n = some c') ↔ ∃ request ∈ decode c.request (l.take n),
      (lib.serialize (lib.cb request).1).length + 5 < initialSettingsMaxFrameSize := by
  constructor
  · rintro ⟨c', heq⟩
    obtain ⟨request, cache, hmessage, -, hrespond⟩ :=
      requestFrame_cases hdec h hoffset hn (Or.inr hasserts) heq
    exact ⟨request, hmessage, (respond_returns_iff hasserts).mp ⟨c', hrespond⟩⟩
  · rintro ⟨request, hmessage, hsize⟩
    have hlen : (l.take n).length = n := by rw [List.length_take, Nat.min_eq_left hn]
    have hmerged := hdec.merged hmessage
    rw [hlen] at hmerged
    obtain ⟨a, t, hrun, rfl, -⟩ :=
      LogZeroCopyInputStream.run_of_takes h hoffset hn hmerged lib.asserts
    rw [requestFrame, hrun, Option.bind_some, if_neg (by simp)]
    exact (respond_returns_iff hasserts).mpr hsize

theorem dataFrame_returns_iff (hasserts : lib.asserts = true) (hdec : lib.Decodes decode)
    (h : c.con.stream.Ahead l) (hfive : 5 ≤ l.length)
    (hmatch : c.con.lastPathMatch = true →
      c.con.stream.curOffset + 5 < 2 ^ 31 ∧ 5 + grpcLen l ≤ l.length) :
    (∃ c', c.dataFrame lib = some c') ↔
      H2Header.DataAsserted lib decode c.request c.con.lastPathMatch l := by
  obtain ⟨r, cache, hpop, hahead, hr⟩ := h.pop hfive
  have hdata : Bytes.decode ((l.take 5).drop 1) = grpcLen l := rfl
  have hhead : (l.take 5).headD 0 = l.headD 0 := by
    cases l with
    | nil => rfl
    | cons x l => rfl
  rw [dataFrame, hpop, hr (by decide), Option.bind_some, Option.getD_some]
  simp only [hdata, hhead, hasserts, true_and]
  rw [H2Header.DataAsserted]
  have hrest : (l.drop 5).length = l.length - 5 := List.length_drop
  by_cases hpath : c.con.lastPathMatch = true
  · obtain ⟨hoffset, hlen⟩ := hmatch hpath
    rw [if_pos hpath, if_pos hpath]
    by_cases hbyte : l.headD 0 = 0
    · rw [if_neg (not_not.mpr hbyte), and_iff_right hbyte]
      exact requestFrame_returns_iff (c := c.withStream (c.con.stream.moved 5 cache)) hasserts hdec
        hahead hoffset (by omega)
    · rw [if_pos hbyte]
      exact iff_of_false (by simp) fun hboth ↦ hbyte hboth.1
  · rw [if_neg hpath, if_neg hpath,
      mismatchFrame_returns_iff (c := c.withStream (c.con.stream.moved 5 cache)) hasserts hahead,
      hrest]
    omega

/-- **Where the handler of a frame returns.** -/
theorem frame_returns_iff (hasserts : lib.asserts = true) (hdec : lib.Decodes decode)
    (hlib : lib.Progresses) (h : c.con.stream.Ahead l) (hn : c.con.hdr.length ≤ l.length)
    (hsupplied : c.con.hdr.Supplied c.con.lastPathMatch c.con.stream.curOffset l) :
    (∃ c', c.frame lib c.con.hdr.length = some c') ↔
      c.con.hdr.Asserted lib decode c.request c.con.lastPathMatch l := by
  rw [frame, H2Header.Asserted]
  rw [H2Header.Supplied, H2Header.taken] at hsupplied
  split_ifs at hsupplied ⊢ with hheaders hdata hgoaway hwindow hsettings
  · exact headersFrame_returns_iff hasserts hlib h hn
  · exact headersFrame_returns_iff hasserts hlib h hn
  · exact headersFrame_returns_iff hasserts hlib h hn
  · exact dataFrame_returns_iff hasserts hdec h hsupplied.1 hsupplied.2
  · obtain ⟨c', heq, -⟩ := goawayFrame_returns lib h hsupplied
    exact iff_of_true ⟨c', heq⟩ trivial
  · exact windowUpdateFrame_returns_iff hasserts h hn
  · exact settingsFrame_returns_iff hasserts h hn
  · exact iff_of_true ⟨_, rfl⟩ trivial

/-- A handler that returns leaves the stream in front of what has not been taken. -/
theorem dataFrame_ahead (hasserts : lib.asserts = true) (hdec : lib.Decodes decode)
    (h : c.con.stream.Ahead l) (hfive : 5 ≤ l.length)
    (hmatch : c.con.lastPathMatch = true →
      c.con.stream.curOffset + 5 < 2 ^ 31 ∧ 5 + grpcLen l ≤ l.length)
    (heq : c.dataFrame lib = some c') : ∃ k, c'.con.stream.Ahead k := by
  have hlen : 5 + grpcLen l ≤ l.length := by
    have hdata := (dataFrame_returns_iff hasserts hdec h hfive hmatch).mp ⟨c', heq⟩
    rw [H2Header.DataAsserted] at hdata
    split_ifs at hdata with hpath
    · exact (hmatch hpath).2
    · exact hdata
  have htake : (l.take (5 + grpcLen l)).length = 5 + grpcLen l := by
    rw [List.length_take, Nat.min_eq_left hlen]
  have hfits : DataFits lib decode c (l.take (5 + grpcLen l)) := by
    refine ⟨by omega, ?_, fun hpath ↦ ⟨(hmatch hpath).1, Or.inr hasserts⟩⟩
    rw [htake, Nat.add_sub_cancel_left, grpcLen, grpcLen, List.take_take,
      Nat.min_eq_left (Nat.le_add_right _ _)]
  exact ⟨_, (dataFrame_moved hdec h hlen hfits heq).ahead⟩

theorem frame_ahead (hasserts : lib.asserts = true) (hdec : lib.Decodes decode)
    (h : c.con.stream.Ahead l) (hn : c.con.hdr.length ≤ l.length)
    (hsupplied : c.con.hdr.Supplied c.con.lastPathMatch c.con.stream.curOffset l)
    (heq : c.frame lib c.con.hdr.length = some c') : ∃ k, c'.con.stream.Ahead k := by
  rw [frame] at heq
  rw [H2Header.Supplied, H2Header.taken] at hsupplied
  split_ifs at heq hsupplied with hheaders hdata hgoaway hwindow hsettings
  · exact ⟨_, (headersFrame_moved h hn heq).ahead⟩
  · exact ⟨_, (headersFrame_moved h hn heq).ahead⟩
  · exact ⟨_, (headersFrame_moved h hn heq).ahead⟩
  · exact dataFrame_ahead hasserts hdec h hsupplied.1 hsupplied.2 heq
  · obtain ⟨c₁, heq', hmoved⟩ := goawayFrame_returns lib h hsupplied
    obtain rfl := Option.some.inj (heq'.symm.trans heq)
    exact ⟨_, hmoved.ahead⟩
  · exact ⟨_, (windowUpdateFrame_moved h hn (Or.inr hasserts) heq).ahead⟩
  · exact ⟨_, (settingsFrame_moved h hn (Or.inr hasserts) heq).ahead⟩
  · obtain ⟨hskip, hahead⟩ := h.skip hn
    rw [hskip] at heq
    obtain rfl := Option.some.inj heq
    exact ⟨_, hahead⟩

end GrpcCall

/-! ## One call -/

namespace H2Connection

variable {σ Req Resp : Type} (con : H2Connection)

/-- What the handler of the next frame goes for has arrived, if the frame has. -/
def Supplied : Prop :=
  ∀ r ∈ con.nextFrame, r.2 + r.1.length ≤ con.stream.log.available →
    r.1.Supplied con.lastPathMatch r.2 (con.stream.received.drop r.2)

/-- The next frame is as its handler asserts, if it has arrived. -/
def Asserted (lib : GrpcLib σ Req Resp) (decode : Req → List UInt8 → Option Req)
    (request : Req) : Prop :=
  ∀ r ∈ con.nextFrame, r.2 + r.1.length ≤ con.stream.log.available →
    r.1.Asserted lib decode request con.lastPathMatch (con.stream.received.drop r.2)

instance : Decidable con.Supplied := inferInstanceAs (Decidable (∀ r ∈ con.nextFrame, _ → _))

instance (lib : GrpcLib σ Req Resp) (decode : Req → List UInt8 → Option Req) (request : Req) :
    Decidable (con.Asserted lib decode request) :=
  inferInstanceAs (Decidable (∀ r ∈ con.nextFrame, _ → _))

end H2Connection

namespace GrpcCall

variable {σ Req Resp : Type} {lib : GrpcLib σ Req Resp} {decode : Req → List UInt8 → Option Req}
  {c c' : GrpcCall σ Req} {l : List UInt8} {ret : ℤ}

theorem nextFrame_of_ahead {P : H2Header → ℕ → List UInt8 → Prop} (h : c.con.stream.Ahead l)
    (hstate : c.con.state = .readFrame) :
    (∀ r ∈ c.con.nextFrame, r.2 + r.1.length ≤ c.con.stream.log.available →
      P r.1 r.2 (c.con.stream.received.drop r.2)) ↔
        (c.con.hdr.length ≤ l.length → P c.con.hdr c.con.stream.curOffset l) := by
  have hnext : c.con.nextFrame = some (c.con.hdr, c.con.stream.curOffset) := by
    rw [H2Connection.nextFrame, hstate]
  have hoffset := h.offset_eq
  rw [hnext]
  constructor
  · intro hall hlen
    have hP := hall _ rfl (by simp only; omega)
    rwa [h.drop_received] at hP
  · intro hP r hr hlen
    obtain rfl := Option.some.inj hr
    rw [h.drop_received]
    exact hP (by simp only at hlen; omega)

/-- A payload is waited for, or its handler returns if it is as this asserts. -/
theorem processFrame_returns_iff (hasserts : lib.asserts = true) (hdec : lib.Decodes decode)
    (hlib : lib.Progresses) (h : c.con.stream.Ahead l) (hstate : c.con.state = .readFrame)
    (hsupplied : c.con.Supplied) :
    (∃ r, c.processFrame lib = some r) ↔ c.con.Asserted lib decode c.request := by
  rw [H2Connection.Supplied,
    nextFrame_of_ahead (P := fun hdr offset ↦ hdr.Supplied c.con.lastPathMatch offset) h hstate]
    at hsupplied
  rw [H2Connection.Asserted,
    nextFrame_of_ahead (P := fun hdr _ ↦ hdr.Asserted lib decode c.request c.con.lastPathMatch) h
      hstate, processFrame, h.available_eq]
  simp only
  split_ifs with hlen
  · have hframe := frame_returns_iff (c := c.withCon { c.con with
      frameCount := CInt.toUnsigned 32 (c.con.frameCount + 1 : ℕ) }) hasserts hdec hlib h hlen
      (hsupplied hlen)
    constructor
    · rintro ⟨r, hr⟩ -
      obtain ⟨c₂, hc₂, -⟩ := Option.map_eq_some_iff.mp hr
      exact hframe.mp ⟨c₂, hc₂⟩
    · intro hasserted
      obtain ⟨c₂, hc₂⟩ := hframe.mpr (hasserted hlen)
      exact ⟨_, Option.map_eq_some_iff.mpr ⟨c₂, hc₂, rfl⟩⟩
  · exact iff_of_true ⟨_, rfl⟩ fun hle ↦ absurd hle hlen

theorem processFrame_ahead (hasserts : lib.asserts = true) (hdec : lib.Decodes decode)
    (h : c.con.stream.Ahead l) (hstate : c.con.state = .readFrame) (hsupplied : c.con.Supplied)
    (heq : c.processFrame lib = some (ret, c')) : ∃ k, c'.con.stream.Ahead k := by
  rw [H2Connection.Supplied,
    nextFrame_of_ahead (P := fun hdr offset ↦ hdr.Supplied c.con.lastPathMatch offset) h hstate]
    at hsupplied
  rw [processFrame, h.available_eq] at heq
  simp only at heq
  split_ifs at heq with hlen
  · obtain ⟨c₂, hframe, hr⟩ := Option.map_eq_some_iff.mp heq
    obtain rfl : _ = c' := congrArg Prod.snd hr
    obtain ⟨k, hk⟩ := frame_ahead (c := c.withCon { c.con with
      frameCount := CInt.toUnsigned 32 (c.con.frameCount + 1 : ℕ) }) hasserts hdec h hlen
      (hsupplied hlen) hframe
    exact ⟨k, hk⟩
  · obtain ⟨-, rfl⟩ := Prod.ext_iff.mp (Option.some.inj heq)
    exact ⟨l, h⟩

theorem processFrames_of_header (lib : GrpcLib σ Req Resp) (h : c.con.stream.Ahead l)
    (hstate : c.con.state = .readFrameHeader) (hlen : http2FrameHdrSize ≤ l.length) :
    ∃ c₁ : GrpcCall σ Req, c.processFrames lib = c₁.processFrame lib ∧ c₁.request = c.request ∧
      c₁.con.state = .readFrame ∧ c₁.con.stream.Ahead (l.drop http2FrameHdrSize) ∧
      c₁.con.nextFrame = c.con.nextFrame ∧ c₁.con.lastPathMatch = c.con.lastPathMatch ∧
      c₁.con.stream.received = c.con.stream.received := by
  obtain ⟨r, cache, hpop, hahead, hr⟩ := h.pop hlen
  have htake : l.take http2FrameHdrSize
      = frameFormat.header c.con.stream.received c.con.stream.curOffset := by
    rw [Delimited.Format.header, h.drop_received]
    rfl
  refine ⟨(c.withCon { c.con with
    stream := c.con.stream.moved http2FrameHdrSize cache,
    hdr := (H2Header.ofBytes (l.take http2FrameHdrSize)).clearBit
    state := .readFrame }).emit (.header (l.take http2FrameHdrSize)), ?_, rfl, rfl, hahead, ?_, rfl,
    rfl⟩
  · rw [processFrames, hstate]
    simp only
    rw [h.available_eq, if_pos hlen, hpop, hr (by decide)]
    rfl
  · rw [H2Connection.nextFrame, H2Connection.nextFrame, hstate]
    simp only
    rw [h.available_eq, if_pos hlen, ← htake]
    rfl

/-- **Where a call returns.** -/
theorem processFrames_returns_iff (hasserts : lib.asserts = true) (hdec : lib.Decodes decode)
    (hlib : lib.Progresses) (h : c.con.stream.Ahead l) (hreads : c.con.ReadsFrames)
    (hsupplied : c.con.Supplied) :
    (∃ r, c.processFrames lib = some r) ↔ c.con.Asserted lib decode c.request := by
  rcases hreads with hstate | hstate
  · by_cases hlen : http2FrameHdrSize ≤ l.length
    · obtain ⟨c₁, hcall, hrequest, hstate₁, hahead, hnext, hmatch, hreceived⟩ :=
        processFrames_of_header lib h hstate hlen
      have hlength := congrArg List.length hreceived
      rw [PositionedLog.length_received, PositionedLog.length_received] at hlength
      have hiff := processFrame_returns_iff hasserts hdec hlib hahead hstate₁
      rw [H2Connection.Supplied, H2Connection.Asserted, hnext, hmatch, hreceived, hlength,
        hrequest] at hiff
      rw [hcall]
      exact hiff hsupplied
    · have hwaits : c.processFrames lib = some (0, c) := by
        rw [processFrames, hstate]
        simp only
        rw [h.available_eq, if_neg hlen]
      have hnone : c.con.nextFrame = none := by
        rw [H2Connection.nextFrame, hstate]
        simp only
        rw [h.available_eq, if_neg hlen]
      refine iff_of_true ⟨_, hwaits⟩ fun r hr ↦ ?_
      rw [hnone] at hr
      exact absurd hr (by simp)
  · have hcall : c.processFrames lib = c.processFrame lib := by rw [processFrames, hstate]
    rw [hcall]
    exact processFrame_returns_iff hasserts hdec hlib h hstate hsupplied

theorem processFrames_ahead (hasserts : lib.asserts = true) (hdec : lib.Decodes decode)
    (h : c.con.stream.Ahead l) (hreads : c.con.ReadsFrames) (hsupplied : c.con.Supplied)
    (heq : c.processFrames lib = some (ret, c')) : ∃ k, c'.con.stream.Ahead k := by
  rcases hreads with hstate | hstate
  · by_cases hlen : http2FrameHdrSize ≤ l.length
    · obtain ⟨c₁, hcall, -, hstate₁, hahead, hnext, hmatch, hreceived⟩ :=
        processFrames_of_header lib h hstate hlen
      have hlength := congrArg List.length hreceived
      rw [PositionedLog.length_received, PositionedLog.length_received] at hlength
      rw [hcall] at heq
      refine processFrame_ahead hasserts hdec hahead hstate₁ ?_ heq
      rw [H2Connection.Supplied, hnext, hmatch, hreceived, hlength]
      exact hsupplied
    · rw [processFrames, hstate] at heq
      simp only at heq
      rw [h.available_eq, if_neg hlen] at heq
      obtain ⟨-, rfl⟩ := Prod.ext_iff.mp (Option.some.inj heq)
      exact ⟨l, h⟩
  · rw [processFrames, hstate] at heq
    exact processFrame_ahead hasserts hdec h hstate hsupplied heq

end GrpcCall

/-! ## Runs -/

/-- The preface has not arrived, or frames are read from a stream whose position is not behind what
it has received. -/
def H2Connection.InFront (arrived : List UInt8) (con : H2Connection) : Prop :=
  con.Connecting arrived ∨ (http2Hdr <+: arrived ∧ con.ReadsFrames ∧ ∃ l, con.stream.Ahead l) ∨
    H2Connection.Refused arrived

theorem H2Connection.InFront.receive {arrived : List UInt8} {con : H2Connection}
    (h : con.InFront arrived) (cb : Reader UInt8)
    (hfits : http2Hdr <+: arrived → con.ReadsFrames → con.stream.log.available < 2 ^ 32) :
    (con.receive cb).2.InFront (arrived ++ con.delivered cb) := by
  rcases h with h | ⟨hpre, hreads, l, hahead⟩ | h
  · rcases h.receive_cases cb with hafter | hafter | ⟨hrefused, -⟩
    · exact Or.inl hafter
    · exact Or.inr (Or.inl ⟨hafter.preface, Or.inl hafter.state_eq, hafter.ahead⟩)
    · exact Or.inr (Or.inr hrefused)
  · obtain ⟨-, hahead', -⟩ := hahead.readv cb (by
      rw [hahead.pageSize_eq]
      exact pagesFit_of_lt (hfits hpre hreads))
    have hstate : con.state = .readFrameHeader ∨ con.state = .readFrame := hreads
    have heq : (con.receive cb).2 = { con with stream := (con.stream.readv cb).2 } := by
      rw [H2Connection.receive]
      simp only [if_pos hstate, if_neg hreads.ne_connecting]
      split_ifs <;> rfl
    rw [heq]
    exact Or.inr (Or.inl ⟨hpre.trans (List.prefix_append _ _), hreads, _, hahead'⟩)
  · exact Or.inr (Or.inr (h.append _))

namespace GrpcFeed

variable {σ Req Resp : Type}

/-- `ProcessFrames` returns for a connection that has sent the preface. -/
def Returns (lib : GrpcLib σ Req Resp) (s : GrpcFeed σ Req) : GrpcOp → Prop
  | .processFrames fd => http2Hdr <+: s.arrived fd →
      (s.step lib (.processFrames fd)).2.isSome = true
  | .registerConnection _ | .unregister _ | .receive _ _ => True

/-- Bytes arrive behind fewer than `2³²` others, and what the handler of a frame goes for before
this. -/
def Supplied (s : GrpcFeed σ Req) : GrpcOp → Prop
  | .receive fd _ => ∀ con ∈ s.manager.connections fd, http2Hdr <+: s.arrived fd →
      con.ReadsFrames → con.stream.log.available < 2 ^ 32
  | .processFrames fd => ∀ con ∈ s.manager.connections fd, http2Hdr <+: s.arrived fd → con.Supplied
  | .registerConnection _ | .unregister _ => True

/-- The frame is as its handler asserts. -/
def Asserted (lib : GrpcLib σ Req Resp) (decode : Req → List UInt8 → Option Req)
    (s : GrpcFeed σ Req) : GrpcOp → Prop
  | .processFrames fd => ∀ con ∈ s.manager.connections fd, http2Hdr <+: s.arrived fd →
      con.Asserted lib decode s.manager.request
  | .registerConnection _ | .unregister _ | .receive _ _ => True

instance (lib : GrpcLib σ Req Resp) (s : GrpcFeed σ Req) : DecidablePred (s.Returns lib)
  | .processFrames _ => inferInstanceAs (Decidable (_ → _))
  | .registerConnection _ | .unregister _ | .receive _ _ => .isTrue trivial

instance (lib : GrpcLib σ Req Resp) (decode : Req → List UInt8 → Option Req) (s : GrpcFeed σ Req) :
    DecidablePred (s.Asserted lib decode)
  | .processFrames _ => inferInstanceAs (Decidable (∀ con ∈ s.manager.connections _, _ → _))
  | .registerConnection _ | .unregister _ | .receive _ _ => .isTrue trivial

instance (s : GrpcFeed σ Req) : DecidablePred s.Supplied
  | .receive _ _ => inferInstanceAs (Decidable (∀ con ∈ s.manager.connections _, _ → (_ ∨ _) → _))
  | .processFrames _ => inferInstanceAs (Decidable (∀ con ∈ s.manager.connections _, _ → _))
  | .registerConnection _ | .unregister _ => .isTrue trivial

/-- The condition on a step: what the handler of the frame goes for has arrived, and the frame is as
it asserts. -/
def Expected (lib : GrpcLib σ Req Resp) (decode : Req → List UInt8 → Option Req)
    (s : GrpcFeed σ Req) (op : GrpcOp) : Prop := s.Supplied op ∧ s.Asserted lib decode op

instance (lib : GrpcLib σ Req Resp) (decode : Req → List UInt8 → Option Req) (s : GrpcFeed σ Req) :
    DecidablePred (s.Expected lib decode) := fun _ ↦ inferInstanceAs (Decidable (_ ∧ _))

/-- The invariant of the connections. -/
def InFront (s : GrpcFeed σ Req) : Prop :=
  ∀ fd con, s.manager.connections fd = some con → con.InFront (s.arrived fd)

variable {lib : GrpcLib σ Req Resp} {decode : Req → List UInt8 → Option Req} {s : GrpcFeed σ Req}
  {op : GrpcOp}

theorem InFront.step (hasserts : lib.asserts = true) (hdec : lib.Decodes decode) (h : s.InFront)
    (hsupplied : s.Supplied op) : InFront (s.step lib op).1 := by
  refine forall_step (P := fun con l ↦ con.InFront l) h op ?_ (fun fd cb con hop hcon ↦ ?_)
    fun fd con ret c' hop hcon hcall ↦ ?_
  · exact Or.inl ⟨rfl, by decide, BipBuf.rep_new _ _, rfl, rfl, rfl, rfl⟩
  · subst hop
    exact (h fd con hcon).receive cb (hsupplied con hcon)
  · subst hop
    rcases h fd con hcon with hconn | ⟨hpre, hreads, l, hahead⟩ | hrefused
    · rw [GrpcCall.processFrames, HTTP2GRPCManager.call, hconn.state_eq] at hcall
      obtain ⟨-, rfl⟩ := Prod.ext_iff.mp (Option.some.inj hcall)
      exact Or.inl hconn
    · exact Or.inr (Or.inl ⟨hpre, readsFrames_processFrames hreads hcall,
        GrpcCall.processFrames_ahead hasserts hdec hahead hreads (hsupplied con hcon hpre) hcall⟩)
    · exact Or.inr (Or.inr hrefused)

theorem InFront.returns_iff (hasserts : lib.asserts = true) (hdec : lib.Decodes decode)
    (hlib : lib.Progresses) (h : s.InFront) (hsupplied : s.Supplied op) :
    s.Returns lib op ↔ s.Asserted lib decode op := by
  cases op with
  | registerConnection | unregister | receive => exact Iff.rfl
  | processFrames fd =>
    rw [Returns, Asserted]
    cases hcon : s.manager.connections fd with
    | none =>
      refine iff_of_true (fun _ ↦ ?_) fun con hmem ↦ absurd hmem (by simp)
      rw [GrpcFeed.step, HTTP2GRPCManager.step, hcon]
      rfl
    | some con =>
      -- the step returns if the call for the connection does
      have hstep : (s.step lib (.processFrames fd)).2.isSome = true ↔
          ∃ r, (s.manager.call con).processFrames lib = some r := by
        rcases processFrames_cases lib hcon with hnone | ⟨ret, c', hcall, hsome⟩
        · cases hcall : (s.manager.call con).processFrames lib with
          | none => simp [hnone]
          | some r =>
            rw [GrpcFeed.step, HTTP2GRPCManager.step_of_some hcon hcall]
            exact iff_of_true rfl ⟨r, rfl⟩
        · rw [hsome]
          exact iff_of_true rfl ⟨_, hcall⟩
      rw [hstep]
      simp only [Option.mem_some_iff, forall_eq']
      refine imp_congr_right fun hpre ↦ ?_
      rcases h fd con hcon with hconn | ⟨-, hreads, l, hahead⟩ | hrefused
      · exact absurd hpre hconn.not_prefix
      · exact GrpcCall.processFrames_returns_iff hasserts hdec hlib hahead hreads
          (hsupplied con hcon hpre)
      · exact absurd hpre hrefused.2

/-- **Where no assertion fails.** Each `ProcessFrames` returns in a run whose steps meet the
condition. Where what the handlers of the frames go for has arrived, it returns in no others. -/
theorem feed_returns (hasserts : lib.asserts = true) (hdec : lib.Decodes decode)
    (hlib : lib.Progresses) (inflater : σ) (request : Req) (ops : List GrpcOp) :
    (Run.Steps (step lib) (Expected lib decode) (new inflater request) ops →
        Run.Steps (step lib) (Returns lib) (new inflater request) ops) ∧
      (Run.Steps (step lib) Supplied (new inflater request) ops →
        Run.Steps (step lib) (Returns lib) (new inflater request) ops →
        Run.Steps (step lib) (Asserted lib decode) (new inflater request) ops) := by
  have hnew : (new inflater request).InFront := fun _ _ hcon ↦
    absurd hcon (by simp [new, HTTP2GRPCManager.new])
  have hiff (hsupplied : Run.Steps (step lib) Supplied (new inflater request) ops) :
      Run.Steps (step lib) (Returns lib) (new inflater request) ops ↔
        Run.Steps (step lib) (Asserted lib decode) (new inflater request) ops :=
    Run.steps_congr_of_invariant (P := InFront) (fun _ _ hs hok ↦ hs.step hasserts hdec hok)
      (fun _ _ hs hok ↦ hs.returns_iff hasserts hdec hlib hok) hnew hsupplied
  refine ⟨fun hexpected ↦ ?_, fun hsupplied hreturns ↦ (hiff hsupplied).mp hreturns⟩
  obtain ⟨hsupplied, hasserted⟩ := Run.steps_and.mp hexpected
  exact (hiff hsupplied).mpr hasserted

theorem plain_progresses (asserts : Bool) : (GrpcLib.plain asserts).Progresses :=
  fun _ _ ↦ Or.inl (Int.negSucc_lt_zero 522)

theorem feed_returns_threeFrames :
    Run.Steps (step (GrpcLib.plain true)) (Returns (GrpcLib.plain true)) (new () [])
      (arriving threeFrames (by decide) ++ List.replicate 3 (.processFrames 3)) :=
  (feed_returns rfl (GrpcLib.plain_decodes true) (plain_progresses true) () [] _).1
    (by decide +kernel)

/-- A window update of five bytes ends the process. -/
theorem not_returns_of_windowUpdate : ¬∀ ops : List GrpcOp,
    Run.Steps (step (GrpcLib.plain true)) (Returns (GrpcLib.plain true)) (new () []) ops := by
  intro h
  have hlast := h (arriving [0, 0, 5, 8, 0, 0, 0, 0, 0, 1, 2, 3, 4, 5] (by decide) ++
    [.processFrames 3])
  revert hlast
  decide +kernel

end GrpcFeed

end Coypu
