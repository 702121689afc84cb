import Coypu.Http.Framing
import Coypu.Library.Incremental

/-!
# The frames of a byte string

`DoOpen` and `DoOpenData` are an incremental parser: one takes a header and the other a payload,
each as soon as all of it is there (`parser`). Its state is the connection, without its stream, and
the offset of the next byte. The loop of `Read` goes through what is unread as far as this parser
does (`processAll_drains`), if `DoOpen` sees fewer than `2³²` bytes.
-/

set_option autoImplicit false

namespace Coypu

open FlatMemory Incremental WebSocket

variable {cacheSize : ℕ}

/-- A frame as `DoOpenData` takes it, and the offset of its payload. -/
structure Decoded where
  opcode : UInt8
  masked : Bool
  mask : List UInt8
  offset : ℕ
  len : ℕ
deriving DecidableEq

namespace Con

variable (con : Con cacheSize)

/-! ## Headers and payloads -/

/-- The connection behind a header, `t` being what is behind its first two bytes. -/
def tookHeader (h₀ h₁ : UInt8) (t : List UInt8) : Con cacheSize :=
  { con with
    frame := ⟨[h₀, h₁], if h₁ &&& 0x80 ≠ 0 then t.take wsMaskLen else con.frame.mask, h₀ &&& 0x0F,
      decide (h₁ &&& 0x80 ≠ 0), if extended (0x7F &&& h₁) = 0 then (0x7F &&& h₁).toNat
        else Bytes.decode ((t.drop (if h₁ &&& 0x80 ≠ 0 then wsMaskLen else 0)).take
          (extended (0x7F &&& h₁)))⟩
    state := .openData }

/-- The connection behind a payload, which was at an offset. There is none if the answer to a ping
ends the program. -/
def dispatch (k : List UInt8) (offset : ℕ) : Option (Con cacheSize) :=
  let con₁ := { con with state := .open }
  if con.frame.opcode = WSOPCode.textFrame.value then
    if con.onText then some (con₁.call (.onText offset con.frame.len)) else some con₁
  else if con.frame.opcode = WSOPCode.ping.value then
    if con.maxPing < con.frame.len then none
    else
      let q := con₁.queue .pong (if con.frame.masked then Bytes.xorMask con.frame.mask 0 k else k)
      if con.asserts && !q.1 then none else some q.2
  else if con.frame.opcode = WSOPCode.close.value then some { con with state := .closing }
  else some con₁

/-- The frame that is read, its payload being at an offset. -/
def decodedAt (offset : ℕ) : Decoded :=
  ⟨con.frame.opcode, con.frame.masked, con.frame.mask, offset, con.frame.len⟩

end Con

/-! ## The parser -/

/-- A connection that reads frames, and the offset of the next byte. -/
structure Reading (cacheSize : ℕ) where
  con : Con cacheSize
  cursor : ℕ

namespace Reading

variable (s : Reading cacheSize)

def takeHeader : List UInt8 → Option (Move (Option (Reading cacheSize)) Decoded)
  | h₀ :: h₁ :: t =>
    if Con.headerLen h₁ ≤ (h₀ :: h₁ :: t).length then
      some ⟨some ⟨s.con.tookHeader h₀ h₁ t, s.cursor + Con.headerLen h₁⟩, Con.headerLen h₁, none⟩
    else none
  | _ => none

def takePayload (l : List UInt8) : Option (Move (Option (Reading cacheSize)) Decoded) :=
  if s.con.frame.len ≤ l.length then
    some ⟨(s.con.dispatch (l.take s.con.frame.len) s.cursor).map fun c ↦
      ⟨c, s.cursor + s.con.frame.len⟩,
      s.con.frame.len, some (s.con.decodedAt s.cursor)⟩
  else none

/-- One step: a header or a payload. -/
def step (l : List UInt8) : Option (Move (Option (Reading cacheSize)) Decoded) :=
  match s.con.state with
  | .open => s.takeHeader l
  | .openData => s.takePayload l
  | .unknown | .connecting | .closing | .closed => none

variable {s} {l : List UInt8} {m : Move (Option (Reading cacheSize)) Decoded}

theorem takeHeader_cases (h : s.takeHeader l = some m) : ∃ h₀ h₁ t, l = h₀ :: h₁ :: t ∧
    Con.headerLen h₁ ≤ l.length ∧
      m = ⟨some ⟨s.con.tookHeader h₀ h₁ t, s.cursor + Con.headerLen h₁⟩, Con.headerLen h₁,
        none⟩ := by
  rcases l with _ | ⟨h₀, _ | ⟨h₁, t⟩⟩
  · exact absurd h (by simp [takeHeader])
  · exact absurd h (by simp [takeHeader])
  · rw [takeHeader] at h
    split_ifs at h with hlen
    exact ⟨h₀, h₁, t, rfl, hlen, (Option.some.inj h).symm⟩

theorem step_cases (h : s.step l = some m) :
    (s.con.state = .open ∧ ∃ h₀ h₁ t, l = h₀ :: h₁ :: t ∧ Con.headerLen h₁ ≤ l.length ∧
        m = ⟨some ⟨s.con.tookHeader h₀ h₁ t, s.cursor + Con.headerLen h₁⟩, Con.headerLen h₁,
      none⟩) ∨ (s.con.state = .openData ∧ s.con.frame.len ≤ l.length ∧
        m = ⟨(s.con.dispatch (l.take s.con.frame.len) s.cursor).map fun c ↦
          ⟨c, s.cursor + s.con.frame.len⟩,
          s.con.frame.len, some (s.con.decodedAt s.cursor)⟩) := by
  rw [step] at h
  cases hstate : s.con.state with
  | «open» =>
    rw [hstate] at h
    exact Or.inl ⟨rfl, takeHeader_cases h⟩
  | openData =>
    rw [hstate] at h
    simp only [takePayload] at h
    split_ifs at h with hlen
    exact Or.inr ⟨rfl, hlen, (Option.some.inj h).symm⟩
  | unknown | connecting | closing | closed =>
    rw [hstate] at h
    exact absurd h (by simp)

theorem tookHeader_append {h₀ h₁ : UInt8} {t : List UInt8} (con : Con cacheSize)
    (hlen : Con.headerLen h₁ ≤ t.length + 2) (k : List UInt8) :
    con.tookHeader h₀ h₁ (t ++ k) = con.tookHeader h₀ h₁ t := by
  unfold Con.headerLen at hlen
  unfold Con.tookHeader
  by_cases hmask : h₁ &&& 0x80 ≠ 0
  · simp only [if_pos hmask] at hlen ⊢
    rw [List.take_append_of_le_length (by omega), List.drop_append_of_le_length (by omega),
      List.take_append_of_le_length (by rw [List.length_drop]; omega)]
  · simp only [if_neg hmask, List.drop_zero] at hlen ⊢
    rw [List.take_append_of_le_length (by omega)]

end Reading

/-- **The parser.** There is no step any more when the program has ended. -/
def parser (cacheSize : ℕ) : Parser (Option (Reading cacheSize)) UInt8 Decoded where
  step s l := s.bind fun s ↦ s.step l
  taken_le {s l m} h := by
    obtain ⟨s, rfl, hstep⟩ := Option.bind_eq_some_iff.mp h
    rcases Reading.step_cases hstep with ⟨-, _, _, _, -, hlen, rfl⟩ | ⟨-, hlen, rfl⟩ <;> exact hlen
  step_append {s l m} h k := by
    obtain ⟨s, rfl, hstep⟩ := Option.bind_eq_some_iff.mp h
    rw [Option.bind_some, Reading.step]
    rcases Reading.step_cases hstep with ⟨hstate, h₀, h₁, t, rfl, hlen, rfl⟩ | ⟨hstate, hlen, rfl⟩
    · rw [hstate, List.cons_append, List.cons_append]
      simp only
      rw [Reading.takeHeader, if_pos (by
        simp only [List.length_cons, List.length_append] at hlen ⊢
        omega), Reading.tookHeader_append _ (by simpa using hlen)]
    · rw [hstate]
      simp only
      rw [Reading.takePayload, if_pos (by rw [List.length_append]; omega),
        List.take_append_of_le_length hlen]

theorem parser_step (s : Reading cacheSize) (l : List UInt8) :
    (parser cacheSize).step (some s) l = s.step l :=
  rfl

/-! ## The code takes the same steps -/

/-- The stream at another position, with bytes of its log masked in place. -/
def PositionedStream.placed (p : PositionedStream cacheSize) (data : ℕ → UInt8) (o : ℕ) :
    PositionedStream cacheSize :=
  { p with log := { p.log with data := data }, curOffset := o }

@[simp] theorem PositionedStream.placed_placed (p : PositionedStream cacheSize)
    (data data' : ℕ → UInt8) (o o' : ℕ) :
    (p.placed data o).placed data' o' = p.placed data' o' := rfl

@[simp] theorem PositionedStream.placed_curOffset (p : PositionedStream cacheSize)
    (data : ℕ → UInt8) (o : ℕ) : (p.placed data o).curOffset = o := rfl

namespace Con

variable {con : Con cacheSize} {p : PositionedStream cacheSize} {k l : List UInt8}

theorem queue_stream (con : Con cacheSize) (stream : Option (PositionedStream cacheSize))
    (code : WSOPCode) (data : List UInt8) :
    ({ con with stream := stream } : Con cacheSize).queue code data
      = ((con.queue code data).1, { (con.queue code data).2 with stream := stream }) := by
  rw [queue, queue]
  by_cases hsends : con.state = .open ∨ con.state = .openData
  · simp only [if_pos hsends]
    by_cases hroom : (writeFrame con.writeBuf code con.masked data.length).1 = true
    · rw [if_pos hroom, if_pos hroom]
      rfl
    · rw [if_neg hroom, if_neg hroom]
  · simp only [if_neg hsends]

theorem dispatch_stream (stream : Option (PositionedStream cacheSize)) (k : List UInt8)
    (offset : ℕ) :
    ({ con with stream := stream } : Con cacheSize).dispatch k offset
      = (con.dispatch k offset).map fun c ↦ { c with stream := stream } := by
  have hqueue := queue_stream { con with state := .open } stream .pong
    (if con.frame.masked then Bytes.xorMask con.frame.mask 0 k else k)
  rw [dispatch, dispatch]
  by_cases htext : con.frame.opcode = WSOPCode.textFrame.value
  · simp only [if_pos htext]
    cases con.onText <;> rfl
  simp only [if_neg htext]
  by_cases hping : con.frame.opcode = WSOPCode.ping.value
  · have hmax : ({ con with stream := stream } : Con cacheSize).maxPing = con.maxPing := rfl
    simp only [if_pos hping, hqueue, hmax]
    by_cases hlong : con.maxPing < con.frame.len
    · simp only [if_pos hlong, Option.map_none]
    · simp only [if_neg hlong]
      rw [apply_ite (Option.map _), Option.map_none, Option.map_some]
  · simp only [if_neg hping]
    rw [apply_ite (Option.map _), Option.map_some, Option.map_some]

theorem queue_keeps (code : WSOPCode) (data : List UInt8) :
    (con.queue code data).2.frame = con.frame ∧ (con.queue code data).2.state = con.state := by
  unfold queue
  simp only
  split_ifs <;> exact ⟨rfl, rfl⟩

theorem dispatch_state {offset : ℕ} {c : Con cacheSize} (h : con.dispatch k offset = some c) :
    c.frame = con.frame ∧
      c.state = if con.frame.opcode = WSOPCode.close.value then .closing else .open := by
  unfold dispatch at h
  simp only at h
  by_cases htext : con.frame.opcode = WSOPCode.textFrame.value
  · rw [if_pos htext] at h
    rw [if_neg (by rw [htext]; decide)]
    split_ifs at h <;> obtain rfl := Option.some.inj h <;> exact ⟨rfl, rfl⟩
  · rw [if_neg htext] at h
    by_cases hping : con.frame.opcode = WSOPCode.ping.value
    · rw [if_pos hping] at h
      rw [if_neg (by rw [hping]; decide)]
      split_ifs at h <;> obtain rfl := Option.some.inj h <;> exact queue_keeps _ _
    · rw [if_neg hping] at h
      split_ifs at h ⊢ <;> obtain rfl := Option.some.inj h <;> exact ⟨rfl, rfl⟩

theorem dispatch_of_ne_ping (k : List UInt8) (offset : ℕ)
    (h : con.frame.opcode ≠ WSOPCode.ping.value) : ∃ c, con.dispatch k offset = some c := by
  unfold dispatch
  simp only [if_neg h]
  split_ifs <;> exact ⟨_, rfl⟩

/-- `DoOpenData` takes a payload that is there, and the connection is as `dispatch` says. -/
theorem doOpenData_dispatch (con : Con cacheSize) (h : p.Unread (k ++ l))
    (hlen : con.frame.len = k.length) :
    ∃ data, (p.placed data (p.curOffset + k.length)).Unread l ∧ con.doOpenData p
      = (con.dispatch k p.curOffset).map fun c ↦
        (1, p.placed data (p.curOffset + k.length), c) := by
  have hskip := h.skip (n := k.length) (by simp)
  have hcons := h.consumed
  have hunread : (p.placed p.log.data (p.curOffset + k.length)).Unread l := hcons.rest
  -- the payload is unmasked where it lies
  obtain ⟨data, hun, hdata⟩ : ∃ data, con.unmaskFrame (p.advance k.length) p.curOffset
      = some (p.placed data (p.curOffset + k.length)) ∧
        (p.placed data (p.curOffset + k.length)).Consumed p.curOffset
        (if con.frame.masked then Bytes.xorMask con.frame.mask 0 k else k) l := by
    rw [unmaskFrame, hlen]
    cases con.frame.masked with
    | false => exact ⟨p.log.data, rfl, hcons⟩
    | true => exact ⟨_, rfl, hcons.unmask con.frame.mask⟩
  unfold doOpenData dispatch
  simp only [FrameSource.available, FrameSource.skip, FrameSource.currentOffset, h.available, hlen,
    hskip, PositionedStream.currentOffset]
  rw [if_pos (by simp)]
  by_cases htext : con.frame.opcode = WSOPCode.textFrame.value
  · simp only [if_pos htext]
    by_cases htake : con.onText = true
    · rw [if_pos htake, if_pos htake, hun]
      exact ⟨data, hdata.rest, rfl⟩
    · rw [if_neg htake, if_neg htake]
      exact ⟨_, hunread, rfl⟩
  · simp only [if_neg htext]
    by_cases hping : con.frame.opcode = WSOPCode.ping.value
    · simp only [if_pos hping]
      have hun' : ({ con with state := .open } : Con cacheSize).unmaskFrame
        (p.advance k.length) p.curOffset
          = some (p.placed data (p.curOffset + k.length)) := hun
      have hsize : (if con.frame.masked then Bytes.xorMask con.frame.mask 0 k else k).length
          = con.frame.len := by
        rw [hlen]
        split_ifs <;> simp
      have hpop : ((FrameSource.popAt (p.placed data (p.curOffset + k.length)) p.curOffset
          con.frame.len).1.getD [])
            = if con.frame.masked then Bytes.xorMask con.frame.mask 0 k else k := by
        rw [← hsize]
        exact hdata.popAt_getD
      rw [← hlen] at hun' hpop ⊢
      rw [doPing_of_popAt hun' hpop hsize]
      refine ⟨data, by rw [hlen]; exact hdata.rest, ?_⟩
      simp only [maxPing]
      split_ifs <;> rfl
    · simp only [if_neg hping]
      refine ⟨p.log.data, hunread, ?_⟩
      split_ifs <;> rfl

theorem doOpen_stream (con : Con cacheSize) (p : PositionedStream cacheSize) :
    ∃ o, (con.doOpen p).2.1 = { p with curOffset := o } := by
  have hpop (p' : PositionedStream cacheSize) (n : ℕ) (h : ∃ o, p' = { p with curOffset := o }) :
      ∃ o, (FrameSource.pop p' n).2 = { p with curOffset := o } := by
    obtain ⟨o, rfl⟩ := h
    simp only [FrameSource.pop, PositionedStream.pop]
    split
    · exact ⟨_, rfl⟩
    · exact ⟨_, rfl⟩
  have hself : ∃ o, p = { p with curOffset := o } := ⟨p.curOffset, rfl⟩
  unfold doOpen
  simp only
  cases FrameSource.peak p 1 with
  | none => split_ifs <;> exact hself
  | some peaklen =>
    simp only
    split_ifs
    all_goals first
      | exact hself
      | exact hpop _ _ hself
      | exact hpop _ _ (hpop _ _ hself)
      | exact hpop _ _ (hpop _ _ (hpop _ _ hself))

theorem doOpen_tookHeader (con : Con cacheSize) {h₀ h₁ : UInt8} {t : List UInt8}
    (h : p.Unread (h₀ :: h₁ :: t))
    (hlt : (h₀ :: h₁ :: t).length < 2 ^ 32) (hlen : headerLen h₁ ≤ (h₀ :: h₁ :: t).length) :
    (p.placed p.log.data (p.curOffset + headerLen h₁)).Unread
      ((h₀ :: h₁ :: t).drop (headerLen h₁)) ∧
      con.doOpen p = (2, p.placed p.log.data (p.curOffset + headerLen h₁),
        con.tookHeader h₀ h₁ t) := by
  obtain ⟨p', hunread, heq⟩ := doOpen_of_le (c := con) (b := p) h (by rwa [Nat.mod_eq_of_lt hlt])
  obtain ⟨o, ho⟩ := doOpen_stream con p
  have hadvance := h.advance hlen
  rw [heq] at ho
  simp only at ho
  -- both positions are as far from the end
  have hend : p'.curOffset = p.curOffset + headerLen h₁ := by
    have h₁ : p'.curOffset + _ = p'.log.available := hunread.available_eq
    have h₂ := hadvance.available_eq
    simp only [PositionedStream.advance] at h₂
    rw [ho] at h₁ ⊢
    simp only at h₁ ⊢
    omega
  have hp' : p' = p.placed p.log.data (p.curOffset + headerLen h₁) := by
    rw [ho] at hend ⊢
    simp only at hend
    rw [hend]
    rfl
  exact ⟨hadvance, by rw [heq, hp']; rfl⟩

/-! ### What a round decodes -/

section Decoding

variable (con)

/-- The frame that `DoOpenData` would take from a buffer. -/
def decodedFrom {β : Type*} [FrameSource β] (buf : β) : Option Decoded :=
  if con.frame.len ≤ FrameSource.available buf then some
    (con.decodedAt (FrameSource.currentOffset buf))
  else none

def dataDecoded : Option Decoded :=
  match con.stream with
  | some stream => con.decodedFrom stream
  | none => con.decodedFrom con.httpBuf

/-- The frame that `ProcessState` takes. -/
def roundDecoded : Option Decoded :=
  match con.state with
  | .open => if con.openSource.2.state = .openData then con.openSource.2.dataDecoded else none
  | .openData => con.dataDecoded
  | .unknown | .connecting | .closing | .closed => none

/-- The frames that the loop of `Read` takes. -/
def allDecoded (computeKey : List UInt8 → Option (List UInt8)) : ℕ → Con cacheSize → List Decoded
  | 0, _ => []
  | rounds + 1, con => con.roundDecoded.toList ++
    match con.processState computeKey with
    | some (true, con') => allDecoded computeKey rounds con'
    | some (false, _) | none => []

end Decoding

end Con

/-! ### The loop -/

open Coypu.Con

variable {computeKey : List UInt8 → Option (List UInt8)} {p : PositionedStream cacheSize}
  {s : Reading cacheSize} {con : Con cacheSize} {l : List UInt8}

/-- A connection with the stream `p` is where the parser is, and `l` is unread. -/
def Follows (p : PositionedStream cacheSize) (s : Reading cacheSize) (l : List UInt8)
    (con : Con cacheSize) : Prop :=
  ∃ data, con = { s.con with stream := some (p.placed data s.cursor) } ∧
    (p.placed data s.cursor).Unread l

/-- `DoOpen` will see fewer than `2³²` bytes. -/
def Reading.Short (s : Reading cacheSize) (l : List UInt8) : Prop :=
  l.length < (if s.con.state = .openData then s.con.frame.len else 0) + 2 ^ 32

theorem processData_follows (h : Follows p s l con) :
    (l.length < s.con.frame.len ∧ con.processData = some (false, con) ∧ con.dataDecoded = none) ∨
      (s.con.frame.len ≤ l.length ∧ con.dataDecoded = some (s.con.decodedAt s.cursor) ∧
        match s.con.dispatch (l.take s.con.frame.len) s.cursor with
        | none => con.processData = none
        | some c => ∃ con', Follows p ⟨c, s.cursor + s.con.frame.len⟩
          (l.drop s.con.frame.len) con' ∧
          con.processData = some (decide (c.state = .open ∧ l.drop s.con.frame.len ≠ []),
            con')) := by
  obtain ⟨data, rfl, hunread⟩ := h
  have havail : FrameSource.available (p.placed data s.cursor) = l.length := hunread.available
  by_cases hlen : l.length < s.con.frame.len
  · have hdo : ({ s.con with stream := some (p.placed data s.cursor) } : Con cacheSize).doOpenData
        (p.placed data s.cursor) = some (0, p.placed data s.cursor,
          { s.con with stream := some (p.placed data s.cursor) }) :=
      doOpenData_of_lt (b := p.placed data s.cursor) hunread hlen
    refine Or.inl ⟨hlen, ?_, ?_⟩
    · simp only [processData, dataSource, hdo, Option.map_some]
      simp
    · simp only [dataDecoded, decodedFrom, havail]
      rw [if_neg (by omega)]
  · right
    rw [Nat.not_lt] at hlen
    refine ⟨hlen, ?_, ?_⟩
    · simp only [dataDecoded, decodedFrom, havail]
      rw [if_pos hlen]
      rfl
    · have hk : (l.take s.con.frame.len).length = s.con.frame.len := List.length_take_of_le hlen
      rw [← List.take_append_drop s.con.frame.len l] at hunread
      obtain ⟨data', hrest, hdo⟩ := doOpenData_dispatch
        { s.con with stream := some (p.placed data s.cursor) } hunread hk.symm
      rw [hk, PositionedStream.placed_placed, PositionedStream.placed_curOffset] at hrest
      rw [dispatch_stream, hk, PositionedStream.placed_placed, PositionedStream.placed_curOffset,
        Option.map_map] at hdo
      simp only [processData, dataSource, hdo]
      cases s.con.dispatch (l.take s.con.frame.len) s.cursor with
      | none => rfl
      | some c =>
        refine ⟨_, ⟨data', rfl, hrest⟩, ?_⟩
        have hleft : 0 < (p.placed data' (s.cursor + s.con.frame.len)).available ↔
            l.drop s.con.frame.len ≠ [] := by
          rw [hrest.available, List.length_pos_iff]
        simp only [Option.map_some, Function.comp_apply, sourceAvailable, hleft]
        simp

/-- The parser finds `es`, and gets to where the connection is that the code returns. -/
def Parses (p : PositionedStream cacheSize) (s : Reading cacheSize) (l : List UInt8)
    (es : List Decoded) (r : Option (Con cacheSize)) : Prop :=
  ∃ s' l', Drains (parser cacheSize) (some s) l es s' l' ∧
    match s' with
    | none => r = none
    | some s' => ∃ con', r = some con' ∧ Follows p s' l' con'

theorem Parses.wait (h : Follows p s l con) (hstep : s.step l = none) :
    Parses p s l [] (some con) :=
  ⟨some s, l, .wait hstep, con, rfl, h⟩

theorem Parses.next {s₁ : Reading cacheSize} {n : ℕ} {found : Option Decoded} {es : List Decoded}
    {r : Option (Con cacheSize)} (hstep : s.step l = some ⟨some s₁, n, found⟩)
    (h : Parses p s₁ (l.drop n) es r) : Parses p s l (found.toList ++ es) r := by
  obtain ⟨s', l', hdrains, hr⟩ := h
  exact ⟨s', l', .next (show (parser cacheSize).step (some s) l = _ from hstep) hdrains, hr⟩

theorem step_open (hstate : s.con.state = .open) : s.step l = s.takeHeader l := by
  rw [Reading.step, hstate]

theorem step_openData (hstate : s.con.state = .openData) : s.step l = s.takePayload l := by
  rw [Reading.step, hstate]

/-- What `processAll` does with the result of a round. -/
def goOn (computeKey : List UInt8 → Option (List UInt8)) (rounds : ℕ) :
    Option (Bool × Con cacheSize) → List Decoded × Option (Con cacheSize)
  | none => ([], none)
  | some (true, con) => (con.allDecoded computeKey rounds, con.processAll computeKey rounds)
  | some (false, con) => ([], some con)

theorem processAll_succ (con : Con cacheSize) (rounds : ℕ) :
    con.processAll computeKey (rounds + 1) =
      (goOn computeKey rounds (con.processState computeKey)).2 := by
  rw [processAll]
  rcases con.processState computeKey with _ | ⟨_ | _, _⟩ <;> rfl

theorem allDecoded_succ (con : Con cacheSize) (rounds : ℕ) :
    con.allDecoded computeKey (rounds + 1)
      = con.roundDecoded.toList ++ (goOn computeKey rounds (con.processState computeKey)).1 := by
  rw [allDecoded]
  rcases con.processState computeKey with _ | ⟨_ | _, _⟩ <;> rfl

/-- A round that takes a payload, and the rounds behind it, which begin with a header. -/
theorem processData_parses {rounds : ℕ} (h : Follows p s l con) (hstate : s.con.state = .openData)
    (hrest : ∀ c con' : Con cacheSize,
      Follows p ⟨c, s.cursor + s.con.frame.len⟩ (l.drop s.con.frame.len) con' →
      c.state = .open → s.con.frame.len ≤ l.length →
        Parses p ⟨c, s.cursor + s.con.frame.len⟩ (l.drop s.con.frame.len)
          (con'.allDecoded computeKey rounds) (con'.processAll computeKey rounds)) :
    Parses p s l (con.dataDecoded.toList ++ (goOn computeKey rounds con.processData).1)
      (goOn computeKey rounds con.processData).2 := by
  rcases processData_follows h with ⟨hlen, hprocess, hdecoded⟩ | ⟨hlen, hdecoded, hdispatch⟩
  · rw [hprocess, hdecoded]
    exact .wait h (by rw [step_openData hstate, Reading.takePayload, if_neg (by omega)])
  · have hstep : s.step l = some ⟨(s.con.dispatch (l.take s.con.frame.len) s.cursor).map
        fun c ↦ ⟨c, s.cursor + s.con.frame.len⟩, s.con.frame.len,
          some (s.con.decodedAt s.cursor)⟩ := by
      rw [step_openData hstate, Reading.takePayload, if_pos hlen]
    rw [hdecoded]
    cases hc : s.con.dispatch (l.take s.con.frame.len) s.cursor with
    | none =>
      rw [hc] at hstep hdispatch
      simp only at hdispatch
      rw [hdispatch]
      exact ⟨none, l.drop s.con.frame.len,
        .next (show (parser cacheSize).step (some s) l = _ from hstep)
        (.wait rfl), rfl⟩
    | some c =>
      rw [hc] at hstep hdispatch
      obtain ⟨con', hfollows, hprocess⟩ := hdispatch
      rw [hprocess]
      by_cases hmore : c.state = .open ∧ l.drop s.con.frame.len ≠ []
      · rw [decide_eq_true hmore]
        exact .next hstep (hrest c con' hfollows hmore.1 hlen)
      · rw [decide_eq_false hmore]
        refine .next hstep (.wait hfollows ?_)
        -- nothing is left, or the frame closed the connection
        by_cases hopen : c.state = .open
        · have hnil : l.drop s.con.frame.len = [] := by
            by_contra hne
            exact hmore ⟨hopen, hne⟩
          rw [hnil, step_open hopen]
          rfl
        · have hclosing := (dispatch_state hc).2
          split_ifs at hclosing
          · rw [Reading.step, hclosing]
          · exact absurd hclosing hopen

theorem openSource_follows (h : Follows p s l con) (hlt : l.length < 2 ^ 32) :
    (s.takeHeader l = none ∧ con.openSource = (1, con)) ∨
      ∃ h₀ h₁ t con₁, l = h₀ :: h₁ :: t ∧ headerLen h₁ ≤ l.length ∧
        Follows p ⟨s.con.tookHeader h₀ h₁ t, s.cursor + headerLen h₁⟩ (l.drop (headerLen h₁)) con₁ ∧
          con.openSource = (2, con₁) := by
  obtain ⟨data, rfl, hunread⟩ := h
  have hwaits (hdo : ({ s.con with stream := some (p.placed data s.cursor) } : Con cacheSize).doOpen
      (p.placed data s.cursor)
        = (1, p.placed data s.cursor, { s.con with stream := some (p.placed data s.cursor) })) :
      ({ s.con with stream := some (p.placed data s.cursor) } : Con cacheSize).openSource
        = (1, { s.con with stream := some (p.placed data s.cursor) }) := by
    simp only [openSource, hdo]
  rcases l with _ | ⟨h₀, _ | ⟨h₁, t⟩⟩
  · exact Or.inl ⟨rfl, hwaits (doOpen_of_short (b := p.placed data s.cursor) hunread (by decide))⟩
  · exact Or.inl ⟨rfl, hwaits (doOpen_of_short (b := p.placed data s.cursor) hunread (by simp))⟩
  · by_cases hlen : headerLen h₁ ≤ (h₀ :: h₁ :: t).length
    · obtain ⟨hrest, hdo⟩ := doOpen_tookHeader
        { s.con with stream := some (p.placed data s.cursor) } hunread hlt hlen
      refine Or.inr ⟨h₀, h₁, t, _, rfl, hlen, ⟨data, rfl, hrest⟩, ?_⟩
      simp only [openSource, hdo]
      rfl
    · refine Or.inl ⟨if_neg hlen, hwaits (doOpen_of_lt (b := p.placed data s.cursor) hunread ?_)⟩
      rw [Nat.mod_eq_of_lt hlt]
      omega

theorem two_le_headerLen (h₁ : UInt8) : 2 ≤ headerLen h₁ := by
  unfold headerLen
  omega

/-- **The loop of `Read` is the parser.** The induction is on the rounds left; each but the first
takes two bytes at least. -/
theorem processAll_parses (computeKey : List UInt8 → Option (List UInt8)) {rounds : ℕ}
    (h : Follows p s l con) (hsends : s.con.Sends) (hshort : s.Short l)
    (hrounds : l.length + (if s.con.state = .openData then 1 else 0) < rounds) :
    Parses p s l (con.allDecoded computeKey rounds) (con.processAll computeKey rounds) := by
  induction rounds generalizing s l con with
  | zero => exact absurd hrounds (Nat.not_lt_zero _)
  | succ rounds ih =>
    have hstate : con.state = s.con.state := by
      obtain ⟨_, rfl, -⟩ := h
      rfl
    unfold Reading.Short at hshort
    rw [processAll_succ, allDecoded_succ]
    rcases hsends with hopen | hdata
    · simp only [hopen, reduceCtorEq, if_false, Nat.zero_add, Nat.add_zero] at hshort hrounds
      rw [processState, roundDecoded, hstate.trans hopen]
      rcases openSource_follows h hshort with ⟨hnone, hsource⟩ | ⟨h₀, h₁, t, con₁, hl, hlen,
        hfollows, hsource⟩
      · simp only [hsource]
        rw [if_pos (Or.inr (by rw [hstate.trans hopen]; decide)),
          if_neg (by rw [hstate.trans hopen]; decide)]
        exact .wait h ((step_open hopen).trans hnone)
      · have hstate₁ : con₁.state = .openData := by
          obtain ⟨_, rfl, -⟩ := hfollows
          rfl
        have htwo := two_le_headerLen h₁
        have hstep : s.step l = some ⟨some ⟨s.con.tookHeader h₀ h₁ t, s.cursor + headerLen h₁⟩,
            headerLen h₁, none⟩ := by
          rw [step_open hopen, hl, Reading.takeHeader, if_pos (by rwa [← hl])]
        simp only [hsource]
        rw [if_pos hstate₁, if_neg (by simp [hstate₁])]
        change Parses p s l ((none : Option Decoded).toList
          ++ (con₁.dataDecoded.toList ++ (goOn computeKey rounds con₁.processData).1)) _
        refine .next hstep (processData_parses hfollows rfl fun c con' hf hc hle ↦ ?_)
        refine ih hf (Or.inl hc) ?_ ?_
        · unfold Reading.Short
          simp only [List.length_drop]
          omega
        · simp only [hc, reduceCtorEq, if_false, List.length_drop]
          omega
    · simp only [hdata, if_true] at hshort hrounds
      rw [processState, roundDecoded, hstate.trans hdata]
      refine processData_parses h hdata fun c con' hf hc hle ↦ ih hf (Or.inl hc) ?_ ?_
      · unfold Reading.Short
        simp only [List.length_drop]
        omega
      · simp only [hc, reduceCtorEq, if_false, List.length_drop]
        omega

end Coypu
