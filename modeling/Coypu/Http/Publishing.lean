import Coypu.Http.Decoding
import Coypu.Http.Output
import Coypu.Http.WireFrames

/-!
# Publishing

A message is published as the header that `WriteFrame` writes to the publish log, and then the
payload, which is pushed whatever `WriteFrame` returned. `WriteFrame` keeps the free space of the
log, which is near `2⁶⁴`, in 32 bits, so that from time to time it sees no room and writes no
header. The log stays a concatenation of frames, from which the messages can be read back, exactly
if it sees room for each (`run_publishes_iff`).
-/

set_option autoImplicit false

namespace Coypu

open FlatMemory Incremental Transport WebSocket

variable {cacheSize : ℕ}

/-- `Free` of a log is what is left to `UINT64_MAX`, and all pages can be allocated. -/
instance : FrameSink (LogRWStream cacheSize) where
  free s := 2 ^ 64 - 1 - s.available
  push s l := (s.push l none).2

/-- What is published: a text or serialized data. -/
structure Message where
  text : Bool
  payload : List UInt8

namespace Message

variable (m : Message)

def code : WSOPCode := if m.text then .textFrame else .binaryFrame

/-- The message on the wire. -/
def frame : List UInt8 := serverFrame m.code m.payload

/-- The messages on the wire. -/
def frames (ms : List Message) : List UInt8 := ms.flatMap frame

end Message

/-- The publishing sequence. -/
def LogRWStream.publish (log : LogRWStream cacheSize) (m : Message) : LogRWStream cacheSize :=
  FrameSink.push (writeFrame log m.code false m.payload.length).2 m.payload

/-! ## Reading messages back -/

/-- What a reader makes of a byte string: operation codes and payloads. -/
def readBack (con : Con cacheSize) (l : List UInt8) : List (UInt8 × List UInt8) :=
  (framesOf con 0 l).map fun d ↦ (d.opcode, (l.drop d.offset).take d.len)

/-- Every open connection that reads `l` gets the messages. -/
def Recovers (ms : List Message) (l : List UInt8) : Prop :=
  ∀ (cacheSize : ℕ) (con : Con cacheSize), con.state = .open →
    readBack con l = ms.map fun m ↦ (m.code.value, m.payload)

/-- The code of a message is not that of a ping or a close. -/
theorem Message.code_cases (m : Message) :
    m.code ≠ .unknown ∧ m.code.value ≠ WSOPCode.ping.value ∧
      m.code.value ≠ WSOPCode.close.value := by
  unfold code
  split_ifs <;> decide

theorem shortLen_toNat (len : ℕ) :
    (shortLen len).toNat < 128 ∧ UInt8.ofNat (shortLen len).toNat = shortLen len := by
  obtain ⟨i, hi⟩ := shortLen_eq len
  have hlt := i.isLt
  rw [hi, UInt8.toNat_ofNat', Nat.mod_eq_of_lt (by omega)]
  exact ⟨hlt, rfl⟩

/-- The frame of a message. -/
def Message.wireFrame (m : Message) (hlen : m.payload.length < 2 ^ 63) : WireFrame where
  first := 0x80 ||| (0x0F &&& m.code.value)
  short := ⟨(shortLen m.payload.length).toNat, (shortLen_toNat _).1⟩
  extension := extension m.payload.length
  key := []
  payload := m.payload
  extension_eq := by rw [(shortLen_toNat _).2, Con.extended_shortLen]
  key_eq := WireFrame.key_nil
  payload_eq := (Con.decode_extension hlen).symm

theorem Message.wireFrame_bytes (m : Message) (hlen : m.payload.length < 2 ^ 63) :
    (m.wireFrame hlen).bytes = m.frame := by
  simp only [WireFrame.bytes, WireFrame.second, WireFrame.masked, wireFrame, (shortLen_toNat _).2,
    frame, serverFrame, header]
  simp

theorem drains_frame {s : Reading cacheSize} (hstate : s.con.state = .open) (m : Message)
    (hlen : m.payload.length < 2 ^ 63) (rest : List UInt8) :
    ∃ (d : Decoded) (s' : Reading cacheSize), s'.con.state = .open ∧
      s'.cursor = s.cursor + m.frame.length ∧ d.opcode = m.code.value ∧ d.len = m.payload.length ∧
      d.offset = s.cursor + (m.frame.length - m.payload.length) ∧
      ∀ {es : List Decoded} {σ : Option (Reading cacheSize)} {l : List UInt8},
        Drains (parser cacheSize) (some s') rest es σ l →
          Drains (parser cacheSize) (some s) (m.frame ++ rest) (d :: es) σ l := by
  obtain ⟨hknown, hping, hclose⟩ := m.code_cases
  obtain ⟨c, d, hopcode, hd, hsize, hoffset, hdrains⟩ :=
    WireFrame.drains_wireFrame (f := m.wireFrame hlen) hstate (List.append_nil _) rest
  have hcode : (m.wireFrame hlen).opcode = m.code.value := (opcode_eq_iff m.code).mpr hknown
  rw [m.wireFrame_bytes] at hoffset hdrains
  rw [hcode] at hopcode hd
  rw [← hopcode] at hping hclose
  obtain ⟨c', hc'⟩ := Con.dispatch_of_ne_ping m.payload d.offset hping
  have hopen := (Con.dispatch_state hc').2
  rw [if_neg hclose] at hopen
  refine ⟨d, ⟨c', s.cursor + m.frame.length⟩, hopen, rfl, hd, hsize, hoffset,
    fun h ↦ hdrains.mpr ⟨_, rfl, ?_⟩⟩
  change Drains (parser cacheSize) ((c.dispatch m.payload d.offset).map _) rest _ _ _
  rwa [hc']

theorem Message.frame_slice (m : Message) (done rest : List UInt8) :
    ((done ++ (m.frame ++ rest)).drop (done.length + (m.frame.length - m.payload.length))).take
      m.payload.length = m.payload := by
  obtain ⟨h, hframe⟩ : ∃ h, m.frame = h ++ m.payload := ⟨_, rfl⟩
  have hlen : m.frame.length - m.payload.length = h.length := by
    rw [hframe, List.length_append]
    omega
  rw [hlen, hframe, ← List.drop_drop, List.drop_left, List.append_assoc, List.drop_left,
    List.take_left]

theorem drains_frames {s : Reading cacheSize} (hstate : s.con.state = .open) {ms : List Message}
    (hlen : (Message.frames ms).length < 2 ^ 63) (done : List UInt8)
    (hcursor : s.cursor = done.length) :
    ∃ es σ, Drains (parser cacheSize) (some s) (Message.frames ms) es σ [] ∧
      (es.map fun d ↦ (d.opcode, ((done ++ Message.frames ms).drop d.offset).take d.len))
        = ms.map fun m ↦ (m.code.value, m.payload) := by
  induction ms generalizing s done with
  | nil => exact ⟨[], some s, .wait (by rw [parser_step, step_open hstate]; rfl), rfl⟩
  | cons m ms ih =>
    rw [Message.frames, List.flatMap_cons, ← Message.frames, List.length_append] at hlen
    rw [Message.frames, List.flatMap_cons, ← Message.frames]
    have hpayload : m.payload.length ≤ m.frame.length := by
      rw [Message.frame, serverFrame, List.length_append]
      exact Nat.le_add_left _ _
    obtain ⟨d, s', hstate', hcursor', hopcode, hsize, hoffset, hdrains⟩ :=
      drains_frame hstate m (by omega) (Message.frames ms)
    obtain ⟨es, σ, hrest, hes⟩ := ih hstate' (by omega) (done ++ m.frame)
      (by rw [hcursor', hcursor, List.length_append])
    refine ⟨_, σ, hdrains hrest, ?_⟩
    rw [List.map_cons, List.map_cons, hopcode, hsize, hoffset, hcursor, m.frame_slice, ← hes]
    simp only [List.append_assoc]

/-- **A concatenation of frames is read back.** -/
theorem recovers_frames {ms : List Message} (hlen : (Message.frames ms).length < 2 ^ 63) :
    Recovers ms (Message.frames ms) := by
  intro cacheSize con hstate
  obtain ⟨es, σ, hdrains, hes⟩ := drains_frames (s := ⟨con, 0⟩) hstate hlen [] rfl
  obtain ⟨σ', l', hframes⟩ := drains_framesOf con 0 (Message.frames ms)
  rw [readBack, ← (hdrains.unique hframes).1]
  exact hes

/-! ## Publishing -/

namespace LogRWStream

variable {log : LogRWStream cacheSize} {m : Message}

theorem push_of_room {l : List UInt8} (hroom : log.position + l.length < 2 ^ 63) :
    (log.push l none).2 = { log with
      data := store log.data log.position l
      position := log.position + l.length
      available := log.available + l.length
      available_le := Nat.add_le_add_right log.available_le _
      position_lt := hroom } := by
  unfold push
  simp only [dif_pos hroom]

theorem push_nil (log : LogRWStream cacheSize) : (log.push [] none).2 = log := by
  rw [push_of_room (l := []) log.position_lt]
  simp only [store_nil, List.length_nil, Nat.add_zero]

theorem push_push {l k : List UInt8} (hroom : log.position + l.length + k.length < 2 ^ 63) :
    ((log.push l none).2.push k none).2 = (log.push (l ++ k) none).2 := by
  have hfirst : log.position + l.length < 2 ^ 63 := by omega
  have hboth : log.position + (l ++ k).length < 2 ^ 63 := by
    rwa [List.length_append, ← Nat.add_assoc]
  rw [push_of_room hfirst, push_of_room hboth, push_of_room hroom]
  simp only [store_append, List.length_append, Nat.add_assoc]

/-- `WriteFrame` sees room for a message, and there is room. -/
def Sees (log : LogRWStream cacheSize) (m : Message) : Prop :=
  HasRoom ((2 ^ 64 - 1 - log.available) % 2 ^ 32) m.payload.length false ∧
    log.available + m.frame.length < 2 ^ 63

theorem publish_of_sees (hpos : log.position = log.available) (h : log.Sees m) :
    log.publish m = (log.push m.frame none).2 := by
  obtain ⟨hroom, hlt⟩ := h
  have hframe : m.frame.length
      = (header m.code false m.payload.length).length + (extension m.payload.length).length
        + m.payload.length := by
    rw [Message.frame, serverFrame, List.length_append, List.length_append]
  have hwrite := (writeFrame_cases (t := log) push_nil m.code false (by omega)).1 hroom
  rw [publish, hwrite]
  change (((log.push _ none).2.push _ none).2.push m.payload none).2 = _
  have hheader : log.position + (header m.code false m.payload.length).length
      + (extension m.payload.length).length < 2 ^ 63 := by omega
  rw [push_push hheader, push_push (by rw [List.length_append]; omega)]
  rfl

theorem publish_available_le (hpos : log.position = log.available)
    (hlen : m.payload.length < 2 ^ 63)
    (h : ¬HasRoom ((2 ^ 64 - 1 - log.available) % 2 ^ 32) m.payload.length false) :
    (log.publish m).available ≤ log.available + m.payload.length := by
  have hwrite := (writeFrame_cases (t := log) push_nil m.code false hlen).2 h
  rw [publish, hwrite]
  change (log.push m.payload none).2.available ≤ _
  rcases log.push_cases m.payload hpos with hfail | ⟨-, havail, -⟩
  · rw [hfail]
    exact Nat.le_add_right _ _
  · exact Nat.le_of_eq havail

end LogRWStream

/-- A log, and the messages published to it. -/
structure Publisher (cacheSize : ℕ) where
  log : LogRWStream cacheSize
  published : List Message

namespace Publisher

variable {start : ℕ} {p : Publisher cacheSize}

def step (p : Publisher cacheSize) (m : Message) : Publisher cacheSize × Unit :=
  (⟨p.log.publish m, p.published ++ [m]⟩, ())

/-- The bytes of the log from `start` on. -/
def readable (start : ℕ) (p : Publisher cacheSize) : List UInt8 :=
  load p.log.data start (p.log.available - start)

/-- One frame is appended, and from every frame boundary a reader gets the messages behind it. -/
def Appends (start : ℕ) (p : Publisher cacheSize) (m : Message) : Prop :=
  (p.step m).1.readable start = p.readable start ++ m.frame ∧
    ∀ done rest, (p.step m).1.published = done ++ rest →
      Recovers rest (((p.step m).1.readable start).drop (Message.frames done).length)

/-- The log is a concatenation of frames. -/
structure Holds (start : ℕ) (p : Publisher cacheSize) : Prop where
  start_le : start ≤ p.log.available
  position_eq : p.log.position = p.log.available
  readable_eq : p.readable start = Message.frames p.published

theorem Holds.step (h : Holds start p) {m : Message} (hsees : p.log.Sees m) :
    (p.step m).1.readable start = p.readable start ++ m.frame ∧ Holds start (p.step m).1 := by
  have hstart := h.start_le
  have hroom : p.log.position + m.frame.length < 2 ^ 63 := by
    rw [h.position_eq]
    exact hsees.2
  have hlog : (p.step m).1.log = (p.log.push m.frame none).2 :=
    LogRWStream.publish_of_sees h.position_eq hsees
  have hreadable : (p.step m).1.readable start = p.readable start ++ m.frame := by
    rw [readable, hlog, LogRWStream.push_of_room hroom]
    change load (store p.log.data p.log.position m.frame) start
      (p.log.available + m.frame.length - start)
      = load p.log.data start (p.log.available - start) ++ m.frame
    have hsize : p.log.available + m.frame.length - start
        = p.log.available - start + m.frame.length := by omega
    have hend : start + (p.log.available - start) = p.log.available := by omega
    rw [h.position_eq, hsize, load_add, hend, load_store_self,
      load_store_of_disjoint (Or.inl (Nat.le_of_eq hend))]
  refine ⟨hreadable, ?_, ?_, ?_⟩
  · rw [hlog, LogRWStream.push_of_room hroom]
    exact Nat.le_add_right_of_le hstart
  · rw [hlog, LogRWStream.push_of_room hroom]
    exact congrArg (· + m.frame.length) h.position_eq
  · rw [hreadable, h.readable_eq]
    simp only [Publisher.step, Message.frames, List.flatMap_append, List.flatMap_singleton]

/-- A log of frames stays one exactly if `WriteFrame` sees the room there is. -/
theorem Holds.appends_iff (h : Holds start p) (m : Message) : p.Appends start m ↔ p.log.Sees m := by
  constructor
  · rintro ⟨hreadable, -⟩
    have hsize := congrArg List.length hreadable
    rw [readable, readable, List.length_append, length_load, length_load] at hsize
    have hstart := h.start_le
    have hend := (p.step m).1.log.available_le
    have hlt := (p.step m).1.log.position_lt
    have hheader : m.payload.length + 2 ≤ m.frame.length := by
      rw [Message.frame, serverFrame, header, List.length_append, List.length_append,
        List.length_cons, List.length_singleton]
      omega
    have hfits : p.log.available + m.frame.length < 2 ^ 63 := by omega
    refine ⟨by_contra fun hroom ↦ ?_, hfits⟩
    have hgrows : (p.step m).1.log.available ≤ p.log.available + m.payload.length :=
      LogRWStream.publish_available_le h.position_eq (by omega) hroom
    omega
  · intro hsees
    obtain ⟨hreadable, hholds⟩ := h.step hsees
    refine ⟨hreadable, fun done rest hpublished ↦ ?_⟩
    have hframes := hholds.readable_eq
    rw [hpublished, Message.frames, List.flatMap_append] at hframes
    have hrest : ((p.step m).1.readable start).drop (Message.frames done).length
      = Message.frames rest := by
      rw [hframes]
      exact List.drop_left
    rw [hrest]
    refine recovers_frames ?_
    have hlen := congrArg List.length hframes
    have hlt := (p.step m).1.log.position_lt
    have hend := (p.step m).1.log.available_le
    rw [readable, length_load, List.length_append] at hlen
    change _ = _ + (Message.frames rest).length at hlen
    omega

end Publisher

theorem Publisher.holds_new {pageSize : ℕ} (hpage : 0 < pageSize) (data : ℕ → UInt8) {start : ℕ}
    (hstart : start < 2 ^ 63) :
    Publisher.Holds start ⟨LogRWStream.new cacheSize pageSize hpage data start hstart, []⟩ := by
  refine ⟨Nat.le_refl start, rfl, ?_⟩
  rw [Publisher.readable]
  exact congrArg (load data start) (Nat.sub_self start)

theorem Publisher.Holds.steps_iff {start : ℕ} {p : Publisher cacheSize}
    (hp : Publisher.Holds start p) (ms : List Message) :
    Run.Steps Publisher.step (Publisher.Appends start) p ms ↔
      Run.Steps Publisher.step (fun p m ↦ p.log.Sees m) p ms :=
  Run.steps_iff_of_invariant (P := Publisher.Holds start)
    (fun _ _ hp hsees ↦ (hp.step hsees).2) (fun _ m hp ↦ hp.appends_iff m) hp

/-- **The publish log is a concatenation of frames** exactly as long as `WriteFrame` sees room in
it. -/
theorem run_publishes_iff {pageSize : ℕ} (hpage : 0 < pageSize) (data : ℕ → UInt8) {start : ℕ}
    (hstart : start < 2 ^ 63) (ms : List Message) :
    Run.Steps Publisher.step (Publisher.Appends start)
        ⟨LogRWStream.new cacheSize pageSize hpage data start hstart, []⟩ ms ↔
      Run.Steps Publisher.step (fun p m ↦ p.log.Sees m)
        ⟨LogRWStream.new cacheSize pageSize hpage data start hstart, []⟩ ms :=
  (Publisher.holds_new hpage data hstart).steps_iff ms

/-- A text and a serialized message behind five gigabytes. -/
theorem run_publishes_text :
    Run.Steps Publisher.step (Publisher.Appends 5000000000)
      ⟨LogRWStream.new 2 4096 (by decide) (fun _ ↦ 0) 5000000000 (by decide), []⟩
      [⟨true, [0x7B, 0x7D]⟩, ⟨false, [8]⟩] :=
  (run_publishes_iff (by decide) (fun _ ↦ 0) (by decide) _).mpr
    ⟨⟨by unfold HasRoom; decide +kernel, by decide +kernel⟩,
      ⟨by unfold HasRoom; decide +kernel, by decide +kernel⟩, trivial⟩

/-- A tick of 125 bytes. -/
def tick : Message := ⟨false, List.replicate 125 0⟩

/-- 33818640 ticks take up all but 15 bytes of `2³²`. -/
theorem not_steps_sees_ticks {p : Publisher cacheSize} {k : ℕ}
    (hpos : p.log.position = p.log.available)
    (havail : p.log.available + 127 * k = 127 * 33818640) :
    ¬Run.Steps Publisher.step (fun p m ↦ p.log.Sees m) p (List.replicate (k + 1) tick) := by
  induction k generalizing p with
  | zero =>
    rintro ⟨⟨hroom, -⟩, -⟩
    have hfree : (2 ^ 64 - 1 - p.log.available) % 2 ^ 32 = 15 := by omega
    rw [hfree] at hroom
    exact absurd hroom (by unfold HasRoom; decide +kernel)
  | succ k ih =>
    rw [List.replicate_succ, Run.steps_cons]
    rintro ⟨hsees, hrest⟩
    have hroom : p.log.position + tick.frame.length < 2 ^ 63 := by
      rw [hpos]
      exact hsees.2
    have hlog : (p.step tick).1.log = (p.log.push tick.frame none).2 :=
      LogRWStream.publish_of_sees hpos hsees
    refine ih (p := (p.step tick).1) ?_ ?_ hrest
    · rw [hlog, LogRWStream.push_of_room hroom]
      exact congrArg (· + tick.frame.length) hpos
    · rw [hlog, LogRWStream.push_of_room hroom]
      have hsize : tick.frame.length = 127 := by decide +kernel
      change p.log.available + tick.frame.length + 127 * k = _
      omega

/-- After 33818640 ticks the next one is published without its header. -/
theorem not_run_publishes_ticks :
    ¬∀ ms : List Message, Run.Steps Publisher.step (Publisher.Appends 0)
      ⟨LogRWStream.new 2 4096 (by decide) (fun _ ↦ 0) 0 (by decide), []⟩ ms := by
  intro h
  have hsees := ((Publisher.holds_new (by decide) (fun _ ↦ 0) (by decide)).steps_iff _).mp
    (h (List.replicate (33818640 + 1) tick))
  exact not_steps_sees_ticks rfl (Nat.zero_add _) hsees

end Coypu
