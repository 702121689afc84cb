import Coypu.Http.Publishing

/-!
# The frames of a server

What a server sends are messages and answers to pings, one frame behind the other. Whatever part of
such a stream has arrived, a reader finds the frames that are whole in it, and no others
(`ServerFrame.readBack_stream`). What a call of `Write` takes are the next bytes of the write
buffer, or of the log, and what a call of `Read` adds to the write buffer are answers to pings.
-/

set_option autoImplicit false

namespace Coypu

open FlatMemory Incremental Transport WebSocket MultiPositionedStreamLog

variable {cacheSize publishSize : ℕ}

/-! ## Frames of a server -/

/-- What a server sends. -/
structure ServerFrame where
  code : WSOPCode
  data : List UInt8

namespace ServerFrame

variable (f : ServerFrame)

def bytes : List UInt8 := serverFrame f.code f.data

/-- The frames one behind the other. -/
def stream (fs : List ServerFrame) : List UInt8 := fs.flatMap bytes

/-- Neither a ping nor a close, and not too long. -/
structure Plain (f : ServerFrame) : Prop where
  known : f.code ≠ .unknown
  not_ping : f.code.value ≠ WSOPCode.ping.value
  not_close : f.code.value ≠ WSOPCode.close.value
  length_lt : f.data.length < 2 ^ 63

/-- What a reader makes of it. -/
def read : UInt8 × List UInt8 := (f.code.value, f.data)

/-- An answer to a ping. -/
def IsPong (f : ServerFrame) : Prop := f.code = .pong

def ofMessage (m : Message) : ServerFrame := ⟨m.code, m.payload⟩

variable {f}

theorem ofMessage_bytes (m : Message) : (ofMessage m).bytes = m.frame := rfl

theorem stream_append (fs gs : List ServerFrame) : stream (fs ++ gs) = stream fs ++ stream gs :=
  List.flatMap_append

theorem stream_ofMessage (ms : List Message) : stream (ms.map ofMessage) = Message.frames ms := by
  rw [stream, List.flatMap_map, Message.frames]
  rfl

theorem plain_ofMessage {m : Message} (hlen : m.payload.length < 2 ^ 63) : (ofMessage m).Plain :=
  ⟨m.code_cases.1, m.code_cases.2.1, m.code_cases.2.2, hlen⟩

theorem plain_pong (h : f.IsPong) (hlen : f.data.length < 2 ^ 63) : f.Plain := by
  have hcode : f.code = .pong := h
  refine ⟨?_, ?_, ?_, hlen⟩
  all_goals
    rw [hcode]
    decide

theorem length_data_le (f : ServerFrame) : f.data.length ≤ f.bytes.length := by
  rw [bytes, serverFrame, List.length_append]
  exact Nat.le_add_left _ _

/-- The frame on the wire. -/
def wireFrame (f : ServerFrame) (h : f.Plain) : WireFrame where
  first := 0x80 ||| (0x0F &&& f.code.value)
  short := ⟨(shortLen f.data.length).toNat, (shortLen_toNat _).1⟩
  extension := extension f.data.length
  key := []
  payload := f.data
  extension_eq := by rw [(shortLen_toNat _).2, Con.extended_shortLen]
  key_eq := WireFrame.key_nil
  payload_eq := (Con.decode_extension h.length_lt).symm

theorem wireFrame_bytes (h : f.Plain) : (f.wireFrame h).bytes = f.bytes := by
  simp only [WireFrame.bytes, WireFrame.second, WireFrame.masked, wireFrame, (shortLen_toNat _).2,
    bytes, serverFrame, header]
  simp

theorem bytes_slice (f : ServerFrame) (done rest : List UInt8) :
    ((done ++ (f.bytes ++ rest)).drop (done.length + (f.bytes.length - f.data.length))).take
      f.data.length = f.data := by
  obtain ⟨h, hbytes⟩ : ∃ h, f.bytes = h ++ f.data := ⟨_, rfl⟩
  have hlen : f.bytes.length - f.data.length = h.length := by
    rw [hbytes, List.length_append]
    omega
  rw [hlen, hbytes, ← List.drop_drop, List.drop_left, List.append_assoc, List.drop_left,
    List.take_left]

end ServerFrame

/-! ## Reading a part of a stream -/

theorem WireFrame.drains_part {f : WireFrame} {s : Reading cacheSize} (hstate : s.con.state = .open)
    (hread : f.Readable) {l r : List UInt8} (h : l ++ r = f.bytes) (hr : r ≠ []) :
    ∃ σ l', Drains (parser cacheSize) (some s) l [] σ l' := by
  cases hstep : (parser cacheSize).step (some s) l with
  | none => exact ⟨_, _, .wait hstep⟩
  | some m =>
    have hwhole := (parser cacheSize).step_append hstep r
    rw [h, parser_step, step_open hstate] at hwhole
    obtain ⟨h₀, h₁, t, hbytes, -, rfl⟩ := Reading.takeHeader_cases hwhole
    obtain ⟨-, hpayload⟩ := tookHeader_eq hread s.con []
    rw [List.append_nil] at hpayload
    rw [bytes, List.cons.injEq, List.cons.injEq] at hbytes
    obtain ⟨rfl, rfl, rfl⟩ := hbytes
    have htaken := (parser cacheSize).taken_le hstep
    have hlen := congrArg List.length h
    have hpos := List.length_pos_of_ne_nil hr
    have hheader := f.headerLen_eq
    rw [List.length_append] at hlen
    have hwait : (parser cacheSize).step (some ⟨s.con.tookHeader f.first f.second
        (f.extension ++ f.key ++ f.payload), s.cursor + Con.headerLen f.second⟩)
        (l.drop (Con.headerLen f.second)) = none := by
      rw [parser_step, step_openData rfl, Reading.takePayload, if_neg]
      rw [hpayload, List.length_drop]
      simp only at htaken
      omega
    exact ⟨_, _, .next hstep (.wait hwait)⟩

namespace ServerFrame

variable {f : ServerFrame} {fs : List ServerFrame}

theorem drains_bytes {s : Reading cacheSize} (hstate : s.con.state = .open) (h : f.Plain)
    (rest : List UInt8) :
    ∃ (d : Decoded) (s' : Reading cacheSize), s'.con.state = .open ∧
      s'.cursor = s.cursor + f.bytes.length ∧ d.opcode = f.code.value ∧ d.len = f.data.length ∧
      d.offset = s.cursor + (f.bytes.length - f.data.length) ∧
      ∀ {es : List Decoded} {σ : Option (Reading cacheSize)} {l : List UInt8},
        Drains (parser cacheSize) (some s') rest es σ l →
          Drains (parser cacheSize) (some s) (f.bytes ++ rest) (d :: es) σ l := by
  have hping := h.not_ping
  have hclose := h.not_close
  obtain ⟨c, d, hopcode, hd, hsize, hoffset, hdrains⟩ :=
    WireFrame.drains_wireFrame (f := f.wireFrame h) hstate (List.append_nil _) rest
  have hcode : (f.wireFrame h).opcode = f.code.value := (opcode_eq_iff f.code).mpr h.known
  rw [wireFrame_bytes] at hoffset hdrains
  rw [hcode] at hopcode hd
  rw [← hopcode] at hping hclose
  obtain ⟨c', hc'⟩ := Con.dispatch_of_ne_ping f.data d.offset hping
  have hopen := (Con.dispatch_state hc').2
  rw [if_neg hclose] at hopen
  refine ⟨d, ⟨c', s.cursor + f.bytes.length⟩, hopen, rfl, hd, hsize, hoffset,
    fun h ↦ hdrains.mpr ⟨_, rfl, ?_⟩⟩
  change Drains (parser cacheSize) ((c.dispatch f.data d.offset).map _) rest _ _ _
  rwa [hc']

/-- The parser goes through the beginning of a stream and finds the frames that are whole in it. -/
theorem drains_stream {s : Reading cacheSize} (hstate : s.con.state = .open)
    (hplain : ∀ f ∈ fs, f.Plain) {l : List UInt8} (hl : l <+: stream fs) (done : List UInt8)
    (hcursor : s.cursor = done.length) :
    ∃ n es σ l', Drains (parser cacheSize) (some s) l es σ l' ∧
      (es.map fun d ↦ (d.opcode, ((done ++ l).drop d.offset).take d.len))
        = (fs.take n).map read ∧
      (stream (fs.take n)).length ≤ l.length ∧
      (n < fs.length → l.length < (stream (fs.take (n + 1))).length) := by
  induction fs generalizing s done l with
  | nil =>
    rw [List.prefix_nil.mp hl]
    exact ⟨0, [], _, _, .wait (by rw [parser_step, step_open hstate]; rfl), rfl, Nat.le_refl _,
      fun hlt ↦ absurd hlt (Nat.not_lt_zero _)⟩
  | cons f fs ih =>
    have hf : f.Plain := hplain f List.mem_cons_self
    rw [stream, List.flatMap_cons, ← stream] at hl
    have hbytes : f.bytes <+: f.bytes ++ stream fs := List.prefix_append _ _
    by_cases hle : f.bytes.length ≤ l.length
    · obtain ⟨k, rfl⟩ := List.prefix_of_prefix_length_le hbytes hl hle
      obtain ⟨d, s', hstate', hcursor', hopcode, hsize, hoffset, hdrains⟩ :=
        drains_bytes hstate hf k
      obtain ⟨n, es, σ, l', hrest, hes, hlen, hnext⟩ :=
        ih hstate' (fun f hf ↦ hplain f (List.mem_cons_of_mem _ hf))
          ((List.prefix_append_right_inj _).mp hl) (done ++ f.bytes)
          (by rw [hcursor', hcursor, List.length_append])
      refine ⟨n + 1, d :: es, σ, l', hdrains hrest, ?_, ?_, fun hlt ↦ ?_⟩
      · rw [List.map_cons, List.take_succ_cons, List.map_cons, hopcode, hsize, hoffset, hcursor,
          bytes_slice, ← hes]
        simp only [List.append_assoc]
        rfl
      · rw [List.take_succ_cons, stream, List.flatMap_cons, ← stream, List.length_append,
          List.length_append]
        exact Nat.add_le_add_left hlen _
      · rw [List.take_succ_cons, stream, List.flatMap_cons, ← stream, List.length_append,
          List.length_append]
        exact Nat.add_lt_add_left (hnext (by simpa using hlt)) _
    · have hlt := Nat.lt_of_not_le hle
      obtain ⟨r, hr⟩ := List.prefix_of_prefix_length_le hl hbytes (Nat.le_of_lt hlt)
      have hread : (f.wireFrame hf).Readable := List.append_nil _
      obtain ⟨σ, l', hdrains⟩ := WireFrame.drains_part hstate hread
        (hr.trans (wireFrame_bytes hf).symm) (by
          rintro rfl
          rw [List.append_nil] at hr
          exact hle (Nat.le_of_eq (congrArg List.length hr.symm)))
      refine ⟨0, [], σ, l', hdrains, rfl, Nat.zero_le _, fun _ ↦ ?_⟩
      rwa [List.take_succ_cons, List.take_zero, stream, List.flatMap_singleton]

/-- **A part of a stream is read back** as the frames that are whole in it. -/
theorem readBack_stream {con : Con cacheSize} (hstate : con.state = .open)
    (hplain : ∀ f ∈ fs, f.Plain) {l : List UInt8} (hl : l <+: stream fs) :
    ∃ n, readBack con l = (fs.take n).map read ∧ (stream (fs.take n)).length ≤ l.length ∧
      (n < fs.length → l.length < (stream (fs.take (n + 1))).length) := by
  obtain ⟨n, es, σ, l', hdrains, hes, hlen, hnext⟩ :=
    drains_stream (s := ⟨con, 0⟩) hstate hplain hl [] rfl
  obtain ⟨σ', l'', hframes⟩ := drains_framesOf con 0 l
  refine ⟨n, ?_, hlen, hnext⟩
  rw [readBack, ← (hdrains.unique hframes).1]
  exact hes

end ServerFrame

/-! ## What a write takes -/

namespace Con

variable {con : Con cacheSize} {log : MultiPositionedStreamLog publishSize} {fd : ℕ}
  {find : ℕ → Bool} {cb : Writer}

theorem write_buffer (hready : Output.Ready con) (hempty : con.writeBuf.isEmpty = false)
    (hfits : con.writeBuf.LengthsFit) :
    ∃ k, (con.write (some log) fd find cb).bytes = con.writeBuf.contents.take k ∧
      (con.write (some log) fd find cb).publish = some log ∧
      (con.write (some log) fd find cb).con.writeBuf.contents = con.writeBuf.contents.drop k ∧
      Output.Ready (con.write (some log) fd find cb).con ∧
      (0 < k → 0 < cb.run (con.writeBuf.writevRegions.map Region.len)) := by
  obtain ⟨hwf, hgather, -, hdrop⟩ := hready.wf.writev cb fun _ ↦ hfits
  have hav : con.writeBuf.available ≠ 0 := by
    rw [hready.wf.rep.isEmpty_eq, List.isEmpty_eq_false_iff] at hempty
    rw [hready.wf.rep.available_eq]
    exact Nat.pos_iff_ne_zero.mp (List.length_pos_of_ne_nil hempty)
  have hret : (con.writeBuf.writev cb).ret = cb.run
    (con.writeBuf.writevRegions.map Region.len) := by
    rw [BipBuf.writev_eq hav]
    rfl
  refine ⟨(con.writeBuf.writev cb).ret.toNat, ?_⟩
  simp only [Con.write, hempty, if_true, BipBuf.accepted, hgather]
  refine ⟨trivial, trivial, hdrop, ⟨hwf, (BipBuf.writev_capacity cb).trans hready.capacity_eq,
    hready.masked_eq, hready.state_ne⟩, fun hpos ↦ ?_⟩
  rw [← hret]
  omega

theorem write_unset (hempty : con.writeBuf.isEmpty = true) (hset : log.curOffset fd = unset) :
    (con.write (some log) fd find cb).bytes = [] ∧
      (con.write (some log) fd find cb).publish = some log ∧
      (con.write (some log) fd find cb).con = con := by
  have hnone : log.writev (log.availableAt fd) fd find cb
      = ((log.writev (log.availableAt fd) fd find cb).1, [], log) := by
    unfold MultiPositionedStreamLog.writev
    split_ifs <;> rfl
  simp only [Con.write, hempty, Bool.true_eq_false, if_false]
  rw [hnone]
  exact ⟨List.take_nil, rfl, trivial⟩

theorem write_log (hempty : con.writeBuf.isEmpty = true) (hset : log.curOffset fd ≠ unset)
    (hle : log.curOffset fd ≤ log.stream.available)
    (hpages : log.curOffset fd + min (log.availableAt fd) (publishSize * log.stream.pageSize)
      ≤ 2 ^ 32 * log.stream.pageSize) :
    ∃ (k : ℕ) (log' : MultiPositionedStreamLog publishSize),
      (con.write (some log) fd find cb).bytes = load log.stream.data (log.curOffset fd) k ∧
      (con.write (some log) fd find cb).publish = some log' ∧
      (con.write (some log) fd find cb).con = con ∧
      log.curOffset fd + k ≤ log.stream.available ∧ log'.stream = log.stream ∧
      log'.curOffset fd = log.curOffset fd + k := by
  obtain ⟨k, htaken, hend, hstream, hmoved⟩ := writev_taken hset hle hpages find cb
  refine ⟨k, _, ?_, ?_, ?_, hend, hstream, hmoved⟩
  · simp only [Con.write, hempty, Bool.true_eq_false, if_false, htaken]
  · simp only [Con.write, hempty, Bool.true_eq_false, if_false]
  · simp only [Con.write, hempty, Bool.true_eq_false, if_false]

theorem answered_pongs (hready : Output.Ready con) {writeBuf : BipBuf .uint64 UInt8}
    (h : con.Answered writeBuf) : writeBuf.Wf ∧ writeBuf.capacity = bufferCapacity ∧
      ∃ pongs : List ServerFrame, (∀ f ∈ pongs, f.IsPong ∧ f.Plain) ∧
        writeBuf.contents = con.writeBuf.contents ++ ServerFrame.stream pongs := by
  induction h with
  | refl =>
    refine ⟨hready.wf, hready.capacity_eq, [], fun f hf ↦ absurd hf List.not_mem_nil, ?_⟩
    exact (List.append_nil _).symm
  | @pong writeBuf _ data hlen ih =>
    obtain ⟨hwf, hcap, pongs, hpongs, hcont⟩ := ih
    obtain ⟨c, hc⟩ : ∃ c : Con cacheSize,
      c = { con with writeBuf := writeBuf, state := .open } := ⟨_, rfl⟩
    have hbuf : c.writeBuf.Buffers bufferCapacity c.writeBuf.contents := by
      rw [hc, ← hcap]
      exact hwf.buffers
    have hmasked : c.masked = false := by
      rw [hc]
      exact hready.masked_eq
    have hfree := hbuf.free_eq
    rw [bufferCapacity] at hfree
    rw [answer, ← hc]
    by_cases hroom : HasRoom c.writeBuf.free data.length c.masked
    · obtain ⟨-, hqueued, -⟩ := Con.queue_of_room .pong (Or.inl (by rw [hc])) hbuf (by decide) hroom
        fun hm ↦ absurd hm (by rw [hmasked]; decide)
      refine ⟨hqueued.wf, hqueued.capacity_eq, pongs ++ [⟨.pong, data⟩], fun f hf ↦ ?_, ?_⟩
      · rcases List.mem_append.mp hf with hf | hf
        · exact hpongs f hf
        · rw [List.mem_singleton.mp hf]
          exact ⟨rfl, ServerFrame.plain_pong rfl (Nat.lt_of_le_of_lt hlen (by decide))⟩
      · rw [hqueued.rep.contents_eq, ServerFrame.stream_append, ← List.append_assoc, ← hcont,
          Con.wire, hmasked, hc]
        simp [ServerFrame.stream, ServerFrame.bytes, serverFrame]
    · rw [Con.queue_of_no_room (by omega) (Nat.lt_of_le_of_lt hlen (by decide)) (Or.inr hroom), hc]
      exact ⟨hwf, hcap, pongs, hpongs, hcont⟩

end Con

end Coypu
