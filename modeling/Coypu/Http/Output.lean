import Coypu.Http.Frame
import Coypu.Http.Processing
import Coypu.Library.Blocks
import Coypu.Library.Run

/-!
# The bytes a connection sends

A server connection has two sources of bytes, its write buffer and the publish log, and `Write`
takes the write buffer whenever it is not empty. Both hold whole frames. The bytes sent are whole
frames as long as no bytes are taken from the write buffer when a published frame is under way
(`Undisturbed`).

The frames published and the bytes sent are tracked beside the connection.
-/

set_option autoImplicit false

namespace Coypu

open FlatMemory Transport WebSocket MultiPositionedStreamLog

variable {cacheSize publishSize : ℕ}

/-- A frame as a server sends it. -/
def serverFrame (code : WSOPCode) (data : List UInt8) : List UInt8 :=
  header code false data.length ++ extension data.length ++ data

/-- A whole frame. -/
def IsFrame (l : List UInt8) : Prop := ∃ code data, l = serverFrame code data

theorem IsFrame.length_pos {l : List UInt8} (h : IsFrame l) : 0 < l.length := by
  obtain ⟨code, data, rfl⟩ := h
  simp [serverFrame, header]

/-- What happens to a connection and its publish log. A payload is in memory. -/
inductive OutputOp where
  | publish (code : WSOPCode) (data : List UInt8)
  | queue (code : WSOPCode) (data : List UInt8) (hlen : data.length < 2 ^ 63)
  | read (rounds : ℕ) (cb : Reader UInt8)
  | write (find : ℕ → Bool) (cb : Writer)

/-- A connection, the publish log, the frames published since the connection was attached, and the
bytes sent. There is no connection any more where a call did not return. -/
structure Output (cacheSize publishSize : ℕ) where
  con : Option (Con cacheSize)
  log : MultiPositionedStreamLog publishSize
  published : List (List UInt8)
  sent : List UInt8

namespace Output

variable (computeKey : List UInt8 → Option (List UInt8)) (fd start : ℕ)
  {s : Output cacheSize publishSize}

def step (s : Output cacheSize publishSize) (op : OutputOp) : Output cacheSize publishSize × Unit :=
  (match op with
  | .publish code data =>
    { s with
      log := s.log.push (serverFrame code data) none
      published := if (s.log.stream.push (serverFrame code data) none).1
        then s.published ++ [serverFrame code data] else s.published }
  | .queue code data _ => { s with con := s.con.map fun con ↦ (con.queue code data).2 }
  | .read rounds cb =>
    { s with con := s.con.bind fun con ↦ (con.read computeKey rounds cb).map Prod.snd }
  | .write find cb =>
    match s.con with
    | none => s
    | some con =>
      { s with
        con := some (con.write (some s.log) fd find cb).con
        log := ((con.write (some s.log) fd find cb).publish).getD s.log
        sent := s.sent ++ (con.write (some s.log) fd find cb).bytes }, ())

/-- The bytes sent are the handshake and whole frames, the last of which may be under way. -/
def WholeFrames (handshake : List UInt8) (s : Output cacheSize publishSize) : Prop :=
  ∃ frames : List (List UInt8), (∀ l ∈ frames, IsFrame l) ∧ s.sent <+: handshake ++ frames.flatten

/-- No published frame is under way. -/
def AtBoundary (s : Output cacheSize publishSize) : Prop :=
  s.log.curOffset fd = unset ∨ ∃ n, s.log.curOffset fd = start + Blocks.start s.published n

/-- A `Write` from the write buffer gets its lengths right, and where any bytes are taken no
published frame is under way; a `Write` from the log stays in the first `2³²` pages. -/
def Undisturbed (s : Output cacheSize publishSize) : OutputOp → Prop
  | .write _ cb => ∀ con, s.con = some con →
      (con.writeBuf.isEmpty = false → con.writeBuf.LengthsFit ∧
        (0 < cb.run (con.writeBuf.writevRegions.map Region.len) → s.AtBoundary fd start)) ∧
      (con.writeBuf.isEmpty = true → s.log.curOffset fd ≠ unset →
        s.log.curOffset fd + min (s.log.availableAt fd) (publishSize * s.log.stream.pageSize)
          ≤ 2 ^ 32 * s.log.stream.pageSize)
  | _ => True

/-! ## The write buffer -/

/-- A server connection behind its handshake. -/
structure Ready (con : Con cacheSize) : Prop where
  wf : con.writeBuf.Wf
  capacity_eq : con.writeBuf.capacity = bufferCapacity
  masked_eq : con.masked = false
  state_ne : con.state ≠ .connecting

/-- A write buffer with some frames more. -/
def Grown (b b' : BipBuf .uint64 UInt8) : Prop :=
  b'.Wf ∧ b'.capacity = bufferCapacity ∧
    ∃ frames : List (List UInt8), (∀ l ∈ frames, IsFrame l) ∧
      b'.contents = b.contents ++ frames.flatten

theorem Grown.refl {b : BipBuf .uint64 UInt8} (h : b.Wf) (hcap : b.capacity = bufferCapacity) :
    Grown b b :=
  ⟨h, hcap, [], by simp, by simp⟩

theorem Grown.trans {b b' b'' : BipBuf .uint64 UInt8} (h : Grown b b') (h' : Grown b' b'') :
    Grown b b'' := by
  obtain ⟨-, -, frames, hframes, hcont⟩ := h
  obtain ⟨hwf, hcap, frames', hframes', hcont'⟩ := h'
  refine ⟨hwf, hcap, frames ++ frames', fun l hl ↦ ?_, ?_⟩
  · exact (List.mem_append.mp hl).elim (hframes l) (hframes' l)
  · rw [hcont', hcont, List.flatten_append, List.append_assoc]

theorem queue_grown (con : Con cacheSize) (hwf : con.writeBuf.Wf)
    (hcap : con.writeBuf.capacity = bufferCapacity) (hmasked : con.masked = false) (code : WSOPCode)
    {data : List UInt8} (hlen : data.length < 2 ^ 63) :
    Grown con.writeBuf (con.queue code data).2.writeBuf := by
  have hbuf := hwf.buffers
  have hsmall : con.writeBuf.capacity < 2 ^ 32 := by rw [hcap]; decide
  have hfree := hbuf.free_eq
  by_cases h : con.Sends ∧ HasRoom con.writeBuf.free data.length con.masked
  · obtain ⟨-, hqueued, -⟩ := Con.queue_of_room code h.1 hbuf hsmall h.2
      fun hm ↦ absurd hm (by simp [hmasked])
    refine ⟨hqueued.wf, hqueued.capacity_eq.trans hcap, [serverFrame code data], ?_, ?_⟩
    · simpa using ⟨code, data, rfl⟩
    · rw [hqueued.rep.contents_eq, Con.wire, hmasked]
      simp [serverFrame]
  · rw [Con.queue_of_no_room (by omega) hlen (not_and_or.mp h)]
    exact Grown.refl hwf hcap

theorem answered_grown {con : Con cacheSize} (hr : Ready con) {writeBuf : BipBuf .uint64 UInt8}
    (h : con.Answered writeBuf) : Grown con.writeBuf writeBuf := by
  induction h with
  | refl => exact Grown.refl hr.wf hr.capacity_eq
  | @pong writeBuf _ data hlen ih =>
    exact ih.trans (queue_grown { con with writeBuf := writeBuf, state := .open } ih.1 ih.2.1
      hr.masked_eq .pong (Nat.lt_of_le_of_lt hlen (by decide)))

/-! ## The publish log -/

/-- What the frames published and the cursor say about the log. -/
structure Published (s : Output cacheSize publishSize) : Prop where
  position_eq : s.log.stream.position = s.log.stream.available
  frames : ∀ l ∈ s.published, IsFrame l
  cursor : s.log.curOffset fd ≠ unset → start ≤ s.log.curOffset fd ∧
    s.log.curOffset fd ≤ s.log.stream.available ∧
    load s.log.stream.data start (s.log.stream.available - start) = s.published.flatten

variable {computeKey} {fd start}

theorem Published.length_flatten (hp : s.Published fd start) (hset : s.log.curOffset fd ≠ unset) :
    s.published.flatten.length = s.log.stream.available - start := by
  rw [← (hp.cursor hset).2.2, length_load]

theorem Published.publish (hp : s.Published fd start) (code : WSOPCode) (data : List UInt8) :
    (s.step computeKey fd (.publish code data)).1.Published fd start := by
  unfold Output.step
  rcases LogRWStream.push_cases (serverFrame code data) hp.position_eq with
    heq | ⟨hok, hav, hpos, hload⟩
  · simp only [MultiPositionedStreamLog.push, heq]
    exact hp
  · refine ⟨hpos, ?_, fun hset ↦ ?_⟩
    · simp only [hok, if_true, List.mem_append, List.mem_singleton]
      rintro l (hl | rfl)
      · exact hp.frames l hl
      · exact ⟨code, data, rfl⟩
    · obtain ⟨hstart, hle, hbytes⟩ := hp.cursor hset
      simp only [MultiPositionedStreamLog.push, curOffset] at hstart hle hset ⊢
      refine ⟨hstart, by omega, ?_⟩
      have hsplit : s.log.stream.available + (serverFrame code data).length - start
          = (s.log.stream.available - start) + (serverFrame code data).length := by omega
      simp only [hok, if_true]
      rw [hav, hsplit, load_add, Nat.add_sub_cancel' (by omega), hload,
        LogRWStream.load_push (by omega), hbytes, List.flatten_append, List.flatten_singleton]

/-! ## The invariant -/

/-- The bytes sent, with those in the write buffer, are the handshake and whole frames, and the
cursor is at a boundary; or a published frame is under way, and the write buffer holds whole
frames. -/
structure Framed (fd start : ℕ) (handshake : List UInt8)
    (s : Output cacheSize publishSize) : Prop where
  published : s.Published fd start
  ready : ∀ con, s.con = some con → Ready con
  sent : ∃ (done : List (List UInt8)) (held : List UInt8) (n j : ℕ),
    (∀ l ∈ done, IsFrame l) ∧ (∀ con, s.con = some con → con.writeBuf.contents = held) ∧
    n ≤ s.published.length ∧
    (s.log.curOffset fd ≠ unset → s.log.curOffset fd = start + (Blocks.start s.published n + j)) ∧
    (j = 0 ∧ s.sent ++ held = handshake ++ done.flatten ∨
      s.log.curOffset fd ≠ unset ∧
        (∃ hn : n < s.published.length, 0 < j ∧ j < s.published[n].length) ∧
        s.sent = handshake ++ done.flatten ++ (s.published.drop n).flatten.take j ∧
        ∃ pending : List (List UInt8), (∀ l ∈ pending, IsFrame l) ∧ held = pending.flatten)

variable {handshake : List UInt8}

theorem Framed.wholeFrames (h : Framed fd start handshake s) : s.WholeFrames handshake := by
  obtain ⟨done, held, n, j, hdone, -, -, -, ⟨-, hsent⟩ | ⟨-, -, hsent, -⟩⟩ := h.sent
  · exact ⟨done, hdone, held, hsent⟩
  · refine ⟨done ++ s.published.drop n, fun l hl ↦ ?_, ?_⟩
    · exact (List.mem_append.mp hl).elim (hdone l) fun hl ↦
        h.published.frames l (List.mem_of_mem_drop hl)
    · rw [hsent, List.flatten_append, ← List.append_assoc]
      exact List.prefix_append_right_inj _ |>.mpr (List.take_prefix _ _)

theorem Framed.grown (h : Framed fd start handshake s) {con con' : Con cacheSize}
    (hcon : s.con = some con) (hready : Ready con') (hgrown : Grown con.writeBuf con'.writeBuf) :
    Framed fd start handshake { s with con := some con' } := by
  obtain ⟨done, held, n, j, hdone, hheld, hn, hcur, hsent⟩ := h.sent
  obtain ⟨-, -, frames, hframes, hcont⟩ := hgrown
  rw [hheld con hcon] at hcont
  refine ⟨⟨h.published.1, h.published.2, h.published.3⟩, fun c hc ↦ ?_, ?_⟩
  · obtain rfl : con' = c := Option.some.inj hc
    exact hready
  have hheld' : ∀ c, some con' = some c → c.writeBuf.contents = held ++ frames.flatten :=
    fun c hc ↦ by
    rw [← Option.some.inj hc, hcont]
  rcases hsent with ⟨hj, hsent⟩ | ⟨hset, hinside, hsent, pending, hpending, hflat⟩
  · refine ⟨done ++ frames, held ++ frames.flatten, n, j, fun l hl ↦ ?_, hheld', hn, hcur,
      Or.inl ⟨hj, ?_⟩⟩
    · exact (List.mem_append.mp hl).elim (hdone l) (hframes l)
    · rw [← List.append_assoc, hsent, List.flatten_append, List.append_assoc]
  · refine ⟨done, held ++ frames.flatten, n, j, hdone, hheld', hn, hcur,
      Or.inr ⟨hset, hinside, hsent, pending ++ frames, fun l hl ↦ ?_, ?_⟩⟩
    · exact (List.mem_append.mp hl).elim (hpending l) (hframes l)
    · rw [hflat, List.flatten_append]

theorem Framed.gone (h : Framed fd start handshake s) :
    Framed fd start handshake ({ s with con := none } : Output cacheSize publishSize) := by
  obtain ⟨done, held, n, j, hdone, -, hrest⟩ := h.sent
  exact ⟨⟨h.published.1, h.published.2, h.published.3⟩, fun c hc ↦ absurd hc (by simp),
    done, held, n, j, hdone, fun c hc ↦ absurd hc (by simp), hrest⟩

theorem Framed.publish (h : Framed fd start handshake s) (code : WSOPCode) (data : List UInt8) :
    Framed fd start handshake (s.step computeKey fd (.publish code data)).1 := by
  obtain ⟨done, held, n, j, hdone, hheld, hn, hcur, hsent⟩ := h.sent
  refine ⟨h.published.publish code data, h.ready, done, held, n, j, hdone, hheld, ?_⟩
  simp only [Output.step, curOffset_push]
  by_cases hok : (s.log.stream.push (serverFrame code data) none).1 = true
  · simp only [hok, if_true, Blocks.start_append hn, List.length_append]
    refine ⟨by omega, hcur, hsent.imp id ?_⟩
    rintro ⟨hset, ⟨hlt, hpos, hj⟩, hsent, hpending⟩
    have hle : j ≤ (s.published.drop n).flatten.length := by
      rw [List.drop_eq_getElem_cons hlt, List.flatten_cons, List.length_append]
      omega
    refine ⟨hset, ⟨by simp; omega, hpos, ?_⟩, ?_, hpending⟩
    · rwa [List.getElem_append_left hlt]
    · rw [hsent, List.drop_append_of_le_length hn, List.flatten_append,
        List.take_append_of_le_length hle]
  · simp only [hok]
    exact ⟨hn, hcur, hsent⟩

theorem Published.load_eq (hp : s.Published fd start) {n j k : ℕ}
    (hset : s.log.curOffset fd ≠ unset)
    (hcur : s.log.curOffset fd = start + (Blocks.start s.published n + j))
    (hle : s.log.curOffset fd + k ≤ s.log.stream.available) :
    load s.log.stream.data (s.log.curOffset fd) k
      = ((s.published.drop n).flatten.drop j).take k := by
  rw [← Blocks.drop_flatten, ← (hp.cursor hset).2.2, List.drop_drop, drop_load _ (by omega),
    take_load _ (by omega), ← hcur]

theorem Framed.advance (h : Framed fd start handshake s) {con : Con cacheSize}
    (hcon : s.con = some con)
    (hempty : con.writeBuf.contents = []) (hset : s.log.curOffset fd ≠ unset)
    {log : MultiPositionedStreamLog publishSize} {k : ℕ} (hstream : log.stream = s.log.stream)
    (hle : s.log.curOffset fd + k ≤ s.log.stream.available)
    (hmoved : log.curOffset fd = s.log.curOffset fd + k) :
    Framed fd start handshake { s with
      log := log
      sent := s.sent ++ load s.log.stream.data (s.log.curOffset fd) k } := by
  obtain ⟨done, held, n, j, hdone, hheld, hn, hcur, hsent⟩ := h.sent
  obtain ⟨hstart, -, hbytes⟩ := h.published.cursor hset
  have hnone : held = [] := (hheld con hcon).symm.trans hempty
  have hbound := available_lt_unset (m := s.log)
  have hset' : log.curOffset fd ≠ unset := by omega
  have hpre : s.sent = handshake ++ done.flatten ++ (s.published.drop n).flatten.take j := by
    rcases hsent with ⟨hj, hsent⟩ | ⟨-, -, hsent, -⟩
    · rw [hj, List.take_zero, List.append_nil, ← hsent, hnone, List.append_nil]
    · exact hsent
  -- the position that the bytes taken lead to lies at a boundary or in a block
  have hlen := h.published.length_flatten hset
  have hinside : j + k ≤ (s.published.drop n).flatten.length := by
    rw [← Blocks.drop_flatten, List.length_drop, hlen]
    have hcur' := hcur hset
    omega
  obtain ⟨n', j', hn', hjk, hj'⟩ := Blocks.exists_boundary hinside
  have hsent' : s.sent ++ load s.log.stream.data (s.log.curOffset fd) k
      = handshake ++ (done ++ (s.published.drop n).take n').flatten
        ++ (s.published.drop (n + n')).flatten.take j' := by
    rw [h.published.load_eq hset (hcur hset) hle, hpre, List.append_assoc, ← List.take_add, hjk,
      Blocks.take_start_add, List.drop_drop, List.flatten_append, List.append_assoc,
      List.append_assoc, List.append_assoc]
  rw [List.length_drop] at hn'
  refine ⟨⟨?_, h.published.frames, fun _ ↦ ⟨?_, ?_, ?_⟩⟩, h.ready,
    done ++ (s.published.drop n).take n',
    held, n + n', j', fun l hl ↦ ?_, hheld, by simp only; omega, fun _ ↦ ?_, ?_⟩
  · simp only [hstream]
    exact h.published.position_eq
  · simp only [hmoved]
    omega
  · simp only [hmoved, hstream]
    exact hle
  · simp only [hstream]
    exact hbytes
  · exact (List.mem_append.mp hl).elim (hdone l) fun hl ↦
      h.published.frames l (List.mem_of_mem_drop (List.mem_of_mem_take hl))
  · simp only [hmoved, Blocks.start_add]
    have hcur' := hcur hset
    omega
  by_cases hzero : j' = 0
  · refine Or.inl ⟨hzero, ?_⟩
    simp only [hsent', hnone, hzero, List.take_zero, List.append_nil]
  · obtain ⟨hlt, hj'⟩ := hj'.resolve_left hzero
    rw [List.length_drop] at hlt
    rw [List.getElem_drop] at hj'
    exact Or.inr ⟨hset', ⟨by simp only; omega, Nat.pos_of_ne_zero hzero, hj'⟩, hsent', [], by simp,
      by simp [hnone]⟩

theorem Framed.drain (h : Framed fd start handshake s) {con con' : Con cacheSize}
    (hcon : s.con = some con)
    (hready : Ready con') {k : ℕ} (hcont : con'.writeBuf.contents = con.writeBuf.contents.drop k)
    (hboundary : 0 < k → s.AtBoundary fd start) :
    Framed fd start handshake { s with
      con := some con'
      sent := s.sent ++ con.writeBuf.contents.take k } := by
  obtain ⟨done, held, n, j, hdone, hheld, hn, hcur, hsent⟩ := h.sent
  refine ⟨⟨h.published.1, h.published.2, h.published.3⟩, fun c hc ↦ Option.some.inj hc ▸ hready,
    done, held.drop k, n, j, hdone, fun c hc ↦ ?_, hn, hcur, ?_⟩
  · rw [← Option.some.inj hc, hcont, hheld con hcon]
  rw [hheld con hcon]
  rcases hsent with ⟨hj, hsent⟩ | ⟨hset, ⟨hlt, hpos, hj⟩, hsent, hpending⟩
  · refine Or.inl ⟨hj, ?_⟩
    simp only [List.append_assoc, List.take_append_drop]
    simpa using hsent
  · obtain rfl | hk := Nat.eq_zero_or_pos k
    · refine Or.inr ⟨hset, ⟨hlt, hpos, hj⟩, ?_, ?_⟩
      · simpa using hsent
      · simpa using hpending
    · rcases hboundary hk with hunset | ⟨m, hm⟩
      · exact absurd hunset hset
      · have hcur' := hcur hset
        exact absurd (show Blocks.start s.published n + j = Blocks.start s.published m by omega)
          (Blocks.start_add_ne hlt hpos hj)

/-! ## One step -/

theorem Framed.write_buffer (h : Framed fd start handshake s) {con : Con cacheSize}
    (hcon : s.con = some con) (hempty : con.writeBuf.isEmpty = false) {find : ℕ → Bool}
    {cb : Writer} (hok : s.Undisturbed fd start (.write find cb)) :
    Framed fd start handshake (s.step computeKey fd (.write find cb)).1 := by
  have hready := h.ready con hcon
  obtain ⟨hfits, hboundary⟩ := (hok con hcon).1 hempty
  obtain ⟨hwf, hgather, -, hdrop⟩ := hready.wf.writev cb fun _ ↦ hfits
  have hav : con.writeBuf.available ≠ 0 := by
    rw [hready.wf.rep.isEmpty_eq, List.isEmpty_eq_false_iff] at hempty
    rw [hready.wf.rep.available_eq]
    exact Nat.pos_iff_ne_zero.mp (List.length_pos_of_ne_nil hempty)
  have hret : (con.writeBuf.writev cb).ret = cb.run
    (con.writeBuf.writevRegions.map Region.len) := by
    rw [BipBuf.writev_eq hav]
    rfl
  have hready' : Ready { con with writeBuf := (con.writeBuf.writev cb).buf } :=
    ⟨hwf, (BipBuf.writev_capacity cb).trans hready.capacity_eq, hready.masked_eq, hready.state_ne⟩
  simp only [Output.step, hcon, Con.write, hempty, if_true, BipBuf.accepted, hgather,
    Option.getD_some]
  refine h.drain hcon hready' hdrop fun hpos ↦ hboundary ?_
  rw [← hret]
  omega

theorem Framed.write_log (h : Framed fd start handshake s) {con : Con cacheSize}
    (hcon : s.con = some con) (hempty : con.writeBuf.isEmpty = true) {find : ℕ → Bool} {cb : Writer}
    (hok : s.Undisturbed fd start (.write find cb)) :
    Framed fd start handshake (s.step computeKey fd (.write find cb)).1 := by
  have hready := h.ready con hcon
  have hnil : con.writeBuf.contents = [] := by
    rwa [hready.wf.rep.isEmpty_eq, List.isEmpty_iff] at hempty
  simp only [Output.step, hcon, Con.write, hempty]
  by_cases hset : s.log.curOffset fd = unset
  · have hnone : s.log.writev (s.log.availableAt fd) fd find cb
        = ((s.log.writev (s.log.availableAt fd) fd find cb).1, [], s.log) := by
      unfold MultiPositionedStreamLog.writev
      split_ifs <;> rfl
    rw [hnone]
    simpa [← hcon] using h
  · obtain ⟨k, htaken, hle, hstream, hmoved⟩ :=
      writev_taken hset (h.published.cursor hset).2.1 ((hok con hcon).2 hempty hset) find cb
    simp only [htaken]
    simpa [← hcon] using h.advance hcon hnil hset hstream hle hmoved

/-- **One step** that is undisturbed keeps the bytes in whole frames. -/
theorem Framed.step (h : Framed fd start handshake s) {op : OutputOp}
    (hok : s.Undisturbed fd start op) : Framed fd start handshake (s.step computeKey fd op).1 := by
  cases op with
  | publish code data => exact h.publish code data
  | queue code data hlen =>
    cases hcon : s.con with
    | none => simpa [Output.step, hcon] using h.gone
    | some con =>
      have hready := h.ready con hcon
      have hgrown := queue_grown con hready.wf hready.capacity_eq hready.masked_eq code hlen
      simp only [Output.step, hcon, Option.map_some]
      refine h.grown hcon ⟨hgrown.1, hgrown.2.1, ?_, ?_⟩ hgrown
      all_goals
        unfold Con.queue
        simp only
        split_ifs
      · exact hready.masked_eq
      · exact hready.masked_eq
      · exact hready.masked_eq
      · exact hready.state_ne
      · exact hready.state_ne
      · exact hready.state_ne
  | read rounds cb =>
    cases hcon : s.con with
    | none => simpa [Output.step, hcon] using h.gone
    | some con =>
      have hready := h.ready con hcon
      cases hread : con.read computeKey rounds cb with
      | none => simpa [Output.step, hcon, hread] using h.gone
      | some r =>
        obtain ⟨ret, con'⟩ := r
        have hprocessed := Con.read_processed hready.state_ne hread
        have hgrown := answered_grown hready hprocessed.answered
        simp only [Output.step, hcon, Option.bind_some, hread, Option.map_some]
        exact h.grown hcon ⟨hgrown.1, hgrown.2.1, hprocessed.masked_eq.trans hready.masked_eq,
          hprocessed.state_ne hready.state_ne⟩ hgrown
  | write find cb =>
    cases hcon : s.con with
    | none => simpa [Output.step, hcon] using h
    | some con =>
      cases hempty : con.writeBuf.isEmpty with
      | false => exact h.write_buffer hcon hempty hok
      | true => exact h.write_log hcon hempty hok

/-! ## Runs -/

/-- **The bytes sent are whole frames** in a run in which no bytes of the write buffer are taken
while a published frame is under way. -/
theorem run_wholeFrames {con : Con cacheSize} (hcon : s.con = some con) (hready : Ready con)
    (hlog : s.Published fd start)
    (hattached : s.log.curOffset fd ≠ unset → s.log.curOffset fd = start) (hsent : s.sent = [])
    {ops : List OutputOp}
    (hok : Run.Steps (Output.step computeKey fd) (Undisturbed fd start) s ops) :
    Run.Steps (Output.step computeKey fd)
      (fun s op ↦ (s.step computeKey fd op).1.WholeFrames con.writeBuf.contents) s ops := by
  have hstart : Framed fd start con.writeBuf.contents s :=
    ⟨hlog, fun c hc ↦ Option.some.inj (hcon.symm.trans hc) ▸ hready, [], con.writeBuf.contents, 0,
      0, by simp, fun c hc ↦ by rw [Option.some.inj (hcon.symm.trans hc)], Nat.zero_le _,
      fun hset ↦ by simpa using hattached hset, Or.inl ⟨rfl, by simp [hsent]⟩⟩
  exact Run.Steps.of_invariant (fun s op hs hok ↦ hs.step hok)
    (fun s op hs hok ↦ (hs.step hok).wholeFrames) hstart hok

/-- A server connection with an empty write buffer, attached to an empty log. -/
def attached : Output 2 2 where
  con := some { Con.registerConnection true [] none false false false WebSocket.zeroedData with
    state := .open }
  log := (MultiPositionedStreamLog.new
    (LogRWStream.new 2 4096 LogRWStream.smallPage_pos (fun _ ↦ 0) 0
      LogRWStream.beginning_lt)).register 0 0
  published := []
  sent := []

theorem attached_ready :
    Ready { (Con.registerConnection true [] none false false false
      WebSocket.zeroedData : Con 2) with state := .open } :=
  ⟨(BipBuf.rep_new _ _).wf (BipBuf.bounded_new _ _), rfl, rfl, WSClientState.noConfusion⟩

theorem attached_published : attached.Published 0 0 :=
  ⟨rfl, by simp [attached], fun _ ↦ ⟨Nat.le_refl _, Nat.le_refl _, rfl⟩⟩

/-- A published frame is sent as a whole and then the answer to a ping. -/
theorem run_wholeFrames_attached :
    Run.Steps (Output.step (fun _ ↦ none) 0)
      (fun s op ↦ (s.step (fun _ ↦ none) 0 op).1.WholeFrames []) attached
      [.publish .textFrame [1, 2, 3], .write (fun _ ↦ true) (Writer.atMost 5 (by decide)),
        .queue .pong [] (by decide), .write (fun _ ↦ true) (Writer.atMost 5 (by decide))] := by
  refine run_wholeFrames rfl attached_ready attached_published (fun _ ↦ rfl) rfl
    ⟨trivial, fun con hcon ↦ ?_, trivial, fun con hcon ↦ ?_, trivial⟩
  · obtain rfl := Option.some.inj hcon
    exact ⟨fun hempty ↦ absurd hempty (by decide +kernel), fun _ _ ↦ by decide +kernel⟩
  · obtain rfl := Option.some.inj hcon
    exact ⟨fun _ ↦ ⟨Or.inl (by decide +kernel), fun _ ↦ Or.inr ⟨1, by decide +kernel⟩⟩,
      fun hempty ↦ absurd hempty (by decide +kernel)⟩

theorem serverFrame_getD_one (code : WSOPCode) (data : List UInt8) :
    (serverFrame code data).getD 1 0 &&& 0x80 = 0 := by
  have hmask (x : UInt8) : 0x7F &&& x &&& 0x80 = 0 := by
    rw [UInt8.and_comm 0x7F, UInt8.and_assoc]
    exact UInt8.and_zero
  simp [serverFrame, header, maskBit, hmask]

/-- One byte of a published frame is sent, then the answer to a ping. -/
theorem not_wholeFrames_of_pong :
    ¬∀ ops, Run.Steps (Output.step (fun _ ↦ none) 0)
      (fun s op ↦ (s.step (fun _ ↦ none) 0 op).1.WholeFrames []) attached ops := by
  intro h
  have hsteps := h [.publish .textFrame [1, 2, 3],
    .write (fun _ ↦ true) (Writer.atMost 1 (by decide)),
    .queue .pong [] (by decide), .write (fun _ ↦ true) (Writer.atMost 5 (by decide))]
  obtain ⟨frames, hframes, hpre⟩ := hsteps.2.2.2.1
  have hsent : [0x81, 0x8A, 0] <+: frames.flatten := by
    rw [List.nil_append] at hpre
    convert hpre
    decide +kernel
  cases frames with
  | nil => exact absurd hsent (by decide)
  | cons l ls =>
    obtain ⟨code, data, rfl⟩ := hframes l (by simp)
    obtain ⟨rest, hrest⟩ := hsent
    have hbyte := congrArg (fun l : List UInt8 ↦ l.getD 1 0 &&& 0x80) hrest
    have hone : ((serverFrame code data :: ls).flatten).getD 1 0
      = (serverFrame code data).getD 1 0 := by
      simp [serverFrame, header]
    simp only [hone, serverFrame_getD_one] at hbyte
    exact absurd hbyte (show ¬(0x8A &&& 0x80 : UInt8) = 0 by decide)

end Output

end Coypu
