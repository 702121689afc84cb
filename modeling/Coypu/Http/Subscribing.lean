import Coypu.Http.ServerFrames
import Mathlib.Data.List.Infix

/-!
# Subscribers

A client of the publish log gets no messages until it marks a position. From then on `Write` sends
the log from there, and answers to pings from the write buffer. What the client reads is made of
the answers and of the messages from the mark on, each of them once and in their order
(`Subscription.Delivers`), as long as it marks beginnings of messages, and neither a mark nor an
answer comes while a message is under way.

A mark is a request of the client itself, which `onText` handles. The request is JSON; here a mark
is an operation of its own.
-/

set_option autoImplicit false

namespace Coypu

open FlatMemory Transport WebSocket MultiPositionedStreamLog

variable {cacheSize publishSize : ℕ}

/-! ## Subscriptions -/

/-- The messages from one position to another, where the first one is at `pos`. -/
def Message.between (a b : ℕ) : ℕ → List Message → List Message
  | _, [] => []
  | pos, m :: ms =>
    (if a ≤ pos ∧ pos + m.frame.length ≤ b then [m] else [])
      ++ between a b (pos + m.frame.length) ms

/-- A connection and the publish log, the messages published, the bytes sent, the last mark, and the
messages that were sent before it. There is no connection any more where a call did not return. -/
structure Subscription (cacheSize publishSize : ℕ) where
  con : Option (Con cacheSize)
  log : MultiPositionedStreamLog publishSize
  published : List Message
  sent : List UInt8
  marked : ℕ
  earlier : List Message

/-- What happens to them. -/
inductive SubscriptionOp where
  | publish (m : Message)
  | mark (offset : UInt64)
  | markEnd
  | read (rounds : ℕ) (cb : Reader UInt8)
  | write (find : ℕ → Bool) (cb : Writer)

namespace Subscription

variable (computeKey : List UInt8 → Option (List UInt8)) (fd start : ℕ)
  (s : Subscription cacheSize publishSize)

/-- The messages that are for the client so far: those from the mark up to its position. -/
def due : List Message :=
  s.earlier ++
    if s.log.curOffset fd = unset then []
    else Message.between s.marked (s.log.curOffset fd) start s.published

/-- The state behind a `Mark` or `MarkEnd`. -/
def remark (r : Bool × MultiPositionedStreamLog publishSize) (offset : ℕ) :
    Subscription cacheSize publishSize :=
  if r.1 then { s with log := r.2, marked := offset, earlier := s.due fd start } else s

def step (op : SubscriptionOp) : Subscription cacheSize publishSize × Unit :=
  (match op with
  | .publish m =>
    { s with
      log := { s.log with stream := s.log.stream.publish m }
      published := s.published ++ [m] }
  | .mark offset => s.remark fd start (s.log.mark fd offset.toNat) offset.toNat
  | .markEnd => s.remark fd start (s.log.markEnd fd) s.log.stream.available
  | .read rounds cb =>
    { s with con := s.con.bind fun con ↦ (con.read computeKey rounds cb).map Prod.snd }
  | .write find cb =>
    match s.con with
    | none => s
    | some con =>
      { s with
        con := some (con.write (some s.log) fd find cb).con
        log := ((con.write (some s.log) fd find cb).publish).getD s.log
        sent := s.sent ++ (con.write (some s.log) fd find cb).bytes }, ())

/-- The frames of the messages. -/
def frames : List (List UInt8) := s.published.map Message.frame

/-- No message is under way. -/
def AtBoundary : Prop :=
  s.log.curOffset fd = unset ∨
    ∃ n ≤ s.published.length, s.log.curOffset fd = start + Blocks.start s.frames n

/-- `WriteFrame` sees the room for a message. A mark is the beginning of a message or the end of the
log, and neither a mark nor a byte of the write buffer comes while a message is under way. The
lengths that a `Write` uses are right. -/
def Meets (s : Subscription cacheSize publishSize) : SubscriptionOp → Prop
  | .publish m => s.log.stream.Sees m
  | .mark offset => s.AtBoundary fd start ∧
      ∃ i ≤ s.published.length, offset.toNat = start + Blocks.start s.frames i
  | .markEnd => s.AtBoundary fd start
  | .read _ _ => True
  | .write _ cb => ∀ con, s.con = some con →
      (con.writeBuf.isEmpty = false → con.writeBuf.LengthsFit ∧
        (0 < cb.run (con.writeBuf.writevRegions.map Region.len) → s.AtBoundary fd start)) ∧
      (con.writeBuf.isEmpty = true → s.log.curOffset fd ≠ unset →
        s.log.curOffset fd + min (s.log.availableAt fd) (publishSize * s.log.stream.pageSize)
          ≤ 2 ^ 32 * s.log.stream.pageSize)

/-- The client gets what the write buffer held at first, and then finds the messages that are for
it, in their order, and answers to pings. -/
def Delivers (handshake : List UInt8) (s : Subscription cacheSize publishSize)
    (op : SubscriptionOp) : Prop :=
  (s.step computeKey fd start op).1.sent.take handshake.length <+: handshake ∧
    ∀ (size : ℕ) (client : Con size), client.state = .open →
      (readBack client ((s.step computeKey fd start op).1.sent.drop handshake.length)).filter
          (fun p ↦ p.1 ≠ WSOPCode.pong.value)
        = ((s.step computeKey fd start op).1.due fd start).map fun m ↦ (m.code.value, m.payload)

/-- Where the client is: its mark is before message `i`, and it has `n` messages and the first `j`
bytes of the next one. -/
structure Place (i n j : ℕ) : Prop where
  curOffset_eq : s.log.curOffset fd = start + (Blocks.start s.frames n + j)
  marked_eq : s.marked = start + Blocks.start s.frames i
  le : i ≤ n
  le_length : n ≤ s.published.length
  inside : j = 0 ∨ ∃ hn : n < s.frames.length, j < s.frames[n].length

/-- What was sent, where no message is under way: what the write buffer held at first, some whole
frames with all messages for the client, and answers to pings, which may still be in the write
buffer. -/
def Whole (handshake held : List UInt8) (done pending : List ServerFrame) : Prop :=
  s.AtBoundary fd start ∧
    s.sent ++ held = handshake ++ ServerFrame.stream (done ++ pending) ∧
    (done = [] ∨ handshake ++ ServerFrame.stream done <+: s.sent)

/-- And where one is. -/
def UnderWay (handshake held : List UInt8) (done pending : List ServerFrame) : Prop :=
  ∃ i n j, s.Place fd start i n j ∧ 0 < j ∧
    s.sent = handshake ++ ServerFrame.stream done ++ (s.frames.drop n).flatten.take j ∧
    held = ServerFrame.stream pending

/-- What holds between the steps. -/
structure Inv (handshake : List UInt8) (s : Subscription cacheSize publishSize) : Prop where
  holds : Publisher.Holds start ⟨s.log.stream, s.published⟩
  ready : ∀ con, s.con = some con → Output.Ready con
  place : s.log.curOffset fd ≠ unset → ∃ i n j, s.Place fd start i n j
  sent : ∃ (done pending : List ServerFrame) (held : List UInt8),
    (∀ f ∈ done, f.Plain) ∧ (∀ f ∈ pending, f.IsPong ∧ f.Plain) ∧
    (done.filter fun f ↦ f.code.value ≠ WSOPCode.pong.value)
      = (s.due fd start).map ServerFrame.ofMessage ∧
    (∀ con, s.con = some con → con.writeBuf.contents = held) ∧
    (s.Whole fd start handshake held done pending ∨ s.UnderWay fd start handshake held done pending)

variable {computeKey fd start s} {handshake held : List UInt8} {done pending : List ServerFrame}
  {i n j : ℕ}

/-! ## Messages between two positions -/

theorem between_of_le (a : ℕ) {b pos : ℕ} (h : b ≤ pos) (ms : List Message) :
    Message.between a b pos ms = [] := by
  induction ms generalizing pos with
  | nil => rfl
  | cons m ms ih =>
    have hpos : 0 < m.frame.length := IsFrame.length_pos ⟨_, _, rfl⟩
    rw [Message.between, if_neg (by omega), ih (by omega), List.append_nil]

theorem between_congr {a a' pos : ℕ} (b : ℕ) (h : a ≤ pos) (h' : a' ≤ pos) (ms : List Message) :
    Message.between a b pos ms = Message.between a' b pos ms := by
  induction ms generalizing pos with
  | nil => rfl
  | cons m ms ih =>
    rw [Message.between, Message.between, ih (by omega) (by omega)]
    simp only [h, h', true_and]

theorem start_cons (m : Message) (ms : List Message) (n : ℕ) :
    Blocks.start ((m :: ms).map Message.frame) (n + 1)
      = m.frame.length + Blocks.start (ms.map Message.frame) n := by
  rw [Blocks.start, List.map_cons, List.take_succ_cons, List.flatten_cons, List.length_append,
    Blocks.start]

theorem between_eq {ms : List Message} (pos : ℕ) (hi : i ≤ n)
    (hj : j = 0 ∨ ∃ hn : n < (ms.map Message.frame).length, j < (ms.map Message.frame)[n].length) :
    Message.between (pos + Blocks.start (ms.map Message.frame) i)
      (pos + (Blocks.start (ms.map Message.frame) n + j)) pos ms = (ms.take n).drop i := by
  induction ms generalizing pos i n with
  | nil => rw [List.take_nil, List.drop_nil, Message.between]
  | cons m ms ih =>
    have hpos : 0 < m.frame.length := IsFrame.length_pos ⟨_, _, rfl⟩
    cases n with
    | zero =>
      obtain rfl : i = 0 := Nat.le_zero.mp hi
      have hlt : j < m.frame.length := by
        rcases hj with rfl | ⟨_, hj⟩
        · exact hpos
        · exact hj
      rw [Message.between, Blocks.start_zero, if_neg (by omega), between_of_le _ (by omega)]
      rfl
    | succ n =>
      have hj' : j = 0 ∨ ∃ hn : n < (ms.map Message.frame).length,
          j < (ms.map Message.frame)[n].length := by
        rcases hj with hj | ⟨hn, hj⟩
        · exact Or.inl hj
        · exact Or.inr ⟨by simpa using hn, by simpa using hj⟩
      rw [start_cons, List.take_succ_cons, Message.between]
      cases i with
      | zero =>
        have hrest := ih (pos + m.frame.length) (Nat.zero_le n) hj'
        rw [Blocks.start_zero, Nat.add_zero, List.drop_zero] at hrest
        rw [Blocks.start_zero, Nat.add_zero, if_pos ⟨Nat.le_refl _, by omega⟩, List.drop_zero,
          Nat.add_assoc, ← Nat.add_assoc pos, between_congr _ (by omega) (Nat.le_refl _), hrest]
        rfl
      | succ i =>
        have hrest := ih (pos + m.frame.length) (Nat.le_of_succ_le_succ hi) hj'
        rw [start_cons, if_neg (by omega), List.nil_append, Nat.add_assoc (m.frame.length),
          ← Nat.add_assoc pos, ← Nat.add_assoc pos, hrest, List.drop_succ_cons]

/-! ## Where the client is -/

theorem length_frames : s.frames.length = s.published.length := List.length_map _

theorem length_flatten (h : Publisher.Holds start ⟨s.log.stream, s.published⟩) :
    s.frames.flatten.length = s.log.stream.available - start := by
  have hlen := congrArg List.length h.readable_eq
  rw [Publisher.readable, length_load, Message.frames, List.flatMap_def] at hlen
  exact hlen.symm

theorem length_payload_lt (h : Publisher.Holds start ⟨s.log.stream, s.published⟩) {m : Message}
    (hm : m ∈ s.published) : m.payload.length < 2 ^ 63 := by
  have hflat := length_flatten h
  have hframe : m.frame.length ≤ s.frames.flatten.length :=
    (List.sublist_flatten_of_mem (List.mem_map_of_mem hm)).length_le
  have hpayload := (ServerFrame.ofMessage m).length_data_le
  have havailable := s.log.stream.available_le
  have hposition := s.log.stream.position_lt
  rw [ServerFrame.ofMessage_bytes] at hpayload
  change m.payload.length ≤ _ at hpayload
  omega

namespace Place

theorem le_available (h : s.Place fd start i n j)
    (hholds : Publisher.Holds start ⟨s.log.stream, s.published⟩) :
    s.log.curOffset fd ≤ s.log.stream.available := by
  have hle : Blocks.start s.frames n + j ≤ s.frames.flatten.length := by
    refine Blocks.start_add_le (h.inside.imp (fun hj ↦ ⟨?_, hj⟩) id)
    rw [length_frames]
    exact h.le_length
  have hstart : start ≤ s.log.stream.available := hholds.start_le
  rw [length_flatten hholds] at hle
  rw [h.curOffset_eq]
  omega

theorem due_eq (h : s.Place fd start i n j) (hset : s.log.curOffset fd ≠ unset) :
    s.due fd start = s.earlier ++ (s.published.take n).drop i := by
  rw [due, if_neg hset, h.curOffset_eq, h.marked_eq, frames, between_eq start h.le h.inside]

theorem eq_zero (h : s.Place fd start i n j) (hset : s.log.curOffset fd ≠ unset)
    (hboundary : s.AtBoundary fd start) : j = 0 := by
  rcases hboundary with hunset | ⟨m, -, hm⟩
  · exact absurd hunset hset
  · rcases h.inside with hj | ⟨hn, hj⟩
    · exact hj
    · refine (Nat.eq_zero_or_pos j).resolve_right fun hpos ↦ ?_
      have hcur := h.curOffset_eq
      have heq : Blocks.start s.frames n + j = Blocks.start s.frames m := by omega
      exact Blocks.start_add_ne hn hpos hj heq

end Place

/-! ## Steps -/

namespace Inv

theorem curOffset_ne (h : s.Inv fd start handshake) (hplace : s.Place fd start i n j) :
    s.log.curOffset fd ≠ unset := by
  have hle := hplace.le_available h.holds
  have havailable := s.log.stream.available_le
  have hposition := s.log.stream.position_lt
  rw [unset]
  omega

end Inv

theorem Place.publish (h : s.Place fd start i n j) (m : Message) :
    (s.step computeKey fd start (.publish m)).1.Place fd start i n j := by
  have hn : n ≤ s.frames.length := length_frames.symm ▸ h.le_length
  have hframes : (s.step computeKey fd start (.publish m)).1.frames = s.frames ++ [m.frame] := by
    simp only [step, frames, List.map_append, List.map_cons, List.map_nil]
  refine ⟨?_, ?_, h.le, ?_, ?_⟩
  · rw [hframes, Blocks.start_append hn]
    exact h.curOffset_eq
  · rw [hframes, Blocks.start_append (Nat.le_trans h.le hn)]
    exact h.marked_eq
  · simp only [step, List.length_append]
    exact Nat.le_add_right_of_le h.le_length
  · rcases h.inside with hj | ⟨hlt, hj⟩
    · exact Or.inl hj
    · refine Or.inr ⟨?_, ?_⟩
      · rw [hframes, List.length_append]
        exact Nat.lt_add_right _ hlt
      · simp only [hframes]
        rwa [List.getElem_append_left hlt]

theorem due_publish (hplace : s.log.curOffset fd ≠ unset → ∃ i n j, s.Place fd start i n j)
    (m : Message) :
    (s.step computeKey fd start (.publish m)).1.due fd start = s.due fd start := by
  by_cases hset : s.log.curOffset fd = unset
  · have hset' : (s.step computeKey fd start (.publish m)).1.log.curOffset fd = unset := hset
    rw [due, due, if_pos hset, if_pos hset']
    rfl
  · obtain ⟨i, n, j, hp⟩ := hplace hset
    rw [(hp.publish m).due_eq hset, hp.due_eq hset]
    simp only [step]
    rw [List.take_append_of_le_length hp.le_length]

theorem Inv.publish (h : s.Inv fd start handshake) {m : Message} (hsees : s.log.stream.Sees m) :
    (s.step computeKey fd start (.publish m)).1.Inv fd start handshake := by
  obtain ⟨done, pending, held, hdone, hpending, hdue, hheld, hsent⟩ := h.sent
  refine ⟨(h.holds.step hsees).2, h.ready, fun hset ↦ ?_, done, pending, held, hdone, hpending, ?_,
    hheld, ?_⟩
  · obtain ⟨i, n, j, hplace⟩ := h.place hset
    exact ⟨i, n, j, hplace.publish m⟩
  · rw [due_publish h.place]
    exact hdue
  · have hframes : (s.step computeKey fd start (.publish m)).1.frames = s.frames ++ [m.frame] := by
      simp only [step, frames, List.map_append, List.map_cons, List.map_nil]
    rcases hsent with ⟨hboundary, hsent⟩ | ⟨i, n, j, hplace, hj, hsent, hpend⟩
    · refine Or.inl ⟨hboundary.imp id ?_, hsent⟩
      rintro ⟨n, hn, hcur⟩
      refine ⟨n, ?_, ?_⟩
      · simp only [step, List.length_append]
        exact Nat.le_add_right_of_le hn
      · rw [hframes, Blocks.start_append (by rwa [length_frames])]
        exact hcur
    · refine Or.inr ⟨i, n, j, hplace.publish m, hj, ?_, hpend⟩
      obtain ⟨hn, hlt⟩ := hplace.inside.resolve_left (Nat.pos_iff_ne_zero.mp hj)
      have hle : j ≤ (s.frames.drop n).flatten.length := by
        rw [List.drop_eq_getElem_cons hn, List.flatten_cons, List.length_append]
        omega
      rw [hframes, List.drop_append_of_le_length (Nat.le_of_lt hn), List.flatten_append,
        List.take_append_of_le_length hle]
      exact hsent

theorem Inv.remark (h : s.Inv fd start handshake) (hboundary : s.AtBoundary fd start) {o : ℕ}
    (hi : i ≤ s.published.length) (ho : o = start + Blocks.start s.frames i)
    (hlt : fd < s.log.curOffsets.length) :
    Inv fd start handshake (s.remark fd start (true, s.log.setOffset fd o) o) := by
  have hcur : (s.log.setOffset fd o).curOffset fd = o := by
    rw [curOffset_setOffset hlt, if_pos rfl]
  have hplace : Place fd start (s.remark fd start (true, s.log.setOffset fd o) o) i i 0 := by
    refine ⟨?_, ho, Nat.le_refl _, hi, Or.inl rfl⟩
    rw [Nat.add_zero]
    exact hcur.trans ho
  obtain ⟨done, pending, held, hdone, hpending, hdue, hheld, hsent⟩ := h.sent
  have hholds : Publisher.Holds start
    ⟨(s.remark fd start (true, s.log.setOffset fd o) o).log.stream, s.published⟩ := h.holds
  refine ⟨h.holds, h.ready, fun _ ↦ ⟨i, i, 0, hplace⟩, done, pending, held, hdone, hpending, ?_,
    hheld, Or.inl ⟨Or.inr ⟨i, hi, hcur.trans ho⟩, ?_⟩⟩
  · have hle := hplace.le_available hholds
    have hposition := (s.remark fd start (true, s.log.setOffset fd o) o).log.stream.position_lt
    have havailable := (s.remark fd start (true, s.log.setOffset fd o) o).log.stream.available_le
    rw [hplace.due_eq (by rw [unset]; omega), hdue, List.drop_take, Nat.sub_self, List.take_zero,
      List.append_nil]
    rfl
  · rcases hsent with ⟨-, hsent⟩ | ⟨i', n, j, hplace', hj, -⟩
    · exact hsent
    · exact absurd (hplace'.eq_zero (h.curOffset_ne hplace') hboundary) (Nat.pos_iff_ne_zero.mp hj)

theorem Place.frame (h : s.Place fd start i n j) (con : Option (Con cacheSize))
    (sent : List UInt8) : Place fd start { s with con, sent } i n j :=
  ⟨h.1, h.2, h.3, h.4, h.5⟩

theorem Inv.grown (h : s.Inv fd start handshake) {con con' : Con cacheSize}
    (hcon : s.con = some con) (hready : Output.Ready con') {pongs : List ServerFrame}
    (hpongs : ∀ f ∈ pongs, f.IsPong ∧ f.Plain)
    (hcont : con'.writeBuf.contents = con.writeBuf.contents ++ ServerFrame.stream pongs) :
    Inv fd start handshake { s with con := some con' } := by
  obtain ⟨done, pending, held, hdone, hpending, hdue, hheld, hsent⟩ := h.sent
  rw [hheld con hcon] at hcont
  refine ⟨h.holds, fun c hc ↦ ?_, fun hset ↦ ?_, done, pending ++ pongs,
    held ++ ServerFrame.stream pongs, hdone, fun f hf ↦ ?_, hdue, fun c hc ↦ ?_, ?_⟩
  · rw [← Option.some.inj hc]
    exact hready
  · obtain ⟨i, n, j, hplace⟩ := h.place hset
    exact ⟨i, n, j, hplace.frame _ _⟩
  · exact (List.mem_append.mp hf).elim (hpending f) (hpongs f)
  · rw [← Option.some.inj hc, hcont]
  · rcases hsent with ⟨hboundary, hsent, hpre⟩ | ⟨i, n, j, hplace, hj, hsent, hpend⟩
    · refine Or.inl ⟨hboundary, ?_, hpre⟩
      rw [← List.append_assoc, hsent, ← List.append_assoc done,
        ServerFrame.stream_append (done ++ pending), List.append_assoc]
    · refine Or.inr ⟨i, n, j, hplace.frame _ _, hj, hsent, ?_⟩
      rw [hpend, ServerFrame.stream_append]

theorem Inv.gone (h : s.Inv fd start handshake) :
    ({ s with con := none } : Subscription cacheSize publishSize).Inv fd start handshake := by
  obtain ⟨done, pending, held, hdone, hpending, hdue, -, hsent⟩ := h.sent
  refine ⟨h.holds, fun c hc ↦ absurd hc (by simp), fun hset ↦ ?_, done, pending, held, hdone,
    hpending, hdue, fun c hc ↦ absurd hc (by simp), ?_⟩
  · obtain ⟨i, n, j, hplace⟩ := h.place hset
    exact ⟨i, n, j, hplace.frame _ _⟩
  · refine hsent.imp id ?_
    rintro ⟨i, n, j, hplace, hrest⟩
    exact ⟨i, n, j, hplace.frame _ _, hrest⟩

theorem Inv.read (h : s.Inv fd start handshake) (rounds : ℕ) (cb : Reader UInt8) :
    (s.step computeKey fd start (.read rounds cb)).1.Inv fd start handshake := by
  cases hcon : s.con with
  | none => simpa only [step, hcon, Option.bind_none] using h.gone
  | some con =>
    have hready := h.ready con hcon
    cases hread : con.read computeKey rounds cb with
    | none => simpa only [step, hcon, Option.bind_some, hread, Option.map_none] using h.gone
    | some r =>
      obtain ⟨ret, con'⟩ := r
      have hprocessed := Con.read_processed hready.state_ne hread
      obtain ⟨hwf, hcap, pongs, hpongs, hcont⟩ := Con.answered_pongs hready hprocessed.answered
      simp only [step, hcon, Option.bind_some, hread, Option.map_some]
      exact h.grown hcon ⟨hwf, hcap, hprocessed.masked_eq.trans hready.masked_eq,
        hprocessed.state_ne hready.state_ne⟩ hpongs hcont

/-- Bytes of the write buffer are taken between messages, or none are taken. -/
theorem Inv.drain (h : s.Inv fd start handshake) {con con' : Con cacheSize}
    (hcon : s.con = some con) (hready : Output.Ready con') {k : ℕ}
    (hcont : con'.writeBuf.contents = con.writeBuf.contents.drop k)
    (hboundary : 0 < k → s.AtBoundary fd start) :
    Inv fd start handshake { s with
      con := some con', sent := s.sent ++ con.writeBuf.contents.take k } := by
  obtain ⟨done, pending, held, hdone, hpending, hdue, hheld, hsent⟩ := h.sent
  rw [hheld con hcon] at hcont ⊢
  refine ⟨h.holds, fun c hc ↦ ?_, fun hset ↦ ?_, done, pending, held.drop k, hdone, hpending, hdue,
    fun c hc ↦ ?_, ?_⟩
  · rw [← Option.some.inj hc]
    exact hready
  · obtain ⟨i, n, j, hplace⟩ := h.place hset
    exact ⟨i, n, j, hplace.frame _ _⟩
  · rw [← Option.some.inj hc, hcont]
  · rcases hsent with ⟨hat, hsent, hpre⟩ | ⟨i, n, j, hplace, hj, hsent, hpend⟩
    · refine Or.inl ⟨hat, ?_, hpre.imp id fun hpre ↦ hpre.trans (List.prefix_append _ _)⟩
      rw [List.append_assoc, List.take_append_drop]
      exact hsent
    · obtain rfl | hk := Nat.eq_zero_or_pos k
      · refine Or.inr ⟨i, n, j, hplace.frame _ _, hj, ?_, ?_⟩
        · rw [List.take_zero, List.append_nil]
          exact hsent
        · rw [List.drop_zero]
          exact hpend
      · exact absurd (hplace.eq_zero (h.curOffset_ne hplace) (hboundary hk))
          (Nat.pos_iff_ne_zero.mp hj)

/-- Where the write buffer is empty, what was sent ends with the messages up to the client's
place. -/
theorem Inv.sent_eq (h : s.Inv fd start handshake) {con : Con cacheSize} (hcon : s.con = some con)
    (hempty : con.writeBuf.contents = []) (hset : s.log.curOffset fd ≠ unset) :
    ∃ done i n j, (∀ f ∈ done, f.Plain) ∧ s.Place fd start i n j ∧
      (done.filter fun f ↦ f.code.value ≠ WSOPCode.pong.value)
        = (s.due fd start).map ServerFrame.ofMessage ∧
      s.sent = handshake ++ ServerFrame.stream done ++ (s.frames.drop n).flatten.take j := by
  obtain ⟨done, pending, held, hdone, hpending, hdue, hheld, hsent⟩ := h.sent
  obtain rfl : held = [] := (hheld con hcon).symm.trans hempty
  rcases hsent with ⟨hboundary, hsent, -⟩ | ⟨i, n, j, hplace, -, hsent, -⟩
  · obtain ⟨i, n, j, hplace⟩ := h.place hset
    obtain rfl := hplace.eq_zero hset hboundary
    have hpongs : (pending.filter fun f ↦ f.code.value ≠ WSOPCode.pong.value) = [] := by
      refine List.filter_eq_nil_iff.mpr fun f hf ↦ ?_
      have hcode : f.code = .pong := (hpending f hf).1
      rw [hcode]
      decide
    refine ⟨done ++ pending, i, n, 0, fun f hf ↦ ?_, hplace, ?_, ?_⟩
    · exact (List.mem_append.mp hf).elim (hdone f) fun hf ↦ (hpending f hf).2
    · rw [List.filter_append, hpongs, List.append_nil]
      exact hdue
    · rw [List.take_zero, List.append_nil, ← hsent, List.append_nil]
  · exact ⟨done, i, n, j, hdone, hplace, hdue, hsent⟩

theorem Place.load_eq (h : s.Place fd start i n j)
    (hholds : Publisher.Holds start ⟨s.log.stream, s.published⟩) {k : ℕ}
    (hle : s.log.curOffset fd + k ≤ s.log.stream.available) :
    load s.log.stream.data (s.log.curOffset fd) k
      = ((s.frames.drop n).flatten.drop j).take k := by
  have hflat : load s.log.stream.data start (s.log.stream.available - start)
      = s.frames.flatten := by
    have hreadable := hholds.readable_eq
    rwa [Publisher.readable, Message.frames, List.flatMap_def] at hreadable
  have hcur := h.curOffset_eq
  rw [← Blocks.drop_flatten, ← hflat, List.drop_drop, drop_load _ (by omega),
    take_load _ (by omega), ← hcur]

theorem filter_ofMessage (ms : List Message) :
    ((ms.map ServerFrame.ofMessage).filter fun f ↦ f.code.value ≠ WSOPCode.pong.value)
      = ms.map ServerFrame.ofMessage := by
  refine List.filter_eq_self.mpr fun f hf ↦ ?_
  obtain ⟨m, -, rfl⟩ := List.mem_map.mp hf
  have hcode : m.code.value ≠ WSOPCode.pong.value := by
    rw [Message.code]
    split_ifs <;> decide
  exact decide_eq_true hcode

theorem Inv.advance (h : s.Inv fd start handshake) {con : Con cacheSize} (hcon : s.con = some con)
    (hempty : con.writeBuf.contents = []) (hset : s.log.curOffset fd ≠ unset)
    {log : MultiPositionedStreamLog publishSize} {k : ℕ} (hstream : log.stream = s.log.stream)
    (hle : s.log.curOffset fd + k ≤ s.log.stream.available)
    (hmoved : log.curOffset fd = s.log.curOffset fd + k) :
    Inv fd start handshake { s with
      log := log
      sent := s.sent ++ load s.log.stream.data (s.log.curOffset fd) k } := by
  obtain ⟨done, i, n, j, hdone, hplace, hdue, hsent⟩ := h.sent_eq hcon hempty hset
  have hcur := hplace.curOffset_eq
  have hbound := available_lt_unset (m := s.log)
  -- the position that the bytes lead to is between messages or in one
  have hinside : j + k ≤ (s.frames.drop n).flatten.length := by
    have hstart : start ≤ s.log.stream.available := h.holds.start_le
    rw [← Blocks.drop_flatten, List.length_drop, length_flatten h.holds]
    omega
  obtain ⟨n', j', hn', hjk, hj'⟩ := Blocks.exists_boundary hinside
  rw [List.length_drop, length_frames] at hn'
  have hnn : n + n' ≤ s.published.length := by
    have hle' := hplace.le_length
    omega
  have hplace' : Place fd start { s with
      log := log
      sent := s.sent ++ load s.log.stream.data (s.log.curOffset fd) k } i (n + n') j' := by
    refine ⟨?_, hplace.marked_eq, Nat.le_add_right_of_le hplace.le, hnn, ?_⟩
    · change log.curOffset fd = start + (Blocks.start s.frames (n + n') + j')
      rw [hmoved, Blocks.start_add]
      omega
    · refine hj'.imp id ?_
      rintro ⟨hlt, hj'⟩
      rw [List.length_drop] at hlt
      rw [List.getElem_drop] at hj'
      exact ⟨by change n + n' < s.frames.length; omega, hj'⟩
  have hset' : log.curOffset fd ≠ unset := by omega
  have hsent' : s.sent ++ load s.log.stream.data (s.log.curOffset fd) k
      = handshake ++ ServerFrame.stream
        (done ++ ((s.published.drop n).take n').map ServerFrame.ofMessage)
        ++ (s.frames.drop (n + n')).flatten.take j' := by
    have hframes : ((s.frames.drop n).take n').flatten
        = ServerFrame.stream (((s.published.drop n).take n').map ServerFrame.ofMessage) := by
      rw [ServerFrame.stream_ofMessage, Message.frames, List.flatMap_def, List.map_take,
        List.map_drop]
      rfl
    rw [hplace.load_eq h.holds hle, hsent, List.append_assoc, ← List.take_add, hjk,
      Blocks.take_start_add, List.drop_drop, hframes, ServerFrame.stream_append, List.append_assoc,
      List.append_assoc, List.append_assoc]
  refine ⟨⟨?_, ?_, ?_⟩, h.ready, fun _ ↦ ⟨i, n + n', j', hplace'⟩,
    done ++ ((s.published.drop n).take n').map ServerFrame.ofMessage, [], [], ?_, by simp, ?_, ?_,
    ?_⟩
  · simp only [hstream]
    exact h.holds.start_le
  · simp only [hstream]
    exact h.holds.position_eq
  · simp only [hstream]
    exact h.holds.readable_eq
  · intro f hf
    rcases List.mem_append.mp hf with hf | hf
    · exact hdone f hf
    · obtain ⟨m, hm, rfl⟩ := List.mem_map.mp hf
      exact ServerFrame.plain_ofMessage
        (length_payload_lt h.holds (List.mem_of_mem_drop (List.mem_of_mem_take hm)))
  · rw [hplace'.due_eq hset', List.filter_append, hdue, hplace.due_eq hset, filter_ofMessage,
      ← List.map_append, List.append_assoc, List.take_add, List.drop_append_of_le_length
      (by rw [List.length_take, Nat.min_eq_left hplace.le_length]; exact hplace.le)]
  · intro c hc
    rw [← hempty, Option.some.inj (hcon.symm.trans hc)]
  · by_cases hzero : j' = 0
    · subst hzero
      rw [List.take_zero, List.append_nil] at hsent'
      refine Or.inl ⟨Or.inr ⟨n + n', hnn, hplace'.curOffset_eq⟩, ?_, Or.inr ?_⟩
      · rw [List.append_nil, List.append_nil]
        exact hsent'
      · exact hsent' ▸ List.prefix_refl _
    · exact Or.inr ⟨i, n + n', j', hplace', Nat.pos_of_ne_zero hzero, hsent', rfl⟩

theorem Inv.write (h : s.Inv fd start handshake) {find : ℕ → Bool} {cb : Writer}
    (hok : s.Meets fd start (.write find cb)) :
    (s.step computeKey fd start (.write find cb)).1.Inv fd start handshake := by
  cases hcon : s.con with
  | none =>
    simp only [step, hcon]
    exact h
  | some con =>
    have hready := h.ready con hcon
    obtain ⟨hbuffer, hlog⟩ := hok con hcon
    simp only [step, hcon]
    cases hempty : con.writeBuf.isEmpty with
    | false =>
      obtain ⟨hfits, hboundary⟩ := hbuffer hempty
      obtain ⟨k, hbytes, hpublish, hcont, hready', hpos⟩ :=
        Con.write_buffer hready hempty hfits
      rw [hbytes, hpublish]
      exact h.drain hcon hready' hcont fun hk ↦ hboundary (hpos hk)
    | true =>
      have hnil : con.writeBuf.contents = [] := by
        rwa [hready.wf.rep.isEmpty_eq, List.isEmpty_iff] at hempty
      by_cases hset : s.log.curOffset fd = unset
      · obtain ⟨hbytes, hpublish, hsame⟩ :=
          Con.write_unset hempty hset
        rw [hbytes, hpublish, hsame, ← hcon, List.append_nil]
        exact h
      · obtain ⟨i, n, j, hplace⟩ := h.place hset
        obtain ⟨k, log', hbytes, hpublish, hsame, hle, hstream, hmoved⟩ :=
          Con.write_log hempty hset
            (hplace.le_available h.holds) (hlog hempty hset)
        rw [hbytes, hpublish, hsame, ← hcon]
        exact h.advance hcon hnil hset hstream hle hmoved

theorem Inv.step (h : s.Inv fd start handshake) {op : SubscriptionOp} (hok : s.Meets fd start op) :
    (s.step computeKey fd start op).1.Inv fd start handshake := by
  cases op with
  | publish m => exact h.publish hok
  | mark offset =>
    obtain ⟨hboundary, i, hi, ho⟩ := hok
    simp only [Subscription.step, MultiPositionedStreamLog.mark]
    split_ifs with hlt
    · exact h.remark hboundary hi ho hlt
    · exact h
  | markEnd =>
    simp only [Subscription.step, MultiPositionedStreamLog.markEnd]
    split_ifs with hlt
    · have hstart : start ≤ s.log.stream.available := h.holds.start_le
      refine h.remark hok (Nat.le_refl _) ?_ hlt
      rw [← length_frames, Blocks.start_length, length_flatten h.holds]
      omega
    · exact h
  | read rounds cb => exact h.read rounds cb
  | write find cb => exact h.write hok

/-! ## What the client reads -/

/-- Behind what the write buffer held at first, a part of some frames is read, of which those behind
`done` bring no message. -/
theorem filter_readBack {rest : List ServerFrame} (hplain : ∀ f ∈ done ++ rest, f.Plain)
    {sent : List UInt8} (hsent : sent <+: handshake ++ ServerFrame.stream (done ++ rest))
    (hdone : (ServerFrame.stream done).length ≤ (sent.drop handshake.length).length)
    (hrest : ∀ n, (ServerFrame.stream (done ++ rest.take n)).length
      ≤ (sent.drop handshake.length).length →
        ((rest.take n).filter fun f ↦ f.code.value ≠ WSOPCode.pong.value) = [])
    {size : ℕ} {client : Con size} (hclient : client.state = .open) :
    (readBack client (sent.drop handshake.length)).filter (fun p ↦ p.1 ≠ WSOPCode.pong.value)
      = (done.filter fun f ↦ f.code.value ≠ WSOPCode.pong.value).map ServerFrame.read := by
  have hpart : sent.drop handshake.length <+: ServerFrame.stream (done ++ rest) := by
    have hdrop := hsent.drop handshake.length
    rwa [List.drop_left] at hdrop
  obtain ⟨n, hread, hle, hnext⟩ := ServerFrame.readBack_stream hclient hplain hpart
  have hn : done.length ≤ n := by
    by_contra hlt
    have hlt' := Nat.lt_of_not_le hlt
    have hshort := hnext (by rw [List.length_append]; omega)
    have htake : (done ++ rest).take (n + 1) <+: done := by
      rw [List.take_append_of_le_length hlt']
      exact List.take_prefix _ _
    obtain ⟨k, hk⟩ := htake
    have hlen := congrArg (fun l ↦ (ServerFrame.stream l).length) hk
    simp only [ServerFrame.stream_append, List.length_append] at hlen
    omega
  rw [List.take_append, List.take_of_length_le hn] at hread hle
  rw [hread, List.map_append, List.filter_append]
  have hmap (fs : List ServerFrame) : (fs.map ServerFrame.read).filter
      (fun p ↦ p.1 ≠ WSOPCode.pong.value)
      = (fs.filter fun f ↦ f.code.value ≠ WSOPCode.pong.value).map ServerFrame.read := by
    rw [List.filter_map]
    rfl
  rw [hmap, hmap, hrest _ hle, List.map_nil, List.append_nil]

theorem Inv.delivers_sent (h : s.Inv fd start handshake) :
    s.sent.take handshake.length <+: handshake ∧
      ∀ (size : ℕ) (client : Con size), client.state = .open →
        (readBack client (s.sent.drop handshake.length)).filter
            (fun p ↦ p.1 ≠ WSOPCode.pong.value)
          = (s.due fd start).map fun m ↦ (m.code.value, m.payload) := by
  obtain ⟨done, pending, held, hdone, hpending, hdue, -, hsent⟩ := h.sent
  have hmessages : ((done.filter fun f ↦ f.code.value ≠ WSOPCode.pong.value).map ServerFrame.read)
      = (s.due fd start).map fun m ↦ (m.code.value, m.payload) := by
    rw [hdue, List.map_map]
    rfl
  rcases hsent with ⟨-, hsent, hpre⟩ | ⟨i, n, j, hplace, hj, hsent, -⟩
  · have hpart : s.sent <+: handshake ++ ServerFrame.stream (done ++ pending) := ⟨held, hsent⟩
    refine ⟨?_, fun size client hclient ↦ ?_⟩
    · have htake := hpart.take handshake.length
      rwa [List.take_left] at htake
    · rw [← hmessages]
      have hplain : ∀ f ∈ done ++ pending, f.Plain := fun f hf ↦
        (List.mem_append.mp hf).elim (hdone f) fun hf ↦ (hpending f hf).2
      refine filter_readBack hplain hpart ?_ (fun k _ ↦ ?_) hclient
      · rcases hpre with rfl | hpre
        · exact Nat.zero_le _
        · have hdrop := (hpre.drop handshake.length).length_le
          rwa [List.drop_left] at hdrop
      · refine List.filter_eq_nil_iff.mpr fun f hf ↦ ?_
        have hcode : f.code = .pong := (hpending f (List.mem_of_mem_take hf)).1
        rw [hcode]
        decide
  · obtain ⟨hn, hlt⟩ := hplace.inside.resolve_left (Nat.pos_iff_ne_zero.mp hj)
    have hm : n < s.published.length := by rwa [length_frames] at hn
    have hbytes : (s.frames.drop n).flatten.take j = s.frames[n].take j := by
      rw [List.drop_eq_getElem_cons hn, List.flatten_cons,
        List.take_append_of_le_length (Nat.le_of_lt hlt)]
    have hone : ServerFrame.stream [.ofMessage s.published[n]] = s.frames[n] := by
      rw [ServerFrame.stream, List.flatMap_singleton, ServerFrame.ofMessage_bytes]
      exact (List.getElem_map _).symm
    rw [hbytes, List.append_assoc] at hsent
    have hdrop : s.sent.drop handshake.length = ServerFrame.stream done ++ s.frames[n].take j := by
      rw [hsent, List.drop_left]
    refine ⟨?_, fun size client hclient ↦ ?_⟩
    · rw [hsent, List.take_left]
    · rw [← hmessages]
      have hplain : ∀ f ∈ done ++ [.ofMessage s.published[n]], f.Plain := fun f hf ↦ by
        rcases List.mem_append.mp hf with hf | hf
        · exact hdone f hf
        · rw [List.mem_singleton.mp hf]
          exact ServerFrame.plain_ofMessage (length_payload_lt h.holds (List.getElem_mem hm))
      refine filter_readBack hplain ?_ ?_ (fun k hk ↦ ?_)
        hclient
      · rw [hsent, ServerFrame.stream_append, hone]
        exact (List.prefix_append_right_inj _).mpr
          ((List.prefix_append_right_inj _).mpr (List.take_prefix _ _))
      · rw [hdrop, List.length_append]
        exact Nat.le_add_right _ _
      · cases k with
        | zero => rfl
        | succ k =>
          rw [hdrop, List.take_of_length_le (by simp), ServerFrame.stream_append, hone,
            List.length_append, List.length_append, List.length_take] at hk
          omega

/-! ## Runs -/

/-- A client behind its handshake, which has marked nothing. -/
def new (con : Con cacheSize) (log : MultiPositionedStreamLog publishSize)
    (published : List Message) : Subscription cacheSize publishSize :=
  ⟨some con, log, published, [], 0, []⟩

theorem inv_new {con : Con cacheSize} (hready : Output.Ready con)
    {log : MultiPositionedStreamLog publishSize} {published : List Message}
    (hlog : Publisher.Holds start ⟨log.stream, published⟩) (hunset : log.curOffset fd = unset) :
    (new con log published).Inv fd start con.writeBuf.contents := by
  refine ⟨hlog, fun c hc ↦ ?_, fun hset ↦ absurd hunset hset, [], [], con.writeBuf.contents,
    by simp, by simp, ?_, fun c hc ↦ ?_, Or.inl ⟨Or.inl hunset, ?_, Or.inl rfl⟩⟩
  · rw [← Option.some.inj hc]
    exact hready
  · have hdue : (new con log published).due fd start = [] := by
      change [] ++ (if log.curOffset fd = unset then [] else _) = []
      rw [if_pos hunset, List.append_nil]
    rw [hdue]
    rfl
  · rw [← Option.some.inj hc]
  · exact (List.append_nil _).symm

/-- **A subscriber gets every message from its mark on**, once and in its order, and nothing else
but answers to its pings. -/
theorem run_deliversMarked {con : Con cacheSize} (hready : Output.Ready con)
    {log : MultiPositionedStreamLog publishSize} {published : List Message}
    (hlog : Publisher.Holds start ⟨log.stream, published⟩) (hunset : log.curOffset fd = unset)
    {ops : List SubscriptionOp}
    (hok : Run.Steps (step computeKey fd start) (Meets fd start) (new con log published) ops) :
    Run.Steps (step computeKey fd start) (Delivers computeKey fd start con.writeBuf.contents)
      (new con log published) ops :=
  Run.Steps.of_invariant (P := Inv fd start con.writeBuf.contents)
    (fun _ _ hs hop ↦ hs.step hop) (fun _ _ hs hop ↦ (hs.step hop).delivers_sent)
    (inv_new hready hlog hunset) hok

/-- A message before the mark, and one behind it, which is sent in two parts. -/
theorem run_deliversMarked_parts :
    Run.Steps (step (fun _ ↦ none) 0 0) (Delivers (fun _ ↦ none) 0 0 [])
      (new { (Con.registerConnection true [] none false false false zeroedData : Con 2) with
          state := .open }
        ((MultiPositionedStreamLog.new (LogRWStream.new 2 4096 LogRWStream.smallPage_pos
          (fun _ ↦ 0) 0 LogRWStream.beginning_lt)).register 0 unset) [])
      [.publish ⟨true, [1]⟩, .mark 3, .publish ⟨false, [2, 3]⟩,
        .write (fun _ ↦ true) (Writer.atMost 1 (by decide)),
        .write (fun _ ↦ true) (Writer.atMost 5 (by decide))] := by
  refine run_deliversMarked Output.attached_ready (Publisher.holds_new LogRWStream.smallPage_pos
    (fun _ ↦ 0) LogRWStream.beginning_lt) (by decide +kernel) ⟨?_, ?_, ?_, fun con hcon ↦ ?_,
      fun con hcon ↦ ?_, trivial⟩
  · exact ⟨by unfold HasRoom; decide +kernel, by decide +kernel⟩
  · exact ⟨Or.inl (by decide +kernel), 1, by decide +kernel, by decide +kernel⟩
  · exact ⟨by unfold HasRoom; decide +kernel, by decide +kernel⟩
  · obtain rfl := Option.some.inj hcon
    exact ⟨fun hempty ↦ absurd hempty (by decide +kernel), fun _ _ ↦ by decide +kernel⟩
  · obtain rfl := Option.some.inj hcon
    exact ⟨fun hempty ↦ absurd hempty (by decide +kernel), fun _ _ ↦ by decide +kernel⟩

end Subscription

end Coypu
