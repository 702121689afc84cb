import Coypu.Http.Opening

/-!
# What the stream gets when a connection opens

When `ProcessState` opens a connection with a stream, what is left in the HTTP buffer is pushed to
the stream. `PopAll` is given a callback that returns what `Push` returns, which is `0` on success
and `false` to `PopAll`, so it gives up behind the first piece. If the bytes go around the end of
the array there is a second one, and it is lost (`run_handsOver_iff`).
-/

set_option autoImplicit false

namespace Coypu

open FlatMemory Transport WebSocket

variable {cacheSize publishSize : ℕ}

/-! ## Pushing to the stream -/

namespace PositionedStream

variable {p p' : PositionedStream cacheSize} {l : List UInt8}

/-- There is room for `n` bytes, in the storage and in its 63-bit offsets. -/
def Takes (p : PositionedStream cacheSize) (n : ℕ) : Prop :=
  p.log.position + n ≤ p.room ∧ p.log.position + n < 2 ^ 63

/-- The stream `p'` holds what `p` holds and `l` behind it. The next byte goes behind that. -/
structure Receives (p p' : PositionedStream cacheSize) (l : List UInt8) : Prop where
  load_eq : load p'.log.data 0 p'.log.available = load p.log.data 0 p.log.available ++ l
  position_eq : p'.log.position = p'.log.available
  curOffset_eq : p'.curOffset = p.curOffset
  pageSize_eq : p'.log.pageSize = p.log.pageSize
  find_eq : p'.find = p.find

theorem Receives.available_eq (h : p.Receives p' l) :
    p'.log.available = p.log.available + l.length := by
  have hlen := congrArg List.length h.load_eq
  rwa [List.length_append, length_load, length_load] at hlen

theorem receives_nil (p : PositionedStream cacheSize) (hpos : p.log.position = p.log.available) :
    p.Receives p [] :=
  ⟨(List.append_nil _).symm, hpos, rfl, rfl, rfl⟩

theorem push_of_takes (p : PositionedStream cacheSize) (hpos : p.log.position = p.log.available)
    (h : p.Takes l.length) : (p.push l).1 = 0 ∧ p.Receives (p.push l).2 l := by
  obtain ⟨hroom, hlt⟩ := h
  have hpush : p.push l = (0, { p with log := { p.log with
      data := store p.log.data p.log.position l
      position := p.log.position + l.length
      available := p.log.available + l.length
      available_le := Nat.add_le_add_right p.log.available_le _
      position_lt := hlt } }) := by
    unfold PositionedStream.push LogRWStream.push
    simp only [if_pos hroom, dif_pos hlt]
    rfl
  rw [hpush]
  refine ⟨rfl, ?_, congrArg (· + l.length) hpos, rfl, rfl, rfl⟩
  change load (store p.log.data p.log.position l) 0 (p.log.available + l.length) = _
  rw [load_add, Nat.zero_add, ← hpos, load_store_self,
    load_store_of_disjoint (Or.inl (Nat.le_of_eq (Nat.zero_add _)))]

theorem push_of_not_takes (p : PositionedStream cacheSize) (h : ¬p.Takes l.length) :
    (p.push l).1 ≠ 0 ∧ (p.push l).2.log.available = p.log.available := by
  unfold Takes at h
  unfold PositionedStream.push LogRWStream.push
  by_cases hroom : p.log.position + l.length ≤ p.room
  · have hlt : ¬p.log.position + l.length < 2 ^ 63 := fun hlt ↦ h ⟨hroom, hlt⟩
    simp only [if_pos hroom, dif_neg hlt]
    exact ⟨by decide, trivial⟩
  · simp only [if_neg hroom]
    by_cases hlt : p.log.position + (l.take (p.room - p.log.position)).length < 2 ^ 63
    · simp only [dif_pos hlt]
      exact ⟨by decide, trivial⟩
    · simp only [dif_neg hlt]
      exact ⟨by decide, trivial⟩

theorem push_available_le (p : PositionedStream cacheSize) :
    (p.push l).2.log.available ≤ p.log.available + l.length := by
  unfold PositionedStream.push LogRWStream.push
  split_ifs with hroom
  all_goals
    simp only
    split_ifs <;> simp only <;> omega

theorem not_takes_of_push {n : ℕ} (h : ¬p.Takes l.length) (hnil : l.length = 0) :
    ¬(p.push l).2.Takes n := by
  have hpos : p.log.position ≤ (p.push l).2.log.position := by
    unfold PositionedStream.push LogRWStream.push
    split_ifs with hroom
    all_goals
      simp only
      split_ifs <;> simp only <;> omega
  have hlt := p.log.position_lt
  have hroom : (p.push l).2.room = p.room := rfl
  unfold Takes at h ⊢
  omega

end PositionedStream

/-! ## Copying -/

namespace Con

variable {con : Con cacheSize} {p : PositionedStream cacheSize} {l : List UInt8}

/-- What is left in the HTTP buffer, if anything, is in one piece, and there is room for it in the
stream. -/
def InOnePiece (httpBuf : BipBuf .uint64 UInt8) (p : PositionedStream cacheSize) : Prop :=
  httpBuf.available = 0 ∨
    (httpBuf.tail + httpBuf.available ≤ httpBuf.capacity ∧ p.Takes httpBuf.available)

/-- **The stream gets what is left** exactly if it is in one piece. -/
theorem copyToStream_receives_iff (con : Con cacheSize) (hrep : con.httpBuf.Rep l)
    (hstream : con.stream = some p) (hpos : p.log.position = p.log.available) :
    (∃ p', con.copyToStream.stream = some p' ∧ p.Receives p' l) ↔ InOnePiece con.httpBuf p := by
  unfold copyToStream InOnePiece
  simp only [hstream, hrep.available_eq]
  by_cases hnil : l = []
  · have hnone : (con.httpBuf.popAll (fun (s : PositionedStream cacheSize) d ↦
        (decide ((s.push d).1 ≠ 0), (s.push d).2)) p 0).ret.2 = p := by
      rw [BipBuf.popAll, if_neg (Nat.not_lt_zero _), if_pos rfl]
    simp only [hnil, List.length_nil, hnone]
    exact iff_of_true ⟨p, rfl, p.receives_nil hpos⟩ (Or.inl trivial)
  · have hlen : ¬l.length = 0 := fun h ↦ hnil (List.length_eq_zero_iff.mp h)
    have htail := hrep.tail_le
    simp only [hrep.popAll_ret hnil, or_iff_right hlen]
    by_cases hpiece : con.httpBuf.tail + l.length ≤ con.httpBuf.capacity
    · have htake : l.take (con.httpBuf.capacity - con.httpBuf.tail) = l :=
        List.take_of_length_le (by omega)
      rw [if_neg (fun hand ↦ by omega), htake]
      constructor
      · rintro ⟨p', hp', hreceives⟩
        refine ⟨hpiece, by_contra fun htakes ↦ ?_⟩
        have havail := hreceives.available_eq
        rw [← Option.some.inj hp', (p.push_of_not_takes htakes).2] at havail
        omega
      · rintro ⟨-, htakes⟩
        exact ⟨_, rfl, (p.push_of_takes hpos htakes).2⟩
    · refine iff_of_false ?_ fun hand ↦ hpiece hand.1
      rintro ⟨p', hp', hreceives⟩
      have havail := hreceives.available_eq
      have hsplit : (l.take (con.httpBuf.capacity - con.httpBuf.tail)).length
          + (l.drop (con.httpBuf.capacity - con.httpBuf.tail)).length = l.length := by
        rw [← List.length_append, List.take_append_drop]
      rw [← Option.some.inj hp'] at havail
      by_cases htakes : p.Takes (l.take (con.httpBuf.capacity - con.httpBuf.tail)).length
      · -- the first piece is all there is
        have hzero := (p.push_of_takes hpos htakes).1
        have hgrows := p.push_available_le (l := l.take (con.httpBuf.capacity - con.httpBuf.tail))
        rw [if_neg (fun hand ↦ absurd hzero (by simpa using hand.1))] at havail
        simp only at havail
        rw [List.length_take] at hgrows
        omega
      · have hfails := p.push_of_not_takes htakes
        rw [if_pos ⟨decide_eq_true hfails.1, by omega⟩] at havail
        simp only at havail
        by_cases hfirst : (l.take (con.httpBuf.capacity - con.httpBuf.tail)).length = 0
        · have hrest :=
            ((p.push (l.take (con.httpBuf.capacity - con.httpBuf.tail))).2.push_of_not_takes
            (l := l.drop (con.httpBuf.capacity - con.httpBuf.tail))
            (PositionedStream.not_takes_of_push htakes hfirst)).2
          omega
        · have hrest :=
            (p.push (l.take (con.httpBuf.capacity - con.httpBuf.tail))).2.push_available_le
            (l := l.drop (con.httpBuf.capacity - con.httpBuf.tail))
          omega

theorem copyToStream_congr {c : Con cacheSize} (hbuf : c.httpBuf = con.httpBuf)
    (hstream : c.stream = con.stream) : c.copyToStream.stream = con.copyToStream.stream := by
  unfold copyToStream
  rw [hbuf, hstream]
  cases hs : con.stream with
  | none => simp only [hs, hstream]
  | some stream => rfl

theorem opened_stream (con : Con cacheSize) : con.opened.stream = con.copyToStream.stream := by
  unfold opened
  by_cases hopen : con.onOpen = true
  · simp only [if_pos hopen]
    exact copyToStream_congr rfl rfl
  · simp only [if_neg hopen]
    exact copyToStream_congr rfl rfl

theorem connect_stream {computeKey : List UInt8 → Option (List UInt8)}
    (h : con.Accepts computeKey con.head) :
    (con.connect computeKey).stream = con.copyToStream.stream := by
  unfold Accepts at h
  unfold connect
  by_cases hserver : con.server = true
  · rw [if_pos hserver] at h ⊢
    obtain ⟨newKey, hkey⟩ := Option.isSome_iff_exists.mp h
    rw [hkey]
    exact (opened_stream _).trans (copyToStream_congr rfl rfl)
  · rw [if_neg hserver] at h ⊢
    rw [if_pos h]
    exact opened_stream con

theorem Opens.connect_eq {computeKey : List UInt8 → Option (List UInt8)} {rounds : ℕ}
    {cb : Reader UInt8}
    {r : ℤ × BipBuf .uint64 UInt8 × Head} (h : con.Opens computeKey rounds cb r) :
    ({ con with httpBuf := r.2.1, head := r.2.2 }.connect computeKey).state = .open ∧
      ({ con with httpBuf := r.2.1, head := r.2.2 }.connect computeKey).stream
        = ({ con with httpBuf := r.2.1, head := r.2.2 } : Con cacheSize).copyToStream.stream :=
  have hacc : ({ con with httpBuf := r.2.1, head := r.2.2 } :
    Con cacheSize).Accepts computeKey r.2.2 := h.accepts
  ⟨(connect_of_accepts hacc).1, connect_stream hacc⟩

end Con

/-! ## Runs -/

namespace Handshake

variable (computeKey : List UInt8 → Option (List UInt8)) (s : Handshake cacheSize)

/-- If the step opens a connection with a stream, the stream receives what is left in the HTTP
buffer when `ProcessState` looks at the head. -/
def HandsOver (op : ConOp publishSize) : Prop :=
  ∀ con con' p, s.con = some con → con.state = .connecting → con.stream = some p →
    (s.step computeKey op).1.con = some con' → con'.state ≠ .connecting →
      ∃ rounds cb r p', op = .read rounds cb ∧ con.afterLines cb = some r ∧ con'.stream = some p' ∧
        p.Receives p' r.2.1.contents

/-- If a `Read` opens a connection with a stream, what it leaves in the HTTP buffer is in one
piece. -/
def LeavesOnePiece (op : ConOp publishSize) : Prop :=
  ∀ con p rounds cb r, s.con = some con → con.stream = some p → op = .read rounds cb →
    con.Opens computeKey rounds cb r → Con.InOnePiece r.2.1 p

/-- The connection still has the stream that it was registered with. -/
structure Attached (p : PositionedStream cacheSize) (s : Handshake cacheSize) : Prop where
  consistent : s.Consistent
  stream_eq : ∀ con, s.con = some con → con.state = .connecting → con.stream = some p

variable {computeKey s} {p : PositionedStream cacheSize}

/-- A connection that connects behind a step did so before, with the same stream. -/
theorem step_connecting {con con' : Con cacheSize} {op : ConOp publishSize}
    (hcon : s.con = some con)
    (hcon' : (s.step computeKey op).1.con = some con') (hstate' : con'.state = .connecting) :
    con.state = .connecting ∧ con'.stream = con.stream := by
  unfold Handshake.step at hcon'
  rw [hcon] at hcon'
  cases op with
  | stream key uri host origin =>
    obtain ⟨hsame, -, hstream⟩ := openStream_unchanged hcon'
    exact ⟨hsame.symm.trans hstate', hstream⟩
  | queue code data =>
    obtain rfl : (con.queue code data).2 = con' := by simpa using hcon'
    obtain ⟨hsame, -, hstream⟩ := queue_unchanged con code data
    exact ⟨hsame.symm.trans hstate', hstream⟩
  | write publish fd find cb =>
    obtain rfl : (con.write publish fd find cb).con = con' := by simpa using hcon'
    obtain ⟨hsame, -, hstream⟩ := write_unchanged con publish fd find cb
    exact ⟨hsame.symm.trans hstate', hstream⟩
  | read rounds cb =>
    obtain ⟨⟨ret, con''⟩, hread, rfl⟩ := Option.map_eq_some_iff.mp hcon'
    have hstate : con.state = .connecting :=
      not_not.mp fun hne ↦ (Con.read_processed hne hread).state_ne hne hstate'
    refine ⟨hstate, ?_⟩
    rw [Con.read_connecting hstate] at hread
    by_cases hneg : (con.httpBuf.readv cb).ret < 0
    · rw [if_pos hneg] at hread
      rw [← (Prod.ext_iff.mp (Option.some.inj hread)).2]
    · rw [if_neg hneg] at hread
      obtain ⟨r, hafter, hread⟩ := Option.bind_eq_some_iff.mp hread
      split_ifs at hread with hfail hrounds
      · rw [← (Prod.ext_iff.mp (Option.some.inj hread)).2]
      · obtain rfl := (Prod.ext_iff.mp (Option.some.inj hread)).2
        have hno := mt (Con.connect_state_ne { con with httpBuf := r.2.1, head := r.2.2 } computeKey
          hstate).mpr (not_not.mpr hstate')
        rw [Con.connect_of_not_accepts hno]

theorem attached_of_fresh {con : Con cacheSize} (hfresh : con.Fresh)
    (hstream : con.stream = some p) : Attached p (new con) := by
  constructor
  · intro con' hcon' _
    obtain rfl : con = con' := by simpa [new] using hcon'
    refine ⟨[], [], hfresh.rep, ?_, rfl⟩
    rw [hfresh.capacity_eq]
    decide
  · intro con' hcon' _
    obtain rfl : con = con' := by simpa [new] using hcon'
    exact hstream

theorem Attached.step (h : Attached p s) (op : ConOp publishSize) :
    Attached p (s.step computeKey op).1 := by
  refine ⟨h.consistent.step op, fun con' hcon' hstate' ↦ ?_⟩
  cases hcon : s.con with
  | none =>
    rw [Handshake.step, hcon] at hcon'
    exact absurd hcon' (by simp [hcon])
  | some con =>
    obtain ⟨hstate, hstream⟩ := step_connecting hcon hcon' hstate'
    exact hstream.trans (h.stream_eq con hcon hstate)

theorem Attached.handsOver_iff (h : Attached p s) (hpos : p.log.position = p.log.available)
    (op : ConOp publishSize) : s.HandsOver computeKey op ↔ s.LeavesOnePiece computeKey op := by
  have hcopies {con : Con cacheSize} {rounds : ℕ} {cb : Reader UInt8}
    {r : ℤ × BipBuf .uint64 UInt8 × Head}
      (hcon : s.con = some con) (hopens : con.Opens computeKey rounds cb r) :
      (∃ p', ({ con with httpBuf := r.2.1, head := r.2.2 }.connect computeKey).stream = some p' ∧
        p.Receives p' r.2.1.contents) ↔ Con.InOnePiece r.2.1 p := by
    obtain ⟨ls, l, hrep, hcap, -⟩ := h.consistent con hcon hopens.state_eq
    obtain ⟨taken, ks, -, -, -, hrep', -, -⟩ := afterLines_cases hrep hcap hopens.afterLines_eq
    rw [hopens.connect_eq.2, hrep'.contents_eq]
    exact Con.copyToStream_receives_iff { con with httpBuf := r.2.1, head := r.2.2 } hrep'
      (h.stream_eq con hcon hopens.state_eq) hpos
  constructor
  · rintro hhands con q rounds cb r hcon hstream rfl hopens
    have hp := h.stream_eq con hcon hopens.state_eq
    obtain rfl : p = q := Option.some.inj (hp.symm.trans hstream)
    have hstep : (s.step computeKey (.read rounds cb : ConOp publishSize)).1.con
        = some ({ con with httpBuf := r.2.1, head := r.2.2 }.connect computeKey) := by
      rw [step_read_con hcon, hopens.read_eq, Option.map_some]
    obtain ⟨rounds', cb', r', p', hop, hafter, hp', hreceives⟩ :=
      hhands con _ p hcon hopens.state_eq hp hstep
      ((Con.connect_state_ne { con with httpBuf := r.2.1, head := r.2.2 } computeKey
        hopens.state_eq).mpr
        hopens.accepts)
    obtain ⟨rfl, rfl⟩ := ConOp.read.inj hop
    obtain rfl := Option.some.inj (hopens.afterLines_eq.symm.trans hafter)
    exact (hcopies hcon hopens).mp ⟨p', hp', hreceives⟩
  · intro hpiece con con' q hcon hstate hstream hcon' hopen
    obtain rfl : p = q := Option.some.inj ((h.stream_eq con hcon hstate).symm.trans hstream)
    obtain ⟨rounds, cb, r, rfl, hopens, rfl⟩ := exists_opens hcon hstate hcon' hopen
    obtain ⟨p', hp', hreceives⟩ :=
      (hcopies hcon hopens).mpr (hpiece con p rounds cb r hcon hstream rfl hopens)
    exact ⟨rounds, cb, r, p', rfl, hopens.afterLines_eq, hp', hreceives⟩

theorem steps_handsOver_iff {s : Handshake cacheSize} (hs : Attached p s)
    (hpos : p.log.position = p.log.available) (ops : List (ConOp publishSize)) :
    Run.Steps (step computeKey) (HandsOver computeKey) s ops ↔
      Run.Steps (step computeKey) (LeavesOnePiece computeKey) s ops :=
  Run.steps_iff_of_invariant (P := Attached p) (fun _ op hs _ ↦ hs.step op)
    (fun _ op hs ↦ hs.handsOver_iff hpos op) hs

/-- **All bytes behind the head go to the stream** in exactly the runs in which they are in one
piece whenever a `Read` opens the connection. -/
theorem run_handsOver_iff {con : Con cacheSize} (hfresh : con.Fresh) (hstream : con.stream = some p)
    (hpos : p.log.position = p.log.available) (ops : List (ConOp publishSize)) :
    Run.Steps (step computeKey) (HandsOver computeKey) (new con) ops ↔
      Run.Steps (step computeKey) (LeavesOnePiece computeKey) (new con) ops :=
  steps_handsOver_iff (attached_of_fresh hfresh hstream) hpos ops

/-! ## Two runs -/

theorem pop_head (httpBuf : BipBuf .uint64 UInt8) (n : ℕ) :
    (httpBuf.pop n false).buf.head = httpBuf.head := by
  unfold BipBuf.pop
  simp only
  split_ifs <;> simp

theorem handleLoop_head {server is_uri : Bool} {fuel : ℕ} {httpBuf : BipBuf .uint64 UInt8}
    {head : Head} {r : ℤ × BipBuf .uint64 UInt8 × Head}
    (h : Head.handleLoop server fuel is_uri httpBuf head = some r) : r.2.1.head = httpBuf.head := by
  induction fuel generalizing is_uri httpBuf head with
  | zero => exact absurd h (by simp [Head.handleLoop])
  | succ fuel ih =>
    rw [Head.handleLoop] at h
    cases hfind : (httpBuf.find lf).ret with
    | none =>
      rw [hfind] at h
      rw [← Option.some.inj h]
    | some offset =>
      rw [hfind] at h
      simp only at h
      by_cases hblank : offset = 1
      · rw [if_pos hblank] at h
        rw [← Option.some.inj h]
        exact pop_head httpBuf _
      by_cases hlong : maxHeaderSize - 1 ≤ offset
      · rw [if_neg hblank, if_pos hlong] at h
        rw [← Option.some.inj h]
      rw [if_neg hblank, if_neg hlong] at h
      cases hpop : (httpBuf.pop (offset + 1) false).ret with
      | none =>
        rw [hpop] at h
        rw [← Option.some.inj h]
      | some header =>
        rw [hpop] at h
        simp only at h
        split_ifs at h
        · exact (ih h).trans (pop_head httpBuf _)
        · cases hadd : head.addHeader (header.take offset) with
          | none =>
            rw [hadd] at h
            exact absurd h (by simp)
          | some q =>
            rw [hadd] at h
            exact (ih h).trans (pop_head httpBuf _)

theorem afterLines_tail (con : Con cacheSize) {k rest : List UInt8}
    {r : ℤ × BipBuf .uint64 UInt8 × Head}
    (hrep : con.httpBuf.Rep []) (hcap : con.httpBuf.capacity ≤ 2 ^ 31) (hk : k ≠ [])
    (hint : k.length < 2 ^ 31) (hfit : k.length ≤ con.httpBuf.capacity) (hrest : r.2.1.Rep rest)
    (hsame : r.2.1.capacity = con.httpBuf.capacity)
    (h : con.afterLines (Reader.ofList k hint) = some r) :
    con.httpBuf.tail + k.length = r.2.1.tail + rest.length ∨
      con.httpBuf.tail + k.length = r.2.1.tail + rest.length + con.httpBuf.capacity ∨
      con.httpBuf.tail + k.length + con.httpBuf.capacity = r.2.1.tail + rest.length := by
  have hread := (BipBuf.readv_ofList hrep hcap hk hint (by simpa using hfit)).2
  have hends := hread.ends
  have hends' := hrest.ends
  rw [handleLoop_head h] at hends'
  unfold Ring.Ends at hends hends'
  rw [BipBuf.readv_tail, BipBuf.readv_capacity, List.nil_append] at hends
  rw [hsame] at hends'
  omega

/-- A line that says nothing. -/
def idleLine (n : ℕ) : List UInt8 := space :: List.replicate (n + 1) 0x78

theorem length_unlines_idle (n count : ℕ) :
    (Head.unlines (List.replicate count (idleLine n))).length = count * (n + 3) := by
  induction count with
  | zero => simp [Head.unlines]
  | succ count ih =>
    rw [List.replicate_succ, ← List.singleton_append, Head.unlines_append, List.length_append, ih,
      Nat.succ_mul]
    simp [Head.unlines, idleLine]
    omega

theorem handleLines_idle {n : ℕ} (hn : n + 2 < maxHeaderSize - 1) (server is_uri : Bool)
    (count : ℕ) :
    Head.handleLines server is_uri Head.empty (List.replicate count (idleLine n) ++ [[]])
      = some (0, Head.empty, [[]]) := by
  have hlen : (idleLine n).length = n + 2 := by simp [idleLine]
  have hfirst : Head.empty.firstLine server (idleLine n).dropLast = Head.empty := by
    have hline : (idleLine n).dropLast = space :: List.replicate n 0x78 := by
      rw [idleLine, List.dropLast_cons_of_ne_nil (by simp), List.dropLast_replicate,
        Nat.add_sub_cancel]
    rw [hline]
    simp [Head.firstLine, Head.parts, List.findIdx?_cons]
  have hadd : Head.empty.addHeader (idleLine n) = some (false, Head.empty) := by
    have hno : (idleLine n).findIdx (· = colon) = (idleLine n).length := by
      rw [List.findIdx_eq_length]
      intro b hb
      rcases List.mem_cons.mp hb with rfl | hb
      · decide
      · rw [List.eq_of_mem_replicate hb]
        decide
    unfold Head.addHeader
    simp only [hno]
    rw [if_neg (fun hand ↦ Nat.lt_irrefl _ hand.2)]
  induction count generalizing is_uri with
  | zero => rfl
  | succ count ih =>
    have hnil : ¬idleLine n = [] := List.cons_ne_nil _ _
    rw [List.replicate_succ, List.cons_append, Head.handleLines, if_neg (by simp), hlen,
      if_neg (by omega), if_neg (by omega)]
    simp only [if_neg hnil, hfirst, hadd, ih, ite_self]

/-- A connection of a server with an empty stream. -/
def attachedServer : Con 1 :=
  .registerConnection true [] (some (PositionedStream.ofList 1 [] PositionedStream.length_nil_lt))
    false false false WebSocket.zeroedData

theorem attachedServer_fresh : attachedServer.Fresh := Con.registerConnection_fresh _ _ _ _ _ _ _

/-- The result of taking lines, and whether a server accepts the head. -/
def taken (k : List UInt8) : Option (ℤ × List (List UInt8) × Bool) :=
  (Head.handleLines true true Head.empty (k.splitOn lf)).map fun r ↦
    (r.1, r.2.2, decide (attachedServer.Accepts (fun _ ↦ some []) r.2.1))

theorem opens_of_taken (con : Con 1) (hstate : con.state = .connecting)
    (hserver : con.server = true) (hhead : con.head = Head.empty) (hrep : con.httpBuf.Rep [])
    (hcap : con.httpBuf.capacity = bufferCapacity)
    {k rest : List UInt8} (hint : k.length < 2 ^ 31) (hk : k ≠ [])
    (hfit : k.length ≤ bufferCapacity) (htaken : taken k = some (0, [rest], true)) :
    ∃ httpBuf head, httpBuf.Rep rest ∧ httpBuf.capacity = con.httpBuf.capacity ∧
      ∀ rounds, con.Opens (fun _ ↦ some []) (rounds + 1) (Reader.ofList k hint)
        (0, httpBuf, head) := by
  obtain ⟨⟨ret, head, ks⟩, hlines, hr⟩ := Option.map_eq_some_iff.mp htaken
  obtain ⟨rfl, rfl, hacc⟩ : ret = 0 ∧ ks = [rest] ∧
    attachedServer.Accepts (fun _ ↦ some []) head := by
    simpa using hr
  obtain ⟨hpos, -⟩ := BipBuf.readv_ofList hrep (by rw [hcap]; decide) hk hint
    (by rwa [hcap, List.length_nil, Nat.zero_add])
  obtain ⟨httpBuf, hleft, hsame, hafter, -⟩ := Con.read_ofList (fun _ ↦ some []) hstate hrep
    (by rw [hcap]; decide) hk hint (by rwa [hcap, List.length_nil, Nat.zero_add])
    (by rwa [hserver, hhead, List.nil_append])
  have hserver' : attachedServer.server = true := rfl
  rw [Con.Accepts, if_pos hserver'] at hacc
  refine ⟨httpBuf, head, by simpa using hleft, hsame,
    fun rounds ↦ ⟨hstate, Int.le_of_lt hpos, hafter, Int.le_refl 0, Nat.succ_pos rounds, ?_⟩⟩
  rwa [Con.Accepts, if_pos hserver]

/-- A request. -/
def request : List UInt8 := Head.unlines (requestLines ++ [[cr]])

theorem taken_request : taken request = some (0, [[]], true) := by decide +kernel

/-- A request and a pong. -/
def requestPong : List UInt8 := request ++ [0x8A, 0]

theorem length_requestPong_lt : requestPong.length < 2 ^ 31 := by decide +kernel

theorem taken_requestPong : taken requestPong = some (0, [[0x8A, 0]], true) := by decide +kernel

/-- A server gets a request and a pong in one packet. -/
theorem run_handsOver_pong :
    Run.Steps (step fun _ ↦ some []) (HandsOver fun _ ↦ some []) (new attachedServer)
      [(.read 1 (Reader.ofList requestPong (by decide +kernel)) : ConOp 1)] := by
  refine (run_handsOver_iff attachedServer_fresh rfl rfl _).mpr ⟨?_, trivial⟩
  rintro con p rounds cb r hcon hstream hop hopens
  obtain rfl : attachedServer = con := Option.some.inj hcon
  obtain rfl : PositionedStream.ofList 1 [] (by decide) = p := Option.some.inj hstream
  obtain ⟨rfl, rfl⟩ := ConOp.read.inj hop
  obtain ⟨httpBuf, head, hleft, hsame, hopens'⟩ :=
    opens_of_taken attachedServer attachedServer_fresh.state_eq rfl rfl
    attachedServer_fresh.rep attachedServer_fresh.capacity_eq (by decide +kernel)
      (by decide +kernel)
    (by decide +kernel) taken_requestPong
  have hafter := (hopens' 0).afterLines_eq
  obtain rfl := Option.some.inj (hafter.symm.trans hopens.afterLines_eq)
  have hlen : requestPong.length = 120 := by decide +kernel
  have hcap : attachedServer.httpBuf.capacity = 65536 := rfl
  have htail : attachedServer.httpBuf.tail = 0 := rfl
  have hends := afterLines_tail attachedServer attachedServer_fresh.rep (by rw [hcap]; decide)
    (by decide +kernel)
    (by decide +kernel) (by rw [hlen, hcap]; decide) hleft hsame hafter
  have hle := hleft.tail_le
  rw [htail, hlen, hcap] at hends
  rw [hsame, hcap] at hle
  refine Or.inr ⟨?_, ?_⟩
  · rw [hleft.available_eq, hsame, hcap]
    simp only [List.length_cons, List.length_nil] at hends ⊢
    omega
  · rw [hleft.available_eq]
    exact ⟨by decide +kernel, by decide +kernel⟩

/-- Behind 65417 bytes of idle lines the pong goes around the end of the buffer, and its second byte
is lost. -/
theorem not_run_handsOver_idle :
    ¬∀ ops : List (ConOp 1), Run.Steps (step fun _ ↦ some []) (HandsOver fun _ ↦ some [])
      (new attachedServer) ops := by
  intro h
  have hsize : (Head.unlines (List.replicate 11 (idleLine 5944))).length = 65417 :=
    length_unlines_idle 5944 11
  have hint : (Head.unlines (List.replicate 11 (idleLine 5944))).length < 2 ^ 31 := by
    rw [hsize]
    decide
  have hcap : attachedServer.httpBuf.capacity = 65536 := rfl
  have hne : Head.unlines (List.replicate 11 (idleLine 5944)) ≠ [] :=
    List.ne_nil_of_length_pos (by rw [hsize]; decide)
  have hsplit : (Head.unlines (List.replicate 11 (idleLine 5944))).splitOn lf
      = List.replicate 11 (idleLine 5944) ++ [[]] := by
    have hlf : ∀ line ∈ List.replicate 11 (idleLine 5944), lf ∉ line := fun line hline hmem ↦ by
      rw [List.eq_of_mem_replicate hline] at hmem
      rcases List.mem_cons.mp hmem with hlf | hlf
      · exact absurd hlf (by decide)
      · exact absurd (List.eq_of_mem_replicate hlf) (by decide)
    have hlines := Head.splitOn_unlines hlf (List.not_mem_nil (a := lf))
    rwa [List.append_nil] at hlines
  -- the first read takes all lines
  obtain ⟨httpBuf, hleft, hsame, hafter, hread⟩ := Con.read_ofList (fun _ ↦ some [])
    attachedServer_fresh.state_eq attachedServer_fresh.rep (by rw [hcap]; decide) hne hint
    (by rw [hsize, hcap]; decide) (by
      rw [List.nil_append, hsplit]
      exact handleLines_idle (by decide) true true 11)
  change httpBuf.Rep [] at hleft
  have hends := afterLines_tail attachedServer attachedServer_fresh.rep
    (by rw [hcap]; decide) hne hint
    (by rw [hsize, hcap]; decide) hleft hsame hafter
  obtain ⟨con, hcon⟩ : ∃ con : Con 1,
      con = { attachedServer with httpBuf := httpBuf, head := Head.empty } := ⟨_, rfl⟩
  have hconnect : con.connect (fun _ ↦ some []) = con :=
    Con.connect_of_not_accepts (by rw [hcon]; exact Con.not_accepts_empty)
  rw [← hcon] at hread
  -- the second one opens the connection
  obtain ⟨httpBuf', head', hleft', hsame', hopens⟩ := opens_of_taken con (by rw [hcon]; rfl)
    (by rw [hcon]; rfl) (by rw [hcon]) (by rw [hcon]; exact hleft) (by rw [hcon]; exact hsame)
    (by decide +kernel) (by decide +kernel) (by decide +kernel) taken_requestPong
  have hpiece :=
    ((steps_handsOver_iff (attached_of_fresh attachedServer_fresh rfl) rfl _).mp
      (h [.read 1 (Reader.ofList _ hint),
        .read 1 (Reader.ofList requestPong (by decide +kernel))])).2.1
  have hsecond := hpiece con (PositionedStream.ofList 1 [] (by decide)) 1 _ (0, httpBuf', head')
    (by rw [step_read_con rfl, hread 0, hconnect]; rfl) (by rw [hcon]; rfl) rfl (hopens 0)
  have hends' := afterLines_tail con (by rw [hcon]; exact hleft) (by rw [hcon, hsame]; decide)
    (by decide +kernel) (by decide +kernel) (by rw [hcon, hsame]; decide +kernel) hleft' hsame'
    (hopens 0).afterLines_eq
  have hlen : requestPong.length = 120 := by decide +kernel
  have htail : attachedServer.httpBuf.tail = 0 := rfl
  have hle := hleft.tail_le
  have hle' := hleft'.tail_le
  have hcap' : httpBuf'.capacity = 65536 := by rw [hsame', hcon, hsame, hcap]
  simp only [hsize, htail, hcap, List.length_nil] at hends
  rw [hsame, hcap] at hle
  rw [hcap'] at hle'
  rw [hlen, hcon] at hends'
  simp only [hsame, hcap, List.length_cons, List.length_nil] at hends'
  unfold Con.InOnePiece at hsecond
  simp only [hleft'.available_eq, hcap', List.length_cons, List.length_nil] at hsecond
  omega

end Handshake

end Coypu
