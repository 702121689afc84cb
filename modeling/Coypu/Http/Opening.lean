import Coypu.Buf.Fill
import Coypu.Http.Connecting
import Coypu.Http.Processing
import Coypu.Library.Run

/-!
# When a connection opens

`ProcessState` opens a connection as soon as the lines taken so far make a head that it accepts. If
the blank line is among them, it is the last one taken, and everything read from then on lies behind
the head. `WholeHead` asks that of each `Read` after which the head is accepted.

The bytes received before the connection opens are tracked beside it.
-/

set_option autoImplicit false

namespace Coypu

open Transport WebSocket

variable {cacheSize publishSize : ℕ}

/-- The calls a connection gets, `Write` with the publish log as it is then. -/
inductive ConOp (publishSize : ℕ) where
  | stream (key uri host origin : List UInt8)
  | read (rounds : ℕ) (cb : Reader UInt8)
  | queue (code : WSOPCode) (data : List UInt8)
  | write (publish : Option (MultiPositionedStreamLog publishSize)) (fd : ℕ) (find : ℕ → Bool)
    (cb : Writer)

/-- A connection and the bytes it has received into its HTTP buffer while it was connecting. There
is no connection any more where a call did not return. -/
structure Handshake (cacheSize : ℕ) where
  con : Option (Con cacheSize)
  received : List UInt8

/-- The bytes are lines, and the last one is blank. -/
def EndsHead (l : List UInt8) : Prop := ∃ ls, l = Head.unlines (ls ++ [[cr]])

theorem EndsHead.reverse {l : List UInt8} (h : EndsHead l) :
    l.length = 2 ∨ l.reverse[2]? = some lf := by
  obtain ⟨ls, rfl⟩ := h
  rcases List.eq_nil_or_concat ls with rfl | ⟨ls, line, rfl⟩
  · exact Or.inl rfl
  · exact Or.inr (by simp [Head.unlines])

namespace Handshake

/-- A connection that has received nothing. -/
def new (con : Con cacheSize) : Handshake cacheSize := ⟨some con, []⟩

variable (computeKey : List UInt8 → Option (List UInt8))

def step (s : Handshake cacheSize) (op : ConOp publishSize) : Handshake cacheSize × Unit :=
  (match s.con with
  | none => s
  | some con =>
    match op with
    | .stream key uri host origin => ⟨con.openStream key uri host origin, s.received⟩
    | .read rounds cb => ⟨(con.read computeKey rounds cb).map Prod.snd,
        if con.state = .connecting then s.received ++ con.httpBuf.delivered cb else s.received⟩
    | .queue code data => ⟨some (con.queue code data).2, s.received⟩
    | .write publish fd find cb => ⟨some (con.write publish fd find cb).con, s.received⟩, ())

/-- If the step opens the connection, it is a `Read`, and the bytes that are gone from the HTTP
buffer when `ProcessState` looks at the head end with a blank line. The bytes left there are all
that was received behind them. -/
def OpensAtEnd (s : Handshake cacheSize) (op : ConOp publishSize) : Prop :=
  ∀ con con', s.con = some con → con.state = .connecting →
    (s.step computeKey op).1.con = some con' → con'.state ≠ .connecting →
    ∃ rounds cb ret httpBuf head consumed, op = .read rounds cb ∧
      con.afterLines cb = some (ret, httpBuf, head) ∧
      con' = { con with httpBuf := httpBuf, head := head }.connect computeKey ∧
      s.received ++ con.httpBuf.delivered cb = consumed ++ httpBuf.contents ∧ EndsHead consumed

/-- If the lines in the buffer, with those taken before, make a head that is accepted, the blank
line is among them. -/
def WholeHead (s : Handshake cacheSize) : ConOp publishSize → Prop
  | .read _ cb => ∀ con, s.con = some con → con.state = .connecting → ∀ head ks,
      Head.handleLines con.server true con.head
        ((con.httpBuf.contents ++ con.httpBuf.delivered cb).splitOn lf) = some (0, head, ks) →
      con.Accepts computeKey head →
      Head.blankLine ((con.httpBuf.contents ++ con.httpBuf.delivered cb).splitOn lf) = some [cr]
  | _ => True

/-- While it connects, whole lines of what was received are gone, and the rest is in the buffer. -/
def Consistent (s : Handshake cacheSize) : Prop :=
  ∀ con, s.con = some con → con.state = .connecting → ∃ ls l,
    con.httpBuf.Rep l ∧ con.httpBuf.capacity ≤ 2 ^ 31 ∧ s.received = Head.unlines ls ++ l

variable {computeKey} {s : Handshake cacheSize}

theorem afterLines_cases {con : Con cacheSize} {cb : Reader UInt8} {l : List UInt8}
    {r : ℤ × BipBuf .uint64 UInt8 × Head} (hrep : con.httpBuf.Rep l)
    (hcap : con.httpBuf.capacity ≤ 2 ^ 31) (h : con.afterLines cb = some r) :
    ∃ taken ks, (l ++ con.httpBuf.delivered cb).splitOn lf = taken ++ ks ∧ ks ≠ [] ∧
      Head.handleLines con.server true con.head ((l ++ con.httpBuf.delivered cb).splitOn lf)
        = some (r.1, r.2.2, ks) ∧
      r.2.1.Rep ([lf].intercalate ks) ∧ r.2.1.capacity = con.httpBuf.capacity ∧
      l ++ con.httpBuf.delivered cb = Head.unlines taken ++ [lf].intercalate ks := by
  have hread := BipBuf.readv_rep hrep hcap cb
  unfold Con.afterLines at h
  obtain ⟨httpBuf', heq, hcap', hleft⟩ := Head.handleHTTP_eq hread con.server con.head
  rw [heq] at h
  obtain ⟨⟨ret, head, ks⟩, hlines, rfl⟩ := Option.map_eq_some_iff.mp h
  obtain ⟨taken, htaken, hks⟩ := Head.exists_taken (List.splitOn_ne_nil _ _) hlines
  refine ⟨taken, ks, htaken, hks, hlines, hleft _ hlines,
    hcap'.trans (BipBuf.readv_capacity cb), ?_⟩
  rw [← Head.intercalate_append hks, ← htaken, List.intercalate_splitOn]

theorem openStream_unchanged {con con' : Con cacheSize} {key uri host origin : List UInt8}
    (h : con.openStream key uri host origin = some con') :
    con'.state = con.state ∧ con'.httpBuf = con.httpBuf ∧ con'.stream = con.stream := by
  unfold Con.openStream at h
  rw [Option.ite_none_right_eq_some] at h
  obtain ⟨-, h⟩ := h
  rw [← Option.some.inj h]
  simp only [Con.call, and_self]

theorem queue_unchanged (con : Con cacheSize) (code : WSOPCode) (data : List UInt8) :
    (con.queue code data).2.state = con.state ∧ (con.queue code data).2.httpBuf = con.httpBuf ∧
      (con.queue code data).2.stream = con.stream := by
  unfold Con.queue
  simp only
  split_ifs <;> exact ⟨rfl, rfl, rfl⟩

theorem write_unchanged (con : Con cacheSize)
    (publish : Option (MultiPositionedStreamLog publishSize)) (fd : ℕ) (find : ℕ → Bool)
    (cb : Writer) : (con.write publish fd find cb).con.state = con.state ∧
      (con.write publish fd find cb).con.httpBuf = con.httpBuf ∧
      (con.write publish fd find cb).con.stream = con.stream := by
  unfold Con.write
  split_ifs
  · exact ⟨rfl, rfl, rfl⟩
  · cases publish <;> exact ⟨rfl, rfl, rfl⟩

theorem step_read_con {con : Con cacheSize} (hcon : s.con = some con) (rounds : ℕ)
    (cb : Reader UInt8) :
    (s.step computeKey (.read rounds cb : ConOp publishSize)).1.con
      = (con.read computeKey rounds cb).map Prod.snd := by
  unfold Handshake.step
  rw [hcon]

theorem Consistent.read (hs : s.Consistent) {con con' : Con cacheSize} {ret : ℤ} {rounds : ℕ}
    {cb : Reader UInt8} (hcon : s.con = some con) (hstate : con.state = .connecting)
    (hread : con.read computeKey rounds cb = some (ret, con'))
    (hstate' : con'.state = .connecting) :
    ∃ ls l, con'.httpBuf.Rep l ∧ con'.httpBuf.capacity ≤ 2 ^ 31 ∧
      s.received ++ con.httpBuf.delivered cb = Head.unlines ls ++ l := by
  obtain ⟨ls, l, hrep, hcap, hreceived⟩ := hs con hcon hstate
  have hreadv := BipBuf.readv_rep hrep hcap cb
  rw [Con.read_connecting hstate] at hread
  by_cases hneg : (con.httpBuf.readv cb).ret < 0
  · rw [if_pos hneg] at hread
    obtain ⟨-, rfl⟩ : (-3 : ℤ) = ret ∧ _ = con' := by simpa using hread
    exact ⟨ls, _, hreadv, Nat.le_trans (Nat.le_of_eq (BipBuf.readv_capacity cb)) hcap,
      by rw [hreceived, List.append_assoc]⟩
  rw [if_neg hneg] at hread
  obtain ⟨r, hafter, hread⟩ := Option.bind_eq_some_iff.mp hread
  obtain ⟨taken, ks, -, -, -, hrep', hcap', hsplit⟩ := afterLines_cases hrep hcap hafter
  refine ⟨ls ++ taken, [lf].intercalate ks, ?_⟩
  have hall : s.received ++ con.httpBuf.delivered cb
      = Head.unlines (ls ++ taken) ++ [lf].intercalate ks := by
    rw [hreceived, List.append_assoc, hsplit, Head.unlines_append, List.append_assoc]
  split_ifs at hread with hfail hrounds
  · obtain ⟨-, rfl⟩ : r.1 = ret ∧ _ = con' := by simpa using hread
    exact ⟨hrep', by simpa only [hcap'] using hcap, hall⟩
  · obtain ⟨-, rfl⟩ : (0 : ℤ) = ret ∧ _ = con' := by simpa using hread
    have hno := mt (Con.connect_state_ne { con with httpBuf := r.2.1, head := r.2.2 } computeKey
      hstate).mpr (not_not.mpr hstate')
    rw [Con.connect_of_not_accepts hno]
    exact ⟨hrep', by simpa only [hcap'] using hcap, hall⟩

theorem Consistent.step (hs : s.Consistent) (op : ConOp publishSize) :
    (s.step computeKey op).1.Consistent := by
  intro con' hcon' hstate'
  unfold Handshake.step at hcon' ⊢
  cases hcon : s.con with
  | none =>
    rw [hcon] at hcon'
    exact absurd hcon' (by simp [hcon])
  | some con =>
    rw [hcon] at hcon'
    cases op with
    | stream key uri host origin =>
      obtain ⟨hsame, hbuf, -⟩ := openStream_unchanged hcon'
      rw [hbuf]
      exact hs con hcon (hsame ▸ hstate')
    | read rounds cb =>
      obtain ⟨⟨ret, con''⟩, hread, rfl⟩ := Option.map_eq_some_iff.mp hcon'
      by_cases hstate : con.state = .connecting
      · simp only [if_pos hstate]
        exact hs.read hcon hstate hread hstate'
      · exact absurd hstate' ((Con.read_processed hstate hread).state_ne hstate)
    | queue code data =>
      obtain rfl : (con.queue code data).2 = con' := by simpa using hcon'
      obtain ⟨hsame, hbuf, -⟩ := queue_unchanged con code data
      rw [hbuf]
      exact hs con hcon (hsame ▸ hstate')
    | write publish fd find cb =>
      obtain rfl : (con.write publish fd find cb).con = con' := by simpa using hcon'
      obtain ⟨hsame, hbuf, -⟩ := write_unchanged con publish fd find cb
      rw [hbuf]
      exact hs con hcon (hsame ▸ hstate')

theorem exists_opens {con con' : Con cacheSize} {op : ConOp publishSize} (hcon : s.con = some con)
    (hstate : con.state = .connecting) (hcon' : (s.step computeKey op).1.con = some con')
    (hopen : con'.state ≠ .connecting) :
    ∃ rounds cb r, op = .read rounds cb ∧ con.Opens computeKey rounds cb r ∧
      con' = { con with httpBuf := r.2.1, head := r.2.2 }.connect computeKey := by
  unfold Handshake.step at hcon'
  rw [hcon] at hcon'
  cases op with
  | stream key uri host origin =>
    exact absurd ((openStream_unchanged hcon').1.trans hstate) hopen
  | queue code data =>
    obtain rfl : (con.queue code data).2 = con' := by simpa using hcon'
    exact absurd ((queue_unchanged con code data).1.trans hstate) hopen
  | write publish fd find cb =>
    obtain rfl : (con.write publish fd find cb).con = con' := by simpa using hcon'
    exact absurd ((write_unchanged con publish fd find cb).1.trans hstate) hopen
  | read rounds cb =>
    obtain ⟨⟨ret, con''⟩, hread, rfl⟩ := Option.map_eq_some_iff.mp hcon'
    rw [Con.read_connecting hstate] at hread
    by_cases hneg : (con.httpBuf.readv cb).ret < 0
    · rw [if_pos hneg] at hread
      obtain ⟨-, rfl⟩ : (-3 : ℤ) = ret ∧ _ = con'' := by simpa using hread
      exact absurd hstate hopen
    rw [if_neg hneg] at hread
    obtain ⟨r, hafter, hread⟩ := Option.bind_eq_some_iff.mp hread
    split_ifs at hread with hfail hrounds
    · obtain ⟨-, rfl⟩ : r.1 = ret ∧ _ = con'' := by simpa using hread
      exact absurd hstate hopen
    obtain ⟨-, rfl⟩ : (0 : ℤ) = ret ∧ _ = con'' := by simpa using hread
    have hacc : con.Accepts computeKey r.2.2 := (Con.connect_state_ne
      { con with httpBuf := r.2.1, head := r.2.2 } computeKey hstate).mp hopen
    exact ⟨rounds, cb, r, rfl, ⟨hstate, Int.not_lt.mp hneg, hafter, Int.not_lt.mp hfail,
      Nat.pos_of_ne_zero hrounds, hacc⟩, rfl⟩

/-- A read that opens the connection, when the lines in the buffer are a whole head. -/
theorem Consistent.opensAtEnd (hs : s.Consistent) {op : ConOp publishSize}
    (hok : s.WholeHead computeKey op) : s.OpensAtEnd computeKey op := by
  intro con con' hcon hstate hcon' hopen
  obtain ⟨ls, l, hrep, hcap, hreceived⟩ := hs con hcon hstate
  obtain ⟨rounds, cb, r, rfl, hopens, rfl⟩ := exists_opens hcon hstate hcon' hopen
  obtain ⟨taken, ks, -, -, hlines, hrep', -, -⟩ := afterLines_cases hrep hcap hopens.afterLines_eq
  have hret := hopens.ret_nonneg
  have hzero : r.1 = 0 := (Head.handleLines_ret hlines).resolve_right (Int.not_lt.mpr hret)
  rw [hzero] at hlines
  have hblank := hok con hcon hstate r.2.2 ks (by rwa [hrep.contents_eq]) hopens.accepts
  rw [hrep.contents_eq] at hblank
  obtain ⟨before, hsplit⟩ := Head.exists_taken_blank hblank hlines
  have hks : ks ≠ [] := (Head.exists_taken (List.splitOn_ne_nil _ _) hlines).choose_spec.2
  refine ⟨rounds, cb, r.1, r.2.1, r.2.2, Head.unlines (ls ++ before ++ [[cr]]), rfl,
    hopens.afterLines_eq, rfl, ?_, ⟨_, rfl⟩⟩
  calc s.received ++ con.httpBuf.delivered cb
      = Head.unlines ls ++ (l ++ con.httpBuf.delivered cb) := by rw [hreceived, List.append_assoc]
    _ = Head.unlines ls ++ (Head.unlines (before ++ [[cr]]) ++ [lf].intercalate ks) := by
        rw [← Head.intercalate_append hks, ← hsplit, List.intercalate_splitOn]
    _ = Head.unlines (ls ++ before ++ [[cr]]) ++ r.2.1.contents := by
        rw [hrep'.contents_eq, List.append_assoc ls, Head.unlines_append ls, List.append_assoc]

theorem consistent_new {con : Con cacheSize} (hfresh : con.Fresh) : (new con).Consistent := by
  intro con' hcon' _
  obtain rfl : con = con' := by simpa [new] using hcon'
  refine ⟨[], [], hfresh.rep, ?_, rfl⟩
  rw [hfresh.capacity_eq]
  decide

/-- **A connection opens at the end of the head** in every run whose reads, where they make the head
one that is accepted, have the blank line in the buffer too. -/
theorem run_opensAtEnd {con : Con cacheSize} (hfresh : con.Fresh) {ops : List (ConOp publishSize)}
    (hok : Run.Steps (step computeKey) (WholeHead computeKey) (new con) ops) :
    Run.Steps (step computeKey) (OpensAtEnd computeKey) (new con) ops := by
  refine Run.Steps.of_invariant (P := Consistent) (fun s op hs _ ↦ hs.step op)
    (fun s op hs hok ↦ hs.opensAtEnd hok) (consistent_new hfresh) hok

/-! ## A head with and without its end -/

/-- The lines of a request that is accepted. -/
def requestLines : List (List UInt8) :=
  [ascii "GET /a HTTP/1.1", ascii "Host: b", ascii "Upgrade: websocket",
    ascii "Connection: Upgrade",
    ascii "Sec-WebSocket-Version: 13", ascii "Sec-WebSocket-Key: c"].map (· ++ [cr])

/-- A connection of a server. -/
def server : Con 1 := .registerConnection true [] none false false false WebSocket.zeroedData

theorem server_fresh : server.Fresh := Con.registerConnection_fresh _ _ _ _ _ _ _

/-- A server reads the lines. -/
def readLines (ls : List (List UInt8)) (h : (Head.unlines ls).length < 2 ^ 31) : ConOp 1 :=
  .read 1 (Reader.ofList (Head.unlines ls) h)

theorem delivered_server {l : List UInt8} (h : l.length < 2 ^ 31)
    (hle : l.length ≤ bufferCapacity) : server.httpBuf.delivered (Reader.ofList l h) = l :=
  BipBuf.delivered_ofList server_fresh.rep (by rw [server_fresh.capacity_eq]; decide) h
    (by rwa [server_fresh.capacity_eq, List.length_nil, Nat.zero_add])

theorem run_opensAtEnd_request :
    Run.Steps (step fun _ ↦ some []) (OpensAtEnd fun _ ↦ some []) (new server)
      [readLines (requestLines ++ [[cr]]) (by decide +kernel)] := by
  refine run_opensAtEnd server_fresh ⟨fun con hcon _ head ks _ _ ↦ ?_, trivial⟩
  obtain rfl : server = con := by injection hcon
  rw [server_fresh.rep.contents_eq, List.nil_append, delivered_server _ (by decide +kernel)]
  decide +kernel

/-- A request without its end opens the connection. -/
theorem not_opensAtEnd_of_cut :
    ¬Run.Steps (step fun _ ↦ some []) (OpensAtEnd fun _ ↦ some []) (new server)
      [readLines requestLines (by decide +kernel)] := by
  intro ⟨hstep, _⟩
  have hint : (Head.unlines requestLines).length < 2 ^ 31 := by decide +kernel
  have hfit : (Head.unlines requestLines).length ≤ bufferCapacity := by decide +kernel
  -- the six lines are all taken, and the head is accepted
  have hall : ((Head.handleLines true true Head.empty ((Head.unlines requestLines).splitOn lf)).map
      fun r ↦ (r.1, r.2.2, decide (server.Accepts (fun _ ↦ some []) r.2.1)))
        = some (0, [[]], true) := by
    decide +kernel
  obtain ⟨⟨ret, head, ks⟩, hlines, hr⟩ := Option.map_eq_some_iff.mp hall
  obtain ⟨rfl, rfl, hacc⟩ : ret = 0 ∧ ks = [[]] ∧ server.Accepts (fun _ ↦ some []) head := by
    simpa using hr
  obtain ⟨httpBuf, hrep, -, hafter, hread⟩ := Con.read_ofList (fun _ ↦ some [])
    server_fresh.state_eq server_fresh.rep (by rw [server_fresh.capacity_eq]; decide)
    (by decide +kernel) hint (by rwa [server_fresh.capacity_eq, List.length_nil,
      Nat.zero_add]) hlines
  obtain ⟨rounds, cb, ret, httpBuf', head', consumed, hop, hafter', -, hsplit, hends⟩ :=
    hstep server ({ server with httpBuf := httpBuf, head := head }.connect fun _ ↦ some []) rfl
      server_fresh.state_eq (by rw [readLines, step_read_con rfl, hread 0]; rfl)
      ((Con.connect_state_ne { server with httpBuf := httpBuf, head := head } _
        server_fresh.state_eq).mpr hacc)
  obtain ⟨rfl, rfl⟩ : 1 = rounds ∧ _ = cb := by simpa [readLines] using hop
  obtain rfl : httpBuf = httpBuf' := by
    rw [hafter] at hafter'
    exact congrArg (fun r ↦ r.2.1) (Option.some.inj hafter')
  rw [hrep.contents_eq, delivered_server hint hfit] at hsplit
  obtain rfl : Head.unlines requestLines = consumed := by simpa [new] using hsplit
  exact absurd hends.reverse (by decide +kernel)

end Handshake

end Coypu
