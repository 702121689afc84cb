import Coypu.Http.Lines
import Coypu.Http.WebSocket

/-!
# Reads before the connection is open

A `Read` in state `CONNECTING` adds to the HTTP buffer, takes its lines, and then looks whether the
head it knows is enough to open the connection (`Accepts`). The blank line at the end of a head
plays no part in that. `read_connecting` says all of what such a `Read` does.
-/

set_option autoImplicit false

namespace Coypu

open Transport WebSocket

variable {cacheSize : ℕ}

namespace Con

variable {con : Con cacheSize} {computeKey : List UInt8 → Option (List UInt8)}

/-- The head is one that `ProcessState` opens the connection for. -/
def Accepts (con : Con cacheSize) (computeKey : List UInt8 → Option (List UInt8)) (head : Head) :
    Prop :=
  if con.server then (serverKey computeKey head).isSome = true
  else clientAccepts computeKey con.key head = true

instance (con : Con cacheSize) (computeKey : List UInt8 → Option (List UInt8)) (head : Head) :
    Decidable (con.Accepts computeKey head) := by
  unfold Accepts
  infer_instance

theorem not_accepts_empty : ¬con.Accepts computeKey Head.empty := by
  have hmethod : ¬([] : List UInt8) = ascii "GET" := by decide
  have hcount : ¬[headerServers, headerUpgrade, headerConnection,
      headerSecWebsocketAccept].countP Head.empty.hasHeader = 4 := by decide
  unfold Accepts serverKey clientAccepts
  simp only [Head.empty, hmethod, false_and, if_false, Option.isSome_none] at hcount ⊢
  simp only [hcount, decide_false, Bool.false_and, ite_self, Bool.false_eq_true, not_false_eq_true]

theorem connect_of_not_accepts (h : ¬con.Accepts computeKey con.head) :
    con.connect computeKey = con := by
  unfold Accepts at h
  unfold connect
  by_cases hserver : con.server = true
  · rw [if_pos hserver] at h ⊢
    rw [Option.not_isSome_iff_eq_none.mp h]
  · rw [if_neg hserver] at h ⊢
    rw [if_neg h]

@[simp] theorem copyToStream_state : con.copyToStream.state = con.state := by
  unfold copyToStream
  split <;> rfl

@[simp] theorem copyToStream_head : con.copyToStream.head = con.head := by
  unfold copyToStream
  split <;> rfl

@[simp] theorem opened_state : con.opened.state = .open := by
  unfold opened
  split <;> simp [call]

@[simp] theorem opened_head : con.opened.head = con.head := by
  unfold opened
  split <;> simp [call]

theorem connect_of_accepts (h : con.Accepts computeKey con.head) :
    (con.connect computeKey).state = .open ∧ (con.connect computeKey).head = con.head := by
  unfold Accepts at h
  unfold connect
  by_cases hserver : con.server = true
  · rw [if_pos hserver] at h ⊢
    obtain ⟨newKey, hkey⟩ := Option.isSome_iff_exists.mp h
    rw [hkey]
    simp [call]
  · rw [if_neg hserver] at h ⊢
    rw [if_pos h]
    simp

theorem connect_state_ne (con : Con cacheSize) (computeKey : List UInt8 → Option (List UInt8))
    (h : con.state = .connecting) :
    (con.connect computeKey).state ≠ .connecting ↔ con.Accepts computeKey con.head := by
  constructor
  · intro hne
    by_contra hno
    rw [connect_of_not_accepts hno] at hne
    exact hne h
  · intro hacc
    rw [(connect_of_accepts hacc).1]
    decide

/-- Nothing has been received. -/
structure Fresh (con : Con cacheSize) : Prop where
  state_eq : con.state = .connecting
  head_eq : con.head = Head.empty
  rep : con.httpBuf.Rep []
  capacity_eq : con.httpBuf.capacity = bufferCapacity

theorem registerConnection_fresh (serverCon : Bool) (randomMask : List UInt8)
    (stream : Option (PositionedStream cacheSize)) (onOpen onText asserts : Bool)
    (pingData : List WebSocket.Call → ℕ → UInt8) :
    (registerConnection serverCon randomMask stream onOpen onText asserts pingData).Fresh :=
  ⟨rfl, rfl, BipBuf.rep_new _ _, rfl⟩

theorem readvSource_connecting (h : con.state = .connecting) (cb : Reader UInt8) :
    con.readvSource cb
      = ((con.httpBuf.readv cb).ret, { con with httpBuf := (con.httpBuf.readv cb).buf }) := by
  unfold readvSource
  cases con.stream with
  | none => rfl
  | some stream =>
    rw [h]
    exact if_neg (by decide)

/-- The buffer as `HandleHTTP` leaves it, the result and the head. -/
def afterLines (con : Con cacheSize) (cb : Reader UInt8) :
    Option (ℤ × BipBuf .uint64 UInt8 × Head) :=
  con.head.handleHTTP con.server (con.httpBuf.readv cb).buf

/-- All of what a `Read` does: it fails, or an exception ends it, or `HandleHTTP` fails, or
`ProcessState` looks at the head. -/
theorem read_connecting (h : con.state = .connecting) (rounds : ℕ) (cb : Reader UInt8) :
    con.read computeKey rounds cb =
      if (con.httpBuf.readv cb).ret < 0 then
        some (-3, { con with httpBuf := (con.httpBuf.readv cb).buf })
      else (con.afterLines cb).bind fun r ↦
        if r.1 < 0 then some (r.1, { con with httpBuf := r.2.1, head := r.2.2 })
        else if rounds = 0 then none
        else some (0, { con with httpBuf := r.2.1, head := r.2.2 }.connect computeKey) := by
  unfold read afterLines
  rw [readvSource_connecting h]
  simp only
  by_cases hret : (con.httpBuf.readv cb).ret < 0
  · rw [if_pos hret, if_pos hret]
  · rw [if_neg hret, if_neg hret, if_pos h]
    cases con.head.handleHTTP con.server (con.httpBuf.readv cb).buf with
    | none => rfl
    | some r =>
      simp only [Option.bind_some]
      split_ifs with hneg hzero
      · rfl
      · rw [hzero]
        rfl
      · obtain ⟨n, rfl⟩ := Nat.exists_eq_succ_of_ne_zero hzero
        simp only [processAll, processState, h, Option.map_some]

/-- A `Read` leaves `r` of the lines, and `ProcessState` accepts the head. -/
structure Opens (con : Con cacheSize) (computeKey : List UInt8 → Option (List UInt8)) (rounds : ℕ)
    (cb : Reader UInt8) (r : ℤ × BipBuf .uint64 UInt8 × Head) : Prop where
  state_eq : con.state = .connecting
  readv_nonneg : 0 ≤ (con.httpBuf.readv cb).ret
  afterLines_eq : con.afterLines cb = some r
  ret_nonneg : 0 ≤ r.1
  rounds_pos : 0 < rounds
  accepts : con.Accepts computeKey r.2.2

theorem Opens.read_eq {rounds : ℕ} {cb : Reader UInt8} {r : ℤ × BipBuf .uint64 UInt8 × Head}
    (h : con.Opens computeKey rounds cb r) :
    con.read computeKey rounds cb
      = some (0, { con with httpBuf := r.2.1, head := r.2.2 }.connect computeKey) := by
  rw [read_connecting h.state_eq, if_neg (Int.not_lt.mpr h.readv_nonneg), h.afterLines_eq,
    Option.bind_some,
    if_neg (Int.not_lt.mpr h.ret_nonneg), if_neg (Nat.pos_iff_ne_zero.mp h.rounds_pos)]

theorem read_ofList (computeKey : List UInt8 → Option (List UInt8)) {l k : List UInt8}
    (h : con.state = .connecting) (hrep : con.httpBuf.Rep l)
    (hcap : con.httpBuf.capacity ≤ 2 ^ 31) (hk : k ≠ []) (hint : k.length < 2 ^ 31)
    (hfit : l.length + k.length ≤ con.httpBuf.capacity) {head : Head} {ks : List (List UInt8)}
    (hlines : Head.handleLines con.server true con.head ((l ++ k).splitOn lf) =
      some (0, head, ks)) :
    ∃ httpBuf, httpBuf.Rep ([lf].intercalate ks) ∧ httpBuf.capacity = con.httpBuf.capacity ∧
      con.afterLines (Reader.ofList k hint) = some (0, httpBuf, head) ∧
      ∀ rounds, con.read computeKey (rounds + 1) (Reader.ofList k hint)
        = some (0, { con with httpBuf := httpBuf, head := head }.connect computeKey) := by
  obtain ⟨hpos, hread⟩ := BipBuf.readv_ofList hrep hcap hk hint hfit
  have hret : ¬(con.httpBuf.readv (Reader.ofList k hint)).ret < 0 :=
    Int.not_lt.mpr (Int.le_of_lt hpos)
  obtain ⟨httpBuf, heq, hcap', hleft⟩ := Head.handleHTTP_eq hread con.server con.head
  rw [hlines, Option.map_some] at heq
  refine ⟨httpBuf, hleft _ hlines, hcap'.trans (BipBuf.readv_capacity _), heq, fun rounds ↦ ?_⟩
  rw [read_connecting h, if_neg hret, afterLines, heq, Option.bind_some]
  exact if_neg (Int.lt_irrefl 0)

end Con

end Coypu
