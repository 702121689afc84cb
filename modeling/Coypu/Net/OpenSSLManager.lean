import Coypu.Buf.Writev

/-!
# TLS connections

`OpenSSLManager` keeps a session of the library for each file descriptor. `WritevNonBlock` hands the
first region of its vector to `SSL_write`, which takes a number of bytes as an `int`. When it cannot
finish, the library has encrypted what it got, and the call has to be repeated, with the same
address and at least as many bytes. The write buffer of a connection keeps to this (`run_repeats`).

Each call of the library is a parameter (`SslCall.Lawful`). One that is not finished takes nothing.
-/

set_option autoImplicit false

namespace Coypu

open FlatMemory Transport

/-- What `SSL_get_error` says of a call. -/
inductive SslError
  | none
  | wantRead
  | wantWrite
  | zeroReturn
  | syscall
  | other
deriving DecidableEq

/-- What a call of `SSL_read` or `SSL_write` returns, for a session and a number of bytes, and what
`SSL_get_error` says of it. -/
abbrev SslCall := ℕ → ℤ → ℤ × SslError

/-- The sessions by file descriptors, and how many have been made. -/
structure OpenSSLManager where
  fdToCon : List (Option ℕ)
  sessions : ℕ
deriving DecidableEq

namespace OpenSSLManager

variable (m : OpenSSLManager) (fd : ℕ) (ssl : SslCall)

def new : OpenSSLManager := ⟨[], 0⟩

/-- `Register`, with the session that it makes. It asserts that there was none. -/
def register : Option (OpenSSLManager × ℕ) :=
  let fdToCon := m.fdToCon ++ List.replicate (fd + 1 - m.fdToCon.length) none
  if fdToCon[fd]?.join = none then
    some (⟨fdToCon.set fd (some m.sessions), m.sessions + 1⟩, m.sessions)
  else none

/-- The session of a file descriptor, or the code that the methods return. -/
def find : Except ℤ ℕ :=
  match m.fdToCon[fd]? with
  | none => .error (-1)
  | some none => .error (-2)
  | some (some s) => .ok s

theorem find_neg {m : OpenSSLManager} {fd : ℕ} {e : ℤ} (h : m.find fd = .error e) : e < 0 := by
  rw [find] at h
  split at h
  · injection h with h
    omega
  · injection h with h
    omega
  · injection h

/-- `Unregister`, with the session that it frees. -/
def unregister : ℤ × OpenSSLManager × Option ℕ :=
  match m.find fd with
  | .error e => (e, m, none)
  | .ok s => (0, { m with fdToCon := m.fdToCon.set fd none }, some s)

/-- `WritevNonBlock`. -/
def writevNonBlock (lens : List ℕ) : ℤ :=
  match lens with
  | [] => -5
  | len :: _ =>
    match m.find fd with
    | .error e => e
    | .ok s =>
      let r := ssl s (CInt.toInt len)
      if 0 < r.1 then r.1
      else
        match r.2 with
        | .wantRead | .wantWrite => 0
        | _ => -4

end OpenSSLManager

/-! ## The library -/

/-- What the library does in `SSL_write`: it takes no more bytes than it is given, and a negative
number of them is an error. -/
structure SslCall.Lawful (ssl : SslCall) : Prop where
  le : ∀ session num, (ssl session num).1 ≤ max num 0
  refuses : ∀ session num, num < 0 → (ssl session num).1 ≤ 0 ∧
    (ssl session num).2 ≠ .wantRead ∧ (ssl session num).2 ≠ .wantWrite

section

variable (m : OpenSSLManager) (fd : ℕ) {ssl : SslCall} (h : ssl.Lawful)

include h

theorem writevNonBlock_le (lens : List ℕ) :
    m.writevNonBlock fd ssl lens ≤ max (CInt.toInt (lens.headD 0)) 0 := by
  cases lens with
  | nil => simp [OpenSSLManager.writevNonBlock]
  | cons len lens =>
    rw [OpenSSLManager.writevNonBlock, List.headD_cons]
    split
    · next e he =>
      have hneg : e < 0 := m.find_neg he
      omega
    · next s hs =>
      have hle := h.le s (CInt.toInt len)
      dsimp only
      split_ifs
      · exact hle
      · split <;> omega

theorem writevNonBlock_neg {lens : List ℕ} (hneg : CInt.toInt (lens.headD 0) < 0) :
    m.writevNonBlock fd ssl lens < 0 := by
  cases lens with
  | nil => exact (by decide : (-5 : ℤ) < 0)
  | cons len lens =>
    rw [List.headD_cons] at hneg
    rw [OpenSSLManager.writevNonBlock]
    split
    · next e he => exact m.find_neg he
    · next s hs =>
      obtain ⟨hret, hread, hwrite⟩ := h.refuses s (CInt.toInt len) hneg
      dsimp only
      rw [if_neg (Int.not_lt.mpr hret)]
      split
      · next herror => exact absurd herror hread
      · next herror => exact absurd herror hwrite
      · decide

end

/-- `WritevNonBlock`, as the callback of `Writev`. -/
def tlsWriter (m : OpenSSLManager) (fd : ℕ) (ssl : SslCall) (h : ssl.Lawful) : Writer where
  run := m.writevNonBlock fd ssl
  run_le lens := by
    have hle := writevNonBlock_le m fd h lens
    cases lens with
    | nil => exact hle
    | cons len lens =>
      have hnat : 0 ≤ CInt.toInt len → CInt.toInt len ≤ len := CInt.toInt_natCast_le
      rw [List.headD_cons] at hle
      rw [List.sum_cons]
      omega
  run_lt lens := by
    have hle := writevNonBlock_le m fd h lens
    have hlt := CInt.toInt_lt (lens.headD 0)
    omega

namespace BipBuf

variable {T : CapacityType} {α : Type*} {b : BipBuf T α}

/-- The region that comes first in the vector of `Writev`. -/
def offered (b : BipBuf T α) : Region := b.writevRegions.headD ⟨0, 0⟩

theorem Wf.writev_of_nonpos (h : b.Wf) {cb : Writer} (hret : (b.writev cb).ret ≤ 0) :
    (b.writev cb).buf = b := by
  by_cases hav : b.available = 0
  · rw [writev_of_empty hav]
  · have hrun : cb.run (b.writevRegions.map Region.len) ≤ 0 := by
      rwa [writev_eq hav] at hret
    have htail := h.tail_lt
    rw [writev_eq hav, BipBuf.drained, if_neg (Int.not_lt.mpr hrun)]
    simp only [if_neg (Int.not_lt.mpr hrun)]
    exact if_neg (Nat.ne_of_lt htail)

/-- The first region has the oldest items, as far as the end of the array. Or there are no items at
the beginning of the array, and its length is negative as an `int`. -/
theorem Wf.offered_cases {b : BipBuf .uint64 α} (h : b.Wf) (hav : b.available ≠ 0)
    (hcap : b.capacity < 2 ^ 31) :
    (b.LengthsFit ∧ b.offered.start = b.tail ∧ 0 < CInt.toInt b.offered.len ∧
        load b.data b.tail b.offered.len = b.contents.take (b.capacity - b.tail)) ∨
      (b.head = 0 ∧ CInt.toInt b.offered.len < 0) := by
  have htail := h.tail_lt
  have hhead := h.head_lt
  rcases h.contents_cases hav with ⟨hlt, -, hcont⟩ | ⟨hle, -, hcont⟩
  · left
    have hoffered : b.offered = ⟨b.tail, b.head - b.tail⟩ := by
      rw [offered, writevRegions, if_pos hlt]
      rfl
    have hlen : b.offered.len = b.head - b.tail := congrArg Region.len hoffered
    refine ⟨.inl hlt, congrArg Region.start hoffered, ?_, ?_⟩
    · rw [CInt.toInt_of_mem (by omega) (by omega)]
      omega
    · rw [hlen, hcont, List.take_of_length_le]
      rw [length_load]
      omega
  by_cases hpos : 0 < b.head
  · left
    have hx : CInt.toInt (b.capacity - b.tail : ℕ) = (b.capacity - b.tail : ℕ) :=
      CInt.toInt_of_mem (by omega) (by omega)
    have hsize : CInt.toUnsigned 64 (b.capacity - b.tail : ℕ) = b.capacity - b.tail :=
      CInt.toUnsigned_natCast (by omega)
    have hoffered : b.offered = ⟨b.tail, b.capacity - b.tail⟩ := by
      rw [offered, writevRegions, if_neg (by omega), if_pos hpos, hx, hsize]
      rfl
    refine ⟨.inr (.inl ⟨hpos, by omega⟩), congrArg Region.start hoffered, ?_, ?_⟩
    · rw [hoffered, hx]
      omega
    · rw [hoffered, hcont, List.take_left' (length_load ..)]
  · right
    refine ⟨by omega, ?_⟩
    have hoffered : b.offered.len = CInt.toUnsigned 64 (b.tail - b.capacity) := by
      rw [offered, writevRegions, if_neg (by omega), if_neg hpos]
      rfl
    have hneg : (CInt.toUnsigned 64 (b.tail - b.capacity) : ℤ) = b.tail - b.capacity + 2 ^ 64 :=
      CInt.toUnsigned_of_neg (by omega) (by omega)
    have hmod := CInt.toInt_emod (b.offered.len : ℤ)
    have hlt := CInt.toInt_lt (b.offered.len : ℤ)
    have hge := CInt.le_toInt (b.offered.len : ℤ)
    rw [hoffered] at hmod hlt hge ⊢
    omega

theorem push_keeps (x : α) :
    (b.push x).buf.tail = b.tail ∧ (b.push x).buf.capacity = b.capacity := by
  rw [push]
  split_ifs
  · exact ⟨rfl, rfl⟩
  · exact ⟨by simp, by simp⟩

theorem pushBlock_keeps (p : Option (ℕ → α)) (n : ℕ) :
    (b.pushBlock p n).buf.tail = b.tail ∧ (b.pushBlock p n).buf.capacity = b.capacity := by
  cases p with
  | none => exact ⟨rfl, rfl⟩
  | some p =>
    rw [pushBlock]
    dsimp only
    split_ifs <;> exact ⟨by simp, by simp⟩

end BipBuf

/-! ## Output -/

/-- The write buffer of a connection, the call that the library has not finished, what the library
has taken, what was queued, and whether a call has failed. -/
structure TlsOutput where
  buf : BipBuf .uint64 UInt8
  pending : Option (ℕ × List UInt8)
  taken : List UInt8
  queued : List UInt8
  failed : Bool

/-- Something is queued, or epoll reports that the connection can be written to, and the library
does this or that in the call. -/
inductive TlsOp
  | push (indata : UInt8)
  | pushBlock (indata : Option (ℕ → UInt8)) (size : ℕ)
  | write (ssl : SslCall) (h : ssl.Lawful)

namespace TlsOutput

variable (m : OpenSSLManager) (fd : ℕ) (s : TlsOutput)

def new (data : ℕ → UInt8) (c : Capacity .uint64) : TlsOutput := ⟨.new data c, none, [], [], false⟩

/-- A push. -/
def fill (op : FlowOp UInt8) : TlsOutput :=
  { s with buf := (s.buf.flowStep op).1, queued := s.queued ++ (s.buf.flowStep op).2.pushed }

/-- `Write` of the connection, unless its buffer is empty, or it is closed. -/
def write (ssl : SslCall) (h : ssl.Lawful) : TlsOutput :=
  if s.failed ∨ s.buf.isEmpty then s
  else
    let o := s.buf.writev (tlsWriter m fd ssl h)
    { s with
      buf := o.buf
      pending := if o.ret = 0 then
        some (s.buf.offered.start, load s.buf.data s.buf.offered.start s.buf.offered.len) else none
      taken := s.taken ++ s.buf.accepted o
      failed := decide (o.ret < 0) }

def step : TlsOp → TlsOutput × Unit
  | .push x => (s.fill (.push x), ())
  | .pushBlock p n => (s.fill (.pushBlock p n), ())
  | .write ssl h => (s.write m fd ssl h, ())

/-- A call that was not finished is repeated: from the same address, with the same bytes, and maybe
more. Only where the items are at the end of the array and end with it, the number of bytes is
negative, and the call fails. -/
def Repeats : TlsOp → Prop
  | .push _ | .pushBlock _ _ => True
  | .write ssl h => s.failed = false → s.buf.isEmpty = false →
      (0 < CInt.toInt s.buf.offered.len ∧ ∀ p ∈ s.pending, s.buf.offered.start = p.1 ∧
        p.2 <+: load s.buf.data s.buf.offered.start s.buf.offered.len) ∨
      (s.buf.head = 0 ∧ CInt.toInt s.buf.offered.len < 0 ∧ (s.write m fd ssl h).failed = true ∧
        (s.write m fd ssl h).taken = s.taken)

/-- What was queued has been taken, or is in the buffer. -/
def Conserves : Prop := s.taken ++ s.buf.contents = s.queued

structure Inv : Prop where
  wf : s.buf.Wf
  capacity_lt : s.buf.capacity < 2 ^ 31
  conserves : s.Conserves
  pending : ∀ p ∈ s.pending, p.1 = s.buf.tail ∧
    p.2 <+: s.buf.contents.take (s.buf.capacity - s.buf.tail)

variable {m fd s}

theorem inv_new (data : ℕ → UInt8) {c : Capacity .uint64} (hc : c.val < 2 ^ 31) :
    (new data c).Inv where
  wf := (BipBuf.rep_new data c).wf (BipBuf.bounded_new data c)
  capacity_lt := hc
  conserves := (BipBuf.rep_new data c).contents_eq
  pending _ hp := absurd hp (Option.not_mem_none _)

theorem Inv.fill (h : s.Inv) {op : FlowOp UInt8} (hfits : s.buf.WritevFits op)
    (htail : (s.buf.flowStep op).1.tail = s.buf.tail)
    (hcapacity : (s.buf.flowStep op).1.capacity = s.buf.capacity)
    (hemitted : (s.buf.flowStep op).2.emitted = []) : (s.fill op).Inv := by
  obtain ⟨hwf, hcontents⟩ := h.wf.flowStep hfits
  rw [hemitted, List.nil_append] at hcontents
  refine ⟨hwf, hcapacity ▸ h.capacity_lt, ?_, fun p hp ↦ ?_⟩
  · have hconserves : s.taken ++ s.buf.contents = s.queued := h.conserves
    rw [Conserves, TlsOutput.fill, ← hcontents, ← hconserves, List.append_assoc]
  · obtain ⟨hstart, hprefix⟩ := h.pending p hp
    refine ⟨hstart.trans htail.symm, ?_⟩
    simp only [TlsOutput.fill]
    rw [htail, hcapacity, ← hcontents, List.take_append]
    exact hprefix.trans (List.prefix_append ..)

variable (m fd) in
theorem Inv.write_cases (h : s.Inv) {ssl : SslCall} (hssl : ssl.Lawful)
    (hfailed : s.failed = false) (hempty : s.buf.isEmpty = false) :
    s.Repeats m fd (.write ssl hssl) ∧ (s.write m fd ssl hssl).Inv := by
  have hav : s.buf.available ≠ 0 := by
    intro hav
    have hlength := h.wf.rep.available_eq.symm.trans hav
    rw [h.wf.rep.isEmpty_eq, List.length_eq_zero_iff.mp hlength] at hempty
    exact absurd hempty (by decide)
  have hwrite : s.write m fd ssl hssl = _ := if_neg (by rw [hfailed, hempty]; decide)
  have hret : (s.buf.writev (tlsWriter m fd ssl hssl)).ret =
      m.writevNonBlock fd ssl (s.buf.writevRegions.map Region.len) := by
    rw [BipBuf.writev_eq hav]
    rfl
  have hhead : (s.buf.writevRegions.map Region.len).headD 0 = s.buf.offered.len := by
    rw [BipBuf.offered]
    cases s.buf.writevRegions <;> rfl
  rcases h.wf.offered_cases hav h.capacity_lt with
    ⟨hfits, hstart, hpos, hload⟩ | ⟨hzero, hneg⟩
  · obtain ⟨hwf, hgather, -, hdrop⟩ := h.wf.writev (tlsWriter m fd ssl hssl) fun _ ↦ hfits
    rw [← hstart] at hload
    refine ⟨fun _ _ ↦ .inl ⟨hpos, fun p hp ↦ ?_⟩, ?_⟩
    · obtain ⟨hp₁, hp₂⟩ := h.pending p hp
      exact ⟨hstart.trans hp₁.symm, hload ▸ hstart ▸ hp₂⟩
    · rw [hwrite]
      refine ⟨hwf, (BipBuf.writev_capacity _).symm ▸ h.capacity_lt, ?_, fun p hp ↦ ?_⟩
      · have hconserves : s.taken ++ s.buf.contents = s.queued := h.conserves
        simp only [Conserves, BipBuf.accepted, hgather, hdrop]
        rw [List.append_assoc, List.take_append_drop, hconserves]
      · simp only [Option.mem_def, Option.ite_none_right_eq_some, Option.some.injEq] at hp
        obtain ⟨hzero, rfl⟩ := hp
        have hsame := h.wf.writev_of_nonpos (Int.le_of_eq hzero)
        simp only [hsame]
        refine ⟨hstart, ?_⟩
        simp only [hload]
        exact List.prefix_of_prefix_length_le (List.take_prefix _ _) (List.take_prefix _ _)
          (by rw [hstart])
  · have hnegative : (s.buf.writev (tlsWriter m fd ssl hssl)).ret < 0 := by
      rw [hret]
      exact writevNonBlock_neg m fd hssl (hhead ▸ hneg)
    have hsame := h.wf.writev_of_nonpos (Int.le_of_lt hnegative)
    have htaken : s.taken ++ s.buf.accepted (s.buf.writev (tlsWriter m fd ssl hssl)) =
        s.taken := by
      rw [BipBuf.accepted, Int.toNat_of_nonpos (Int.le_of_lt hnegative), List.take_zero,
        List.append_nil]
    rw [Repeats, hwrite]
    refine ⟨fun _ _ ↦ .inr ⟨hzero, hneg, decide_eq_true hnegative, htaken⟩, ?_⟩
    refine ⟨?_, ?_, ?_, fun p hp ↦ ?_⟩
    · simp only [hsame]
      exact h.wf
    · simp only [hsame]
      exact h.capacity_lt
    · simp only [Conserves, htaken, hsame]
      exact h.conserves
    · simp only [Option.mem_def, if_neg (Int.ne_of_lt hnegative)] at hp
      exact absurd hp (Option.some_ne_none _).symm

variable (m fd) in
/-- **A step.** -/
theorem Inv.step (h : s.Inv) (op : TlsOp) :
    s.Repeats m fd op ∧ (s.step m fd op).1.Inv := by
  cases op with
  | push x =>
    obtain ⟨htail, hcapacity⟩ := s.buf.push_keeps x
    exact ⟨trivial, h.fill trivial htail hcapacity rfl⟩
  | pushBlock p n =>
    obtain ⟨htail, hcapacity⟩ := s.buf.pushBlock_keeps p n
    exact ⟨trivial, h.fill trivial htail hcapacity rfl⟩
  | write ssl hssl =>
    by_cases hidle : s.failed = true ∨ s.buf.isEmpty = true
    · have hwrite : s.write m fd ssl hssl = s := if_pos hidle
      refine ⟨fun hfailed hempty ↦ ?_, ?_⟩
      · rw [hfailed, hempty] at hidle
        exact absurd hidle (by decide)
      · rw [TlsOutput.step, hwrite]
        exact h
    · rw [not_or, Bool.not_eq_true, Bool.not_eq_true] at hidle
      exact h.write_cases m fd hssl hidle.1 hidle.2

/-- **Calls are repeated as the library asks**, in every run from an empty buffer, and what was
queued reaches the library in order. -/
theorem run_repeats (m : OpenSSLManager) (fd : ℕ) (data : ℕ → UInt8) (c : Capacity .uint64)
    (hc : c.val < 2 ^ 31) (ops : List TlsOp) :
    Run.Steps (step m fd) (Repeats m fd) (new data c) ops ∧
      Run.Throughout (step m fd) Conserves (new data c) ops := by
  have hinv := inv_new data hc
  have htrue : Run.Steps (step m fd) (fun _ _ ↦ True) (new data c) ops := Run.steps_true _ _
  refine ⟨Run.Steps.of_invariant (fun s op h _ ↦ (h.step m fd op).2)
    (fun s op h _ ↦ (h.step m fd op).1) hinv htrue, ?_⟩
  exact (Run.Throughout.of_step (fun s op h _ ↦ (h.step m fd op).2) hinv htrue).mono
    fun s h ↦ h.conserves

/-- The library takes up to `room` bytes, or is not finished. -/
def upTo (room : ℕ) : SslCall := fun _ num ↦
  if num < 0 then (-1, .other) else if 0 < room then (min (room : ℤ) num, .none)
  else (-1, .wantWrite)

theorem upTo_lawful (room : ℕ) : (upTo room).Lawful where
  le session num := by
    unfold upTo
    split_ifs <;> simp only <;> omega
  refuses session num hnum := by
    rw [upTo, if_pos hnum]
    decide

/-- A write that takes nothing is repeated with one byte more. -/
theorem run_repeats_four :
    Run.Steps (step ⟨[some 0], 1⟩ 0) (Repeats ⟨[some 0], 1⟩ 0)
        (new (fun _ ↦ 0) ⟨4, by decide, by decide⟩)
        [.pushBlock (some fun _ ↦ 7) 2, .write (upTo 0) (upTo_lawful 0), .push 8,
          .write (upTo 9) (upTo_lawful 9)] ∧
      Run.Throughout (step ⟨[some 0], 1⟩ 0) Conserves (new (fun _ ↦ 0) ⟨4, by decide, by decide⟩)
        [.pushBlock (some fun _ ↦ 7) 2, .write (upTo 0) (upTo_lawful 0), .push 8,
          .write (upTo 9) (upTo_lawful 9)] :=
  run_repeats _ _ _ _ (by decide) _

end TlsOutput

end Coypu
