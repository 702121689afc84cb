import Coypu.Library.Run
import Coypu.Protobuf.LogStream
import Coypu.Store.FlatLog

/-!
# Reading a log through protobuf

`LogZeroCopyInputStream` as the template it is: over a log, whose `Backup` and `Skip` do nothing, or
over a stream with a cursor, which they move (`LogSource`). The adapter keeps a count of its own,
from which `Next` asks for the rest of a page.

The rest of a page is not the rest of the log, and `Skip` is not told where the log ends. So the
adapter gives the log exactly where it is not asked for the last page unless that is full, and is
not asked to skip more than is left (`InPages`).
-/

set_option autoImplicit false

namespace Coypu

open FlatMemory LawfulReadCache

/-- What the adapter asks of the stream it is over. The length of a region is an `int`. -/
class LogSource (S : Type*) where
  zeroCopyReadNext : S → ℕ → Option (ℕ × ℤ) × S
  backup : S → ℕ → Bool × S
  skip : S → ℕ → Bool × S
  cursor : S → Option ℕ

section Instances

variable {C : Type*} [ReadCache C] {cacheSize : ℕ}

instance : LogSource (PagedLog C cacheSize) where
  zeroCopyReadNext log offset :=
    ((log.zeroCopyReadNext offset).1.map fun region ↦ (region.start, CInt.toInt region.len),
      (log.zeroCopyReadNext offset).2)
  backup log _ := (true, log)
  skip log _ := (true, log)
  cursor _ := none

instance : LogSource (PositionedLog C cacheSize) where
  zeroCopyReadNext := PositionedLog.zeroCopyReadNext
  backup := PositionedLog.backup
  skip := PositionedLog.skip
  cursor stream := some stream.curOffset

end Instances

/-- `LogZeroCopyInputStream` over a stream of any kind. -/
structure LogInput (S : Type*) where
  stream : S
  byteCount : ℤ

namespace LogInput

section Functions

variable {S : Type*} [LogSource S]

/-- The constructor with an offset, which is an `int`. -/
def new (stream : S) (offset : ℕ) : LogInput S := ⟨stream, CInt.toInt offset⟩

/-- `Next`: where the region begins, and its length. -/
def next (t : LogInput S) : Option (ℕ × ℤ) × LogInput S :=
  let r := LogSource.zeroCopyReadNext t.stream (CInt.toUnsigned 64 t.byteCount)
  (r.1, ⟨r.2, r.1.elim t.byteCount fun region ↦ t.byteCount + region.2⟩)

/-- `BackUp`, which asserts that the stream goes back. -/
def backUp (asserts : Bool) (count : ℕ) (t : LogInput S) : Option (LogInput S) :=
  let r := LogSource.backup t.stream count
  if asserts = true ∧ r.1 = false then none else some ⟨r.2, t.byteCount - count⟩

/-- `Skip`, which says that it succeeds whether or not it does. -/
def skip (count : ℕ) (t : LogInput S) : Bool × LogInput S :=
  (true, ⟨(LogSource.skip t.stream count).2, t.byteCount + count⟩)

end Functions

/-- Over a stream with its own pages, `Next` hands out the memory of the region. -/
theorem next_logZeroCopyInputStream {cacheSize : ℕ} (t : LogZeroCopyInputStream cacheSize) :
    t.next = match (LogInput.mk t.stream t.byteCount).next with
      | (none, t') => some (none, ⟨t'.stream, t'.byteCount⟩)
      | (some (start, size), t') =>
        (t'.stream.log.file.read PagedLog.systemPage start size.toNat).map fun l ↦
          (some l, ⟨t'.stream, t'.byteCount⟩) := by
  simp only [LogZeroCopyInputStream.next, next, LogSource.zeroCopyReadNext]
  split <;> rename_i hread <;> simp only [hread] <;> rfl

/-! ## Calls -/

/-- What protobuf asks the adapter to do. -/
inductive Call where
  | next
  | backUp (count : ℕ)
  | skip (count : ℕ)

variable {S : Type*} [LogSource S]

/-- A call, with the number of bytes that the caller has consumed. There is no state after an
assertion that fails. -/
def step (asserts : Bool) (t : LogInput S × ℕ) : Call → (LogInput S × ℕ) × Unit
  | .next => ((t.1.next.2, t.2 + t.1.next.1.elim 0 fun region ↦ region.2.toNat), ())
  | .backUp count => ((t.1.backUp asserts count).elim t fun t' ↦ (t', t.2 - count), ())
  | .skip count => (((t.1.skip count).2, t.2 + count), ())

/-- Not more is given back than was consumed. -/
def InContract (t : LogInput S × ℕ) : Call → Prop
  | .next | .skip _ => True
  | .backUp count => count ≤ t.2

section Yields

variable {C : Type*} {cacheSize : ℕ} (log : PagedLog C cacheSize) (start : ℕ)

/-- The bytes of the log from `start` to its end. -/
def contents : List UInt8 := load log.file.data start (log.available - start)

/-- The cursor, if the stream has one, is `pos` bytes behind `start`. -/
def Tracks (stream : S) (pos : ℕ) : Prop :=
  ∀ cursor, LogSource.cursor stream = some cursor → cursor = start + pos

/-- The adapter gives the log from `start` on. A region holds bytes, which are the next ones of the
log; there is none exactly at the end. What is given back is taken. A `Skip` succeeds exactly if as
many bytes are left. The cursor follows. -/
def Yields (asserts : Bool) (t : LogInput S × ℕ) : Call → Prop
  | .next =>
    (match t.1.next.1 with
      | none => start + t.2 = log.available
      | some (first, size) => ∃ chunk,
        log.file.read PagedLog.systemPage first size.toNat = some chunk ∧ chunk ≠ [] ∧
          chunk <+: (contents log start).drop t.2) ∧
      Tracks start (step asserts t .next).1.1.stream (step asserts t .next).1.2
  | .backUp count => (∃ t', t.1.backUp asserts count = some t') ∧
      Tracks start (step asserts t (.backUp count)).1.1.stream
        (step asserts t (.backUp count)).1.2
  | .skip count => ((t.1.skip count).1 = true ↔ start + t.2 + count ≤ log.available) ∧
      (start + t.2 + count ≤ log.available →
        Tracks start (step asserts t (.skip count)).1.1.stream (step asserts t (.skip count)).1.2)

/-- The length of the rest of the page with an offset, as an `int`. -/
def restOfPage (offset : ℕ) : ℤ := CInt.toInt (log.pageSize - offset % log.pageSize : ℕ)

/-- The end of the log is reached, or the rest of the page is not empty and ends with the log at
most. No more is skipped than is left. -/
def InPages (t : LogInput S × ℕ) : Call → Prop
  | .next => start + t.2 = log.available ∨
      (0 < restOfPage log (start + t.2) ∧
        start + t.2 + restOfPage log (start + t.2) ≤ log.available)
  | .backUp _ => True
  | .skip count => start + t.2 + count ≤ log.available

end Yields

/-! ## Streams that read a log -/

variable {C : Type*} {cacheSize : ℕ} {log : PagedLog C cacheSize} {start o : ℕ}

/-- A stream of the log, which is at an offset. It hands out the rest of the page from any offset on
that is not the end. -/
structure ReadsLog (log : PagedLog C cacheSize) (start : ℕ) (at' : S → ℕ → Prop) : Prop where
  next : ∀ ⦃stream o⦄, at' stream o → start ≤ o → o < log.available → ∃ stream',
    LogSource.zeroCopyReadNext stream o = (some (o, restOfPage log o), stream') ∧
      (0 < restOfPage log o → o + restOfPage log o ≤ log.available →
        at' stream' (o + (restOfPage log o).toNat))
  finish : ∀ ⦃stream⦄, at' stream log.available → ∃ stream',
    LogSource.zeroCopyReadNext stream log.available = (none, stream') ∧ at' stream' log.available
  backup : ∀ ⦃stream o count⦄, at' stream o → count ≤ o → ∃ stream',
    LogSource.backup stream count = (true, stream') ∧ at' stream' (o - count)
  skip : ∀ ⦃stream o count⦄, at' stream o → o + count ≤ log.available →
    at' (LogSource.skip stream count).2 (o + count)
  cursor : ∀ ⦃stream o cursor⦄, at' stream o → LogSource.cursor stream = some cursor → cursor = o

/-- What the adapter can read: pages that are kept, with numbers that fit in 32 bits. -/
structure Readable [ReadCache C] [LawfulReadCache C] (log : PagedLog C cacheSize) (start : ℕ) :
    Prop where
  start_le : start ≤ log.available
  available_lt : log.available < 2 ^ 63
  pages_le : log.available ≤ 2 ^ 32 * log.pageSize
  le_size : log.available ≤ log.file.size
  sound : Sound log.pageSize log.cache
  kept : ∀ k, start / log.pageSize ≤ k → k * log.pageSize < log.available →
    Kept log.pageSize log.cache k

section Laws

variable [ReadCache C] [LawfulReadCache C]

/-- The log with another cache that keeps the same pages. -/
def SamePages (log log' : PagedLog C cacheSize) : Prop :=
  ∃ c, log' = { log with cache := c } ∧ Sound log.pageSize c ∧
    ∀ k, Kept log.pageSize c k ↔ Kept log.pageSize log.cache k

theorem SamePages.peakPage {log' : PagedLog C cacheSize} (h : SamePages log log') (offset : ℕ) :
    SamePages log { log' with cache := (ReadCache.peakPage log'.cache offset).2 } := by
  obtain ⟨c, rfl, hsound, hkept⟩ := h
  exact ⟨_, rfl, peakPage_sound log.pageSize_pos hsound offset, fun k ↦
    (kept_peakPage log.pageSize_pos hsound offset).trans (hkept k)⟩

theorem zeroCopyReadNext_eq (h : Readable log start) {log' : PagedLog C cacheSize}
    (hlog : SamePages log log') (hle : start ≤ o) (hlt : o < log.available) :
    ∃ log'', log'.zeroCopyReadNext o = (some ⟨o, log.pageSize - o % log.pageSize⟩, log'') ∧
      SamePages log log'' := by
  refine ⟨_, ?_, hlog.peakPage o⟩
  obtain ⟨c, rfl, hsound, hkept⟩ := hlog
  have hdiv := Nat.div_mul_le_self o log.pageSize
  have hpages := h.pages_le
  have hpage := (hkept _).mpr (h.kept (o / log.pageSize) (Nat.div_le_div_right hle) (by omega))
  have hbase : (ReadCache.peakPage c o).1 = some (o / log.pageSize * log.pageSize) :=
    peakPage_of_kept log.pageSize_pos hsound (by omega) hpage
  have hend := Nat.lt_div_mul_add log.pageSize_pos (a := o)
  have hrest : o - o / log.pageSize * log.pageSize = o % log.pageSize := by
    have hmod := Nat.div_add_mod' o log.pageSize
    omega
  have hnot : ¬log.available ≤ o := Nat.not_le.mpr hlt
  rw [PagedLog.zeroCopyReadNext]
  simp only [hbase]
  rw [if_neg hnot, if_pos ⟨hdiv, Nat.le_of_lt hend⟩]
  simp only [PagedLog.pageSize] at hrest ⊢
  rw [hrest]

theorem zeroCopyReadNext_end {log' : PagedLog C cacheSize} (hlog : SamePages log log') :
    ∃ log'', log'.zeroCopyReadNext log.available = (none, log'') ∧ SamePages log log'' := by
  refine ⟨_, ?_, hlog.peakPage log.available⟩
  obtain ⟨c, rfl, -, -⟩ := hlog
  rw [PagedLog.zeroCopyReadNext]
  cases (ReadCache.peakPage c log.available).1 with
  | none => rfl
  | some base =>
    simp only
    rw [if_pos (Nat.le_refl _)]

theorem readsLog (h : Readable log start) :
    ReadsLog log start (fun (stream : PagedLog C cacheSize) (_ : ℕ) ↦ SamePages log stream) where
  next stream o hstream hle hlt := by
    obtain ⟨log', hread, hlog'⟩ := zeroCopyReadNext_eq h hstream hle hlt
    refine ⟨log', ?_, fun _ _ ↦ hlog'⟩
    simp only [LogSource.zeroCopyReadNext, hread]
    rfl
  finish stream hstream := by
    obtain ⟨log', hread, hlog'⟩ := zeroCopyReadNext_end hstream
    refine ⟨log', ?_, hlog'⟩
    simp only [LogSource.zeroCopyReadNext, hread]
    rfl
  backup stream o count hstream _ := ⟨stream, rfl, hstream⟩
  skip stream o count hstream _ := hstream
  cursor stream o cursor _ hcursor := absurd hcursor (by simp [LogSource.cursor])

theorem readsLog_positioned (h : Readable log start) :
    ReadsLog log start (fun (stream : PositionedLog C cacheSize) (o : ℕ) ↦
      SamePages log stream.log ∧ stream.curOffset = o ∧ o ≤ log.available) where
  next stream o hstream hle hlt := by
    obtain ⟨hlog, hcur, -⟩ := hstream
    obtain ⟨log', hread, hlog'⟩ := zeroCopyReadNext_eq h hlog hle hlt
    have havail := h.available_lt
    refine ⟨⟨log', CInt.toUnsigned 64 (o + restOfPage log o)⟩, ?_, fun hpos hend ↦ ⟨hlog', ?_, ?_⟩⟩
    · simp only [LogSource.zeroCopyReadNext, PositionedLog.zeroCopyReadNext, hread, hcur]
      rfl
    · simp only
      rw [CInt.toUnsigned_of_mem (by omega) (by omega)]
      omega
    · omega
  finish stream hstream := by
    obtain ⟨hlog, hcur, hle⟩ := hstream
    obtain ⟨log', hread, hlog'⟩ := zeroCopyReadNext_end hlog
    refine ⟨⟨log', stream.curOffset⟩, ?_, hlog', hcur, hle⟩
    simp only [LogSource.zeroCopyReadNext, PositionedLog.zeroCopyReadNext, hread]
  backup stream o count hstream hcount := by
    obtain ⟨hlog, hcur, hle⟩ := hstream
    refine ⟨⟨stream.log, o - count⟩, ?_, hlog, rfl, by omega⟩
    simp only [LogSource.backup, PositionedLog.backup, hcur, if_pos hcount]
  skip stream o count hstream hcount := by
    obtain ⟨hlog, hcur, hle⟩ := hstream
    have hsame : stream.log.available = log.available := by
      obtain ⟨c, heq, -, -⟩ := hlog
      rw [heq]
    have havail := h.available_lt
    have hleft : count ≤ stream.available := by
      rw [PositionedLog.available, CInt.toUnsigned_of_mem (by omega) (by omega)]
      omega
    simp only [LogSource.skip, PositionedLog.skip, if_pos hleft]
    exact ⟨hlog, congrArg (· + count) hcur, hcount⟩
  cursor stream o cursor hstream hcursor := by
    obtain ⟨-, hcur, -⟩ := hstream
    rw [← hcur]
    exact (Option.some.inj hcursor).symm

end Laws

/-! ## Runs -/

section Runs

variable {at' : S → ℕ → Prop} {asserts : Bool} {t : LogInput S × ℕ} {call : Call}

/-- The adapter is behind the bytes consumed, and so is the stream. -/
structure At (log : PagedLog C cacheSize) (start : ℕ) (at' : S → ℕ → Prop) (t : LogInput S × ℕ) :
    Prop where
  stream : at' t.1.stream (start + t.2)
  count_eq : t.1.byteCount = (start + t.2 : ℕ)
  le : start + t.2 ≤ log.available

theorem At.tracks (hreads : ReadsLog log start at') (ht : At log start at' t) :
    Tracks start t.1.stream t.2 :=
  fun _ hcursor ↦ hreads.cursor ht.stream hcursor

theorem backUp_eq (asserts : Bool) (hreads : ReadsLog log start at') (ht : At log start at' t)
    {count : ℕ} (hcount : count ≤ t.2) :
    (∃ t', t.1.backUp asserts count = some t') ∧
      At log start at' (step asserts t (.backUp count)).1 := by
  have hle := ht.le
  have hcount' : count ≤ start + t.2 := Nat.le_trans hcount (Nat.le_add_left _ _)
  obtain ⟨stream', hback, hstream'⟩ := hreads.backup ht.stream hcount'
  have hbackUp : t.1.backUp asserts count = some ⟨stream', t.1.byteCount - count⟩ := by
    simp only [backUp, hback]
    rw [if_neg (by simp)]
  refine ⟨⟨_, hbackUp⟩, ?_⟩
  simp only [step, hbackUp, Option.elim_some]
  rw [Nat.add_sub_assoc hcount] at hstream'
  refine ⟨hstream', ?_, ?_⟩
  · simp only [ht.count_eq]
    omega
  · simp only
    omega

theorem skip_eq (hreads : ReadsLog log start at') (ht : At log start at' t) {count : ℕ}
    (hcount : start + t.2 + count ≤ log.available) :
    At log start at' (step asserts t (.skip count)).1 := by
  have hstream := hreads.skip ht.stream hcount
  rw [Nat.add_assoc] at hstream
  refine ⟨hstream, ?_, ?_⟩
  · simp only [step, skip, ht.count_eq]
    omega
  · simp only [step]
    omega

variable [ReadCache C] [LawfulReadCache C]

theorem next_of_read (h : Readable log start) (ht : At log start at' t) {r : Option (ℕ × ℤ)}
    {stream' : S} (hread : LogSource.zeroCopyReadNext t.1.stream (start + t.2) = (r, stream')) :
    t.1.next = (r, ⟨stream', r.elim t.1.byteCount fun region ↦ t.1.byteCount + region.2⟩) := by
  have hle := ht.le
  have havail := h.available_lt
  have hcast : CInt.toUnsigned 64 t.1.byteCount = start + t.2 := by
    rw [ht.count_eq]
    exact CInt.toUnsigned_natCast (by omega)
  simp only [next, hcast, hread]

theorem next_end (asserts : Bool) (h : Readable log start) (hreads : ReadsLog log start at')
    (ht : At log start at' t) (hend : start + t.2 = log.available) :
    t.1.next.1 = none ∧ At log start at' (step asserts t .next).1 := by
  have hstream := ht.stream
  rw [hend] at hstream
  obtain ⟨stream', hread, hstream'⟩ := hreads.finish hstream
  rw [← hend] at hread hstream'
  have hnext := next_of_read h ht hread
  refine ⟨by rw [hnext], ?_⟩
  simp only [step, hnext, Option.elim_none, Nat.add_zero]
  exact ⟨hstream', ht.count_eq, ht.le⟩

theorem next_rest (asserts : Bool) (h : Readable log start) (hreads : ReadsLog log start at')
    (ht : At log start at' t) (hlt : start + t.2 < log.available) :
    t.1.next.1 = some (start + t.2, restOfPage log (start + t.2)) ∧
      (0 < restOfPage log (start + t.2) →
        start + t.2 + restOfPage log (start + t.2) ≤ log.available →
          At log start at' (step asserts t .next).1) := by
  obtain ⟨stream', hread, hstream'⟩ := hreads.next ht.stream (Nat.le_add_right _ _) hlt
  have hnext := next_of_read h ht hread
  refine ⟨by rw [hnext], ?_⟩
  obtain ⟨rest, hrest⟩ : ∃ rest, rest = restOfPage log (start + t.2) := ⟨_, rfl⟩
  rw [← hrest] at hstream' hnext ⊢
  intro hpos hend
  have hstream := hstream' hpos hend
  rw [Nat.add_assoc] at hstream
  simp only [step, hnext, Option.elim_some]
  refine ⟨hstream, ?_, ?_⟩
  · simp only [ht.count_eq]
    omega
  · simp only
    omega

theorem At.step (h : Readable log start) (hreads : ReadsLog log start at')
    (ht : At log start at' t) (hcontract : InContract t call) (hin : InPages log start t call) :
    At log start at' (step asserts t call).1 := by
  cases call with
  | next =>
    rcases hin with hend | ⟨hpos, hend⟩
    · exact (next_end asserts h hreads ht hend).2
    · exact (next_rest asserts h hreads ht (by omega)).2 hpos hend
  | backUp count => exact (backUp_eq asserts hreads ht hcontract).2
  | skip count => exact skip_eq hreads ht hin

/-- The bytes of a region are the next ones of the log exactly if the region ends with the log. -/
theorem region_iff (h : Readable log start) {pos : ℕ} {size : ℤ} :
    (∃ chunk, log.file.read PagedLog.systemPage (start + pos) size.toNat = some chunk ∧
      chunk ≠ [] ∧ chunk <+: (contents log start).drop pos) ↔
      0 < size ∧ (start + pos : ℕ) + size ≤ log.available := by
  have hle := h.le_size
  have hstart := h.start_le
  constructor
  · rintro ⟨chunk, hread, hne, hprefix⟩
    obtain rfl := MappedFile.eq_of_read hread
    have hlen := hprefix.length_le
    rw [← List.length_pos_iff, length_load] at hne
    rw [length_load, List.length_drop, contents, length_load] at hlen
    omega
  · rintro ⟨hpos, hend⟩
    have hdrop : (contents log start).drop pos
        = load log.file.data (start + pos) (log.available - start - pos) := by
      rw [contents, drop_load _ (by omega)]
    refine ⟨_, MappedFile.read_eq (by decide) (by omega), ?_, ?_⟩
    · rw [← List.length_pos_iff, length_load]
      omega
    · rw [hdrop, ← take_load log.file.data
        (by omega : size.toNat ≤ log.available - start - pos)]
      exact List.take_prefix _ _

/-- **A call gives the log** exactly if it stays in its pages. -/
theorem yields_iff (h : Readable log start) (hreads : ReadsLog log start at')
    (ht : At log start at' t) (hcontract : InContract t call) :
    Yields log start asserts t call ↔ InPages log start t call := by
  cases call with
  | next =>
    rw [Yields, InPages]
    rcases Nat.eq_or_lt_of_le ht.le with hend | hlt
    · obtain ⟨hnext, ht'⟩ := next_end asserts h hreads ht hend
      rw [hnext]
      exact iff_of_true ⟨hend, ht'.tracks hreads⟩ (Or.inl hend)
    · obtain ⟨hnext, ht'⟩ := next_rest asserts h hreads ht hlt
      rw [hnext]
      simp only
      rw [region_iff h]
      constructor
      · rintro ⟨hin, -⟩
        exact Or.inr (by exact_mod_cast hin)
      · rintro (hend | ⟨hpos, hend⟩)
        · exact absurd hend (Nat.ne_of_lt hlt)
        · exact ⟨⟨hpos, by exact_mod_cast hend⟩, (ht' hpos hend).tracks hreads⟩
  | backUp count =>
    obtain ⟨hsome, ht'⟩ := backUp_eq asserts hreads ht hcontract
    exact iff_of_true ⟨hsome, ht'.tracks hreads⟩ trivial
  | skip count =>
    constructor
    · rintro ⟨hskip, -⟩
      exact hskip.mp rfl
    · intro hin
      exact ⟨⟨fun _ ↦ hin, fun _ ↦ rfl⟩,
        fun _ ↦ (skip_eq hreads ht hin).tracks hreads⟩

/-- A run gives the log exactly if it stays in its pages. -/
theorem run_of_reads (h : Readable log start) (hreads : ReadsLog log start at') {stream : S}
    (hstream : at' stream start) (hint : start < 2 ^ 31) {calls : List Call}
    (hcontract : Run.Steps (step asserts) InContract (new stream start, 0) calls) :
    Run.Steps (step asserts) (Yields log start asserts) (new stream start, 0) calls ↔
      Run.Steps (step asserts) (InPages log start) (new stream start, 0) calls := by
  have hcount : CInt.toInt (start : ℕ) = start := CInt.toInt_of_mem (by omega) (by omega)
  have hnew : At log start at' (new stream start, 0) := by
    refine ⟨?_, ?_, ?_⟩
    · rwa [Nat.add_zero]
    · rw [new, hcount, Nat.add_zero]
    · rw [Nat.add_zero]
      exact h.start_le
  exact Run.steps_iff_of_steps (P := At log start at')
    (fun _ _ ht hok hpages ↦ At.step h hreads ht hok hpages)
    (fun _ _ ht hok ↦ yields_iff h hreads ht hok) hnew hcontract

/-- **The adapter gives the log** exactly if it is not asked for a last page that is not full and
not told to skip more than is left, over the log and over a stream with a cursor. -/
theorem run_yields_iff (log : PagedLog C cacheSize) (start : ℕ) (h : Readable log start)
    (hint : start < 2 ^ 31) (asserts : Bool) (calls : List Call) :
    (Run.Steps (step asserts) InContract (new log start, 0) calls →
      (Run.Steps (step asserts) (Yields log start asserts) (new log start, 0) calls ↔
        Run.Steps (step asserts) (InPages log start) (new log start, 0) calls)) ∧
    (Run.Steps (step asserts) InContract (new (PositionedLog.mk log start) start, 0) calls →
      (Run.Steps (step asserts) (Yields log start asserts)
          (new (PositionedLog.mk log start) start, 0) calls ↔
        Run.Steps (step asserts) (InPages log start) (new (PositionedLog.mk log start) start, 0)
          calls)) := by
  have hlog : SamePages log log := ⟨log.cache, rfl, h.sound, fun _ ↦ Iff.rfl⟩
  exact ⟨run_of_reads h (readsLog h) hlog hint,
    run_of_reads h (readsLog_positioned h) ⟨hlog, rfl, h.start_le⟩ hint⟩

end Runs

/-! ## Logs that can be read -/

theorem readable_of_flat {log : PagedLog (LRUCache cacheSize) cacheSize} {flat : FlatLog}
    (h : log.Flat flat) (hstart : start ≤ log.available) (hlt : log.available < 2 ^ 63)
    (hpages : log.available ≤ 2 ^ 32 * log.pageSize) : Readable log start :=
  ⟨hstart, hlt, hpages, h.writable.available_le, h.sound, fun _ _ _ ↦ trivial⟩

instance (t : LogInput S × ℕ) : (call : Call) → Decidable (InContract t call)
  | .next => .isTrue trivial
  | .skip _ => .isTrue trivial
  | .backUp count => inferInstanceAs (Decidable (count ≤ t.2))

instance (log : PagedLog C cacheSize) (start : ℕ) (t : LogInput S × ℕ) :
    (call : Call) → Decidable (InPages log start t call)
  | .next => inferInstanceAs (Decidable (_ ∨ _))
  | .backUp _ => .isTrue trivial
  | .skip count => inferInstanceAs (Decidable (start + t.2 + count ≤ log.available))

/-- Two full pages are read from the third byte on, with five bytes given back and two skipped. -/
theorem run_yields_pages :
    Run.Steps (step true) (Yields (PagedLog.ofFile 4 16 (by decide)
        (MappedFile.ofList (List.replicate 32 7))) 3 true)
      (new (PositionedLog.mk (PagedLog.ofFile 4 16 (by decide)
        (MappedFile.ofList (List.replicate 32 7))) 3) 3, 0)
      [.next, .backUp 5, .skip 2, .next, .next, .next] := by
  have hflat : (PagedLog.ofFile 4 16 (by decide) (MappedFile.ofList (List.replicate 32 7))).Flat
      (FlatLog.ofFile (MappedFile.ofList (List.replicate 32 7))) :=
    PagedLog.flat_ofFile (by decide) (by decide)
  refine ((run_yields_iff _ 3 (readable_of_flat hflat ?_ ?_ ?_) (by decide) true _).2 ?_).mpr ?_
  · decide
  · decide
  · decide
  · decide +kernel
  · decide +kernel

/-- Behind three bytes the rest of their page is handed out. -/
theorem not_yields_of_padding :
    ¬∀ (cacheSize pageSize : ℕ) (hpage : 0 < pageSize) (l : List UInt8) (start : ℕ)
      (calls : List Call),
      start ≤ l.length → Run.Steps (step true) InContract
        (new ((PagedLog.openAt cacheSize pageSize hpage 0 MappedFile.empty).push l).2 start, 0)
        calls →
      Run.Steps (step true)
        (Yields ((PagedLog.openAt cacheSize pageSize hpage 0 MappedFile.empty).push l).2 start true)
        (new ((PagedLog.openAt cacheSize pageSize hpage 0 MappedFile.empty).push l).2 start, 0)
        calls := by
  intro h
  obtain ⟨⟨hnext, -⟩, -⟩ := h 4 16 (by decide) [1, 2, 3] 0 [.next] (by decide) ⟨trivial, trivial⟩
  obtain ⟨chunk, hread, -, hprefix⟩ := hnext
  obtain rfl := MappedFile.eq_of_read hread
  have hlen := hprefix.length_le
  rw [length_load] at hlen
  exact absurd hlen (by decide +kernel)

end LogInput

end Coypu
