import Coypu.Store.FlatLog
import Coypu.Store.PositionedLog
import Coypu.Store.ReadBounds

/-!
# A cursor and the end of its stream

`PositionedStream` checks against the end of its stream in `Skip`, and leaves it to the log below in
`Pop`, `Writev` and `ZeroCopyReadNext`. The log reads up to the end of its last page. So these three
can move the cursor behind the end, and `Available` then wraps.

The pages that the log keeps decide which calls do (`Bounded`). Page numbers are taken to fit in 32
bits.
-/

set_option autoImplicit false

namespace Coypu

open FlatMemory LawfulReadCache Transport

/-! ## What the log offers to a `Writev` -/

theorem OneShotCache.peakPage_of_not_kept {c : OneShotCache} {pageSize offset : ℕ}
    (h : c.Sound pageSize) (hnot : ¬OneShotCache.Kept pageSize c (offset / pageSize)) :
    (c.peakPage offset).1 = none := by
  have hall : ∀ page ∈ c.pages,
      ¬decide (page.key ≤ offset ∧ offset < page.key + c.pageSize) = true := by
    intro page hmem
    obtain ⟨first, next, -, hholding⟩ := h.exists_holding
    have hsize : c.pageSize = pageSize := by rw [hholding]; rfl
    have hpages : page ∈ run pageSize first next := by rwa [hholding] at hmem
    obtain ⟨k, -, -, rfl⟩ := mem_run.mp hpages
    rw [decide_eq_true_iff, h.key_eq hmem, hsize]
    rintro ⟨hle, hlt⟩
    have hk : offset / pageSize = k :=
      Nat.div_eq_of_lt_le hle (by rwa [Nat.succ_mul])
    exact hnot (by rwa [hk])
  rw [peakPage, List.find?_eq_none.mpr hall]
  rfl

namespace PagedLog

variable {C : Type*} {cacheSize : ℕ} {s : PagedLog C cacheSize}

/-- The numbers of the pages fit in 32 bits, and offsets in an `off64_t`. -/
structure NumbersSmall (s : PagedLog C cacheSize) : Prop where
  pages_lt : s.available / s.pageSize + 1 < 2 ^ 32
  available_lt : s.available < 2 ^ 63

instance (s : PagedLog C cacheSize) : Decidable s.NumbersSmall :=
  decidable_of_iff (s.available / s.pageSize + 1 < 2 ^ 32 ∧ s.available < 2 ^ 63)
    ⟨fun h ↦ ⟨h.1, h.2⟩, fun h ↦ ⟨h.1, h.2⟩⟩

namespace NumbersSmall

theorem lt (hs : s.NumbersSmall) : s.available < 2 ^ 32 * s.pageSize :=
  (Nat.div_lt_iff_lt_mul s.writeBuf.pageSize_pos).mp (Nat.lt_of_succ_lt hs.pages_lt)

theorem page_eq (hs : s.NumbersSmall) : s.page s.available = s.available / s.pageSize :=
  PagedLog.page_eq hs.lt

theorem last_lt (hs : s.NumbersSmall) : s.page s.available + 1 < 2 ^ 32 := by
  rw [hs.page_eq]
  exact hs.pages_lt

end NumbersSmall

/-- The lengths of the segments for a range, up to the end of the last page. -/
def offered (s : PagedLog C cacheSize) (start size : ℕ) : List ℕ :=
  FlatLog.pieces s.pageSize cacheSize start
    (min size ((s.available / s.pageSize + 1) * s.pageSize - start))

variable [ReadCache C] [LawfulReadCache C]

/-- The pages of a range are kept. -/
def KeepsRange (s : PagedLog C cacheSize) (c : C) (start size : ℕ) : Prop :=
  ∀ o, start ≤ o → o < start + size → Kept s.pageSize c (o / s.pageSize)

theorem keepsRange_zero (c : C) (start : ℕ) : s.KeepsRange c start 0 :=
  fun _ h₁ h₂ ↦ absurd h₁ (Nat.not_le_of_lt h₂)

/-- A range that begins in page `i` and does not go behind it, and what follows. -/
theorem keepsRange_add {c c' : C} {start len size i : ℕ} (hi : start / s.pageSize = i)
    (hpos : 0 < len) (hlen : start + len ≤ (i + 1) * s.pageSize)
    (hsame : ∀ k, i ≤ k → (Kept s.pageSize c' k ↔ Kept s.pageSize c k)) :
    s.KeepsRange c start (len + size) ↔
      Kept s.pageSize c i ∧ s.KeepsRange c' (start + len) size := by
  have hpage := s.pageSize_pos
  constructor
  · intro h
    constructor
    · rw [← hi]
      exact h start (Nat.le_refl _) (by omega)
    · intro o h₁ h₂
      rw [hsame _ (by rw [← hi]; exact Nat.div_le_div_right (by omega))]
      exact h o (by omega) (by omega)
  · rintro ⟨hfirst, hrest⟩ o h₁ h₂
    have hle : i ≤ o / s.pageSize := by
      rw [← hi]
      exact Nat.div_le_div_right h₁
    rcases Nat.lt_or_ge o (start + len) with hlt | hge
    · have hlt' := (Nat.div_lt_iff_lt_mul hpage).mpr (Nat.lt_of_lt_of_le hlt hlen)
      rwa [Nat.le_antisymm (Nat.le_of_lt_succ hlt') hle]
    · exact (hsame _ hle).mp (hrest o hge (by omega))

omit [ReadCache C] [LawfulReadCache C] in
/-- The segment that a round of `Writev` queues stays in its page, and if more is asked for, ends
with it. -/
theorem exists_segment {start size stop i queued : ℕ}
    (hstop : stop = min size ((s.available / s.pageSize + 1) * s.pageSize - start))
    (hi : i = (start + queued) / s.pageSize) (hmore : queued < stop) :
    ∃ len, len = min (stop - queued) (s.pageSize - (start + queued) % s.pageSize) ∧
      min (size - queued) (s.pageSize - (start + queued) % s.pageSize) = len ∧ 0 < len ∧
      i ≤ s.available / s.pageSize ∧ start + queued + len ≤ (i + 1) * s.pageSize ∧
      (queued + len < size → i + 1 = (start + (queued + len)) / s.pageSize) := by
  have hpos := s.pageSize_pos
  have hlt : start + queued < (s.available / s.pageSize + 1) * s.pageSize := by omega
  have hpage : i ≤ s.available / s.pageSize := by
    rw [hi]
    exact Nat.le_of_lt_succ ((Nat.div_lt_iff_lt_mul hpos).mpr hlt)
  have hmod := Nat.div_add_mod' (start + queued) s.pageSize
  have hoff := Nat.mod_lt (start + queued) hpos
  have hnext := Nat.mul_le_mul_right s.pageSize (Nat.add_le_add_right hpage 1)
  rw [← hi] at hmod
  rw [Nat.add_one_mul i] at hnext
  refine ⟨_, rfl, by omega, by omega, hpage, by rw [Nat.add_one_mul]; omega, fun hmore' ↦ ?_⟩
  have hmul : start + (queued + min (stop - queued) (s.pageSize - (start + queued) % s.pageSize)) =
      (i + 1) * s.pageSize := by
    rw [Nat.add_one_mul]
    omega
  rw [hmul, Nat.mul_div_cancel _ hpos]

/-- The loop of `Writev`, whose next page is that of the next byte: it ends with a segment for each
page, or at one that is not kept. The induction is on the slots left. -/
theorem writevLoop_cases (hs : s.NumbersSmall) {start size stop slots i queued : ℕ} {c : C}
    {lens : List ℕ}
    (hstop : stop = min size ((s.available / s.pageSize + 1) * s.pageSize - start))
    (hc : Sound s.pageSize c) (hi : queued < size → i = (start + queued) / s.pageSize)
    (hlens : lens = FlatLog.pieces s.pageSize slots (start + queued) (stop - queued)) :
    (s.KeepsRange c (start + queued) lens.sum ∧
      ∃ v, (s.writevLoop start size slots i queued c).1 = some v ∧ v.map Region.len = lens) ∨
    (¬s.KeepsRange c (start + queued) lens.sum ∧
      (s.writevLoop start size slots i queued c).1 = none) := by
  subst hlens
  induction slots generalizing i queued c with
  | zero => exact Or.inl ⟨keepsRange_zero _ _, [], rfl, rfl⟩
  | succ slots ih =>
    have hpos := s.pageSize_pos
    by_cases hmore : queued < stop
    · have hsize : queued < size := by omega
      obtain ⟨len, hlen, hlen', hlenpos, hpage, hend, hi'⟩ := exists_segment hstop (hi hsize) hmore
      have hpage' : i ≤ s.page s.available := by rwa [hs.page_eq]
      have hsucc : CInt.toUnsigned 32 (i + 1 : ℕ) = i + 1 :=
        CInt.toUnsigned_natCast (Nat.lt_of_le_of_lt (Nat.succ_le_succ hpage) hs.pages_lt)
      have hpieces : FlatLog.pieces s.pageSize (slots + 1) (start + queued) (stop - queued)
          = len :: FlatLog.pieces s.pageSize slots (start + (queued + len))
            (stop - (queued + len)) := by
        rw [FlatLog.pieces, if_neg (by omega)]
        simp only [← hlen]
        rw [Nat.add_assoc, Nat.sub_sub]
      have hrange : s.KeepsRange c (start + queued) (len + (FlatLog.pieces s.pageSize slots
          (start + (queued + len)) (stop - (queued + len))).sum) ↔ _ :=
        keepsRange_add (hi hsize).symm hlenpos hend fun k hk ↦ kept_findPage_iff hc hk
      rw [hpieces, List.sum_cons, hrange, writevLoop, if_pos ⟨hsize, hpage'⟩]
      simp only [hlen']
      by_cases hkept : Kept s.pageSize c i
      · rw [and_iff_right hkept, findPage_first hc hpage' hkept, hsucc]
        simp only
        rcases ih (findPage_sound hpos hc (i * s.pageSize)) hi' with
          ⟨hall, v, hloop, hv⟩ | ⟨hnot, hloop⟩
        · rw [hloop, Nat.add_assoc]
          exact Or.inl ⟨hall, _, rfl, by rw [List.map_cons, hv]⟩
        · rw [hloop, Nat.add_assoc]
          exact Or.inr ⟨hnot, rfl⟩
      · right
        have hfirst : (ReadCache.findPage c (i * s.pageSize)).1 = none := by
          apply findPage_of_not_kept hpos hc
          rwa [Nat.mul_div_cancel _ hpos]
        rw [hfirst]
        exact ⟨fun h ↦ hkept h.1, rfl⟩
    · have hnone : stop - queued = 0 := by omega
      have hcond : ¬(queued < size ∧ i ≤ s.page s.available) := by
        rintro ⟨hsize, hpage⟩
        rw [hs.page_eq, hi hsize] at hpage
        have hlt := (Nat.div_lt_iff_lt_mul hpos).mp (Nat.lt_succ_of_le hpage)
        rw [Nat.succ_eq_add_one] at hlt
        omega
      rw [writevLoop, if_neg hcond, hnone]
      exact Or.inl ⟨keepsRange_zero _ _, [], rfl, rfl⟩

/-- **What a `Writev` returns**: what its callback does with the segments, or -2 where a page of
them is not kept. -/
theorem writev_fst (hs : s.NumbersSmall) (hc : Sound s.pageSize s.cache) {start : ℕ}
    (hstart : start ≤ s.available) (size : ℕ) (cb : Writer) :
    (s.KeepsRange s.cache start (s.offered start size).sum →
      (s.writev start size cb).1 = cb.run (s.offered start size)) ∧
    (¬s.KeepsRange s.cache start (s.offered start size).sum → (s.writev start size cb).1 = -2) := by
  have hlens : s.offered start size = FlatLog.pieces s.pageSize cacheSize (start + 0)
      (min (min size (cacheSize * s.pageSize))
        ((s.available / s.pageSize + 1) * s.pageSize - start) - 0) := by
    rw [Nat.add_zero, Nat.sub_zero, Nat.min_right_comm,
      FlatLog.pieces_min s.pageSize_pos (Nat.le_refl _)]
    rfl
  have hpage : s.page start = (start + 0) / s.pageSize :=
    PagedLog.page_eq (Nat.lt_of_le_of_lt hstart hs.lt)
  rcases writevLoop_cases hs rfl hc (fun _ ↦ hpage) hlens with ⟨hall, v, hloop, hv⟩ | ⟨hnot, hloop⟩
  · rw [Nat.add_zero] at hall
    exact ⟨fun _ ↦ by simp only [writev, hloop, hv], fun h ↦ absurd hall h⟩
  · rw [Nat.add_zero] at hnot
    exact ⟨fun h ↦ absurd h hnot, fun _ ↦ by simp only [writev, hloop]⟩

end PagedLog

/-! ## Calls -/

/-- What a stream is asked to do. Of the region at the cursor so many bytes are consumed, and the
others are given back. -/
inductive CursorOp where
  | push (l : List UInt8)
  | readv (cb : Reader UInt8)
  | pop (size : ℕ)
  | skip (size : ℕ)
  | backup (size : ℕ)
  | writev (size : ℕ) (cb : Writer)
  | resetPosition
  | readNext (consumed : ℕ)

namespace PositionedLog

variable {C : Type*} {cacheSize : ℕ}

section Functions

variable [ReadCache C] (s : PositionedLog C cacheSize)

/-- The constructor: the cursor is at the end. -/
def ofLog (log : PagedLog C cacheSize) : PositionedLog C cacheSize := ⟨log, log.available⟩

/-- `Writev` at the cursor, which moves over what was written. -/
def writev (size : ℕ) (cb : Writer) : ℤ × PositionedLog C cacheSize :=
  let r := s.log.writev s.curOffset size cb
  (r.1, ⟨r.2.2, if 0 < r.1 then s.curOffset + r.1.toNat else s.curOffset⟩)

def resetPosition : PositionedLog C cacheSize := { s with curOffset := s.log.available }

/-- `ZeroCopyReadNext` at the cursor, and `Backup` of what is not consumed of the region. -/
def readNext (consumed : ℕ) : PositionedLog C cacheSize :=
  match s.zeroCopyReadNext s.curOffset with
  | (none, s') => s'
  | (some (_, size), s') => (s'.backup (size.toNat - consumed)).2

/-- A call. There is no state after one that does not return. -/
def step (s : PositionedLog C cacheSize) : CursorOp → PositionedLog C cacheSize × Unit
  | .push l => ((s.push l).2, ())
  | .readv cb => ((s.readv cb).2, ())
  | .pop size => ((s.pop size).elim s Prod.snd, ())
  | .skip size => ((s.skip size).2, ())
  | .backup size => ((s.backup size).2, ())
  | .writev size cb => ((s.writev size cb).2, ())
  | .resetPosition => (s.resetPosition, ())
  | .readNext consumed => (s.readNext consumed, ())

end Functions

variable (s : PositionedLog C cacheSize)

/-- The cursor is at the end of the stream at most. -/
def InBounds : Prop := s.curOffset ≤ s.log.available

/-- The length of the rest of the page at the cursor, as an `int`. -/
def restOfPage : ℤ := CInt.toInt (s.log.pageSize - s.curOffset % s.log.pageSize : ℕ)

/-- What is read of the pages ends with the stream. A `Pop` asks for no more than is available, or
the pages do not hold as much; a callback takes no more than is available of what is offered to it;
no more is consumed of a region. -/
def Bounded [ReadCache C] [LawfulReadCache C] (s : PositionedLog C cacheSize) : CursorOp → Prop
  | .pop size =>
    s.curOffset + size ≤ s.log.available ∨ ¬s.log.PagesHold s.curOffset size
  | .writev size cb =>
    s.log.KeepsRange s.log.cache s.curOffset (s.log.offered s.curOffset size).sum →
      s.curOffset + cb.run (s.log.offered s.curOffset size) ≤ s.log.available
  | .readNext consumed =>
    s.curOffset < s.log.available →
      Kept s.log.pageSize s.log.cache (s.curOffset / s.log.pageSize) →
        0 ≤ s.curOffset + s.restOfPage ∧
          s.curOffset + min (consumed : ℤ) s.restOfPage ≤ s.log.available
  | _ => True

variable {s}

theorem InBounds.available_eq (h : s.InBounds) (hlt : s.log.available < 2 ^ 64) :
    s.available = s.log.available - s.curOffset := by
  rw [InBounds] at h
  rw [PositionedLog.available, CInt.toUnsigned_of_mem (by omega) (by omega)]
  omega

/-- The count wraps exactly if the cursor passes the end. -/
theorem inBounds_iff (hlog : s.log.available < 2 ^ 64) (hcur : s.curOffset < 2 ^ 64) :
    s.InBounds ↔ s.available ≤ s.log.available := by
  constructor
  · intro h
    rw [h.available_eq hlog]
    exact Nat.sub_le _ _
  · intro h
    rw [PositionedLog.available, CInt.toUnsigned] at h
    rw [InBounds]
    omega

theorem inBounds_backup_iff {log : PagedLog C cacheSize} {start consumed : ℕ} {rest : ℤ}
    (hstart : start < log.available) (hlog : log.available < 2 ^ 63) (hge : -2 ^ 31 ≤ rest)
    (hlt : rest < 2 ^ 31) {cur : ℕ} (hcur : cur = CInt.toUnsigned 64 (start + rest)) :
    ((PositionedLog.mk log cur).backup (rest.toNat - consumed)).2.InBounds ↔
      0 ≤ start + rest ∧ start + min (consumed : ℤ) rest ≤ log.available := by
  by_cases hneg : 0 ≤ start + rest
  · rw [CInt.toUnsigned_of_mem hneg (by omega)] at hcur
    rw [backup, if_pos (by simp only; omega), InBounds]
    simp only
    omega
  · -- the cursor wraps, and nothing of the region is given back
    have hwrap : (CInt.toUnsigned 64 (start + rest) : ℤ) = _ :=
      CInt.toUnsigned_of_neg (by omega) (by omega)
    rw [← hcur] at hwrap
    rw [backup, if_pos (by simp only; omega), InBounds]
    simp only
    omega

section Steps

variable [ReadCache C] [LawfulReadCache C]

theorem inBounds_pop_iff (h : s.InBounds) (hs : s.log.NumbersSmall)
    (hc : Sound s.log.pageSize s.log.cache) (size : ℕ) :
    (s.step (.pop size)).1.InBounds ↔ s.Bounded (.pop size) := by
  have hserves : (∃ l s', s.log.pop s.curOffset size = some (some l, s')) ↔ _ :=
    PagedLog.pop_succeeds_iff hc hs.last_lt
  rw [step, pop, Bounded, ← hserves]
  cases hpop : s.log.pop s.curOffset size with
  | none =>
    refine ⟨fun _ ↦ Or.inr ?_, fun _ ↦ h⟩
    rintro ⟨l, s', hsome⟩
    exact absurd hsome (by simp)
  | some r =>
    obtain ⟨r, log⟩ := r
    obtain ⟨c, rfl, -⟩ := PagedLog.pop_induction (P := fun _ ↦ True)
      (fun _ _ _ _ ↦ trivial) trivial hpop
    cases r with
    | none =>
      refine ⟨fun _ ↦ Or.inr ?_, fun _ ↦ h⟩
      rintro ⟨l, s', hsome⟩
      exact absurd (Option.some.inj hsome) (by simp)
    | some l =>
      refine ⟨fun hin ↦ Or.inl hin, fun hor ↦ ?_⟩
      exact hor.resolve_right fun hnot ↦ hnot ⟨l, _, rfl⟩

theorem inBounds_writev_iff (h : s.InBounds) (hs : s.log.NumbersSmall)
    (hc : Sound s.log.pageSize s.log.cache) (size : ℕ) (cb : Writer) :
    (s.step (.writev size cb)).1.InBounds ↔ s.Bounded (.writev size cb) := by
  obtain ⟨hall, hnot⟩ := PagedLog.writev_fst hs hc h size cb
  have havail : (s.step (.writev size cb)).1.log.available = s.log.available := by
    obtain ⟨c, hlog, -⟩ := PagedLog.writev_induction (s := s.log) (P := fun _ ↦ True) s.curOffset
      size cb (fun _ _ _ _ ↦ trivial) trivial
    simp only [step, writev, hlog]
  have hcur : (s.step (.writev size cb)).1.curOffset = if 0 < (s.log.writev s.curOffset size cb).1
      then s.curOffset + (s.log.writev s.curOffset size cb).1.toNat else s.curOffset := rfl
  rw [InBounds] at h
  rw [InBounds, havail, hcur, Bounded]
  by_cases hkept : s.log.KeepsRange s.log.cache s.curOffset (s.log.offered s.curOffset size).sum
  · rw [hall hkept, imp_iff_right hkept]
    split_ifs <;> omega
  · rw [hnot hkept]
    exact ⟨fun _ hkept' ↦ absurd hkept' hkept, fun _ ↦ h⟩

theorem zeroCopyReadNext_cases (hs : s.log.NumbersSmall) (hc : Sound s.log.pageSize s.log.cache)
    (hpeak : ¬Kept s.log.pageSize s.log.cache (s.curOffset / s.log.pageSize) →
      (ReadCache.peakPage s.log.cache s.curOffset).1 = none) {rest : ℤ}
    (hrest : rest = s.restOfPage) :
    ∃ log : PagedLog C cacheSize, log.available = s.log.available ∧
      ((s.curOffset < s.log.available ∧
          Kept s.log.pageSize s.log.cache (s.curOffset / s.log.pageSize) ∧
          s.zeroCopyReadNext s.curOffset
            = (some (s.curOffset, rest), ⟨log, CInt.toUnsigned 64 (s.curOffset + rest)⟩)) ∨
        (¬(s.curOffset < s.log.available ∧
            Kept s.log.pageSize s.log.cache (s.curOffset / s.log.pageSize)) ∧
          s.zeroCopyReadNext s.curOffset = (none, ⟨log, s.curOffset⟩))) := by
  have hpos := s.log.pageSize_pos
  refine ⟨{ s.log with cache := (ReadCache.peakPage s.log.cache s.curOffset).2 }, rfl, ?_⟩
  rw [zeroCopyReadNext, PagedLog.zeroCopyReadNext]
  by_cases hkept : Kept s.log.pageSize s.log.cache (s.curOffset / s.log.pageSize)
  · by_cases hlt : s.curOffset < s.log.available
    · have hbase : (ReadCache.peakPage s.log.cache s.curOffset).1
          = some (s.curOffset / s.log.pageSize * s.log.pageSize) :=
        peakPage_of_kept hpos hc (Nat.lt_trans hlt hs.lt) hkept
      have hdiv := Nat.div_mul_le_self s.curOffset s.log.pageSize
      have hend := Nat.lt_div_mul_add hpos (a := s.curOffset)
      have hmod := Nat.div_add_mod' s.curOffset s.log.pageSize
      have hoff : s.curOffset - s.curOffset / s.log.pageSize * s.log.pageSize
          = s.curOffset % s.log.pageSize := by omega
      refine Or.inl ⟨hlt, hkept, ?_⟩
      rw [hbase]
      simp only
      rw [if_neg (Nat.not_le_of_lt hlt), if_pos ⟨hdiv, Nat.le_of_lt hend⟩]
      simp only
      rw [hoff, hrest]
      rfl
    · refine Or.inr ⟨fun h ↦ hlt h.1, ?_⟩
      cases (ReadCache.peakPage s.log.cache s.curOffset).1 with
      | none => rfl
      | some base =>
        simp only
        rw [if_pos (Nat.le_of_not_lt hlt)]
  · refine Or.inr ⟨fun h ↦ hkept h.2, ?_⟩
    rw [hpeak hkept]

theorem inBounds_readNext_iff (h : s.InBounds) (hs : s.log.NumbersSmall)
    (hc : Sound s.log.pageSize s.log.cache)
    (hpeak : ¬Kept s.log.pageSize s.log.cache (s.curOffset / s.log.pageSize) →
      (ReadCache.peakPage s.log.cache s.curOffset).1 = none) (consumed : ℕ) :
    (s.step (.readNext consumed)).1.InBounds ↔ s.Bounded (.readNext consumed) := by
  have hge := CInt.le_toInt (s.log.pageSize - s.curOffset % s.log.pageSize : ℕ)
  have hle := CInt.toInt_lt (s.log.pageSize - s.curOffset % s.log.pageSize : ℕ)
  obtain ⟨rest, hrest⟩ : ∃ rest, rest = s.restOfPage := ⟨_, rfl⟩
  rw [step, readNext, Bounded, ← hrest]
  obtain ⟨log, havail, ⟨hlt, hkept, hread⟩ | ⟨hnot, hread⟩⟩ :=
    zeroCopyReadNext_cases hs hc hpeak hrest
  · obtain ⟨cur, hcur⟩ : ∃ cur, cur = CInt.toUnsigned 64 (s.curOffset + rest) := ⟨_, rfl⟩
    rw [← hcur] at hread
    rw [hread, imp_iff_right hlt, imp_iff_right hkept, ← havail]
    rw [← havail] at hlt
    exact inBounds_backup_iff hlt (by rw [havail]; exact hs.available_lt)
      (by rw [hrest]; exact hge) (by rw [hrest]; exact hle) hcur
  · rw [hread]
    refine ⟨fun _ hlt hkept ↦ absurd ⟨hlt, hkept⟩ hnot, fun _ ↦ ?_⟩
    rw [InBounds, havail]
    exact h

/-- **One call**: the cursor stays in bounds exactly if the call is bounded. -/
theorem inBounds_step_iff (h : s.InBounds) (hs : s.log.NumbersSmall)
    (hc : Sound s.log.pageSize s.log.cache)
    (hpeak : ¬Kept s.log.pageSize s.log.cache (s.curOffset / s.log.pageSize) →
      (ReadCache.peakPage s.log.cache s.curOffset).1 = none) (op : CursorOp) :
    (s.step op).1.InBounds ↔ s.Bounded op := by
  have hcur := h
  rw [InBounds] at hcur
  cases op with
  | pop size => exact inBounds_pop_iff h hs hc size
  | writev size cb => exact inBounds_writev_iff h hs hc size cb
  | readNext consumed => exact inBounds_readNext_iff h hs hc hpeak consumed
  | push l =>
    refine ⟨fun _ ↦ trivial, fun _ ↦ Nat.le_trans hcur ?_⟩
    simp only [step, push, PagedLog.push]
    split_ifs
    · exact Nat.le_add_right _ _
    · exact Nat.le_refl _
  | readv cb =>
    refine ⟨fun _ ↦ trivial, fun _ ↦ Nat.le_trans hcur ?_⟩
    simp only [step, readv, PagedLog.readv]
    split_ifs
    · exact Nat.le_add_right _ _
    · exact Nat.le_refl _
  | skip size =>
    refine ⟨fun _ ↦ trivial, fun _ ↦ ?_⟩
    have havail := h.available_eq (Nat.lt_trans hs.available_lt (by decide))
    rw [step, skip]
    split_ifs with hle
    · simp only [InBounds]
      omega
    · exact h
  | backup size =>
    refine ⟨fun _ ↦ trivial, fun _ ↦ ?_⟩
    rw [step, backup]
    split_ifs
    · exact Nat.le_trans (Nat.sub_le _ _) hcur
    · exact h
  | resetPosition => exact ⟨fun _ ↦ trivial, fun _ ↦ Nat.le_refl _⟩

end Steps

/-! ## Runs -/

/-- What a call asks of the log, if it is more than a look at a page. -/
def request (s : PositionedLog C cacheSize) : CursorOp → Option LogRequest
  | .push l => some (.push l)
  | .readv cb => some (.readv cb)
  | .pop size => some (.pop s.curOffset size)
  | .writev size cb => some (.writev s.curOffset size cb)
  | .skip _ | .backup _ | .resetPosition | .readNext _ => none

theorem step_log_of_some [ReadCache C] {op : CursorOp} {r : LogRequest}
    (h : s.request op = some r) : (s.step op).1.log = (s.log.step r).1 := by
  cases op with
  | pop size =>
    obtain rfl := Option.some.inj h
    simp only [step, pop, PagedLog.step]
    cases s.log.pop s.curOffset size with
    | none => rfl
    | some r => rfl
  | push | readv | writev =>
    obtain rfl := Option.some.inj h
    rfl
  | skip | backup | resetPosition | readNext => exact absurd h (by simp [request])

theorem backup_log (size : ℕ) : (s.backup size).2.log = s.log := by
  rw [backup]
  split_ifs <;> rfl

theorem step_log_of_none [ReadCache C] {op : CursorOp} (h : s.request op = none) :
    (s.step op).1.log = s.log ∨ (s.step op).1.log
      = { s.log with cache := (ReadCache.peakPage s.log.cache s.curOffset).2 } := by
  cases op with
  | skip size =>
    left
    rw [step, skip]
    split_ifs <;> rfl
  | backup size => exact Or.inl (backup_log size)
  | resetPosition => exact Or.inl rfl
  | readNext consumed =>
    right
    have hlog : (s.zeroCopyReadNext s.curOffset).2.log
        = { s.log with cache := (ReadCache.peakPage s.log.cache s.curOffset).2 } := by
      rw [zeroCopyReadNext]
      cases (s.log.zeroCopyReadNext s.curOffset).1 with
      | none => rfl
      | some region => rfl
    rw [step, readNext]
    rcases hread : s.zeroCopyReadNext s.curOffset with ⟨- | region, s'⟩
    · rw [hread] at hlog
      exact hlog
    · rw [hread] at hlog
      simp only [backup_log]
      exact hlog
  | push | pop | readv | writev => exact absurd h (by simp [request])

theorem throughout_inBounds_iff [ReadCache C] [LawfulReadCache C]
    {P : PositionedLog C cacheSize → Prop} {fits : PositionedLog C cacheSize → CursorOp → Prop}
    (hstep : ∀ s op, P s → fits s op → P (s.step op).1)
    (hsound : ∀ s, P s → Sound s.log.pageSize s.log.cache ∧
      (¬Kept s.log.pageSize s.log.cache (s.curOffset / s.log.pageSize) →
        (ReadCache.peakPage s.log.cache s.curOffset).1 = none))
    (hsmall : ∀ s op, fits s op → s.log.NumbersSmall) (hs : P s) (hin : s.InBounds)
    {ops : List CursorOp} (hfits : Run.Steps step fits s ops) :
    Run.Throughout step InBounds s ops ↔ Run.Steps step Bounded s ops := by
  have hiff (s : PositionedLog C cacheSize) (op : CursorOp) (hs : P s ∧ s.InBounds)
      (hfit : fits s op) : (s.step op).1.InBounds ↔ s.Bounded op := by
    obtain ⟨hc, hpeak⟩ := hsound s hs.1
    exact inBounds_step_iff hs.2 (hsmall s op hfit) hc hpeak op
  rw [Run.throughout_iff_steps hin]
  exact Run.steps_iff_of_steps (P := fun s ↦ P s ∧ s.InBounds)
    (fun s op hs hfit hok ↦ ⟨hstep s op hs.1 hfit, (hiff s op hs hfit).mpr hok⟩) hiff ⟨hs, hin⟩
    hfits

/-- In a stream whose pages come in order, requests keep the order. -/
def InOrder (s : PositionedLog OneShotCache cacheSize) (op : CursorOp) : Prop :=
  s.log.NumbersSmall ∧ ∀ r, s.request op = some r → r.Reads ∨ s.log.StreamFits r

/-- **Where the cursor stays in the stream.** In every run of the stream of a file, and in every run
of a stream that keeps its pages in order, the cursor does not pass the end exactly if each call is
bounded. Page numbers fit in 32 bits. -/
theorem run_inBounds_iff (cacheSize pageSize : ℕ) (hpage : 0 < pageSize) (ops : List CursorOp) :
    (∀ (offset : ℕ) (file : MappedFile),
      Run.Steps step (fun s _ ↦ s.log.NumbersSmall)
        (ofLog (.openAt cacheSize pageSize hpage offset file)) ops →
      (Run.Throughout step InBounds (ofLog (.openAt cacheSize pageSize hpage offset file)) ops ↔
        Run.Steps step Bounded (ofLog (.openAt cacheSize pageSize hpage offset file)) ops)) ∧
    ∀ first : ℕ, Run.Steps step InOrder (ofLog (.ofStream cacheSize pageSize hpage first)) ops →
      (Run.Throughout step InBounds (ofLog (.ofStream cacheSize pageSize hpage first)) ops ↔
        Run.Steps step Bounded (ofLog (.ofStream cacheSize pageSize hpage first)) ops) := by
  constructor
  · intro offset file hfits
    refine throughout_inBounds_iff
      (P := fun s : PositionedLog (LRUCache cacheSize) cacheSize ↦
        s.log.cache.Sound s.log.pageSize)
      (fun s op hs _ ↦ ?_) (fun s hs ↦ ⟨hs, fun hnot ↦ absurd trivial hnot⟩)
      (fun s op hfit ↦ hfit) ?_ (Nat.le_refl _) hfits
    · cases hr : s.request op with
      | some r =>
        rw [step_log_of_some hr, PagedLog.step_pageSize]
        exact PagedLog.step_cache (fun c _ hc ↦ hc) (fun c offset hc ↦ hc.findPage offset)
          (fun c offset hc ↦ hc.findPage offset) hs r
      | none =>
        rcases step_log_of_none hr with hlog | hlog
        · rwa [hlog]
        · rw [hlog]
          exact hs.findPage s.curOffset
    · exact ⟨rfl, by simp [ofLog, PagedLog.openAt, PagedLog.new, LRUCache.new]⟩
  · intro first hfits
    refine throughout_inBounds_iff
      (P := fun s : PositionedLog OneShotCache cacheSize ↦
        Streaming (first * pageSize) (s.log.writeBuf, s.log.cache))
      (fun s op hs hfit ↦ ?_)
      (fun s hs ↦ ⟨hs.sound, OneShotCache.peakPage_of_not_kept hs.sound⟩)
      (fun s op hfit ↦ hfit.1) (PagedLog.streaming_ofStream hpage first) (Nat.le_refl _) hfits
    cases hr : s.request op with
    | some r =>
      rw [step_log_of_some hr]
      exact PagedLog.streaming_step hs (hfit.2 r hr)
    | none =>
      rcases step_log_of_none hr with hlog | hlog
      · rwa [hlog]
      · rw [hlog]
        exact hs

/-- Of ten bytes two are popped, three written and one is consumed in place. -/
theorem run_inBounds_ten :
    Run.Throughout step InBounds (ofLog (.openAt 1 4096 (by decide) 0 MappedFile.empty))
      [.push [1, 2, 3, 4, 5, 6, 7, 8, 9, 10], .pop 2, .writev 8 (.atMost 3 (by decide)),
        .readNext 1, .backup 2, .skip 7, .resetPosition] :=
  ((run_inBounds_iff 1 4096 (by decide) _).1 0 MappedFile.empty (by decide +kernel)).mpr
    ⟨trivial, Or.inl (by decide +kernel), fun _ ↦ by decide +kernel,
      fun _ _ ↦ by decide +kernel, trivial, trivial, trivial, trivial⟩

/-- Of six bytes seven are popped. -/
theorem not_inBounds_of_padding :
    ¬∀ (cacheSize pageSize : ℕ) (hpage : 0 < pageSize) (offset : ℕ) (file : MappedFile)
      (ops : List CursorOp), Run.Throughout step InBounds
        (ofLog (.openAt cacheSize pageSize hpage offset file)) ops := by
  intro h
  have hlast := (h 1 4096 (by decide) 0 MappedFile.empty
    [.push [1, 2, 3, 4, 5, 6], .pop 7]).last
  rw [InBounds] at hlast
  exact absurd hlast (by decide +kernel)

end PositionedLog

end Coypu
