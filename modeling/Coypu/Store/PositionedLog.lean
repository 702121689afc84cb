import Coypu.Store.StreamLog
import Coypu.Store.SeenPages

/-!
# A stream of its own pages

`PositionedStream` over the log of a stream that is read once, with the pages of the log. What was
received and not yet read is ahead of the position (`Ahead`): its pages are kept whatever is read,
since reads never go back, and bytes that arrive go behind it.
-/

set_option autoImplicit false

namespace Coypu

open FlatMemory LogWriteBuf Transport LawfulReadCache

/-! ## Reading on -/

namespace PagedLog

variable {C : Type*} [ReadCache C] [LawfulReadCache C] {cacheSize : ℕ} {s : PagedLog C cacheSize}
  {start size : ℕ}

/-- The loop of `Pop` over pages that are kept. It leaves the pages from the one of the last byte
on. The induction is on the rounds; the next one begins at the first byte of its page. -/
theorem pageLoop_forward (hpages : s.available < 2 ^ 32 * s.pageSize)
    (hend : start + size ≤ s.available)
    (hfile : start + size ≤ s.file.extent systemPage) {fuel i : ℕ} {l : List UInt8} {c : C}
    (hc : Sound s.pageSize c)
    (hkept : ∀ k, i ≤ k → k * s.pageSize < start + size → Kept s.pageSize c k)
    (hlen : l.length < size) (hi : i = (start + l.length) / s.pageSize)
    (hbegin : l.length = 0 ∨ start + l.length = i * s.pageSize) (hfuel : 2 ^ 32 ≤ i + fuel) :
    ∃ c', s.pageLoop (s.popBody start size) none fuel i l c
        = some (some (l ++ load s.file.data (start + l.length) (size - l.length)), c') ∧
      ∀ k, (start + size - 1) / s.pageSize ≤ k →
        (Kept s.pageSize c' k ↔ Kept s.pageSize c k) := by
  have hpos := s.pageSize_pos
  induction fuel generalizing i l c with
  | zero =>
    have hlt : start + l.length < 2 ^ 32 * s.pageSize := by omega
    rw [← Nat.div_lt_iff_lt_mul hpos, ← hi] at hlt
    omega
  | succ fuel ih =>
    have hle : i * s.pageSize ≤ start + l.length := by
      rw [hi]
      exact Nat.div_mul_le_self _ _
    have hlt : start + l.length < i * s.pageSize + s.pageSize := by
      rw [hi]
      exact Nat.lt_div_mul_add hpos
    -- the first page is read from `start` on, and each other one from its beginning
    have hmax : max start (i * s.pageSize) = start + l.length := by omega
    have hpage : i ≤ s.page s.available := by
      rw [page_eq hpages, hi]
      exact Nat.div_le_div_right (by omega)
    have hlast : i ≤ (start + size - 1) / s.pageSize := by
      rw [hi]
      exact Nat.div_le_div_right (by omega)
    have hsame : ∀ k, (start + size - 1) / s.pageSize ≤ k →
        (Kept s.pageSize (ReadCache.findPage c (i * s.pageSize)).2 k ↔ Kept s.pageSize c k) :=
      fun k hk ↦ kept_findPage_iff hc (Nat.le_trans hlast hk)
    obtain ⟨n, hn⟩ : ∃ n, n = min (size - l.length)
      (s.pageSize - (start + l.length - i * s.pageSize)) :=
      ⟨_, rfl⟩
    have hread : s.file.read systemPage (start + l.length) n
        = some (load s.file.data (start + l.length) n) := if_pos (by omega)
    rw [pageLoop_of_kept hc hpage (hkept i (Nat.le_refl i) (by omega)), popBody_eq (by omega), hmax,
      ← hn, hread]
    simp only [Option.map_some, List.length_append, length_load]
    have hwithin : start < i * s.pageSize + s.pageSize := by omega
    rcases copied_cases hn hmax.symm hwithin (Nat.le_of_lt hlen) with
      ⟨hdone, hrest, -⟩ | ⟨hmore, hnext, -⟩
    · rw [if_pos hdone, ← hrest]
      exact ⟨_, rfl, hsame⟩
    · have hsucc : CInt.toUnsigned 32 (i + 1 : ℕ) = i + 1 :=
        CInt.toUnsigned_natCast (Nat.lt_of_mul_lt_mul_right (by omega : (i + 1) * s.pageSize < _))
      rw [if_neg (Nat.ne_of_lt hmore), hsucc]
      obtain ⟨c', hloop, hkept'⟩ := ih (i := i + 1)
        (l := l ++ load s.file.data (start + l.length) n)
        (c := (ReadCache.findPage c (i * s.pageSize)).2) (findPage_sound hpos hc _)
        (fun k h₁ h₂ ↦ (kept_findPage_iff hc (by omega)).mpr (hkept k (by omega) h₂))
        (by simpa using hmore)
        (by rw [List.length_append, length_load, ← Nat.add_assoc, hnext, Nat.mul_div_cancel _ hpos])
        (Or.inr (by rw [List.length_append, length_load, ← Nat.add_assoc, hnext])) (by omega)
      refine ⟨c', ?_, fun k hk ↦ (hkept' k hk).trans (hsame k hk)⟩
      have hsplit : size - l.length = n + (size - (l.length + n)) := by omega
      rw [List.append_assoc, List.length_append, length_load, ← Nat.add_assoc, ← load_add,
        ← hsplit] at hloop
      exact hloop

/-- **`Pop` of bytes in pages that are kept** copies them, and leaves the pages from the one of the
last byte on. -/
theorem pop_forward (hc : Sound s.pageSize s.cache) (hpages : s.available < 2 ^ 32 * s.pageSize)
    (hpos : 0 < size) (hend : start + size ≤ s.available)
    (hfile : start + size ≤ s.file.extent systemPage)
    (hkept : ∀ k, start / s.pageSize ≤ k → k * s.pageSize < start + size →
      Kept s.pageSize s.cache k) :
    ∃ c, s.pop start size = some (some (load s.file.data start size), { s with cache := c }) ∧
      ∀ k, (start + size - 1) / s.pageSize ≤ k →
        (Kept s.pageSize c k ↔ Kept s.pageSize s.cache k) := by
  have hpage : s.page start = start / s.pageSize := page_eq (by omega)
  rw [pop, hpage]
  obtain ⟨c, hloop, hsame⟩ := pageLoop_forward (l := []) (i := start / s.pageSize)
    hpages hend hfile hc hkept hpos rfl (Or.inl rfl) (Nat.le_add_left (2 ^ 32) _)
  rw [List.nil_append, List.length_nil, Nat.add_zero, Nat.sub_zero] at hloop
  refine ⟨c, ?_, hsame⟩
  rw [hloop]
  rfl

/-- `Pop` of no bytes at the end or before gives none, and leaves the pages from there on. -/
theorem pop_zero (hc : Sound s.pageSize s.cache) (hpages : s.available < 2 ^ 32 * s.pageSize)
    (hlast : s.page s.available + 1 < 2 ^ 32) (hend : start ≤ s.available)
    (hfile : start ≤ s.file.extent systemPage)
    (hkept : start < s.available → Kept s.pageSize s.cache (start / s.pageSize)) :
    ∃ r c, s.pop start 0 = some (r, { s with cache := c }) ∧
      ∀ k, start / s.pageSize ≤ k → (Kept s.pageSize c k ↔ Kept s.pageSize s.cache k) := by
  have hpage : s.page start = start / s.pageSize := page_eq (by omega)
  have hle : start / s.pageSize ≤ s.page s.available := by
    rw [page_eq hpages]
    exact Nat.div_le_div_right hend
  have hsame : ∀ k, start / s.pageSize ≤ k →
      (Kept s.pageSize (ReadCache.findPage s.cache (start / s.pageSize * s.pageSize)).2 k
        ↔ Kept s.pageSize s.cache k) := fun k hk ↦ kept_findPage_iff hc hk
  obtain ⟨fuel, hfuel⟩ : ∃ fuel, 2 ^ 32 = fuel + 1 + 1 := ⟨2 ^ 32 - 2, rfl⟩
  by_cases hfirst : Kept s.pageSize s.cache (start / s.pageSize)
  · have hdiv := Nat.div_mul_le_self start s.pageSize
    have hlt := Nat.lt_div_mul_add s.pageSize_pos (a := start)
    have hread : s.file.read systemPage start 0 = some [] := if_pos (by omega)
    refine ⟨some [], _, ?_, hsame⟩
    rw [pop, hpage, hfuel, pageLoop_of_kept hc hle hfirst, popBody_eq (Nat.le_of_lt hlt),
      Nat.max_eq_left hdiv, Nat.zero_sub, Nat.zero_min, hread]
    rfl
  · obtain rfl : start = s.available := by
      by_contra hne
      exact hfirst (hkept (Nat.lt_of_le_of_ne hend hne))
    refine ⟨none, _, ?_, hsame⟩
    rw [pop, hpage, hfuel, pageLoop_of_not_kept hc hle hfirst, ← hpage,
      CInt.toUnsigned_natCast hlast, pageLoop, if_neg (Nat.not_succ_le_self _)]
    rfl

end PagedLog

/-! ## Pages that are allocated -/

/-- The pages that were allocated are kept, from one on. -/
def KeptFrom (first : ℕ) (r : LogWriteBuf × OneShotCache) : Prop :=
  ∀ k, first ≤ k → k * r.1.pageSize < r.1.offset → OneShotCache.Kept r.1.pageSize r.2 k

namespace KeptFrom

variable {first : ℕ} {r : LogWriteBuf × OneShotCache}

theorem makeRoom (h : KeptFrom first r) (happ : r.1.Appending) :
    KeptFrom first (LogWriteBuf.makeRoom ReadCache.addPage r) := by
  by_cases hfull : r.1.isFull = true
  · intro k hk hlt
    obtain ⟨q, hq⟩ := happ.dvd
    rw [makeRoom_of_full hfull, allocatePage] at hlt ⊢
    simp only at hlt ⊢
    by_cases hold : k * r.1.pageSize < r.1.offset
    · exact List.mem_append_left _ (h k hk hold)
    · have hkq : k * r.1.pageSize = r.1.offset := by
        have hle : k < q + 1 := Nat.lt_of_mul_lt_mul_left (a := r.1.pageSize) (by
          rw [Nat.mul_add_one, ← hq, Nat.mul_comm]
          exact hlt)
        rw [hq, Nat.mul_comm] at hold
        have hge : q ≤ k := Nat.le_of_mul_le_mul_left (Nat.not_lt.mp hold) r.1.pageSize_pos
        rw [hq, Nat.mul_comm, Nat.le_antisymm (Nat.le_of_lt_succ hle) hge]
      refine List.mem_append_right _ (List.mem_singleton.mpr ?_)
      rw [OneShotCache.page, hkq]
  · rw [Bool.not_eq_true] at hfull
    rwa [makeRoom_of_not_full hfull]

theorem push (h : KeptFrom first r) (happ : r.1.Appending) (l : List UInt8) :
    KeptFrom first (l.foldl (pushByte ReadCache.addPage) r) := by
  induction l generalizing r with
  | nil => exact h
  | cons x l ih => exact ih (h.makeRoom happ) (happ.pushByte (f := ReadCache.addPage) x).1

theorem readv (h : KeptFrom first r) (happ : r.1.Appending) (cb : Reader UInt8) :
    KeptFrom first (LogWriteBuf.readv ReadCache.addPage cb r).2 := by
  rw [LogWriteBuf.readv]
  split_ifs
  · exact h
  · exact h.makeRoom happ

end KeptFrom

/-! ## The stream -/

/-- The stream: a log and the offset to read from. -/
structure PositionedLog (C : Type*) (cacheSize : ℕ) where
  log : PagedLog C cacheSize
  curOffset : ℕ

namespace PositionedLog

section Operations

variable {C : Type*} [ReadCache C] {cacheSize : ℕ} (s : PositionedLog C cacheSize)

def available : ℕ := CInt.toUnsigned 64 (s.log.available - s.curOffset)

/-- `Pop` at the position, which moves if the call succeeds. -/
def pop (size : ℕ) : Option (Option (List UInt8) × PositionedLog C cacheSize) :=
  (s.log.pop s.curOffset size).map fun r ↦
    (r.1, ⟨r.2, if r.1.isSome then s.curOffset + size else s.curOffset⟩)

def skip (size : ℕ) : Bool × PositionedLog C cacheSize :=
  if size ≤ s.available then (true, { s with curOffset := s.curOffset + size }) else (false, s)

def backup (size : ℕ) : Bool × PositionedLog C cacheSize :=
  if size ≤ s.curOffset then (true, { s with curOffset := s.curOffset - size }) else (false, s)

def readv (cb : Reader UInt8) : ℤ × PositionedLog C cacheSize :=
  ((s.log.readv cb).1, { s with log := (s.log.readv cb).2 })

def push (l : List UInt8) : ℤ × PositionedLog C cacheSize :=
  ((s.log.push l).1, { s with log := (s.log.push l).2 })

/-- `ZeroCopyReadNext`: where the region begins, and its length as an `int`, by which the position
moves. -/
def zeroCopyReadNext (offset : ℕ) : Option (ℕ × ℤ) × PositionedLog C cacheSize :=
  let r := s.log.zeroCopyReadNext offset
  match r.1 with
  | none => (none, { s with log := r.2 })
  | some region =>
    (some (region.start, CInt.toInt region.len),
      ⟨r.2, CInt.toUnsigned 64 (s.curOffset + CInt.toInt region.len)⟩)

/-- The bytes that were received. -/
def received : List UInt8 := load s.log.file.data 0 s.log.available

end Operations

/-- The pages of `CreateAnonStore`: 64 pages of the system. -/
def anonPageSize : ℕ := 64 * PagedLog.systemPage

/-- `CreateAnonStore`. -/
def createAnonStore (cacheSize : ℕ) : PositionedLog OneShotCache cacheSize :=
  ⟨PagedLog.ofStream cacheSize anonPageSize (by decide) 0, 0⟩

variable {cacheSize : ℕ} {s s' : PositionedLog OneShotCache cacheSize} {l : List UInt8} {n : ℕ}

/-- The stream after `n` bytes, with another cache. -/
def moved (s : PositionedLog OneShotCache cacheSize) (n : ℕ) (c : OneShotCache) :
    PositionedLog OneShotCache cacheSize :=
  ⟨{ s.log with cache := c }, s.curOffset + n⟩

@[simp] theorem moved_received (n : ℕ) (c : OneShotCache) : (s.moved n c).received = s.received :=
  rfl

@[simp] theorem moved_curOffset (n : ℕ) (c : OneShotCache) :
    (s.moved n c).curOffset = s.curOffset + n := rfl

@[simp] theorem moved_moved (n k : ℕ) (c c' : OneShotCache) :
    (s.moved n c).moved k c' = s.moved (n + k) c' := by
  rw [moved, moved, moved, Nat.add_assoc]

/-- The bytes from the position to the end of the log, in pages that are kept. -/
structure Ahead (s : PositionedLog OneShotCache cacheSize) (l : List UInt8) : Prop where
  streaming : Streaming 0 (s.log.writeBuf, s.log.cache)
  tell_eq : s.log.writeBuf.tell = s.log.available
  pageSize_eq : s.log.pageSize = anonPageSize
  fits : PagesFit s.log.pageSize s.log.available
  offset_eq : s.curOffset + l.length = s.log.available
  load_eq : load s.log.file.data s.curOffset l.length = l
  kept : KeptFrom (s.curOffset / s.log.pageSize) (s.log.writeBuf, s.log.cache)

theorem anonPageSize_eq : anonPageSize = 262144 := rfl

theorem anonPageSize_pos : 0 < anonPageSize := by decide

theorem ahead_createAnonStore : (createAnonStore cacheSize).Ahead [] := by
  have hzero : (createAnonStore cacheSize).log.available = 0 := Nat.zero_mul _
  have hstreaming : Streaming (0 * anonPageSize) ((createAnonStore cacheSize).log.writeBuf,
      (createAnonStore cacheSize).log.cache) := PagedLog.streaming_ofStream anonPageSize_pos 0
  rw [Nat.zero_mul] at hstreaming
  refine ⟨hstreaming, rfl, rfl, ?_, hzero.symm, rfl, fun k _ hk ↦ ?_⟩
  · rw [hzero, PagesFit, Nat.zero_sub, Nat.zero_div, Nat.zero_mul]
    exact Nat.two_pow_pos 32
  · have hoffset : (createAnonStore cacheSize).log.writeBuf.offset = 0 := Nat.zero_mul _
    rw [hoffset] at hk
    exact absurd hk (Nat.not_lt_zero _)

theorem length_received (s : PositionedLog OneShotCache cacheSize) :
    s.received.length = s.log.available := length_load _ _ _

namespace Ahead

theorem writable (h : s.Ahead l) : s.log.Writable :=
  ⟨h.streaming.appending, h.streaming.readOnly_eq, h.tell_eq⟩

/-- There are at most `2³²` bytes and a page. -/
theorem available_lt (h : s.Ahead l) : s.log.available ≤ 2 ^ 32 + anonPageSize := by
  have hfits := h.fits
  rw [PagesFit, h.pageSize_eq] at hfits
  have hlt := Nat.lt_div_mul_add (by decide : 0 < anonPageSize) (a := s.log.available - 1)
  omega

theorem available_eq (h : s.Ahead l) : s.available = l.length := by
  have hlt := h.available_lt
  have hoffset := h.offset_eq
  rw [anonPageSize_eq] at hlt
  rw [available, CInt.toUnsigned_of_mem (by omega) (by omega)]
  omega

theorem drop_received (h : s.Ahead l) : s.received.drop s.curOffset = l := by
  have hoffset := h.offset_eq
  have hlen : s.log.available - s.curOffset = l.length := by omega
  rw [received, drop_load _ (by omega), Nat.zero_add, hlen, h.load_eq]

theorem page_lt (h : s.Ahead l) : s.log.page s.log.available + 1 < 2 ^ 32 := by
  have hlt := h.available_lt
  rw [anonPageSize_eq] at hlt
  rw [PagedLog.page_eq (by rw [h.pageSize_eq, anonPageSize_eq]; omega), h.pageSize_eq,
    anonPageSize_eq]
  omega

theorem kept_of_le (h : s.Ahead l) {k o : ℕ} (hk : s.curOffset / s.log.pageSize ≤ k)
    (hle : k * s.log.pageSize ≤ o) (ho : o < s.log.available) :
    OneShotCache.Kept s.log.pageSize s.log.cache k := by
  have htell := h.streaming.appending.tell_le
  rw [h.tell_eq] at htell
  exact h.kept k hk (Nat.lt_of_lt_of_le (Nat.lt_of_le_of_lt hle ho) htell)

theorem le_size_of_kept (h : s.Ahead l) {k : ℕ}
    (hk : OneShotCache.Kept s.log.pageSize s.log.cache k) :
    (k + 1) * s.log.pageSize ≤ s.log.file.size := by
  obtain ⟨first, next, -, hholding, hnext, -⟩ := h.streaming.exists_holding
  change s.log.cache = OneShotCache.holding s.log.pageSize first next at hholding
  rw [hholding, OneShotCache.kept_holding s.log.pageSize_pos] at hk
  rw [PagedLog.file, h.streaming.appending.size_eq, ← hnext]
  exact Nat.mul_le_mul_right _ hk.2

theorem le_extent (h : s.Ahead l) : s.log.available ≤ s.log.file.extent PagedLog.systemPage :=
  Nat.le_trans h.writable.available_le (MappedFile.size_le_extent (by decide))

theorem load_take (h : s.Ahead l) (hn : n ≤ l.length) :
    load s.log.file.data s.curOffset n = l.take n := by
  rw [← take_load _ hn, h.load_eq]

theorem moved (h : s.Ahead l) (hn : n ≤ l.length) {c : OneShotCache}
    (hc : Streaming 0 (s.log.writeBuf, c))
    (hkept : ∀ k, (s.curOffset + n) / s.log.pageSize ≤ k →
      OneShotCache.Kept s.log.pageSize s.log.cache k → OneShotCache.Kept s.log.pageSize c k) :
    (s.moved n c).Ahead (l.drop n) := by
  have hoffset := h.offset_eq
  refine ⟨hc, h.tell_eq, h.pageSize_eq, h.fits, ?_, ?_, fun k hk hlt ↦ ?_⟩
  · rw [List.length_drop, PositionedLog.moved]
    simp only
    omega
  · have hdrop := drop_load s.log.file.data (s := s.curOffset) hn
    rw [h.load_eq] at hdrop
    rw [List.length_drop]
    exact hdrop.symm
  · exact hkept k hk (h.kept k (Nat.le_trans (Nat.div_le_div_right (Nat.le_add_right _ _)) hk) hlt)

/-- **`Pop` takes the bytes ahead.** Of no bytes it may fail, which changes nothing. -/
theorem pop (h : s.Ahead l) (hn : n ≤ l.length) :
    ∃ r c, s.pop n = some (r, s.moved n c) ∧ (s.moved n c).Ahead (l.drop n) ∧
      (0 < n → r = some (l.take n)) := by
  have hoffset := h.offset_eq
  have hsound : OneShotCache.Sound s.log.pageSize s.log.cache := h.streaming.sound
  have hpages : s.log.available < 2 ^ 32 * s.log.pageSize := by
    have hlt := h.available_lt
    rw [h.pageSize_eq]
    exact Nat.lt_of_le_of_lt hlt (by decide)
  have hfile := h.le_extent
  have hstreaming {c : OneShotCache} {r : Option (List UInt8)}
      (hpop : s.log.pop s.curOffset n = some (r, { s.log with cache := c })) :
      Streaming 0 (s.log.writeBuf, c) := by
    obtain ⟨c', hc', hP⟩ := PagedLog.pop_induction (P := fun c ↦ Streaming 0 (s.log.writeBuf, c))
      (fun c k _ hc ↦ hc.findPage (k * s.log.pageSize)) h.streaming hpop
    obtain rfl : c = c' := congrArg PagedLog.cache hc'
    exact hP
  rcases Nat.eq_zero_or_pos n with rfl | hpos
  · obtain ⟨r, c, hpop, hsame⟩ := PagedLog.pop_zero hsound hpages h.page_lt (by omega)
      (by omega) fun hlt ↦ h.kept_of_le (Nat.le_refl _) (Nat.div_mul_le_self _ _) hlt
    refine ⟨r, c, ?_, h.moved hn (hstreaming hpop) fun k hk ↦ (hsame k hk).mpr,
      fun hlt ↦ absurd hlt (Nat.lt_irrefl 0)⟩
    rw [PositionedLog.pop, hpop, Option.map_some, Nat.add_zero, ite_self]
    rfl
  · obtain ⟨c, hpop, hsame⟩ := PagedLog.pop_forward hsound hpages hpos (by omega)
      (by omega) fun k h₁ h₂ ↦ h.kept_of_le h₁ (Nat.le_refl _) (Nat.lt_of_lt_of_le h₂ (by omega))
    refine ⟨_, c, ?_, h.moved hn (hstreaming hpop) fun k hk ↦ (hsame k ?_).mpr,
      fun _ ↦ congrArg some (h.load_take hn)⟩
    · rw [PositionedLog.pop, hpop]
      rfl
    · exact Nat.le_trans (Nat.div_le_div_right (Nat.sub_le _ _)) hk

theorem skip (h : s.Ahead l) (hn : n ≤ l.length) :
    s.skip n = (true, s.moved n s.log.cache) ∧ (s.moved n s.log.cache).Ahead (l.drop n) := by
  refine ⟨?_, h.moved hn h.streaming fun _ _ ↦ id⟩
  rw [PositionedLog.skip, if_pos (by rwa [h.available_eq])]
  rfl

theorem extends_log (h : s.Ahead l) {k : List UInt8} {log : PagedLog OneShotCache cacheSize}
    (hext : s.log.Extends k log) (hstreaming : Streaming 0 (log.writeBuf, log.cache))
    (hkept : KeptFrom (s.curOffset / s.log.pageSize) (log.writeBuf, log.cache))
    (hfits : PagesFit s.log.pageSize (s.log.available + k.length)) :
    (PositionedLog.mk log s.curOffset).Ahead (l ++ k) ∧
      (PositionedLog.mk log s.curOffset).received = s.received ++ k := by
  have hoffset := h.offset_eq
  have hload (start : ℕ) (hstart : start ≤ s.log.available) := hext.load_eq hstart
  refine ⟨⟨hstreaming, hext.writable.tell_eq, hext.pageSize_eq.trans h.pageSize_eq, ?_, ?_, ?_, ?_⟩,
    ?_⟩
  · rwa [hext.pageSize_eq, hext.available_eq]
  · rw [List.length_append, hext.available_eq]
    simp only
    omega
  · have hlen : (l ++ k).length = log.available - s.curOffset := by
      rw [List.length_append, hext.available_eq]
      omega
    have hrest : s.log.available - s.curOffset = l.length := by omega
    simp only [hlen]
    rw [hload s.curOffset (by omega), hrest, h.load_eq]
  · rwa [hext.pageSize_eq]
  · exact hload 0 (Nat.zero_le _)

theorem push (h : s.Ahead l) {k : List UInt8}
    (hfits : PagesFit s.log.pageSize (s.log.available + k.length)) :
    (s.push k).2.Ahead (l ++ k) ∧ (s.push k).2.received = s.received ++ k := by
  obtain ⟨-, hext, heq⟩ := h.writable.push k
  have hstreaming := h.streaming.push (l := k) (by rwa [h.tell_eq])
  have hkept := h.kept.push h.streaming.appending k
  rw [← heq] at hstreaming hkept
  exact h.extends_log hext hstreaming hkept hfits

theorem pagesFit_room (hfits : PagesFit s.log.pageSize (s.log.available + 1)) :
    PagesFit s.log.pageSize (s.log.available + s.log.room) := by
  have hdiv := Nat.div_add_mod' s.log.available s.log.pageSize
  have hmod := Nat.mod_lt s.log.available s.log.pageSize_pos
  have hend : s.log.available + s.log.room - 1
      = s.log.available / s.log.pageSize * s.log.pageSize + (s.log.pageSize - 1) := by
    rw [PagedLog.room]
    omega
  rw [PagesFit, Nat.add_sub_cancel] at hfits
  rwa [PagesFit, hend, Nat.mul_comm (s.log.available / s.log.pageSize) s.log.pageSize,
    Nat.mul_add_div s.log.pageSize_pos,
    Nat.div_eq_of_lt (Nat.sub_one_lt (Nat.ne_of_gt s.log.pageSize_pos)), Nat.add_zero]

theorem readv (h : s.Ahead l) (cb : Reader UInt8)
    (hone : PagesFit s.log.pageSize (s.log.available + 1)) :
    (s.readv cb).1 = (cb.run [s.log.room]).ret ∧
      (s.readv cb).2.Ahead (l ++ (cb.run [s.log.room]).bytes) ∧
      (s.readv cb).2.received = s.received ++ (cb.run [s.log.room]).bytes := by
  obtain ⟨hret, hext, -⟩ := h.writable.readv cb
  have hlen := cb.length_bytes_le [s.log.room]
  rw [List.sum_singleton] at hlen
  have hfits := pagesFit_room hone
  rw [← h.tell_eq] at hone
  exact ⟨hret, h.extends_log hext (h.streaming.readv hone cb)
    (h.kept.readv h.streaming.appending cb) (hfits.mono (Nat.add_le_add_left hlen _))⟩

end Ahead

end PositionedLog

end Coypu
