import Coypu.Library.ZeroCopy
import Coypu.Store.PositionedLog

/-!
# Messages in a stream

`LogZeroCopyInputStream` gives protobuf the memory of a stream, page by page, and moves the position
of the stream along. It feeds what is ahead (`feeds_ahead`), while offsets fit in an `int`: its
constructor takes one.
-/

set_option autoImplicit false

namespace Coypu

open FlatMemory ZeroCopy

/-- `LogZeroCopyInputStream` over a stream. -/
structure LogZeroCopyInputStream (cacheSize : ℕ) where
  stream : PositionedLog OneShotCache cacheSize
  byteCount : ℤ

namespace LogZeroCopyInputStream

variable {cacheSize : ℕ}

/-- The constructor with an offset, which is an `int`. -/
def new (stream : PositionedLog OneShotCache cacheSize) (offset : ℕ) :
    LogZeroCopyInputStream cacheSize := ⟨stream, CInt.toInt offset⟩

/-- `Next`: the memory from the byte count on, to the end of its page. -/
def next (t : LogZeroCopyInputStream cacheSize) :
    Option (Option (List UInt8) × LogZeroCopyInputStream cacheSize) :=
  let r := t.stream.zeroCopyReadNext (CInt.toUnsigned 64 t.byteCount)
  match r.1 with
  | none => some (none, { t with stream := r.2 })
  | some (start, size) => (r.2.log.file.read PagedLog.systemPage start size.toNat).map fun l ↦
      (some l, ⟨r.2, t.byteCount + size⟩)

/-- `BackUp`, which asserts that the stream goes back. -/
def backUp (asserts : Bool) (count : ℕ) (t : LogZeroCopyInputStream cacheSize) :
    Option (LogZeroCopyInputStream cacheSize) :=
  let r := t.stream.backup count
  if asserts = true ∧ r.1 = false then none else some ⟨r.2, t.byteCount - count⟩

/-- `Skip`, which says that it succeeds whether or not it does. -/
def skip (count : ℕ) (t : LogZeroCopyInputStream cacheSize) :
    Bool × LogZeroCopyInputStream cacheSize :=
  (true, ⟨(t.stream.skip count).2, t.byteCount + count⟩)

/-- What protobuf calls. -/
def source (asserts : Bool) (cacheSize : ℕ) : Source (LogZeroCopyInputStream cacheSize) where
  next := next
  backUp := backUp asserts
  skip count t := some (t.skip count)

variable {s : PositionedLog OneShotCache cacheSize} {l : List UInt8}

/-- Where the page with the last byte ends. -/
def pagesEnd (s : PositionedLog OneShotCache cacheSize) : ℕ :=
  ((s.log.available - 1) / s.log.pageSize + 1) * s.log.pageSize

/-- The stream `pos` bytes behind where it was. -/
def At (s : PositionedLog OneShotCache cacheSize) (t : LogZeroCopyInputStream cacheSize)
    (pos back : ℕ) : Prop :=
  t.stream = s.moved pos s.log.cache ∧ t.byteCount = (s.curOffset + pos : ℕ) ∧ back ≤ pos

theorem next_eq (h : s.Ahead l) {t : LogZeroCopyInputStream cacheSize} {pos back : ℕ}
    (ht : At s t pos back) (hpos : pos < l.length) :
    ∃ n t', 0 < n ∧ s.curOffset + pos + n ≤ pagesEnd s ∧
      t.next = some (some (load s.log.file.data (s.curOffset + pos) n), t') ∧
        At s t' (pos + n) n := by
  obtain ⟨hstream, hcount, -⟩ := ht
  have hoffset := h.offset_eq
  have havail := h.available_lt
  have hpage := h.pageSize_eq
  rw [PositionedLog.anonPageSize_eq] at havail hpage
  obtain ⟨o, ho⟩ : ∃ o, o = s.curOffset + pos := ⟨_, rfl⟩
  obtain ⟨k, hk⟩ : ∃ k, k = o / s.log.pageSize := ⟨_, rfl⟩
  have hle : k * s.log.pageSize ≤ o := hk ▸ Nat.div_mul_le_self o s.log.pageSize
  have hlt : o < k * s.log.pageSize + s.log.pageSize := hk ▸ Nat.lt_div_mul_add s.log.pageSize_pos
  have hkept : OneShotCache.Kept s.log.pageSize s.log.cache k :=
    h.kept_of_le (by rw [hk]; exact Nat.div_le_div_right (by omega)) hle (by omega)
  have hpeak : (ReadCache.peakPage s.log.cache o).1 = some (k * s.log.pageSize) := by
    rw [hk] at hkept ⊢
    exact OneShotCache.peakPage_of_kept s.log.pageSize_pos h.streaming.sound hkept
  have hend := h.le_size_of_kept hkept
  have hpages : (k + 1) * s.log.pageSize ≤ pagesEnd s := by
    refine Nat.mul_le_mul_right _ (Nat.add_le_add_right ?_ 1)
    rw [hk]
    exact Nat.div_le_div_right (by omega)
  rw [Nat.add_one_mul] at hend hpages
  obtain ⟨n, hn⟩ : ∃ n, n = s.log.pageSize - (o - k * s.log.pageSize) := ⟨_, rfl⟩
  obtain ⟨hpos', hlt', hfile, hword⟩ : 0 < n ∧ s.curOffset + pos + n ≤ pagesEnd s ∧
      o + n ≤ s.log.file.size ∧ o + n < 2 ^ 64 := by omega
  have hcast : CInt.toUnsigned 64 (o : ℕ) = o := CInt.toUnsigned_natCast (by omega)
  have hint : CInt.toInt (n : ℕ) = n := CInt.toInt_of_mem (by omega) (by omega)
  -- the piece is the rest of the page
  have hregion : s.log.zeroCopyReadNext o = (some ⟨o, n⟩, s.log) := by
    rw [PagedLog.zeroCopyReadNext]
    simp only [hpeak]
    rw [if_neg (by omega), if_pos ⟨hle, Nat.le_of_lt hlt⟩, ← hn]
    rfl
  have hmove : CInt.toUnsigned 64 ((o : ℕ) + (n : ℤ)) = o + n := by
    exact_mod_cast CInt.toUnsigned_natCast hword
  have hread : s.log.file.read PagedLog.systemPage o n = some (load s.log.file.data o n) :=
    MappedFile.read_eq (by decide) hfile
  refine ⟨n, ⟨s.moved (pos + n) s.log.cache, (o + n : ℕ)⟩, hpos', hlt', ?_, ?_⟩
  · rw [next, hstream, hcount, ← ho, hcast, PositionedLog.zeroCopyReadNext]
    simp only [PositionedLog.moved, ← ho, hregion, hint, hmove, Int.toNat_natCast, hread]
    rw [← Nat.add_assoc, ← ho, Int.natCast_add]
    rfl
  · exact ⟨rfl, by rw [ho, Nat.add_assoc], Nat.le_add_left _ _⟩

theorem next_eq_none (h : s.Ahead l) {t : LogZeroCopyInputStream cacheSize} {back : ℕ}
    (ht : At s t l.length back) : t.next = some (none, t) := by
  obtain ⟨hstream, hcount, -⟩ := ht
  have hoffset := h.offset_eq
  have havail := h.available_lt
  rw [PositionedLog.anonPageSize_eq] at havail
  have hcast : CInt.toUnsigned 64 (s.log.available : ℕ) = s.log.available :=
    CInt.toUnsigned_natCast (by omega)
  have hend : (s.log.zeroCopyReadNext s.log.available) = (none, s.log) := by
    rw [PagedLog.zeroCopyReadNext]
    cases (ReadCache.peakPage s.log.cache s.log.available).1 with
    | none => rfl
    | some base => exact congrArg (·, s.log) (if_pos (Nat.le_refl _))
  rw [next, hcount, hoffset, hcast, PositionedLog.zeroCopyReadNext]
  rw [PositionedLog.moved] at hstream
  simp only [hstream, hend]
  rw [← hstream, ← hoffset, ← hcount]

/-- **What is ahead is fed to protobuf.** -/
theorem feeds_ahead (h : s.Ahead l) (asserts : Bool) :
    Feeds (source asserts cacheSize) (load s.log.file.data s.curOffset (pagesEnd s - s.curOffset))
      l.length (At s) where
  next t pos back ht hpos := by
    obtain ⟨n, t', hn, hend, hnext, ht'⟩ := next_eq h ht hpos
    have hlen : pos + n ≤ pagesEnd s - s.curOffset := by omega
    refine ⟨n, t', hn, by rwa [length_load], ?_, ht'⟩
    rw [source]
    simp only
    rw [hnext, drop_load _ (Nat.le_trans (Nat.le_add_right _ _) hlen), take_load _ (by omega)]
  finish t pos back ht hpos := by
    obtain rfl : pos = l.length := hpos
    exact ⟨t, next_eq_none h ht, ht.1, ht.2.1, Nat.zero_le _⟩
  backUp t pos back n ht hn := by
    obtain ⟨hstream, hcount, hback⟩ := ht
    have hle := Nat.le_trans hn hback
    refine ⟨hle, ⟨s.moved (pos - n) s.log.cache, (s.curOffset + (pos - n) : ℕ)⟩, ?_, rfl, rfl,
      Nat.zero_le _⟩
    have hmoved : (s.moved pos s.log.cache).backup n = (true, s.moved (pos - n) s.log.cache) := by
      rw [PositionedLog.backup, if_pos (by rw [PositionedLog.moved_curOffset]; omega),
        PositionedLog.moved, PositionedLog.moved]
      simp only
      rw [Nat.add_sub_assoc hle]
    rw [source]
    simp only [backUp, hstream, hmoved, hcount]
    rw [if_neg (by simp), ← Nat.add_sub_assoc hle,
      Int.natCast_sub (Nat.le_trans hle (Nat.le_add_left _ _))]
  skip t pos back n ht hn := by
    obtain ⟨hstream, hcount, -⟩ := ht
    have hahead := h.moved (n := pos) (c := s.log.cache) (by omega) h.streaming fun _ _ ↦ id
    have hskip := (hahead.skip (n := n) (by rw [List.length_drop]; omega)).1
    refine ⟨⟨s.moved (pos + n) s.log.cache, (s.curOffset + (pos + n) : ℕ)⟩, ?_, rfl, rfl,
      Nat.zero_le _⟩
    rw [source]
    simp only [skip, hstream, hskip, hcount]
    rw [PositionedLog.moved_moved, ← Nat.add_assoc, Int.natCast_add (s.curOffset + pos)]
    rfl

section Run

variable {α : Type} {p : Program α} {result : α → Prop} {n : ℕ}

theorem at_new (hoffset : s.curOffset < 2 ^ 31) : At s (new s s.curOffset) 0 0 := by
  have hint : CInt.toInt (s.curOffset : ℕ) = s.curOffset := CInt.toInt_of_mem (by omega) (by omega)
  refine ⟨rfl, ?_, Nat.le_refl 0⟩
  rw [new, hint, Nat.add_zero]

theorem take_pages (h : s.Ahead l) (hn : n ≤ l.length) :
    ((load s.log.file.data s.curOffset (pagesEnd s - s.curOffset)).drop 0).take n = l.take n := by
  have hend := h.offset_eq
  have hpages : s.log.available ≤ pagesEnd s := by
    have hlt := Nat.lt_div_mul_add s.log.pageSize_pos (a := s.log.available - 1)
    rw [pagesEnd, Nat.add_one_mul]
    omega
  rw [List.drop_zero, take_load _ (by omega), h.load_take hn]

theorem run_of_takes (h : s.Ahead l) (hoffset : s.curOffset < 2 ^ 31) (hn : n ≤ l.length)
    (hp : p.Takes (l.take n) result) (asserts : Bool) :
    ∃ a t, p.run (source asserts cacheSize) (new s s.curOffset) = some (a, t) ∧ result a ∧
      t.stream = s.moved n s.log.cache := by
  have hlen : (l.take n).length = n := by rw [List.length_take, Nat.min_eq_left hn]
  have hdata := take_pages h hn
  rw [← hlen] at hdata
  obtain ⟨a, t, back, hrun, ha, ht, -⟩ := hp (feeds_ahead h asserts) (at_new hoffset)
    (by omega) (by rw [hdata, hlen])
  rw [hlen, Nat.zero_add] at ht
  exact ⟨a, t, hrun, ha, ht⟩

theorem run_of_sees (h : s.Ahead l) (hoffset : s.curOffset < 2 ^ 31) (hn : n ≤ l.length)
    (hp : p.Sees (l.take n) result) (asserts : Bool) :
    ∃ a t, p.run (source asserts cacheSize) (new s s.curOffset) = some (a, t) ∧ result a := by
  have hlen : (l.take n).length = n := by rw [List.length_take, Nat.min_eq_left hn]
  have hdata := take_pages h hn
  rw [← hlen] at hdata
  exact hp (feeds_ahead h asserts) (at_new hoffset) (by omega) (by rw [hdata, hlen])

end Run

end LogZeroCopyInputStream

end Coypu
