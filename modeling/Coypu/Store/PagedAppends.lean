import Coypu.Store.PagedLog

/-!
# Appending to a log

Where the writer stands at the end of the log, `Push`, `Readv` and `ZeroCopyWriteNext` store their
bytes behind those of the log, over as many pages as it takes, and count them (`Extends`). A region
that is handed out and its length fit in an `int`, as do the bytes that come back from one.
-/

set_option autoImplicit false

namespace Coypu

open FlatMemory Transport LogWriteBuf

namespace LogWriteBuf

variable {σ : Type*} {f : σ → ℕ → σ} {s : LogWriteBuf × σ}

theorem Appending.room_eq (h : s.1.Appending) :
    s.1.pageSize - (LogWriteBuf.makeRoom f s).1.position
      = s.1.pageSize - s.1.tell % s.1.pageSize := by
  obtain ⟨happ, htell, -⟩ := h.makeRoom (f := f)
  have hlt := makeRoom_position_lt (f := f) h.position_le
  obtain ⟨⟨page, hpage⟩, -⟩ :=
    isFull_eq_false_iff.mp (makeRoom_not_full (f := f) (s := s))
  have hend := happ.page_eq page hpage
  have hdvd := happ.dvd
  rw [← hend, makeRoom_pageSize, Nat.dvd_add_left (Nat.dvd_refl _)] at hdvd
  obtain ⟨k, rfl⟩ := hdvd
  rw [← htell, tell_of_page hpage, Nat.mul_add_mod, Nat.mod_eq_of_lt hlt]

theorem foldl_pushByte_induction {P : LogWriteBuf × σ → Prop}
    (hbyte : ∀ r x, P r → P (pushByte f r x)) (hs : P s) (l : List UInt8) :
    P (l.foldl (pushByte f) s) := by
  induction l generalizing s with
  | nil => exact hs
  | cons x l ih => exact ih (hbyte s x hs)

@[simp] theorem pushLoop_readOnly (fuel : ℕ) (l : List UInt8) :
    (pushLoop f fuel l s).1.readOnly = s.1.readOnly := by
  induction fuel generalizing l s with
  | zero => rfl
  | succ fuel ih =>
    rw [pushLoop]
    split_ifs
    · rfl
    · simp only [ih, fill_readOnly, makeRoom_readOnly]

theorem pushLoop_induction {P : σ → Prop} (hcall : ∀ a offset, P a → P (f a offset)) {fuel : ℕ}
    {l : List UInt8} (hs : P s.2) : P (pushLoop f fuel l s).2 := by
  induction fuel generalizing l s with
  | zero => exact hs
  | succ fuel ih =>
    rw [pushLoop]
    split_ifs
    · exact hs
    · refine ih ?_
      simp only [makeRoom]
      split_ifs
      · exact hcall _ _ hs
      · exact hs

@[simp] theorem pushLoop_pageSize (fuel : ℕ) (l : List UInt8) :
    (pushLoop f fuel l s).1.pageSize = s.1.pageSize := by
  induction fuel generalizing l s with
  | zero => rfl
  | succ fuel ih =>
    rw [pushLoop]
    split_ifs
    · rfl
    · simp only [ih, fill_pageSize, makeRoom_pageSize]

end LogWriteBuf

namespace PagedLog

variable {C : Type*} {cacheSize : ℕ} {s s' : PagedLog C cacheSize} {l : List UInt8}

/-- The writer stands at the end of the log. -/
structure Writable (s : PagedLog C cacheSize) : Prop where
  appending : s.writeBuf.Appending
  readOnly_eq : s.writeBuf.readOnly = false
  tell_eq : s.writeBuf.tell = s.available

/-- Bytes came behind those of the log. -/
structure Extends (s : PagedLog C cacheSize) (l : List UInt8)
    (s' : PagedLog C cacheSize) : Prop where
  writable : s'.Writable
  pageSize_eq : s'.pageSize = s.pageSize
  anonymous_eq : s'.writeBuf.anonymous = s.writeBuf.anonymous
  available_eq : s'.available = s.available + l.length
  data_eq : s'.file.data = store s.file.data s.available l

theorem writable_new {pageSize offset : ℕ} (hpage : 0 < pageSize) (hdvd : pageSize ∣ offset)
    (anonymous : Bool) {file : MappedFile} (hfile : file.size = offset) (cache : C) :
    (new pageSize hpage offset anonymous file cache : PagedLog C cacheSize).Writable :=
  ⟨⟨hdvd, Nat.zero_le _, fun _ h ↦ absurd h (by simp [new, LogWriteBuf.new]), hfile⟩, rfl, rfl⟩

theorem Writable.available_le (h : s.Writable) : s.available ≤ s.file.size := by
  rw [← h.tell_eq, file, h.appending.size_eq]
  exact h.appending.tell_le

theorem Writable.cache (h : s.Writable) (c : C) :
    ({ s with cache := c } : PagedLog C cacheSize).Writable :=
  ⟨h.appending, h.readOnly_eq, h.tell_eq⟩

theorem Extends.load_eq (h : s.Extends l s') {start : ℕ} (hstart : start ≤ s.available) :
    load s'.file.data start (s'.available - start)
      = load s.file.data start (s.available - start) ++ l := by
  have hself : load (store s.file.data s.available l) s.available l.length = l :=
    load_store_self _ _ _
  have hlen : s.available + l.length - start = (s.available - start) + l.length := by omega
  have hend : start + (s.available - start) = s.available := by omega
  rw [h.available_eq, h.data_eq, hlen, load_add, hend, hself,
    load_store_of_disjoint (Or.inl (Nat.le_of_eq hend))]

/-- The length of the region that is handed out next, or offered to a `readv`. -/
def room (s : PagedLog C cacheSize) : ℕ := s.pageSize - s.available % s.pageSize

variable [ReadCache C]

theorem Writable.extends_fill (h : s.Writable) (hl : l.length ≤ s.room) {w : LogWriteBuf} {c : C}
    (hw : (makeRoom ReadCache.addPage (s.writeBuf, s.cache)).1.fill l = w) {n : ℕ}
    (hn : n = s.available + l.length) : s.Extends l ⟨w, c, n⟩ := by
  subst hw
  obtain ⟨happ, htell, hdata⟩ := Appending.makeRoom (f := ReadCache.addPage)
    (s := (s.writeBuf, s.cache)) h.appending
  have hroom := Appending.room_eq (f := ReadCache.addPage) (s := (s.writeBuf, s.cache))
    h.appending
  have hlt := makeRoom_position_lt (f := ReadCache.addPage) (s := (s.writeBuf, s.cache))
    h.appending.position_le
  simp only [h.tell_eq] at hroom htell
  rw [room, pageSize, ← hroom] at hl
  obtain ⟨happ', htell', hdata'⟩ := happ.fill (l := l) makeRoom_not_full
    (by rw [makeRoom_pageSize]; simp only at hlt ⊢; omega)
  refine ⟨⟨happ', ?_, ?_⟩, ?_, ?_, hn, ?_⟩
  · simp only [fill_readOnly, makeRoom_readOnly, h.readOnly_eq]
  · simp only [htell', htell, hn]
  · simp only [pageSize, fill_pageSize, makeRoom_pageSize]
  · simp only [fill_anonymous, makeRoom_anonymous]
  · simp only [file, hdata', htell, hdata]

theorem Writable.push (h : s.Writable) (l : List UInt8) :
    (s.push l).1 = 0 ∧ s.Extends l (s.push l).2 ∧
      ((s.push l).2.writeBuf, (s.push l).2.cache)
        = l.foldl (pushByte ReadCache.addPage) (s.writeBuf, s.cache) := by
  have hpush := push_eq (f := ReadCache.addPage) (s := (s.writeBuf, s.cache))
    h.readOnly_eq h.appending.position_le l
  obtain ⟨happ, htell, hdata⟩ := Appending.foldl (f := ReadCache.addPage)
    (s := (s.writeBuf, s.cache)) h.appending l
  simp only [h.tell_eq] at htell hdata
  simp only [PagedLog.push, hpush, if_true, update]
  refine ⟨trivial, ⟨⟨happ, ?_, htell⟩, ?_, ?_, rfl, hdata⟩, trivial⟩
  · simp only [foldl_readOnly, h.readOnly_eq]
  · simp only [pageSize, foldl_pageSize]
  · simp only [foldl_anonymous]

theorem Writable.readv (h : s.Writable) (cb : Reader UInt8) :
    (s.readv cb).1 = (cb.run [s.room]).ret ∧ s.Extends (cb.run [s.room]).bytes (s.readv cb).2 ∧
      (s.readv cb).2.writeBuf
        = (makeRoom ReadCache.addPage (s.writeBuf, s.cache)).1.fill (cb.run [s.room]).bytes ∧
      (s.readv cb).2.cache = (makeRoom ReadCache.addPage (s.writeBuf, s.cache)).2 := by
  have hroom := Appending.room_eq (f := ReadCache.addPage) (s := (s.writeBuf, s.cache))
    h.appending
  simp only [h.tell_eq] at hroom
  have hlen := cb.length_bytes_le [s.room]
  rw [List.sum_singleton] at hlen
  have hcount : (if 0 < (cb.run [s.room]).ret then s.available + (cb.run [s.room]).ret.toNat
      else s.available) = s.available + (cb.run [s.room]).bytes.length := by
    rcases cb.ret_cases [s.room] with ⟨hret, hnil⟩ | ⟨hret, hlen'⟩
    · rw [if_neg (Int.not_lt_of_ge hret), hnil, List.length_nil, Nat.add_zero]
    · rw [if_pos hret, hlen', Int.toNat_natCast]
  have hreadv : LogWriteBuf.readv ReadCache.addPage cb (s.writeBuf, s.cache)
      = ((cb.run [s.room]).ret,
          (makeRoom ReadCache.addPage (s.writeBuf, s.cache)).1.fill (cb.run [s.room]).bytes,
          (makeRoom ReadCache.addPage (s.writeBuf, s.cache)).2) := by
    rw [LogWriteBuf.readv, if_neg (by simp [h.readOnly_eq])]
    simp only [makeRoom_pageSize, hroom]
    rfl
  simp only [PagedLog.readv, hreadv, update]
  exact ⟨trivial, h.extends_fill hlen rfl hcount, trivial, trivial⟩

/-- A region of `int` length that is handed out and written extends the log. -/
theorem Writable.writeNext (h : s.Writable) (hint : s.room < 2 ^ 31)
    (hoffset : s.available + s.room < 2 ^ 64) (content : ℕ → UInt8) :
    (s.writeNext content).1 = some (s.available, (s.room : ℤ)) ∧
      s.Extends ((List.range s.room).map content) (s.writeNext content).2 ∧
      (s.writeNext content).2.writeBuf.position = s.pageSize ∧
      (∃ page, (s.writeNext content).2.writeBuf.dataPage = some page) ∧
      (s.writeNext content).2.cache = (makeRoom ReadCache.addPage (s.writeBuf, s.cache)).2 := by
  obtain ⟨happ, htell, hdata⟩ := Appending.makeRoom (f := ReadCache.addPage)
    (s := (s.writeBuf, s.cache)) h.appending
  have hroom := Appending.room_eq (f := ReadCache.addPage) (s := (s.writeBuf, s.cache))
    h.appending
  have hlt := makeRoom_position_lt (f := ReadCache.addPage) (s := (s.writeBuf, s.cache))
    h.appending.position_le
  obtain ⟨⟨page, hpage⟩, -⟩ := isFull_eq_false_iff.mp
    (makeRoom_not_full (f := ReadCache.addPage) (s := (s.writeBuf, s.cache)))
  simp only [h.tell_eq] at hroom htell hlt
  have hlen : CInt.toInt (s.room : ℕ) = s.room := CInt.toInt_of_mem (by omega) (by omega)
  have hcount : CInt.toUnsigned 64 (s.available + (s.room : ℤ)) = s.available + s.room := by
    exact_mod_cast CInt.toUnsigned_natCast hoffset
  have hnext : s.zeroCopyWriteNext = (some (s.available, (s.room : ℤ)),
      ⟨{ (makeRoom ReadCache.addPage (s.writeBuf, s.cache)).1 with
          position := s.pageSize }, (makeRoom ReadCache.addPage (s.writeBuf, s.cache)).2,
        s.available + s.room⟩) := by
    rw [PagedLog.zeroCopyWriteNext, LogWriteBuf.zeroCopyNext, if_neg (by simp [h.readOnly_eq])]
    simp only [makeRoom_pageSize, hroom, htell]
    simp only [show s.writeBuf.pageSize - s.available % s.writeBuf.pageSize = s.room from rfl, hlen,
      hcount]
    rfl
  simp only [PagedLog.writeNext, hnext, writeRegion, Int.toNat_natCast]
  refine ⟨trivial, h.extends_fill (by simp) ?_ (by simp), trivial, ⟨page, hpage⟩, trivial⟩
  rw [tell_of_page hpage] at htell
  have hstart : (makeRoom ReadCache.addPage (s.writeBuf, s.cache)).1.dataPage.getD 0
      + (makeRoom ReadCache.addPage (s.writeBuf, s.cache)).1.position = s.available := by
    rw [hpage, Option.getD_some, htell]
  have hend : (makeRoom ReadCache.addPage (s.writeBuf, s.cache)).1.position
      + ((List.range s.room).map content).length = s.pageSize := by
    rw [List.length_map, List.length_range, room, pageSize, ← hroom]
    omega
  simp only [fill, hstart, hend]

/-! ## The size of pages -/

theorem push_of_not_readOnly (h : s.writeBuf.readOnly = false) (l : List UInt8) :
    (s.push l).1 = 0 ∧ (s.push l).2.writeBuf.readOnly = false ∧
    (s.push l).2.pageSize = s.pageSize := by
  simp only [PagedLog.push, LogWriteBuf.push, h, update, pageSize, Bool.false_eq_true, if_false,
    pushLoop_readOnly, pushLoop_pageSize, and_self]

theorem step_pageSize (s : PagedLog C cacheSize) (op : LogRequest) :
    (s.step op).1.pageSize = s.pageSize := by
  by_cases hreads : op.Reads
  · obtain ⟨c, hs, -⟩ := step_of_reads (s := s) (P := fun _ ↦ True) hreads (fun _ _ _ _ ↦ trivial)
      (fun _ _ _ ↦ trivial) trivial
    rw [hs]
    rfl
  cases op with
  | push l =>
    simp only [step, PagedLog.push, update, pageSize, LogWriteBuf.push]
    split_ifs
    · rfl
    · exact pushLoop_pageSize _ _
  | readv cb =>
    simp only [step, PagedLog.readv, update, pageSize, LogWriteBuf.readv]
    split_ifs
    · rfl
    · exact makeRoom_pageSize
  | zeroCopyWriteNext content =>
    have hnext : s.zeroCopyWriteNext.2.pageSize = s.pageSize := by
      simp only [zeroCopyWriteNext, update, pageSize, zeroCopyNext]
      split_ifs
      · rfl
      · exact makeRoom_pageSize
    simp only [step, PagedLog.writeNext]
    split
    · exact hnext
    · exact hnext
  | zeroCopyWriteBackup len =>
    simp only [step, zeroCopyWriteBackup, pageSize, backup]
    split_ifs <;> rfl
  | setPosition offset => rfl
  | peak | pop | find | writev => exact absurd trivial hreads

end PagedLog

end Coypu
