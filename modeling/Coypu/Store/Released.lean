import Coypu.Library.Run
import Coypu.Store.SeenPages
import Coypu.Store.StreamLog

/-!
# Reading a stream in any order

A read releases the pages before the one it asks for. `Pop` passes over a page that was released and
goes on with the first one that is left, so it may fill its destination with bytes from elsewhere.
It gives the bytes that were pushed exactly where the page of its first byte is left and it ends
with the log, or the pages that are left do not hold as much, or there is nothing to read
(`PopsPushed`, `StartHeld`).

The page of the writer is never released while there is room in it.
-/

set_option autoImplicit false

namespace Coypu

open FlatMemory LogWriteBuf OneShotCache

/-- The page that is written to is held. -/
def WriterHeld (r : LogWriteBuf × OneShotCache) : Prop :=
  r.1.isFull = false → ∃ page, r.1.dataPage = some page ∧
    Kept r.1.pageSize r.2 (page / r.1.pageSize)

namespace Streaming

variable {origin : ℕ} {r : LogWriteBuf × OneShotCache}

theorem makeRoom_held (h : Streaming origin r) (hheld : WriterHeld r) :
    WriterHeld (LogWriteBuf.makeRoom ReadCache.addPage r) := by
  by_cases hfull : r.1.isFull = true
  · obtain ⟨first, next, -, -, hnext, -⟩ := h.exists_holding
    rw [makeRoom_of_full hfull]
    refine fun _ ↦ ⟨r.1.offset, rfl, ?_⟩
    have hdiv : r.1.offset / r.1.pageSize = next := by
      rw [← hnext, Nat.mul_div_cancel _ r.1.pageSize_pos]
    have hpage : page r.1.pageSize next = ⟨CInt.toUnsigned 32 r.1.offset, r.1.offset⟩ := by
      rw [page, hnext]
    have hmem : page r.1.pageSize next ∈ (r.2.addPage r.1.offset).pages := by
      rw [hpage]
      exact List.mem_append_right _ List.mem_cons_self
    rw [← hdiv] at hmem
    exact hmem
  · rw [Bool.not_eq_true] at hfull
    rwa [makeRoom_of_not_full hfull]

theorem push_held (h : Streaming origin r) {l : List UInt8}
    (hfits : PagesFit r.1.pageSize (r.1.tell + l.length)) (hheld : WriterHeld r) :
    WriterHeld (l.foldl (pushByte ReadCache.addPage) r) := by
  induction l generalizing r with
  | nil => exact hheld
  | cons x l ih =>
    rw [List.length_cons] at hfits
    obtain ⟨-, htell, -⟩ := h.appending.pushByte (f := ReadCache.addPage) x
    have hpage : (pushByte ReadCache.addPage r x).1.pageSize = r.1.pageSize := by
      rw [pushByte, fill_pageSize, makeRoom_pageSize]
    have hone : PagesFit r.1.pageSize (r.1.tell + [x].length) :=
      hfits.mono (by rw [List.length_singleton]; omega)
    refine ih (h.push hone) ?_ fun _ ↦ h.makeRoom_held hheld makeRoom_not_full
    rwa [htell, hpage, Nat.add_assoc, Nat.add_comm 1]

/-- A look-up for a page no later than the one with the end of the log leaves the writer its
page. -/
theorem findPage_held (h : Streaming origin r) (hheld : WriterHeld r) {k : ℕ}
    (hk : k ≤ r.1.tell / r.1.pageSize) :
    WriterHeld (r.1, (r.2.findPage (k * r.1.pageSize)).2) := by
  intro hfull
  obtain ⟨page, hpage, hkept⟩ := hheld hfull
  refine ⟨page, hpage, (kept_findPage r.1.pageSize_pos h.sound ?_).mpr hkept⟩
  have hend := h.appending.page_eq page hpage
  have hdvd := h.appending.dvd
  rw [← hend, Nat.dvd_add_left (Nat.dvd_refl _)] at hdvd
  obtain ⟨q, rfl⟩ := hdvd
  have hpos : r.1.position < r.1.pageSize :=
    Nat.lt_of_le_of_ne h.appending.position_le (isFull_eq_false_iff.mp hfull).2
  rw [tell_of_page hpage, Nat.mul_add_div r.1.pageSize_pos, Nat.div_eq_of_lt hpos, Nat.add_zero]
    at hk
  rwa [Nat.mul_div_cancel _ r.1.pageSize_pos, Nat.mul_div_cancel_left _ r.1.pageSize_pos]

end Streaming

/-- A log and the bytes that were pushed. -/
structure PushedLog (cacheSize : ℕ) where
  log : PagedLog OneShotCache cacheSize
  pushed : List UInt8

namespace PushedLog

variable {cacheSize origin : ℕ} {s : PushedLog cacheSize}

/-- A request and its answer. -/
def step (s : PushedLog cacheSize) (op : LogRequest) : PushedLog cacheSize × LogAnswer :=
  (⟨(s.log.step op).1, match op with
    | .push l => s.pushed ++ l
    | _ => s.pushed⟩, (s.log.step op).2)

/-- The requests are `Push`, `Find`, `Peak` and `Pop`, for offsets in the log. -/
def InLog (s : PushedLog cacheSize) : LogRequest → Prop
  | .push _ => True
  | .peak offset | .pop offset _ | .find offset _ => offset < s.log.available
  | _ => False

def Fits (s : PushedLog cacheSize) (op : LogRequest) : Prop := s.log.StreamFits op

/-- A `Pop` that succeeds gives the bytes that were pushed from `origin` on, and no page of its
range was released. -/
def PopsPushed (origin : ℕ) (s : PushedLog cacheSize) : LogRequest → Prop
  | .pop start size => ∃ r s', s.log.pop start size = some (r, s') ∧ ∀ l, r = some l →
      l.length = size ∧ ∀ i, i < size → origin ≤ start + i ∧ s.pushed[start + i - origin]? = l[i]? ∧
        Kept s.log.pageSize s.log.cache ((start + i) / s.log.pageSize)
  | _ => True

/-- There is nothing to read, or the pages that are left do not hold as much, or the page of the
first byte is left and the range ends with the log. -/
def StartHeld (s : PushedLog cacheSize) : LogRequest → Prop
  | .pop start size => size = 0 ∨ ¬s.log.PagesHold start size ∨
      (start + size ≤ s.log.available ∧
        Kept s.log.pageSize s.log.cache (start / s.log.pageSize))
  | _ => True

/-- The log holds what was pushed behind its origin. -/
structure Inv (origin : ℕ) (s : PushedLog cacheSize) : Prop where
  streaming : Streaming origin (s.log.writeBuf, s.log.cache)
  tell_eq : s.log.writeBuf.tell = s.log.available
  origin_le : origin ≤ s.log.available
  pushed_eq : load s.log.file.data origin (s.log.available - origin) = s.pushed
  held : WriterHeld (s.log.writeBuf, s.log.cache)

namespace Inv

theorem writable (h : Inv origin s) : s.log.Writable :=
  ⟨h.streaming.appending, h.streaming.readOnly_eq, h.tell_eq⟩

theorem of_kept (h : Inv origin s) {k : ℕ} (hk : Kept s.log.pageSize s.log.cache k) :
    (k + 1) * s.log.pageSize ≤ s.log.file.extent PagedLog.systemPage ∧
    origin ≤ k * s.log.pageSize := by
  obtain ⟨first, next, hle, hholding, hnext, horigin⟩ := h.streaming.exists_holding
  simp only at hholding hnext horigin
  rw [hholding] at hk
  obtain ⟨h₁, h₂⟩ := (kept_holding s.log.pageSize_pos).mp hk
  constructor
  · refine Nat.le_trans ?_ (MappedFile.size_le_extent (by decide))
    rw [PagedLog.file, h.streaming.appending.size_eq, ← hnext]
    exact Nat.mul_le_mul_right _ h₂
  · exact Nat.le_trans horigin (Nat.mul_le_mul_right _ h₁)

theorem getElem_pushed (h : Inv origin s) {o : ℕ} (ho : origin ≤ o) (hlt : o < s.log.available) :
    s.pushed[o - origin]? = some (s.log.file.data o) := by
  have hlen : o - origin < s.pushed.length := by
    rw [← h.pushed_eq, length_load]
    omega
  rw [List.getElem?_eq_getElem hlen]
  simp only [← h.pushed_eq, getElem_load, Nat.add_sub_cancel' ho]

theorem length_pushed (h : Inv origin s) : s.pushed.length = s.log.available - origin := by
  rw [← h.pushed_eq, length_load]

/-- **`Pop` gives what was pushed** exactly if the page of its first byte is left and the range is
in the log, or nothing can or has to be read. -/
theorem popsPushed_iff (h : Inv origin s) {op : LogRequest} (hfits : s.Fits op) :
    s.PopsPushed origin op ↔ s.StartHeld op := by
  cases op with
  | pop start size =>
    have hc := h.streaming.sound
    have hsucceeds : (∃ l s', s.log.pop start size = some (some l, s')) ↔
      s.log.PagesHold start size :=
      PagedLog.pop_succeeds_iff hc hfits
    constructor
    · rintro ⟨r, s', hpop, hr⟩
      by_cases hsize : size = 0
      · exact Or.inl hsize
      refine Or.inr (or_iff_not_imp_left.mpr fun hhold ↦ ?_)
      obtain ⟨l, s'', hsome⟩ := hsucceeds.mpr (not_not.mp hhold)
      rw [hsome] at hpop
      obtain ⟨rfl, -⟩ := Prod.mk.inj (Option.some.inj hpop)
      obtain ⟨hlen, hbytes⟩ := hr l rfl
      -- the last byte was pushed, and the first page is left
      obtain ⟨horigin, hlast, -⟩ := hbytes (size - 1) (by omega)
      rw [List.getElem?_eq_getElem (by omega : size - 1 < l.length)] at hlast
      obtain ⟨hlt, -⟩ := List.getElem?_eq_some_iff.mp hlast
      rw [h.length_pushed] at hlt
      have hfirst := (hbytes 0 (by omega)).2.2
      rw [Nat.add_zero] at hfirst
      exact ⟨by omega, hfirst⟩
    · intro hcond
      obtain ⟨r, s', hpop⟩ := PagedLog.pop_returns hc hfits (fun k hk ↦ (h.of_kept hk).1) start size
      refine ⟨r, s', hpop, fun l hl ↦ ?_⟩
      rw [hl] at hpop
      have hlen := PagedLog.length_of_pop hc hfits hpop
      refine ⟨hlen, fun i hi ↦ ?_⟩
      have hhold := hsucceeds.mp ⟨l, s', hpop⟩
      rcases hcond with hsize | hnot | ⟨hend, hkept⟩
      · omega
      · exact absurd hhold hnot
      obtain ⟨x, hx, hleast, hall⟩ := hhold
      have hsees : s.log.Sees start start :=
        ⟨Nat.le_refl _, Nat.le_trans (Nat.div_le_div_right hx.1) hx.2.1, hkept⟩
      obtain rfl : x = start := Nat.le_antisymm (hleast _ hsees) hx.1
      have horigin := Nat.le_trans (h.of_kept hkept).2 (Nat.div_mul_le_self x s.log.pageSize)
      have hload := PagedLog.eq_load_of_pop hc hfits hpop hsees
      refine ⟨by omega, ?_, (hall (x + i) (by omega) (by omega)).1.2.2⟩
      rw [h.getElem_pushed (by omega) (by omega), hload,
        List.getElem?_eq_getElem (by rw [length_load]; omega), getElem_load]
  | _ => exact Iff.rfl

theorem of_cache (h : Inv origin s) {c : OneShotCache}
    (hc : Streaming origin (s.log.writeBuf, c) ∧ WriterHeld (s.log.writeBuf, c)) :
    Inv origin (⟨{ s.log with cache := c }, s.pushed⟩ : PushedLog cacheSize) :=
  ⟨hc.1, h.tell_eq, h.origin_le, h.pushed_eq, hc.2⟩

theorem step (h : Inv origin s) {op : LogRequest} (hin : s.InLog op) (hfits : s.Fits op) :
    Inv origin (s.step op).1 := by
  -- a read changes the cache page by page, and each page keeps both
  have hread (c : OneShotCache) (k : ℕ) (hk : k ≤ s.log.page s.log.available)
      (hc : Streaming origin (s.log.writeBuf, c) ∧ WriterHeld (s.log.writeBuf, c)) :
      Streaming origin (s.log.writeBuf, (ReadCache.findPage c (k * s.log.pageSize)).2) ∧
        WriterHeld (s.log.writeBuf, (ReadCache.findPage c (k * s.log.pageSize)).2) := by
    refine ⟨hc.1.findPage _, hc.1.findPage_held hc.2 (Nat.le_trans hk ?_)⟩
    simp only [h.tell_eq]
    exact CInt.toUnsigned_natCast_le 32 _
  by_cases hreads : op.Reads
  · obtain ⟨c, hs, hc⟩ := PagedLog.step_of_reads hreads
      (P := fun c ↦ Streaming origin (s.log.writeBuf, c) ∧ WriterHeld (s.log.writeBuf, c)) hread
      (fun _ _ hc ↦ hc) ⟨h.streaming, h.held⟩
    have hpushed : (s.step op).1.pushed = s.pushed := by
      cases op with
      | push => exact absurd hreads id
      | _ => rfl
    have hstep : (s.step op).1 = ⟨{ s.log with cache := c }, s.pushed⟩ := by
      rw [← hs, ← hpushed]
      rfl
    rw [hstep]
    exact h.of_cache hc
  cases op with
  | push l =>
    obtain ⟨-, hext, hpair⟩ := h.writable.push l
    refine ⟨PagedLog.streaming_step h.streaming (Or.inr hfits), hext.writable.tell_eq, ?_, ?_, ?_⟩
    · have havail := hext.available_eq
      have hle := h.origin_le
      simp only [PushedLog.step, PagedLog.step]
      omega
    · have hload := hext.load_eq h.origin_le
      rw [h.pushed_eq] at hload
      exact hload
    · have hheld := h.streaming.push_held hfits h.held
      rw [← hpair] at hheld
      exact hheld
  | peak | pop | find => exact absurd trivial hreads
  | _ => exact absurd hin id

end Inv

/-- A stream before anything is pushed. -/
def new (cacheSize pageSize : ℕ) (hpage : 0 < pageSize) (first : ℕ) : PushedLog cacheSize :=
  ⟨PagedLog.ofStream cacheSize pageSize hpage first, []⟩

theorem inv_new {pageSize : ℕ} (hpage : 0 < pageSize) (first : ℕ) :
    Inv (first * pageSize) (new cacheSize pageSize hpage first) := by
  refine ⟨PagedLog.streaming_ofStream hpage first, rfl, Nat.le_refl _, ?_, fun h ↦ ?_⟩
  · have hlen : (new cacheSize pageSize hpage first).log.available - first * pageSize = 0 :=
      Nat.sub_self _
    rw [hlen]
    rfl
  · exact absurd h (show ¬true = false by decide)

/-- **A stream is read right** exactly if each `Pop` begins in a page that is left and ends with the
log, or its pages do not hold as much, or it is for no bytes. -/
theorem run_popsPushed_iff {pageSize : ℕ} (hpage : 0 < pageSize) (first : ℕ) {ops : List LogRequest}
    (hin : Run.Steps step InLog (new cacheSize pageSize hpage first) ops)
    (hfits : Run.Steps step Fits (new cacheSize pageSize hpage first) ops) :
    Run.Steps step (PopsPushed (first * pageSize)) (new cacheSize pageSize hpage first) ops ↔
      Run.Steps step StartHeld (new cacheSize pageSize hpage first) ops :=
  Run.steps_congr_of_invariant (fun _ _ hs hok ↦ Inv.step hs hok.1 hok.2)
    (fun _ _ hs hok ↦ Inv.popsPushed_iff hs hok.2) (inv_new hpage first)
    (Run.steps_and.mpr ⟨hin, hfits⟩)

/-- A page and a byte, which are read over the end of the page. -/
theorem run_popsPushed_two :
    Run.Steps step (PopsPushed 0) (new 4 16 (by decide) 0)
      [.push (List.replicate 17 1), .peak 16, .pop 15 2] := by
  refine (run_popsPushed_iff (show 0 < 16 by decide) 0 ?_ ?_).mpr ?_
  · refine ⟨trivial, ?_, ?_, trivial⟩
    · show 16 < PagedLog.available _
      decide +kernel
    · show 15 < PagedLog.available _
      decide +kernel
  · refine ⟨?_, trivial, ?_, trivial⟩
    · show PagesFit _ _
      decide +kernel
    · show PagedLog.page _ _ + 1 < 2 ^ 32
      decide +kernel
  · refine ⟨trivial, trivial, Or.inr (Or.inr ⟨?_, ?_⟩), trivial⟩
    · decide +kernel
    · show page _ _ ∈ _
      decide +kernel

/-- When the second page was read, the first byte of it passes for the first byte of the first. -/
theorem not_popsPushed_of_released :
    ¬∀ cacheSize pageSize (hpage : 0 < pageSize) (ops : List LogRequest),
      Run.Steps step InLog (new cacheSize pageSize hpage 0) ops →
      Run.Steps step (PopsPushed 0) (new cacheSize pageSize hpage 0) ops := by
  intro h
  have hin : Run.Steps step InLog (new 4 4096 (by decide) 0)
      [.push (List.replicate 4096 1 ++ [2]), .pop 4096 1, .pop 0 1] := by
    refine ⟨trivial, ?_, ?_, trivial⟩
    · show 4096 < PagedLog.available _
      decide +kernel
    · show 0 < PagedLog.available _
      decide +kernel
  obtain ⟨-, -, ⟨r, s', hpop, hr⟩, -⟩ := h 4 4096 (by decide) _ hin
  have hsecond : some r = some (some [2]) :=
    (congrArg (Option.map Prod.fst) hpop).symm.trans (by decide +kernel)
  obtain ⟨-, hbytes⟩ := hr [2] (Option.some.inj hsecond)
  exact absurd (hbytes 0 (by decide)).2.1 (by decide +kernel)

end PushedLog

end Coypu
