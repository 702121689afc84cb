import Coypu.Library.Run
import Coypu.Store.ReadCache

/-!
# The offsets a one-shot cache can be asked for

Pages are added one behind the other, and the offsets asked for do not decrease. Each request for an
offset in a page finds that page and keeps all pages that end behind the offset, exactly if the
offset lies before the end of the page counted from its 32-bit key (`KeyFits`). In the first `2³²`
bytes it does.
-/

set_option autoImplicit false

namespace Coypu

/-- What a cache is asked to do: add the next page, or look for the page of an offset. -/
inductive PageOp where
  | add
  | find (offset : ℕ)
  | peak (offset : ℕ)

/-- A cache, the number of the next page, and the last offset asked for. -/
structure Paging where
  cache : OneShotCache
  next : ℕ
  asked : ℕ

namespace Paging

variable {s : Paging} {pageSize : ℕ}

/-- A cache before the first page is added. -/
def new (pageSize : ℕ) : Paging := ⟨OneShotCache.new pageSize, 0, 0⟩

/-- A step and the page it found. -/
def step (s : Paging) : PageOp → Paging × Option ℕ
  | .add => (⟨s.cache.addPage (s.next * s.cache.pageSize), s.next + 1, s.asked⟩, none)
  | .find offset => (⟨(s.cache.findPage offset).2, s.next, offset⟩, (s.cache.findPage offset).1)
  | .peak offset => (⟨(s.cache.peakPage offset).2, s.next, offset⟩, (s.cache.peakPage offset).1)

/-- The offset that is asked for. -/
def target : PageOp → Option ℕ
  | .add => none
  | .find offset | .peak offset => some offset

/-- An offset in a page added finds the page, and no page that ends behind the offset is
released. -/
def Serves (s : Paging) (op : PageOp) : Prop :=
  ∀ offset, target op = some offset →
    (offset < s.next * s.cache.pageSize →
      (s.step op).2 = some (offset / s.cache.pageSize * s.cache.pageSize)) ∧
    ∀ page ∈ s.cache.pages, offset < page.base + s.cache.pageSize →
      page ∈ (s.step op).1.cache.pages

/-- The offset asked for is no smaller than the last one. -/
def Ascends (s : Paging) (op : PageOp) : Prop := ∀ offset, target op = some offset →
    s.asked ≤ offset

/-- An offset in a page added lies before the end of the page counted from the key. -/
def KeyFits (s : Paging) (op : PageOp) : Prop :=
  ∀ offset, target op = some offset → offset < s.next * s.cache.pageSize →
    offset < (OneShotCache.page s.cache.pageSize (offset / s.cache.pageSize)).key + s.cache.pageSize

/-- The cache holds the pages from one at or before the last offset on. -/
def Holds (pageSize : ℕ) (s : Paging) : Prop :=
  ∃ first, s.cache = OneShotCache.holding pageSize first s.next ∧
    first ≤ s.next ∧ first ≤ s.asked / pageSize

theorem holds_new : (new pageSize).Holds pageSize :=
  ⟨0, rfl, Nat.le_refl _, Nat.zero_le _⟩

end Paging

namespace OneShotCache

variable {pageSize first next offset : ℕ}

theorem peakPage_ne (hkey : (page pageSize (offset / pageSize)).key + pageSize ≤ offset)
    (hpage : 0 < pageSize) :
    ((holding pageSize first next).peakPage offset).1 ≠ some (offset / pageSize * pageSize) := by
  intro h
  obtain ⟨p, hp, hbase⟩ := Option.map_eq_some_iff.mp h
  have hmatch := List.find?_some hp
  rw [decide_eq_true_iff] at hmatch
  obtain ⟨k, -, -, rfl⟩ := mem_run.mp (List.mem_of_find?_eq_some hp)
  obtain rfl : k = offset / pageSize := Nat.eq_of_mul_eq_mul_right hpage hbase
  exact Nat.not_lt_of_le hkey hmatch.2

theorem not_mem_release (hfirst : first ≤ offset / pageSize) (hnext : offset / pageSize < next)
    (hkey : (page pageSize (offset / pageSize)).key + pageSize ≤ offset) (hpage : 0 < pageSize) :
    page pageSize (offset / pageSize) ∉ ((holding pageSize first next).release offset).pages := by
  have hrelease : (holding pageSize first next).release offset
      = release (holding pageSize (offset / pageSize + 1) next) offset := by
    rw [holding, run_append (Nat.le_succ_of_le hfirst) hnext, release_append fun p hp ↦ ?_, holding]
    rw [run_succ hfirst] at hp
    rcases List.mem_append.mp hp with hp | hp
    · exact run_le (Nat.div_mul_le_self offset pageSize) hp
    · rwa [List.mem_singleton.mp hp]
  rw [hrelease]
  intro hmem
  obtain ⟨k, hk, -, heq⟩ := mem_run.mp ((List.dropWhile_sublist _).mem hmem)
  have hbase := congrArg CachedPage.base heq
  have hsame := Nat.eq_of_mul_eq_mul_right hpage hbase
  omega

end OneShotCache

namespace Paging

variable {s : Paging} {pageSize : ℕ}

open OneShotCache

theorem Holds.page_mem (hs : s.Holds pageSize) {op : PageOp} (hasc : s.Ascends op) {offset : ℕ}
    (htarget : target op = some offset) (hlt : offset < s.next * pageSize) :
    ∃ first, s.cache = holding pageSize first s.next ∧ first ≤ offset / pageSize ∧
      offset / pageSize < s.next := by
  obtain ⟨first, hcache, -, hfirst⟩ := hs
  refine ⟨first, hcache, Nat.le_trans hfirst (Nat.div_le_div_right (hasc offset htarget)), ?_⟩
  rw [Nat.mul_comm] at hlt
  exact Nat.div_lt_of_lt_mul hlt

/-- A page that ends behind the offset is the one that holds it or a later one. -/
theorem mem_run_of_lt {first next offset : ℕ} {p : CachedPage} (hp : p ∈ run pageSize first next)
    (hpage : 0 < pageSize) (h : offset < p.base + pageSize) :
    p ∈ run pageSize (offset / pageSize) next := by
  obtain ⟨k, -, hk, rfl⟩ := mem_run.mp hp
  have hlt : offset < (k + 1) * pageSize := by
    rw [Nat.add_one_mul]
    exact h
  have hdiv := (Nat.div_lt_iff_lt_mul hpage).mpr hlt
  exact mem_run.mpr ⟨k, by omega, hk, rfl⟩

/-- A request for an offset that fits is served, and the cache holds what it should. -/
theorem Holds.step (hs : s.Holds pageSize) (hpage : 0 < pageSize) {op : PageOp}
    (hasc : s.Ascends op) (hfits : s.KeyFits op) : (s.step op).1.Holds pageSize ∧ s.Serves op := by
  obtain ⟨first, hcache, hle, hfirst⟩ := hs
  have hsize : s.cache.pageSize = pageSize := by rw [hcache, holding]
  cases op with
  | add =>
    refine ⟨⟨first, ?_, Nat.le_succ_of_le hle, hfirst⟩, fun offset h ↦ absurd h (by simp [target])⟩
    rw [Paging.step, hsize, hcache, addPage_holding hle]
  | find offset =>
    have hdiv := Nat.div_le_div_right (c := pageSize) (hasc offset rfl)
    by_cases hlt : offset < s.next * pageSize
    · have hnext : offset / pageSize < s.next := (Nat.div_lt_iff_lt_mul hpage).mpr hlt
      have hkey := hfits offset rfl
      rw [hsize] at hkey
      have hfind := findPage_holding (Nat.le_trans hfirst hdiv) hnext (hkey hlt)
      rw [Paging.step, hcache, hfind]
      refine ⟨⟨_, rfl, Nat.le_of_lt hnext, Nat.le_refl _⟩, fun o ho ↦ ?_⟩
      obtain rfl : offset = o := Option.some.inj ho
      rw [Paging.step, hcache, hfind]
      exact ⟨fun _ ↦ rfl, fun p hp hend ↦ mem_run_of_lt hp hpage hend⟩
    · have hle' : s.next * pageSize ≤ offset := Nat.le_of_not_lt hlt
      have hfind : (holding pageSize first s.next).findPage offset
        = (none, holding pageSize s.next s.next) :=
        findPage_behind hle'
      have hnext : s.next ≤ offset / pageSize := (Nat.le_div_iff_mul_le hpage).mpr hle'
      rw [Paging.step, hcache, hfind]
      refine ⟨⟨_, rfl, Nat.le_refl _, hnext⟩, fun o ho ↦ ?_⟩
      obtain rfl : offset = o := Option.some.inj ho
      rw [Paging.step, hcache, hfind]
      refine ⟨fun h ↦ absurd h hlt, fun p hp hend ↦ ?_⟩
      obtain ⟨k, hk, hk', -⟩ := mem_run.mp (mem_run_of_lt hp hpage hend)
      omega
  | peak offset =>
    have hdiv := Nat.div_le_div_right (c := pageSize) (hasc offset rfl)
    refine ⟨⟨first, hcache, hle, Nat.le_trans hfirst hdiv⟩, fun o ho ↦ ?_⟩
    obtain rfl : offset = o := Option.some.inj ho
    refine ⟨fun hlt ↦ ?_, fun p hp _ ↦ hp⟩
    have hkey := hfits offset rfl hlt
    rw [hsize] at hlt hkey
    have hnext : offset / pageSize < s.next := (Nat.div_lt_iff_lt_mul hpage).mpr hlt
    rw [Paging.step, hsize, hcache, peakPage_holding (Nat.le_trans hfirst hdiv) hnext hkey]

theorem Holds.fits_of_serves (hs : s.Holds pageSize) (hpage : 0 < pageSize) {op : PageOp}
    (hasc : s.Ascends op) (hserves : s.Serves op) : s.KeyFits op := by
  intro offset htarget hlt
  have hsize : s.cache.pageSize = pageSize := by
    obtain ⟨first, hcache, -⟩ := hs
    rw [hcache, holding]
  obtain ⟨hfound, hkept⟩ := hserves offset htarget
  rw [hsize] at hlt hfound ⊢
  obtain ⟨first, hcache, hfirst, hnext⟩ := hs.page_mem hasc htarget hlt
  by_contra hkey
  rw [Nat.not_lt] at hkey
  cases op with
  | add => exact absurd htarget (by simp [target])
  | find o =>
    obtain rfl : o = offset := Option.some.inj htarget
    have hin : page pageSize (o / pageSize) ∈ s.cache.pages := by
      rw [hcache]
      exact mem_run.mpr ⟨_, hfirst, hnext, rfl⟩
    have hafter := hkept _ hin (by rw [hsize]; exact Nat.lt_div_mul_add hpage)
    simp only [Paging.step, hcache, OneShotCache.findPage] at hafter
    refine not_mem_release hfirst hnext hkey hpage ?_
    split at hafter <;> exact hafter
  | peak o =>
    obtain rfl : o = offset := Option.some.inj htarget
    rw [Paging.step, hcache] at hfound
    exact peakPage_ne hkey hpage (hfound hlt)

/-- **Requests are served** exactly if their offsets fit. -/
theorem run_serves_iff (hpage : 0 < pageSize) {ops : List PageOp}
    (hasc : Run.Steps step Ascends (new pageSize) ops) :
    Run.Steps step Serves (new pageSize) ops ↔ Run.Steps step KeyFits (new pageSize) ops := by
  have hboth : Run.Steps step (fun s op ↦ s.Ascends op ∧ s.Serves op) (new pageSize) ops
      ↔ Run.Steps step (fun s op ↦ s.Ascends op ∧ s.KeyFits op) (new pageSize) ops :=
    Run.steps_iff_of_invariant (fun s op hs hok ↦ (Holds.step hs hpage hok.1 hok.2).1)
      (fun s op hs ↦ and_congr_right fun hasc ↦ ⟨Holds.fits_of_serves hs hpage hasc,
        fun hfits ↦ (Holds.step hs hpage hasc hfits).2⟩) holds_new
  rw [Run.steps_and, Run.steps_and] at hboth
  exact ⟨fun h ↦ (hboth.mp ⟨hasc, h⟩).2, fun h ↦ (hboth.mpr ⟨hasc, h⟩).2⟩

/-- Two pages, a byte of the first and one of the second. -/
theorem run_serves_two :
    Run.Steps step Serves (new 4096) [.add, .add, .peak 1, .find 1, .find 4096] := by
  refine (run_serves_iff (by decide) ?_).mpr ?_
  · refine ⟨?_, ?_, ?_, ?_, ?_, trivial⟩ <;> rintro offset ⟨⟩ <;> decide
  · refine ⟨?_, ?_, ?_, ?_, ?_, trivial⟩ <;> rintro offset ⟨⟩ <;> decide

/-- Pages of `2³¹` bytes: the request for the first byte of the third releases it. -/
theorem not_serves_of_large :
    ¬∀ pageSize ops, 0 < pageSize → Run.Steps step Ascends (new pageSize) ops →
      Run.Steps step Serves (new pageSize) ops := by
  intro h
  have hsteps := h (2 ^ 31) [.add, .add, .add, .find (2 ^ 32)] (by decide)
    ⟨by rintro offset ⟨⟩, by rintro offset ⟨⟩, by rintro offset ⟨⟩, by rintro offset ⟨⟩; decide,
      trivial⟩
  exact absurd ((hsteps.2.2.2.1 (2 ^ 32) rfl).1 (by decide)) (by decide)

end Paging

end Coypu
