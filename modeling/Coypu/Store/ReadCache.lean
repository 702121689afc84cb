import Coypu.Library.CInt
import Mathlib.Data.List.Range
import Mathlib.Tactic.SplitIfs

/-!
# Page caches

A log reads through a cache of pages. `LRUCache` maps the pages of a file and remaps the slot that
was used least recently; `OneShotCache` holds the pages that were written and drops all before the
one it is asked for. A page is given by the offset of its first byte. Both look pages up by a 32-bit
number: the number of the page or, in a `OneShotCache`, its offset.

The pages of a `OneShotCache` are consecutive, and so are those that are left.
-/

set_option autoImplicit false

namespace Coypu

/-- What a log asks of its cache. A page that is found is given by its offset. -/
class ReadCache (C : Type*) where
  peakPage : C → ℕ → Option ℕ × C
  findPage : C → ℕ → Option ℕ × C
  addPage : C → ℕ → C

/-- A page with the number it is looked up by. -/
structure CachedPage where
  key : ℕ
  base : ℕ
deriving DecidableEq, Repr

/-! ## The cache of a file -/

/-- The slots, that used last first. -/
structure LRUCache (cacheSize : ℕ) where
  pageSize : ℕ
  slots : List CachedPage

namespace LRUCache

variable {cacheSize : ℕ} (c : LRUCache cacheSize)

def new (cacheSize pageSize : ℕ) : LRUCache cacheSize := ⟨pageSize, []⟩

/-- `FindPage`: the slot of the page goes to the front. If there is none, the last slot is used
again when there is no other. -/
def findPage (offset : ℕ) : Option ℕ × LRUCache cacheSize :=
  let pageIndex := CInt.toUnsigned 32 (offset / c.pageSize : ℕ)
  match c.slots.find? fun page ↦ page.key = pageIndex with
  | some page =>
    (some page.base,
      { c with slots := page :: c.slots.eraseP fun page ↦ page.key = pageIndex })
  | none =>
    let kept := if c.slots.length = cacheSize then c.slots.dropLast else c.slots
    (some (pageIndex * c.pageSize),
      { c with slots := ⟨pageIndex, pageIndex * c.pageSize⟩ :: kept })

instance : ReadCache (LRUCache cacheSize) where
  peakPage := findPage
  findPage := findPage
  addPage c _ := c

end LRUCache

/-! ## The cache of a stream that is read once -/

structure OneShotCache where
  pageSize : ℕ
  pages : List CachedPage

namespace OneShotCache

variable (c : OneShotCache)

def new (pageSize : ℕ) : OneShotCache := ⟨pageSize, []⟩

def peakPage (offset : ℕ) : Option ℕ × OneShotCache :=
  ((c.pages.find? fun page ↦ page.key ≤ offset ∧ offset < page.key + c.pageSize).map
    CachedPage.base, c)

/-- The pages after `FindPage`. -/
def release (offset : ℕ) : OneShotCache :=
  { c with pages := c.pages.dropWhile fun page ↦ page.key + c.pageSize ≤ offset }

def findPage (offset : ℕ) : Option ℕ × OneShotCache :=
  match (c.release offset).pages with
  | [] => (none, c.release offset)
  | page :: _ =>
    (if page.key ≤ offset ∧ offset < page.key + c.pageSize then some page.base else none,
      c.release offset)

/-- `AddPage`, which asserts that pages come in order. The offset becomes a 32-bit key. -/
def addPage (offset : ℕ) : OneShotCache :=
  { c with pages := c.pages ++ [⟨CInt.toUnsigned 32 offset, offset⟩] }

instance : ReadCache OneShotCache where
  peakPage := peakPage
  findPage := findPage
  addPage := addPage

/-! ### Consecutive pages -/

/-- The page with a number. -/
def page (pageSize k : ℕ) : CachedPage := ⟨CInt.toUnsigned 32 (k * pageSize : ℕ), k * pageSize⟩

/-- The pages from number `first` on and before `next`. -/
def run (pageSize first next : ℕ) : List CachedPage :=
  (List.range' first (next - first)).map (page pageSize)

variable {c} {pageSize first next offset : ℕ}

theorem key_le (pageSize k : ℕ) : (page pageSize k).key ≤ k * pageSize :=
  CInt.toUnsigned_natCast_le 32 _

theorem mem_run {p : CachedPage} :
    p ∈ run pageSize first next ↔ ∃ k, first ≤ k ∧ k < next ∧ p = page pageSize k := by
  rw [run, List.mem_map]
  constructor
  · rintro ⟨k, hk, rfl⟩
    rw [List.mem_range'_1] at hk
    exact ⟨k, hk.1, by omega, rfl⟩
  · rintro ⟨k, h₁, h₂, rfl⟩
    exact ⟨k, List.mem_range'_1.mpr ⟨h₁, by omega⟩, rfl⟩

theorem run_eq_nil (h : next ≤ first) : run pageSize first next = [] := by
  rw [run, Nat.sub_eq_zero_of_le h, List.range'_zero, List.map_nil]

theorem run_append {k : ℕ} (h₁ : first ≤ k) (h₂ : k ≤ next) :
    run pageSize first next = run pageSize first k ++ run pageSize k next := by
  have hlen : next - first = (k - first) + (next - k) := by omega
  have hstart : first + (k - first) = k := by omega
  rw [run, run, run, ← List.map_append, hlen, ← List.range'_append_1, hstart]

theorem run_cons (h : first < next) :
    run pageSize first next = page pageSize first :: run pageSize (first + 1) next := by
  have hlen : next - first = (next - (first + 1)) + 1 := by omega
  rw [run, hlen, List.range'_succ, List.map_cons, run]

theorem run_succ (h : first ≤ next) :
    run pageSize first (next + 1) = run pageSize first next ++ [page pageSize next] := by
  rw [run_append h (Nat.le_succ next), run_cons (Nat.lt_succ_self next), run_eq_nil (Nat.le_refl _)]

/-- A cache that holds the pages from number `first` on and before `next`. -/
def holding (pageSize first next : ℕ) : OneShotCache := ⟨pageSize, run pageSize first next⟩

theorem addPage_holding (h : first ≤ next) :
    (holding pageSize first next).addPage (next * pageSize) = holding pageSize first
    (next + 1) := by
  rw [addPage, holding, holding, run_succ h]
  rfl

theorem release_append {ps qs : List CachedPage} (h : ∀ p ∈ ps, p.key + pageSize ≤ offset) :
    (release ⟨pageSize, ps ++ qs⟩ offset) = release ⟨pageSize, qs⟩ offset := by
  rw [release, release, mk.injEq]
  exact ⟨rfl, List.dropWhile_append_of_pos fun p hp ↦ decide_eq_true (h p hp)⟩

theorem key_add_le {k : ℕ} (h : (k + 1) * pageSize ≤ offset) :
    (page pageSize k).key + pageSize ≤ offset := by
  have hkey := key_le pageSize k
  rw [Nat.add_one_mul] at h
  omega

/-- All pages before the one with number `k` end at or before its first byte. -/
theorem run_le {k : ℕ} (h : k * pageSize ≤ offset) {p : CachedPage}
    (hp : p ∈ run pageSize first k) : p.key + pageSize ≤ offset := by
  obtain ⟨i, -, hi, rfl⟩ := mem_run.mp hp
  exact key_add_le (Nat.le_trans (Nat.mul_le_mul_right _ hi) h)

/-- The page that holds the offset is found, and those before it are dropped. -/
theorem findPage_holding (hfirst : first ≤ offset / pageSize) (hnext : offset / pageSize < next)
    (hkey : offset < (page pageSize (offset / pageSize)).key + pageSize) :
    (holding pageSize first next).findPage offset
      = (some (offset / pageSize * pageSize), holding pageSize (offset / pageSize) next) := by
  have hle := Nat.div_mul_le_self offset pageSize
  have hbase := key_le pageSize (offset / pageSize)
  have hrelease : (holding pageSize first next).release offset
      = holding pageSize (offset / pageSize) next := by
    rw [holding, run_append hfirst (Nat.le_of_lt hnext), release_append fun p hp ↦ run_le hle hp,
      run_cons hnext, release, List.dropWhile_cons_of_neg (by simpa using hkey), ← run_cons hnext,
      holding]
  rw [findPage, hrelease, holding, run_cons hnext]
  simp only
  rw [if_pos ⟨by omega, hkey⟩, page]

theorem findPage_behind (h : next * pageSize ≤ offset) :
    (holding pageSize first next).findPage offset = (none, holding pageSize next next) := by
  have hrelease : (holding pageSize first next).release offset = holding pageSize next next := by
    have hdrop : release ⟨pageSize, run pageSize first next ++ []⟩ offset
      = release ⟨pageSize, []⟩ offset :=
      release_append fun p hp ↦ run_le h hp
    rw [List.append_nil] at hdrop
    rw [holding, hdrop, holding, run_eq_nil (Nat.le_refl _), release, List.dropWhile_nil]
  rw [findPage, hrelease, holding, run_eq_nil (Nat.le_refl _)]

theorem findPage_before (hnext : first < next) (hkey : (page pageSize first).key = first * pageSize)
    (h : offset < first * pageSize) :
    (holding pageSize first next).findPage offset = (none, holding pageSize first next) := by
  have hrelease : (holding pageSize first next).release offset = holding pageSize first next := by
    rw [holding, run_cons hnext, release, List.dropWhile_cons_of_neg (by simp [hkey]; omega)]
  rw [findPage, hrelease, holding, run_cons hnext]
  simp only
  rw [if_neg (by omega)]

theorem peakPage_holding (hfirst : first ≤ offset / pageSize) (hnext : offset / pageSize < next)
    (hkey : offset < (page pageSize (offset / pageSize)).key + pageSize) :
    (holding pageSize first next).peakPage offset
      = (some (offset / pageSize * pageSize), holding pageSize first next) := by
  have hle := Nat.div_mul_le_self offset pageSize
  have hbase := key_le pageSize (offset / pageSize)
  have hnone : (run pageSize first (offset / pageSize)).find?
      (fun p ↦ p.key ≤ offset ∧ offset < p.key + pageSize) = none := by
    rw [List.find?_eq_none]
    intro p hp
    have hend := run_le hle hp
    simp
    omega
  rw [peakPage, holding]
  simp only
  rw [run_append hfirst (Nat.le_of_lt hnext), List.find?_append, hnone, run_cons hnext,
    List.find?_cons_of_pos (by simp; omega)]
  rfl

end OneShotCache

end Coypu
