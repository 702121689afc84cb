import Coypu.Store.ReadCache

/-!
# What the page caches have in common

A sound cache finds the pages it keeps, by their offsets. What it keeps is a run of page numbers,
and a look-up does not change what it keeps of the page asked for and those behind it. An `LRUCache`
keeps all pages, a `OneShotCache` those of the deque; it is sound while page offsets fit in its
32-bit keys.
-/

set_option autoImplicit false

namespace Coypu

/-- The laws of a cache of pages of a size. -/
class LawfulReadCache (C : Type*) [ReadCache C] where
  Sound : ℕ → C → Prop
  Kept : ℕ → C → ℕ → Prop
  kept_convex : ∀ {P c i j k}, Sound P c → Kept P c i → Kept P c k → i ≤ j → j ≤ k → Kept P c j
  findPage_of_kept : ∀ {P c offset}, 0 < P → Sound P c → offset < 2 ^ 32 * P →
    Kept P c (offset / P) → (ReadCache.findPage c offset).1 = some (offset / P * P)
  findPage_of_not_kept : ∀ {P c offset}, 0 < P → Sound P c → ¬Kept P c (offset / P) →
    (ReadCache.findPage c offset).1 = none
  findPage_sound : ∀ {P c}, 0 < P → Sound P c → ∀ offset, Sound P (ReadCache.findPage c offset).2
  kept_findPage : ∀ {P c offset k}, 0 < P → Sound P c → offset / P ≤ k →
    (Kept P (ReadCache.findPage c offset).2 k ↔ Kept P c k)
  peakPage_of_kept : ∀ {P c offset}, 0 < P → Sound P c → offset < 2 ^ 32 * P →
    Kept P c (offset / P) → (ReadCache.peakPage c offset).1 = some (offset / P * P)
  peakPage_sound : ∀ {P c}, 0 < P → Sound P c → ∀ offset, Sound P (ReadCache.peakPage c offset).2
  kept_peakPage : ∀ {P c k}, 0 < P → Sound P c → ∀ offset,
    (Kept P (ReadCache.peakPage c offset).2 k ↔ Kept P c k)

/-! ## The cache of a file -/

namespace LRUCache

variable {cacheSize : ℕ} {c : LRUCache cacheSize} {pageSize : ℕ}

/-- Each slot maps the page it has the number of. -/
structure Sound (pageSize : ℕ) (c : LRUCache cacheSize) : Prop where
  pageSize_eq : c.pageSize = pageSize
  base_eq : ∀ page ∈ c.slots, page.base = page.key * pageSize

theorem findPage_fst (h : c.Sound pageSize) (offset : ℕ) :
    (c.findPage offset).1 = some (CInt.toUnsigned 32 (offset / pageSize : ℕ) * pageSize) := by
  unfold findPage
  rw [h.pageSize_eq]
  simp only
  cases hfind : c.slots.find? fun page ↦
      page.key = CInt.toUnsigned 32 (offset / pageSize : ℕ) with
  | none => rfl
  | some page =>
    have hkey := List.find?_some hfind
    rw [decide_eq_true_iff] at hkey
    simp only
    rw [h.base_eq page (List.mem_of_find?_eq_some hfind), hkey]

theorem Sound.findPage (h : c.Sound pageSize) (offset : ℕ) :
    (c.findPage offset).2.Sound pageSize := by
  unfold LRUCache.findPage
  simp only
  cases hfind : c.slots.find? fun page ↦
      page.key = CInt.toUnsigned 32 (offset / c.pageSize : ℕ) with
  | none =>
    refine ⟨h.pageSize_eq, fun page hpage ↦ ?_⟩
    rcases List.mem_cons.mp hpage with rfl | hpage
    · rw [h.pageSize_eq]
    · split_ifs at hpage
      · exact h.base_eq page (List.dropLast_subset _ hpage)
      · exact h.base_eq page hpage
  | some page =>
    refine ⟨h.pageSize_eq, fun page' hpage ↦ ?_⟩
    rcases List.mem_cons.mp hpage with rfl | hpage
    · exact h.base_eq _ (List.mem_of_find?_eq_some hfind)
    · exact h.base_eq page' (List.mem_of_mem_eraseP hpage)

theorem findPage_eq (h : c.Sound pageSize) (hpage : 0 < pageSize) {offset : ℕ}
    (hlt : offset < 2 ^ 32 * pageSize) :
    (c.findPage offset).1 = some (offset / pageSize * pageSize) := by
  rw [findPage_fst h, CInt.toUnsigned_natCast ((Nat.div_lt_iff_lt_mul hpage).mpr hlt)]

/-- A page that is looked up is mapped then, and so are those looked up just before it while there
are slots for them. -/
theorem findPage_slots (h : c.Sound pageSize) {offset k : ℕ} {recent rest : List CachedPage}
    (hk : k = CInt.toUnsigned 32 (offset / pageSize : ℕ)) (hslots : c.slots = recent ++ rest)
    (hlen : recent.length < cacheSize) (hnew : ∀ page ∈ recent, page.key ≠ k) :
    ∃ rest', (c.findPage offset).2.slots = (⟨k, k * pageSize⟩ :: recent) ++ rest' := by
  have hmiss (page : CachedPage) (hp : page ∈ recent) : ¬decide (page.key = k) = true := by
    simpa using hnew page hp
  unfold findPage
  rw [h.pageSize_eq, ← hk]
  simp only
  cases hfind : c.slots.find? fun page ↦ page.key = k with
  | none =>
    simp only [hslots]
    split_ifs with hfull
    · have hrest : rest ≠ [] := by
        rintro rfl
        rw [List.append_nil] at hfull
        omega
      exact ⟨rest.dropLast, congrArg _ (List.dropLast_append_of_ne_nil hrest)⟩
    · exact ⟨rest, rfl⟩
  | some page =>
    have hkey := List.find?_some hfind
    rw [decide_eq_true_iff] at hkey
    have hpage : page = ⟨k, k * pageSize⟩ := by
      rw [← hkey, ← h.base_eq page (List.mem_of_find?_eq_some hfind)]
    exact ⟨rest.eraseP fun page ↦ page.key = k, by
      simp only [hslots, hpage, List.eraseP_append_right _ hmiss, List.cons_append]⟩

instance : LawfulReadCache (LRUCache cacheSize) where
  Sound := Sound
  Kept _ _ _ := True
  kept_convex _ _ _ _ _ := trivial
  findPage_of_kept hpage h hlt _ := findPage_eq h hpage hlt
  findPage_of_not_kept _ _ hnot := absurd trivial hnot
  findPage_sound _ h := h.findPage
  kept_findPage _ _ _ := Iff.rfl
  peakPage_of_kept hpage h hlt _ := findPage_eq h hpage hlt
  peakPage_sound _ h := h.findPage
  kept_peakPage _ _ _ := Iff.rfl

end LRUCache

/-! ## The cache of a stream that is read once -/

namespace OneShotCache

variable {c : OneShotCache} {pageSize : ℕ}

/-- The pages are consecutive, and their offsets are their keys. -/
structure Sound (pageSize : ℕ) (c : OneShotCache) : Prop where
  exists_holding : ∃ first next, first ≤ next ∧ c = holding pageSize first next
  base_lt : ∀ page ∈ c.pages, page.base < 2 ^ 32

/-- The page with a number is in the deque. -/
def Kept (pageSize : ℕ) (c : OneShotCache) (k : ℕ) : Prop := page pageSize k ∈ c.pages

theorem kept_holding {first next k : ℕ} (hpage : 0 < pageSize) :
    Kept pageSize (holding pageSize first next) k ↔ first ≤ k ∧ k < next := by
  rw [Kept, holding, mem_run]
  constructor
  · rintro ⟨i, h₁, h₂, heq⟩
    have hbase := Nat.eq_of_mul_eq_mul_right hpage (congrArg CachedPage.base heq)
    exact ⟨hbase ▸ h₁, hbase ▸ h₂⟩
  · rintro ⟨h₁, h₂⟩
    exact ⟨k, h₁, h₂, rfl⟩

theorem Sound.key_eq (h : c.Sound pageSize) {k : ℕ} (hk : Kept pageSize c k) :
    (page pageSize k).key = k * pageSize :=
  CInt.toUnsigned_natCast (h.base_lt _ hk)

theorem sound_holding {first next : ℕ} (hle : first ≤ next)
    (hlt : ∀ k, first ≤ k → k < next → k * pageSize < 2 ^ 32) :
    (holding pageSize first next).Sound pageSize := by
  refine ⟨⟨first, next, hle, rfl⟩, fun p hp ↦ ?_⟩
  obtain ⟨k, h₁, h₂, rfl⟩ := mem_run.mp hp
  exact hlt k h₁ h₂

theorem findPage_cases (hpage : 0 < pageSize) {first next : ℕ} (hle : first ≤ next)
    (h : (holding pageSize first next).Sound pageSize) (offset : ℕ) :
    (offset / pageSize < first ∧ (holding pageSize first next).findPage offset
        = (none, holding pageSize first next)) ∨
      (first ≤ offset / pageSize ∧ offset / pageSize < next ∧
        (holding pageSize first next).findPage offset
          = (some (offset / pageSize * pageSize), holding pageSize (offset / pageSize) next)) ∨
      (next ≤ offset / pageSize ∧ (holding pageSize first next).findPage offset
        = (none, holding pageSize next next)) := by
  rcases Nat.lt_or_ge (offset / pageSize) first with hlt | hge
  · refine Or.inl ⟨hlt, ?_⟩
    rcases Nat.lt_or_ge first next with hnext | hnext
    · exact findPage_before hnext (h.key_eq ((kept_holding hpage).mpr ⟨Nat.le_refl _, hnext⟩))
        ((Nat.div_lt_iff_lt_mul hpage).mp hlt)
    · obtain rfl : first = next := Nat.le_antisymm hle hnext
      rw [holding, run_eq_nil (Nat.le_refl _)]
      rfl
  rcases Nat.lt_or_ge (offset / pageSize) next with hnext | hnext
  · refine Or.inr (Or.inl ⟨hge, hnext, findPage_holding hge hnext ?_⟩)
    rw [h.key_eq ((kept_holding hpage).mpr ⟨hge, hnext⟩)]
    exact Nat.lt_div_mul_add hpage
  · exact Or.inr (Or.inr ⟨hnext, findPage_behind ((Nat.le_div_iff_mul_le hpage).mp hnext)⟩)

theorem Sound.mono {first next first' : ℕ} (h : (holding pageSize first next).Sound pageSize)
    (hfirst : first ≤ first') (hle : first' ≤ next) :
    (holding pageSize first' next).Sound pageSize := by
  refine sound_holding hle fun k h₁ h₂ ↦ ?_
  exact h.base_lt _ (mem_run.mpr ⟨k, Nat.le_trans hfirst h₁, h₂, rfl⟩)

theorem Sound.findPage (hpage : 0 < pageSize) (h : c.Sound pageSize) (offset : ℕ) :
    (c.findPage offset).2.Sound pageSize := by
  obtain ⟨first, next, hle, rfl⟩ := h.exists_holding
  rcases findPage_cases hpage hle h offset with ⟨-, heq⟩ | ⟨hge, hnext, heq⟩ | ⟨-, heq⟩
  · rwa [heq]
  · rw [heq]
    exact h.mono hge (Nat.le_of_lt hnext)
  · rw [heq]
    exact h.mono hle (Nat.le_refl _)

theorem findPage_of_kept (hpage : 0 < pageSize) (h : c.Sound pageSize) {offset : ℕ}
    (hkept : Kept pageSize c (offset / pageSize)) :
    (c.findPage offset).1 = some (offset / pageSize * pageSize) := by
  obtain ⟨first, next, hle, rfl⟩ := h.exists_holding
  rw [kept_holding hpage] at hkept
  rcases findPage_cases hpage hle h offset with ⟨hlt, -⟩ | ⟨-, -, heq⟩ | ⟨hge, -⟩
  · omega
  · rw [heq]
  · omega

theorem findPage_of_not_kept (hpage : 0 < pageSize) (h : c.Sound pageSize) {offset : ℕ}
    (hkept : ¬Kept pageSize c (offset / pageSize)) : (c.findPage offset).1 = none := by
  obtain ⟨first, next, hle, rfl⟩ := h.exists_holding
  rw [kept_holding hpage] at hkept
  rcases findPage_cases hpage hle h offset with ⟨-, heq⟩ | ⟨h₁, h₂, -⟩ | ⟨-, heq⟩
  · rw [heq]
  · exact absurd ⟨h₁, h₂⟩ hkept
  · rw [heq]

theorem kept_findPage (hpage : 0 < pageSize) (h : c.Sound pageSize) {offset k : ℕ}
    (hk : offset / pageSize ≤ k) :
    Kept pageSize (c.findPage offset).2 k ↔ Kept pageSize c k := by
  obtain ⟨first, next, hle, rfl⟩ := h.exists_holding
  rcases findPage_cases hpage hle h offset with ⟨-, heq⟩ | ⟨hge, -, heq⟩ | ⟨hge, heq⟩
  · rw [heq]
  · rw [heq, kept_holding hpage, kept_holding hpage]
    omega
  · rw [heq, kept_holding hpage, kept_holding hpage]
    omega

theorem peakPage_of_kept (hpage : 0 < pageSize) (h : c.Sound pageSize) {offset : ℕ}
    (hkept : Kept pageSize c (offset / pageSize)) :
    (c.peakPage offset).1 = some (offset / pageSize * pageSize) := by
  have hkey : offset < (page pageSize (offset / pageSize)).key + pageSize := by
    rw [h.key_eq hkept]
    exact Nat.lt_div_mul_add hpage
  obtain ⟨first, next, -, rfl⟩ := h.exists_holding
  obtain ⟨h₁, h₂⟩ := (kept_holding hpage).mp hkept
  rw [peakPage_holding h₁ h₂ hkey]

theorem kept_convex (h : c.Sound pageSize) {i j k : ℕ} (hi : Kept pageSize c i)
    (hk : Kept pageSize c k) (hij : i ≤ j) (hjk : j ≤ k) : Kept pageSize c j := by
  rcases Nat.eq_zero_or_pos pageSize with rfl | hpage
  · exact hi
  obtain ⟨first, next, -, rfl⟩ := h.exists_holding
  rw [kept_holding hpage] at hi hk ⊢
  omega

instance : LawfulReadCache OneShotCache where
  Sound := Sound
  Kept := Kept
  kept_convex h hi hk hij hjk := kept_convex h hi hk hij hjk
  findPage_of_kept hpage h _ := findPage_of_kept hpage h
  findPage_of_not_kept hpage h hk := findPage_of_not_kept hpage h hk
  findPage_sound hpage h := h.findPage hpage
  kept_findPage hpage h hk := kept_findPage hpage h hk
  peakPage_of_kept hpage h _ := peakPage_of_kept hpage h
  peakPage_sound _ h _ := h
  kept_peakPage _ _ _ := Iff.rfl

end OneShotCache

end Coypu
