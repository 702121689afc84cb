import Coypu.Store.PagedReads

/-!
# What a read gets to see

A read from an offset on sees the bytes of the pages that are kept, up to the end of the page with
the end of the log, and not only up to the end of the log. `Pop` succeeds if as many bytes as it
wants follow the first one seen, and `Find` finds the first byte seen that matches.
-/

set_option autoImplicit false

namespace Coypu

open FlatMemory LawfulReadCache

namespace PagedLog

variable {C : Type*} [ReadCache C] [LawfulReadCache C] {cacheSize : ℕ} {s s' : PagedLog C cacheSize}
  {start size o a n : ℕ} {d : UInt8} {l : List UInt8}

/-- A read from `start` on sees the byte at `o`. -/
def Sees (s : PagedLog C cacheSize) (start o : ℕ) : Prop :=
  start ≤ o ∧ o / s.pageSize ≤ s.page s.available ∧ Kept s.pageSize s.cache (o / s.pageSize)

/-- The bytes from the first one seen on are all seen, and lie in the file. -/
def PagesHold (s : PagedLog C cacheSize) (start size : ℕ) : Prop :=
  ∃ x, s.Sees start x ∧ (∀ o, s.Sees start o → x ≤ o) ∧
    ∀ o, x ≤ o → o < x + size → s.Sees start o ∧ o < s.file.extent systemPage

open Classical in
theorem mem_keptPages {c : C} {i k : ℕ} :
    k ∈ s.keptPages c i ↔ i ≤ k ∧ k ≤ s.page s.available ∧ Kept s.pageSize c k := by
  rw [keptPages, List.mem_filter, List.mem_range'_1, decide_eq_true_iff, ← and_assoc]
  exact and_congr_left fun _ ↦ by omega

theorem lt_of_sees (h : s.Sees start o) : start < 2 ^ 32 * s.pageSize := by
  have hpage := s.page_lt s.available
  have hlt := (Nat.div_lt_iff_lt_mul s.pageSize_pos).mp (Nat.lt_of_le_of_lt h.2.1 hpage)
  exact Nat.lt_of_le_of_lt h.1 hlt

theorem sees_iff (hstart : start < 2 ^ 32 * s.pageSize)
    (hkept : s.keptPages s.cache (s.page start) = List.range' a n) :
    s.Sees start o ↔ max start (a * s.pageSize) ≤ o ∧ o < (a + n) * s.pageSize := by
  have hmem : o / s.pageSize ∈ s.keptPages s.cache (s.page start)
      ↔ a * s.pageSize ≤ o ∧ o < (a + n) * s.pageSize := by
    rw [hkept, List.mem_range'_1, Nat.le_div_iff_mul_le s.pageSize_pos,
      Nat.div_lt_iff_lt_mul s.pageSize_pos]
  rw [mem_keptPages, page_eq hstart] at hmem
  constructor
  · rintro ⟨hle, hpage, hkept'⟩
    obtain ⟨h₁, h₂⟩ := hmem.mp ⟨Nat.div_le_div_right hle, hpage, hkept'⟩
    exact ⟨Nat.max_le.mpr ⟨hle, h₁⟩, h₂⟩
  · rintro ⟨h₁, h₂⟩
    obtain ⟨hle, h₁⟩ := Nat.max_le.mp h₁
    exact ⟨hle, (hmem.mpr ⟨h₁, h₂⟩).2⟩

theorem pagesHold_iff (hstart : start < 2 ^ 32 * s.pageSize)
    (hkept : s.keptPages s.cache (s.page start) = List.range' a n) (hle : s.page start ≤ a) :
    s.PagesHold start size ↔ 0 < n ∧ max start (a * s.pageSize) + size ≤ (a + n) * s.pageSize ∧
      (size = 0 ∨ max start (a * s.pageSize) + size ≤ s.file.extent systemPage) := by
  have hsees (o : ℕ) := sees_iff (o := o) hstart hkept
  have hlt := lt_of_page_le hstart hle
  constructor
  · rintro ⟨x, hx, hleast, hall⟩
    have hx' := (hsees x).mp hx
    have hn : 0 < n := by
      rcases Nat.eq_zero_or_pos n with rfl | hn
      · rw [Nat.add_zero] at hx'
        omega
      · exact hn
    have hmul : (a + 1) * s.pageSize ≤ (a + n) * s.pageSize := Nat.mul_le_mul_right _ (by omega)
    rw [Nat.add_one_mul] at hmul
    have hfirst := hleast _ ((hsees (max start (a * s.pageSize))).mpr ⟨Nat.le_refl _, by omega⟩)
    obtain rfl : x = max start (a * s.pageSize) := by omega
    rcases Nat.eq_zero_or_pos size with rfl | hsize
    · exact ⟨hn, by omega, Or.inl rfl⟩
    · obtain ⟨hlast, hext⟩ := hall (max start (a * s.pageSize) + size - 1) (by omega) (by omega)
      have hlast' := (hsees _).mp hlast
      exact ⟨hn, by omega, Or.inr (by omega)⟩
  · rintro ⟨hn, hend, hext⟩
    have hmul : (a + 1) * s.pageSize ≤ (a + n) * s.pageSize := Nat.mul_le_mul_right _ (by omega)
    rw [Nat.add_one_mul] at hmul
    refine ⟨max start (a * s.pageSize), (hsees _).mpr ⟨Nat.le_refl _, by omega⟩,
      fun o ho ↦ ((hsees o).mp ho).1, fun o h₁ h₂ ↦ ⟨(hsees o).mpr ⟨h₁, by omega⟩, by omega⟩⟩

/-- **`Pop` succeeds** if the bytes from the first one seen on are seen. -/
theorem pop_succeeds_iff (hc : Sound s.pageSize s.cache) (hlast : s.page s.available + 1 < 2 ^ 32) :
    (∃ l s', s.pop start size = some (some l, s')) ↔ s.PagesHold start size := by
  obtain ⟨a, n, hkept, hle⟩ := exists_keptPages hc (s.page start)
  constructor
  · rintro ⟨l, s', h⟩
    obtain ⟨hstart, hn, -, hend, hext⟩ := pop_some hc hlast h hkept hle
    exact (pagesHold_iff hstart hkept hle).mpr ⟨hn, hend, hext⟩
  · intro h
    have hstart := lt_of_sees h.choose_spec.1
    obtain ⟨hn, hend, hext⟩ := (pagesHold_iff hstart hkept hle).mp h
    obtain ⟨c, hpop⟩ := pop_of_kept hc hstart hkept hle hn hend hext
    exact ⟨_, _, hpop⟩

theorem eq_load_of_pop (hc : Sound s.pageSize s.cache) (hlast : s.page s.available + 1 < 2 ^ 32)
    (h : s.pop start size = some (some l, s')) (hsees : s.Sees start start) :
    l = load s.file.data start size := by
  obtain ⟨a, n, hkept, hle⟩ := exists_keptPages hc (s.page start)
  obtain ⟨hstart, -, hl, -⟩ := pop_some hc hlast h hkept hle
  have hmax := ((sees_iff hstart hkept).mp hsees).1
  rw [hl, show max start (a * s.pageSize) = start by omega]

theorem length_of_pop (hc : Sound s.pageSize s.cache) (hlast : s.page s.available + 1 < 2 ^ 32)
    (h : s.pop start size = some (some l, s')) : l.length = size := by
  obtain ⟨a, n, hkept, hle⟩ := exists_keptPages hc (s.page start)
  rw [(pop_some hc hlast h hkept hle).2.2.1, length_load]

theorem pop_returns (hc : Sound s.pageSize s.cache) (hlast : s.page s.available + 1 < 2 ^ 32)
    (hext : ∀ k, Kept s.pageSize s.cache k → (k + 1) * s.pageSize ≤ s.file.extent systemPage)
    (start size : ℕ) : ∃ r s', s.pop start size = some (r, s') := by
  have hfst := pop_fst hc start size (Or.inl hlast)
  have hrounds : rounds (s.popBody start size) s.pageSize (s.keptPages s.cache (s.page start)) []
      ≠ none := rounds_pop_ne_none fun k hk ↦ hext k (mem_keptPages.mp hk).2.2
  obtain ⟨q, hq⟩ := Option.ne_none_iff_exists'.mp hrounds
  rw [hq] at hfst
  obtain ⟨⟨r, s'⟩, hpop, -⟩ := Option.map_eq_some_iff.mp hfst
  exact ⟨r, s', hpop⟩

variable (start d) in
theorem find_fst (hc : Sound s.pageSize s.cache) (hlast : s.page s.available + 1 < 2 ^ 32) :
    ∃ i n, (s.find start d).map Prod.fst = s.scan d n i ∧
      ∀ o, s.Sees start o ↔ i ≤ o ∧ o < i + n := by
  obtain ⟨a, n, hkept, hle⟩ := exists_keptPages hc (s.page start)
  refine ⟨_, _, find_eq hc hlast hkept, fun o ↦ ?_⟩
  by_cases hstart : start < 2 ^ 32 * s.pageSize
  · rw [sees_iff hstart hkept]
    omega
  · refine ⟨fun h ↦ absurd (lt_of_sees h) hstart, fun h ↦ ?_⟩
    -- the pages that are kept end before such an offset
    rcases Nat.eq_zero_or_pos n with rfl | hn
    · rw [Nat.add_zero] at h
      omega
    · have hmem : a + n - 1 ∈ s.keptPages s.cache (s.page start) := by
        rw [hkept, List.mem_range'_1]
        omega
      have hpage := (mem_keptPages.mp hmem).2.1
      have hend : (a + n) * s.pageSize ≤ 2 ^ 32 * s.pageSize := Nat.mul_le_mul_right _ (by omega)
      omega

/-- **`Find` finds** the first byte seen that matches. -/
theorem find_some_iff (hc : Sound s.pageSize s.cache) (hlast : s.page s.available + 1 < 2 ^ 32) :
    (∃ s', s.find start d = some (some o, s')) ↔ s.Sees start o ∧ s.file.data o = d ∧
      (∀ j, s.Sees start j → j < o → s.file.data j ≠ d) ∧ o < s.file.extent systemPage := by
  obtain ⟨i, n, hfind, hsees⟩ := find_fst start d hc hlast
  have hscan : (∃ s', s.find start d = some (some o, s')) ↔ s.scan d n i = some (some o) := by
    rw [← hfind, Option.map_eq_some_iff]
    exact ⟨fun ⟨s', h⟩ ↦ ⟨_, h, rfl⟩, fun ⟨r, h, hr⟩ ↦ ⟨r.2, by rw [h, ← hr]⟩⟩
  rw [hscan, scan_eq_some]
  simp only [hsees]
  constructor
  · rintro ⟨h₁, h₂, hd, hleast, hext⟩
    exact ⟨⟨h₁, h₂⟩, hd, fun j hj hlt ↦ hleast j hj.1 hlt, hext⟩
  · rintro ⟨⟨h₁, h₂⟩, hd, hleast, hext⟩
    exact ⟨h₁, h₂, hd, fun j hj hlt ↦ hleast j ⟨hj, by omega⟩ hlt, hext⟩

/-- `Find` finds nothing where no byte seen matches, and all of them lie in the file. -/
theorem find_none_iff (hc : Sound s.pageSize s.cache) (hlast : s.page s.available + 1 < 2 ^ 32) :
    (∃ s', s.find start d = some (none, s')) ↔
      ∀ o, s.Sees start o → s.file.data o ≠ d ∧ o < s.file.extent systemPage := by
  obtain ⟨i, n, hfind, hsees⟩ := find_fst start d hc hlast
  have hscan : (∃ s', s.find start d = some (none, s')) ↔ s.scan d n i = some none := by
    rw [← hfind, Option.map_eq_some_iff]
    exact ⟨fun ⟨s', h⟩ ↦ ⟨_, h, rfl⟩, fun ⟨r, h, hr⟩ ↦ ⟨r.2, by rw [h, ← hr]⟩⟩
  rw [hscan, scan_eq_none]
  simp only [hsees]
  constructor
  · rintro ⟨hnone, hext⟩ o ⟨h₁, h₂⟩
    exact ⟨hnone o h₁ h₂, by omega⟩
  · intro h
    refine ⟨fun j h₁ h₂ ↦ (h j ⟨h₁, h₂⟩).1, ?_⟩
    rcases Nat.eq_zero_or_pos n with rfl | hn
    · exact Or.inl rfl
    · have hlast' := (h (i + n - 1) ⟨by omega, by omega⟩).2
      exact Or.inr (by omega)

end PagedLog

end Coypu
