import Coypu.Store.CacheLaws
import Coypu.Store.PagedLog

/-!
# Reading page by page

The loop over the pages runs its body on the pages that the cache keeps, in order (`pageLoop_eq`).
Where these are consecutive, `Pop` copies what lies behind each other in them and `Find` finds the
first byte.
-/

set_option autoImplicit false

namespace Coypu

open FlatMemory Transport LawfulReadCache

namespace PagedLog

/-- The rounds of a loop over some pages. The right side is what is left when all pages are done. -/
def rounds {τ ρ : Type} (body : ℕ → ℕ → τ → Option (ρ ⊕ τ)) (pageSize : ℕ) :
    List ℕ → τ → Option (ρ ⊕ τ)
  | [], t => some (.inr t)
  | k :: ks, t =>
    match body (k * pageSize) (k * pageSize) t with
    | none => none
    | some (.inl result) => some (.inl result)
    | some (.inr t') => rounds body pageSize ks t'

variable {C : Type*} {cacheSize : ℕ} {s : PagedLog C cacheSize}

theorem pageSize_pos (s : PagedLog C cacheSize) : 0 < s.pageSize := s.writeBuf.pageSize_pos

theorem page_lt (s : PagedLog C cacheSize) (offset : ℕ) : s.page offset < 2 ^ 32 :=
  CInt.toUnsigned_lt 32 _

theorem page_eq {s : PagedLog C cacheSize} {offset : ℕ} (h : offset < 2 ^ 32 * s.pageSize) :
    s.page offset = offset / s.pageSize :=
  CInt.toUnsigned_natCast ((Nat.div_lt_iff_lt_mul s.pageSize_pos).mpr h)

theorem lt_of_page_le {start a : ℕ} (hstart : start < 2 ^ 32 * s.pageSize)
    (hle : s.page start ≤ a) : start < a * s.pageSize + s.pageSize := by
  rw [page_eq hstart] at hle
  have hlt := Nat.lt_div_mul_add s.pageSize_pos (a := start)
  have hmul := Nat.mul_le_mul_right s.pageSize hle
  omega

/-! ## What `Pop` copies -/

section Pop

variable {start size a n : ℕ} {l l' : List UInt8}

theorem popBody_eq (hstart : start ≤ a * s.pageSize + s.pageSize) :
    s.popBody start size (a * s.pageSize) (a * s.pageSize) l
      = (s.file.read systemPage (max start (a * s.pageSize))
          (min (size - l.length) (s.pageSize - (max start (a * s.pageSize) - a * s.pageSize)))).map
        fun k ↦ if (l ++ k).length = size then .inl (some (l ++ k)) else .inr (l ++ k) := by
  rw [popBody, pagePop, if_neg (by omega), Option.map_map]
  rfl

theorem copied_cases {k x len : ℕ} (hk : k = min (size - len) (s.pageSize - (x - a * s.pageSize)))
    (hx : x = max start (a * s.pageSize)) (hstart : start < a * s.pageSize + s.pageSize)
    (hlen : len ≤ size) :
    (len + k = size ∧ k = size - len ∧ x + k ≤ a * s.pageSize + s.pageSize) ∨
      (len + k < size ∧ x + k = (a + 1) * s.pageSize ∧
        max start ((a + 1) * s.pageSize) = (a + 1) * s.pageSize) := by
  rw [Nat.add_one_mul]
  omega

theorem rounds_pop_some (hstart : start < a * s.pageSize + s.pageSize) (hlen : l.length ≤ size)
    (h : rounds (s.popBody start size) s.pageSize (List.range' a n) l = some (.inl (some l'))) :
    0 < n ∧ l' = l ++ load s.file.data (max start (a * s.pageSize)) (size - l.length) ∧
      max start (a * s.pageSize) + (size - l.length) ≤ (a + n) * s.pageSize ∧
      (l.length = size ∨
        max start (a * s.pageSize) + (size - l.length) ≤ s.file.extent systemPage) := by
  induction n generalizing a l with
  | zero => exact absurd h (by simp [rounds])
  | succ n ih =>
    obtain ⟨x, hx⟩ : ∃ x, x = max start (a * s.pageSize) := ⟨_, rfl⟩
    obtain ⟨k, hk⟩ : ∃ k, k = min (size - l.length) (s.pageSize - (x - a * s.pageSize)) := ⟨_, rfl⟩
    have hmul : (a + (n + 1)) * s.pageSize = (a + 1 + n) * s.pageSize := by
      rw [Nat.add_right_comm, Nat.add_assoc]
    have hmore : (a + 1) * s.pageSize ≤ (a + 1 + n) * s.pageSize :=
      Nat.mul_le_mul_right _ (Nat.le_add_right _ _)
    rw [List.range'_succ, rounds, popBody_eq (Nat.le_of_lt hstart), ← hx, ← hk] at h
    rw [← hx, hmul]
    cases hread : s.file.read systemPage x k with
    | none =>
      rw [hread] at h
      exact absurd h (by simp)
    | some copied =>
      obtain rfl := MappedFile.eq_of_read hread
      rw [hread] at h
      simp only [Option.map_some, List.length_append, length_load] at h
      rcases copied_cases hk hx hstart hlen with ⟨hdone, hrest, hend⟩ | ⟨hdone, hend, hnext⟩
      · obtain rfl : l ++ load s.file.data x k = l' := by simpa [hdone] using h
        rw [Nat.add_one_mul] at hmore
        refine ⟨Nat.succ_pos n, by rw [hrest], by omega, ?_⟩
        exact (MappedFile.le_extent_of_read hread).imp (by omega) (by rw [hrest]; exact id)
      · simp only [if_neg (Nat.ne_of_lt hdone)] at h
        obtain ⟨-, hl', hle, hext⟩ := ih (by rw [Nat.add_one_mul]; omega)
          (by rw [List.length_append, length_load]; omega) h
        rw [hnext, ← hend, List.length_append, length_load] at hl' hle hext
        have hsplit : size - l.length = k + (size - (l.length + k)) := by omega
        refine ⟨Nat.succ_pos n, ?_, by omega, Or.inr (by omega)⟩
        rw [hl', List.append_assoc, ← load_add, ← hsplit]

theorem rounds_pop_eq (hstart : start < a * s.pageSize + s.pageSize) (hlen : l.length ≤ size)
    (hn : 0 < n) (hend : max start (a * s.pageSize) + (size - l.length) ≤ (a + n) * s.pageSize)
    (hfile : size = l.length ∨
      max start (a * s.pageSize) + (size - l.length) ≤ s.file.extent systemPage) :
    rounds (s.popBody start size) s.pageSize (List.range' a n) l
      = some (.inl (some (l ++ load s.file.data (max start (a * s.pageSize))
        (size - l.length)))) := by
  induction n generalizing a l with
  | zero => exact absurd hn (Nat.lt_irrefl 0)
  | succ n ih =>
    obtain ⟨x, hx⟩ : ∃ x, x = max start (a * s.pageSize) := ⟨_, rfl⟩
    obtain ⟨k, hk⟩ : ∃ k, k = min (size - l.length) (s.pageSize - (x - a * s.pageSize)) := ⟨_, rfl⟩
    have hmul : (a + (n + 1)) * s.pageSize = (a + 1 + n) * s.pageSize := by
      rw [Nat.add_right_comm, Nat.add_assoc]
    rw [← hx] at hend hfile ⊢
    rw [List.range'_succ, rounds, popBody_eq (Nat.le_of_lt hstart), ← hx, ← hk,
      show s.file.read systemPage x k = some (load s.file.data x k) from if_pos (by omega)]
    simp only [Option.map_some]
    have hlen' : (l ++ load s.file.data x k).length = l.length + k := by
      rw [List.length_append, length_load]
    rcases copied_cases hk hx hstart hlen with ⟨hdone, hrest, -⟩ | ⟨hdone, hnext, hmax⟩
    · rw [if_pos (by rw [hlen', hdone]), hrest]
    · have hsplit : size - l.length = k + (size - (l.length + k)) := by omega
      have hpos : 0 < n := by
        rcases Nat.eq_zero_or_pos n with rfl | hpos
        · rw [Nat.add_zero] at hend
          omega
        · exact hpos
      rw [if_neg (by rw [hlen']; exact Nat.ne_of_lt hdone)]
      simp only
      rw [ih (by rw [Nat.add_one_mul]; omega) (by omega) hpos, hmax, ← hnext, hlen',
        List.append_assoc, hsplit, ← load_add]
      · rw [hmax, hlen', ← hmul]
        omega
      · rw [hmax, hlen']
        omega

theorem rounds_pop_far (hstart : 2 ^ 32 * s.pageSize ≤ start) {ks : List ℕ}
    (hks : ∀ k ∈ ks, k + 1 < 2 ^ 32) :
    rounds (s.popBody start size) s.pageSize ks [] ≠ some (.inl (some l)) := by
  cases ks with
  | nil => simp [rounds]
  | cons k ks =>
    have hlt : (k + 1 + 1) * s.pageSize ≤ 2 ^ 32 * s.pageSize :=
      Nat.mul_le_mul_right _ (hks k List.mem_cons_self)
    have hpos := s.pageSize_pos
    rw [Nat.add_one_mul, Nat.add_one_mul] at hlt
    rw [rounds, popBody, pagePop, if_pos (by omega)]
    simp

theorem rounds_pop_ne_none {ks : List ℕ}
    (hks : ∀ k ∈ ks, (k + 1) * s.pageSize ≤ s.file.extent systemPage) :
    rounds (s.popBody start size) s.pageSize ks l ≠ none := by
  induction ks generalizing l with
  | nil => simp [rounds]
  | cons k ks ih =>
    have hpage := hks k List.mem_cons_self
    rw [Nat.add_one_mul] at hpage
    rw [rounds, popBody, pagePop]
    split_ifs with hout
    · simp
    · rw [MappedFile.read_of_le_extent (by omega)]
      simp only [Option.map_some]
      split_ifs
      · simp
      · exact ih fun k hk ↦ hks k (List.mem_cons_of_mem _ hk)

end Pop

/-! ## What `Find` looks at -/

section Find

variable {start a n i o : ℕ} {d : UInt8}

theorem scan_succ (s : PagedLog C cacheSize) (d : UInt8) (n i : ℕ) :
    s.scan d (n + 1) i
      = if i < s.file.extent systemPage then
          if s.file.data i = d then some (some i) else s.scan d n (i + 1)
        else none := by
  rw [scan, MappedFile.read_one]
  by_cases hi : i < s.file.extent systemPage
  · rw [if_pos hi, if_pos hi]
    exact if_congr (by simp) rfl rfl
  · rw [if_neg hi, if_neg hi]

theorem scan_add (s : PagedLog C cacheSize) (d : UInt8) (n k i : ℕ) :
    s.scan d (n + k) i
      = (s.scan d n i).bind fun r ↦
          match r with
          | some o => some (some o)
          | none => s.scan d k (i + n) := by
  induction n generalizing i with
  | zero => rw [Nat.zero_add, scan, Option.bind_some, Nat.add_zero]
  | succ n ih =>
    have hlen : n + 1 + k = n + k + 1 := Nat.add_right_comm n 1 k
    have hstart : i + (n + 1) = i + 1 + n := by omega
    rw [hlen, scan_succ, scan_succ, ih, hstart]
    split_ifs <;> rfl

theorem scan_eq_some : s.scan d n i = some (some o) ↔ i ≤ o ∧ o < i + n ∧ s.file.data o = d ∧
    (∀ j, i ≤ j → j < o → s.file.data j ≠ d) ∧ o < s.file.extent systemPage := by
  induction n generalizing i with
  | zero =>
    rw [scan]
    exact ⟨fun h ↦ absurd h (by simp), fun h ↦ absurd h.2.1 (by omega)⟩
  | succ n ih =>
    rw [scan_succ]
    by_cases hi : i < s.file.extent systemPage
    · rw [if_pos hi]
      by_cases hd : s.file.data i = d
      · rw [if_pos hd]
        constructor
        · intro h
          obtain rfl : i = o := Option.some.inj (Option.some.inj h)
          exact ⟨Nat.le_refl _, by omega, hd, fun j h₁ h₂ ↦ by omega, hi⟩
        · rintro ⟨hle, -, -, hleast, -⟩
          rcases Nat.eq_or_lt_of_le hle with rfl | hlt
          · rfl
          · exact absurd hd (hleast i (Nat.le_refl _) hlt)
      · rw [if_neg hd, ih]
        constructor
        · rintro ⟨hle, hlt, ho, hleast, hext⟩
          refine ⟨by omega, by omega, ho, fun j h₁ h₂ ↦ ?_, hext⟩
          rcases Nat.eq_or_lt_of_le h₁ with rfl | h₁
          · exact hd
          · exact hleast j h₁ h₂
        · rintro ⟨hle, hlt, ho, hleast, hext⟩
          have hne : i ≠ o := fun h ↦ hd (h ▸ ho)
          exact ⟨by omega, by omega, ho, fun j h₁ ↦ hleast j (by omega), hext⟩
    · rw [if_neg hi]
      exact ⟨fun h ↦ absurd h (by simp), fun h ↦ absurd h.2.2.2.2 (by omega)⟩

theorem scan_eq_none : s.scan d n i = some none ↔
    (∀ j, i ≤ j → j < i + n → s.file.data j ≠ d) ∧
      (n = 0 ∨ i + n ≤ s.file.extent systemPage) := by
  induction n generalizing i with
  | zero =>
    rw [scan]
    exact ⟨fun _ ↦ ⟨fun j h₁ h₂ ↦ by omega, Or.inl rfl⟩, fun _ ↦ rfl⟩
  | succ n ih =>
    rw [scan_succ]
    by_cases hi : i < s.file.extent systemPage
    · rw [if_pos hi]
      by_cases hd : s.file.data i = d
      · rw [if_pos hd]
        exact ⟨fun h ↦ absurd h (by simp), fun h ↦ absurd hd (h.1 i (Nat.le_refl _) (by omega))⟩
      · rw [if_neg hd, ih]
        constructor
        · rintro ⟨hnone, hext⟩
          refine ⟨fun j h₁ h₂ ↦ ?_, Or.inr (by omega)⟩
          rcases Nat.eq_or_lt_of_le h₁ with rfl | h₁
          · exact hd
          · exact hnone j h₁ (by omega)
        · rintro ⟨hnone, hext⟩
          exact ⟨fun j h₁ h₂ ↦ hnone j (by omega) (by omega), Or.inr (by omega)⟩
    · rw [if_neg hi]
      exact ⟨fun h ↦ absurd h (by simp), fun h ↦ absurd h.2 (by omega)⟩

theorem findBody_eq : s.findBody start d (a * s.pageSize) (a * s.pageSize) ()
    = (s.scan d (a * s.pageSize + s.pageSize - max start (a * s.pageSize))
        (max start (a * s.pageSize))).map fun r ↦
        match r with
        | some offset => .inl (some offset)
        | none => .inr () := by
  rw [findBody, pageFind]
  exact congrArg (Option.map _) (if_neg (Nat.not_lt_of_le (Nat.le_max_right _ _)))

theorem rounds_find :
    (rounds (s.findBody start d) s.pageSize (List.range' a n) ()).map (Sum.elim id fun _ ↦ none)
      = s.scan d ((a + n) * s.pageSize - max start (a * s.pageSize))
          (max start (a * s.pageSize)) := by
  induction n generalizing a with
  | zero =>
    have hlen : (a + 0) * s.pageSize - max start (a * s.pageSize) = 0 := by
      rw [Nat.add_zero]
      omega
    rw [hlen]
    rfl
  | succ n ih =>
    have hmore : (a + 1) * s.pageSize ≤ (a + (n + 1)) * s.pageSize :=
      Nat.mul_le_mul_right _ (by omega)
    have hsucc := Nat.add_one_mul a s.pageSize
    have hmul : (a + 1 + n) * s.pageSize = (a + (n + 1)) * s.pageSize := by
      rw [Nat.add_right_comm, Nat.add_assoc]
    -- the first page, and the others
    have hlen : (a + (n + 1)) * s.pageSize - max start (a * s.pageSize)
        = (a * s.pageSize + s.pageSize - max start (a * s.pageSize))
          + ((a + 1 + n) * s.pageSize - max start ((a + 1) * s.pageSize)) := by
      omega
    rw [List.range'_succ, rounds, findBody_eq, hlen, scan_add]
    cases hscan : s.scan d (a * s.pageSize + s.pageSize - max start (a * s.pageSize))
        (max start (a * s.pageSize)) with
    | none => rfl
    | some r =>
      cases r with
      | some o => rfl
      | none =>
        simp only [Option.map_some, Option.bind_some]
        rw [ih]
        have hnext : max start (a * s.pageSize)
            + (a * s.pageSize + s.pageSize - max start (a * s.pageSize))
              = max start ((a + 1) * s.pageSize) := by
          omega
        rw [hnext]

end Find

/-! ## The loop -/

variable [ReadCache C]

variable [LawfulReadCache C]

open Classical in
/-- The pages from `i` on that the cache keeps, up to the one with the end of the log. -/
noncomputable def keptPages (s : PagedLog C cacheSize) (c : C) (i : ℕ) : List ℕ :=
  (List.range' i (s.page s.available + 1 - i)).filter fun k ↦ Kept s.pageSize c k

theorem keptPages_eq_nil {c : C} {i : ℕ} (h : s.page s.available < i) : s.keptPages c i = [] := by
  have hlen : s.page s.available + 1 - i = 0 := by omega
  rw [keptPages, hlen, List.range'_zero, List.filter_nil]

theorem keptPages_of_kept {c : C} {i : ℕ} (h : i ≤ s.page s.available)
    (hkept : Kept s.pageSize c i) : s.keptPages c i = i :: s.keptPages c (i + 1) := by
  have hlen : s.page s.available + 1 - i = s.page s.available + 1 - (i + 1) + 1 := by omega
  rw [keptPages, hlen, List.range'_succ, List.filter_cons_of_pos (by simpa using hkept), keptPages]

theorem keptPages_of_not_kept {c : C} {i : ℕ} (h : i ≤ s.page s.available)
    (hkept : ¬Kept s.pageSize c i) : s.keptPages c i = s.keptPages c (i + 1) := by
  have hlen : s.page s.available + 1 - i = s.page s.available + 1 - (i + 1) + 1 := by omega
  rw [keptPages, hlen, List.range'_succ, List.filter_cons_of_neg (by simpa using hkept), keptPages]

theorem keptPages_congr {c c' : C} {i : ℕ}
    (h : ∀ k, i ≤ k → (Kept s.pageSize c' k ↔ Kept s.pageSize c k)) :
    s.keptPages c' i = s.keptPages c i := by
  refine List.filter_congr fun k hk ↦ ?_
  rw [decide_eq_decide]
  exact h k (List.mem_range'_1.mp hk).1

section Loop

variable {τ ρ : Type} {body : ℕ → ℕ → τ → Option (ρ ⊕ τ)} {failed : ρ}

theorem findPage_first {c : C} (hc : Sound s.pageSize c) {i : ℕ} (hi : i ≤ s.page s.available)
    (hkept : Kept s.pageSize c i) :
    (ReadCache.findPage c (i * s.pageSize)).1 = some (i * s.pageSize) := by
  have hdiv := Nat.mul_div_cancel i s.pageSize_pos
  have hlt := s.page_lt s.available
  rw [findPage_of_kept s.pageSize_pos hc (Nat.mul_lt_mul_of_pos_right (by omega) s.pageSize_pos)
    (by rwa [hdiv]), hdiv]

theorem kept_findPage_iff {c : C} (hc : Sound s.pageSize c) {i k : ℕ} (hk : i ≤ k) :
    Kept s.pageSize (ReadCache.findPage c (i * s.pageSize)).2 k ↔ Kept s.pageSize c k :=
  kept_findPage s.pageSize_pos hc (by rwa [Nat.mul_div_cancel i s.pageSize_pos])

theorem pageLoop_of_kept {fuel i : ℕ} {t : τ} {c : C} (hc : Sound s.pageSize c)
    (hi : i ≤ s.page s.available) (hkept : Kept s.pageSize c i) :
    s.pageLoop body failed (fuel + 1) i t c
      = match body (i * s.pageSize) (i * s.pageSize) t with
        | none => none
        | some (.inl result) => some (result, (ReadCache.findPage c (i * s.pageSize)).2)
        | some (.inr t') => s.pageLoop body failed fuel (CInt.toUnsigned 32 (i + 1 : ℕ)) t'
            (ReadCache.findPage c (i * s.pageSize)).2 := by
  have hfind := findPage_first hc hi hkept
  rw [pageLoop, if_pos hi]
  rcases hbody : body (i * s.pageSize) (i * s.pageSize) t with _ | _ | _ <;>
    simp only [hfind, hbody]

theorem pageLoop_of_not_kept {fuel i : ℕ} {t : τ} {c : C} (hc : Sound s.pageSize c)
    (hi : i ≤ s.page s.available) (hkept : ¬Kept s.pageSize c i) :
    s.pageLoop body failed (fuel + 1) i t c
      = s.pageLoop body failed fuel (CInt.toUnsigned 32 (i + 1 : ℕ)) t
          (ReadCache.findPage c (i * s.pageSize)).2 := by
  have hnone := findPage_of_not_kept s.pageSize_pos hc
    (by rwa [Nat.mul_div_cancel i s.pageSize_pos] :
      ¬Kept s.pageSize c (i * s.pageSize / s.pageSize))
  rw [pageLoop, if_pos hi]
  simp only [hnone]

/-- **The loop runs its body on the pages that are kept.** It ends if page numbers do not start
over, or if the body ends it. The induction is on the rounds. -/
theorem pageLoop_eq {fuel i : ℕ} {t : τ} {c : C} (hc : Sound s.pageSize c) (hfuel : 0 < fuel)
    (hrounds : 2 ^ 32 ≤ i + fuel)
    (hend : s.page s.available + 1 < 2 ^ 32 ∨
      ∃ r, rounds body s.pageSize (s.keptPages c i) t = some (.inl r)) :
    (s.pageLoop body failed fuel i t c).map Prod.fst
      = (rounds body s.pageSize (s.keptPages c i) t).map (Sum.elim id fun _ ↦ failed) := by
  induction fuel generalizing i t c with
  | zero => exact absurd hfuel (Nat.lt_irrefl 0)
  | succ fuel ih =>
    by_cases hi : i ≤ s.page s.available
    · have hc' := findPage_sound s.pageSize_pos hc (i * s.pageSize)
      have hsame : s.keptPages (ReadCache.findPage c (i * s.pageSize)).2 (i + 1)
          = s.keptPages c (i + 1) :=
        keptPages_congr fun k hk ↦ kept_findPage_iff hc (Nat.le_trans (Nat.le_succ i) hk)
      have hlt := s.page_lt s.available
      -- page numbers do not start over where there is a next round
      have hrest (t' : τ) (hend' : s.page s.available + 1 < 2 ^ 32 ∨
          ∃ r, rounds body s.pageSize (s.keptPages c (i + 1)) t' = some (.inl r)) :
          (s.pageLoop body failed fuel (CInt.toUnsigned 32 (i + 1 : ℕ)) t'
              (ReadCache.findPage c (i * s.pageSize)).2).map Prod.fst
            = (rounds body s.pageSize (s.keptPages c (i + 1)) t').map
                (Sum.elim id fun _ ↦ failed) := by
        have hnext : i + 1 < 2 ^ 32 := by
          by_contra hlast
          rw [keptPages_eq_nil (by omega)] at hend'
          rcases hend' with hend' | ⟨r, hr⟩
          · omega
          · exact absurd hr (by simp [rounds])
        rw [CInt.toUnsigned_natCast hnext, ← hsame]
        exact ih hc' (by omega) (by omega) (by rwa [hsame])
      by_cases hkept : Kept s.pageSize c i
      · rw [keptPages_of_kept hi hkept, rounds] at hend ⊢
        rw [pageLoop_of_kept hc hi hkept]
        cases hbody : body (i * s.pageSize) (i * s.pageSize) t with
        | none => rfl
        | some q =>
          cases q with
          | inl result => rfl
          | inr t' =>
            rw [hbody] at hend
            exact hrest t' hend
      · rw [keptPages_of_not_kept hi hkept] at hend ⊢
        rw [pageLoop_of_not_kept hc hi hkept]
        exact hrest t hend
    · rw [pageLoop, if_neg hi, keptPages_eq_nil (Nat.lt_of_not_le hi)]
      rfl

end Loop

open Classical in
theorem exists_keptPages {c : C} (hc : Sound s.pageSize c) (i : ℕ) :
    ∃ a n, s.keptPages c i = List.range' a n ∧ i ≤ a := by
  refine Pages.exists_filter_range' i _ fun j k _ hj x hjx hxk hk ↦ ?_
  rw [decide_eq_true_iff] at hj hk ⊢
  exact kept_convex hc hj hk hjx hxk

open Classical in
theorem keptPages_eq {c : C} {i : ℕ}
    (h : ∀ k, i ≤ k → k ≤ s.page s.available → Kept s.pageSize c k) :
    s.keptPages c i = List.range' i (s.page s.available + 1 - i) := by
  refine List.filter_eq_self.mpr fun k hk ↦ ?_
  rw [List.mem_range'_1] at hk
  exact decide_eq_true (h k hk.1 (by omega))

/-! ## `Pop` and `Find` -/

section Pop

variable {start size a n : ℕ} {l : List UInt8} {d : UInt8} {s' : PagedLog C cacheSize}

theorem pop_fst (hc : Sound s.pageSize s.cache) (start size : ℕ)
    (hend : s.page s.available + 1 < 2 ^ 32 ∨
      ∃ r, rounds (s.popBody start size) s.pageSize (s.keptPages s.cache (s.page start)) []
        = some (.inl r)) :
    (s.pop start size).map Prod.fst
      = (rounds (s.popBody start size) s.pageSize (s.keptPages s.cache (s.page start)) []).map
          (Sum.elim id fun _ ↦ none) := by
  rw [pop, Option.map_map, ← pageLoop_eq hc (Nat.two_pow_pos 32) (Nat.le_add_left _ _) hend]
  rfl

/-- The bytes that lie in the kept pages behind each other, and in the file, are copied. -/
theorem pop_of_kept (hc : Sound s.pageSize s.cache) (hstart : start < 2 ^ 32 * s.pageSize)
    (hkept : s.keptPages s.cache (s.page start) = List.range' a n) (hle : s.page start ≤ a)
    (hn : 0 < n) (hend : max start (a * s.pageSize) + size ≤ (a + n) * s.pageSize)
    (hfile : size = 0 ∨ max start (a * s.pageSize) + size ≤ s.file.extent systemPage) :
    ∃ c, s.pop start size
      = some (some (load s.file.data (max start (a * s.pageSize)) size),
        { s with cache := c }) := by
  have hrounds := rounds_pop_eq (l := []) (lt_of_page_le hstart hle) (Nat.zero_le size) hn hend
    (by simpa using hfile)
  have hfst := pop_fst hc start size (Or.inr ⟨_, by rw [hkept]; exact hrounds⟩)
  rw [hkept, hrounds] at hfst
  obtain ⟨⟨r, s'⟩, hsome, hr⟩ := Option.map_eq_some_iff.mp hfst
  obtain ⟨c, rfl, -⟩ := pop_induction (P := fun _ ↦ True) (fun _ _ _ _ ↦ trivial) trivial hsome
  exact ⟨c, by rw [hsome]; exact congrArg (fun r ↦ some (r, _)) hr⟩

theorem pop_some (hc : Sound s.pageSize s.cache) (hlast : s.page s.available + 1 < 2 ^ 32)
    (h : s.pop start size = some (some l, s'))
    (hkept : s.keptPages s.cache (s.page start) = List.range' a n) (hle : s.page start ≤ a) :
    start < 2 ^ 32 * s.pageSize ∧ 0 < n ∧ l = load s.file.data (max start (a * s.pageSize)) size ∧
      max start (a * s.pageSize) + size ≤ (a + n) * s.pageSize ∧
      (size = 0 ∨ max start (a * s.pageSize) + size ≤ s.file.extent systemPage) := by
  have hfst := pop_fst hc start size (Or.inl hlast)
  rw [h, hkept, Option.map_some] at hfst
  have hrounds : rounds (s.popBody start size) s.pageSize (List.range' a n) []
      = some (.inl (some l)) := by
    obtain ⟨q, hq, hq'⟩ := Option.map_eq_some_iff.mp hfst.symm
    rcases q with q | q
    · rw [hq]
      exact congrArg (fun r ↦ some (Sum.inl r)) hq'
    · exact absurd hq' (by simp)
  by_cases hstart : start < 2 ^ 32 * s.pageSize
  · obtain ⟨hn, hl, hend, hfile⟩ := rounds_pop_some (lt_of_page_le hstart hle) (Nat.zero_le size)
      hrounds
    exact ⟨hstart, hn, hl, hend, hfile.imp Eq.symm id⟩
  · refine absurd hrounds (rounds_pop_far (Nat.le_of_not_lt hstart) fun k hk ↦ ?_)
    rw [← hkept, keptPages, List.mem_filter, List.mem_range'_1] at hk
    omega

theorem find_eq (hc : Sound s.pageSize s.cache) (hlast : s.page s.available + 1 < 2 ^ 32)
    (hkept : s.keptPages s.cache (s.page start) = List.range' a n) :
    (s.find start d).map Prod.fst
      = s.scan d ((a + n) * s.pageSize - max start (a * s.pageSize))
        (max start (a * s.pageSize)) := by
  rw [find, Option.map_map, ← rounds_find, ← hkept,
    ← pageLoop_eq hc (Nat.two_pow_pos 32) (Nat.le_add_left _ _) (Or.inl hlast)]
  rfl

end Pop

/-! ## `Peak` -/

theorem peak_of_kept (hc : Sound s.pageSize s.cache) {offset : ℕ}
    (hoffset : offset < 2 ^ 32 * s.pageSize) (hkept : Kept s.pageSize s.cache (offset / s.pageSize))
    (havail : offset < s.available) (hfile : offset < s.file.extent systemPage) :
    s.peak offset = some (some (s.file.data offset),
      { s with cache := (ReadCache.peakPage s.cache offset).2 }) := by
  have hle := Nat.div_mul_le_self offset s.pageSize
  have hlt := Nat.lt_div_mul_add s.pageSize_pos (a := offset)
  rw [peak]
  simp only [peakPage_of_kept s.pageSize_pos hc hoffset hkept]
  rw [if_neg (Nat.not_le_of_lt havail), pagePeak, if_pos ⟨hle, Nat.le_of_lt hlt⟩,
    MappedFile.read_one, if_pos hfile]
  rfl

end PagedLog

end Coypu
