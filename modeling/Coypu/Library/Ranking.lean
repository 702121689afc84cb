import Coypu.Library.SortedMap
import Mathlib.Data.List.Nodup
import Mathlib.Data.List.Perm.Basic

/-!
# The best entries of a list

A list of entries is sorted by its keys, and a key may come more than once. Inserting an entry at
the place of its key, replacing one under its key and removing one keep the order. The best entries
are those with the greatest keys, and it is only clear which these are if no other entry has the key
of one of them. Then they are the last ones, read backwards (`best_take_iff`).
-/

set_option autoImplicit false

namespace Ranking

variable {κ β : Type*} (r : κ → κ → Prop)

/-- No entry is before one that is less. -/
def Sorted (l : List (κ × β)) : Prop := l.Pairwise fun a b ↦ ¬r b.1 a.1

/-- These entries of a list are better than the others, and each is better than the next. -/
structure Best (l out : List (κ × β)) : Prop where
  sorted : out.Pairwise fun a b ↦ r b.1 a.1
  others : ∃ others, (out ++ others).Perm l ∧ ∀ e ∈ out, ∀ e' ∈ others, r e'.1 e.1

variable {r} {l d out others : List (κ × β)} {k : κ} {b b' : β} {i n : ℕ}

/-! ## Order -/

instance (priority := 100) isStrictWeakOrder_of_total [IsStrictTotalOrder κ r] :
    IsStrictWeakOrder κ r :=
  isStrictWeakOrder_of_isOrderConnected

namespace Sorted

theorem nil : Sorted r ([] : List (κ × β)) := List.Pairwise.nil

theorem iff_keys : Sorted r l ↔ (l.map Prod.fst).Pairwise fun a b ↦ ¬r b a :=
  (List.pairwise_map (R := fun a b ↦ ¬r b a)).symm

theorem congr {l' : List (κ × β)} (h : Sorted r l) (hkeys : l'.map Prod.fst = l.map Prod.fst) :
    Sorted r l' := by
  rw [iff_keys] at h ⊢
  rwa [hkeys]

theorem set (h : Sorted r l) (hi : l[i]? = some (k, b)) : Sorted r (l.set i (k, b')) := by
  refine h.congr ?_
  obtain ⟨hlt, hget⟩ := List.getElem?_eq_some_iff.mp hi
  refine List.ext_getElem (by rw [List.length_map, List.length_map, List.length_set])
    fun j hj _ ↦ ?_
  rw [List.getElem_map, List.getElem_map, List.getElem_set]
  split_ifs with hij
  · subst hij
    rw [hget]
  · rfl

theorem swap_reverse (h : Sorted r l) : Sorted (Function.swap r) l.reverse :=
  List.pairwise_reverse.mpr h

theorem eraseIdx (h : Sorted r l) (i : ℕ) : Sorted r (l.eraseIdx i) :=
  List.Pairwise.sublist (List.eraseIdx_sublist l i) h

variable [IsStrictWeakOrder κ r]

theorem split (h : Sorted r l) (k : κ) :
    ∃ l₁ l₂, l = l₁ ++ l₂ ∧ (∀ e ∈ l₁, r e.1 k) ∧ ∀ e ∈ l₂, ¬r e.1 k := by
  induction l with
  | nil => exact ⟨[], [], rfl, by simp, by simp⟩
  | cons a l ih =>
    rw [Sorted, List.pairwise_cons] at h
    by_cases ha : r a.1 k
    · obtain ⟨l₁, l₂, rfl, h₁, h₂⟩ := ih h.2
      refine ⟨a :: l₁, l₂, rfl, fun e he ↦ ?_, h₂⟩
      rcases List.mem_cons.mp he with rfl | he
      · exact ha
      · exact h₁ e he
    · refine ⟨[], a :: l, rfl, by simp, fun e he ↦ ?_⟩
      rcases List.mem_cons.mp he with rfl | he
      · exact ha
      · intro hek
        have hka : ¬r k a.1 := fun hka ↦ h.1 e he (IsTrans.trans _ _ _ hek hka)
        have hae : ¬r a.1 e.1 := fun hae ↦ ha (IsTrans.trans _ _ _ hae hek)
        -- neither of `e` and `k` is before the first entry or behind it
        exact (IsStrictWeakOrder.incomp_trans e.1 a.1 k ⟨h.1 e he, hae⟩ ⟨ha, hka⟩).1 hek

variable [DecidableRel r]

theorem insertIdx (h : Sorted r l) (k : κ) (b : β) :
    Sorted r (l.insertIdx (SortedMap.position r l k) (k, b)) := by
  obtain ⟨l₁, l₂, rfl, h₁, h₂⟩ := h.split k
  obtain ⟨hleft, hright, hbetween⟩ := List.pairwise_append.mp h
  rw [SortedMap.position_append h₁ h₂, SortedMap.insertIdx_append]
  refine List.pairwise_append.mpr ⟨hleft, List.pairwise_cons.mpr ⟨h₂, hright⟩, fun e he e' he' ↦ ?_⟩
  rcases List.mem_cons.mp he' with rfl | he'
  · exact asymm (h₁ e he)
  · exact hbetween e he e' he'

end Sorted

/-! ## Ranks -/

theorem eq_take_of_perm (hd : d.Pairwise fun a b ↦ ¬r a.1 b.1)
    (hsorted : out.Pairwise fun a b ↦ r b.1 a.1) (hperm : (out ++ others).Perm d)
    (hothers : ∀ e ∈ out, ∀ e' ∈ others, r e'.1 e.1) : out = d.take out.length := by
  induction out generalizing d with
  | nil => rfl
  | cons a out ih =>
    cases d with
    | nil => exact absurd hperm.length_eq (by simp)
    | cons a' d =>
      rw [List.pairwise_cons] at hd hsorted
      -- the first ones are both the best
      have heq : a' = a := by
        by_contra hne
        have hmem : a ∈ d := by
          rcases List.mem_cons.mp (hperm.mem_iff.mp List.mem_cons_self) with heq | hmem
          · exact absurd heq.symm hne
          · exact hmem
        rcases List.mem_cons.mp (hperm.mem_iff.mpr List.mem_cons_self) with heq | hmem'
        · exact hne heq
        rcases List.mem_append.mp hmem' with hout | hrest
        · exact hd.1 a hmem (hsorted.1 a' hout)
        · exact hd.1 a hmem (hothers a List.mem_cons_self a' hrest)
      subst heq
      rw [List.length_cons, List.take_succ_cons]
      exact congrArg _ (ih hd.2 hsorted.2 hperm.cons_inv fun e he ↦
        hothers e (List.mem_cons_of_mem _ he))

theorem Best.eq_take (h : Best r l out) (hl : Sorted r l) : out = l.reverse.take out.length := by
  obtain ⟨hsorted, others, hperm, hothers⟩ := h
  exact eq_take_of_perm hl.swap_reverse hsorted (hperm.trans l.reverse_perm.symm) hothers

variable [IsStrictTotalOrder κ r] [DecidableEq κ]

theorem pairwise_take (hd : d.Pairwise fun a b ↦ ¬r a.1 b.1)
    (hcount : ∀ e ∈ d.take n, (d.map Prod.fst).count e.1 = 1) :
    (d.take n).Pairwise (fun a b ↦ r b.1 a.1) ∧ ∀ e ∈ d.take n, ∀ e' ∈ d.drop n, r e'.1 e.1 := by
  induction d generalizing n with
  | nil => simp
  | cons a d ih =>
    cases n with
    | zero => simp
    | succ n =>
      rw [List.pairwise_cons] at hd
      rw [List.take_succ_cons, List.forall_mem_cons, List.map_cons] at hcount
      rw [List.take_succ_cons, List.drop_succ_cons]
      have ha : a.1 ∉ d.map Prod.fst := by
        have hself := hcount.1
        rw [List.count_cons_self] at hself
        exact List.count_eq_zero.mp (Nat.succ.inj hself)
      have hless : ∀ e ∈ d, r e.1 a.1 := by
        intro e he
        rcases trichotomous_of r e.1 a.1 with hlt | heq | hgt
        · exact hlt
        · exact absurd (heq ▸ List.mem_map_of_mem he) ha
        · exact absurd hgt (hd.1 e he)
      obtain ⟨hsorted, hothers⟩ := ih hd.2 fun e he ↦ by
        have hne : a.1 ≠ e.1 := fun heq ↦ ha (heq ▸ List.mem_map_of_mem (List.mem_of_mem_take he))
        rw [← hcount.2 e he, List.count_cons_of_ne hne]
      refine ⟨List.pairwise_cons.mpr ⟨fun e he ↦ hless e (List.mem_of_mem_take he), hsorted⟩,
        List.forall_mem_cons.mpr ⟨fun e he ↦ hless e (List.mem_of_mem_drop he), hothers⟩⟩

/-- **The last entries are the best ones** exactly if no other entry has the key of one of them. -/
theorem best_take_iff (hl : Sorted r l) :
    Best r l (l.reverse.take n) ↔ ∀ e ∈ l.reverse.take n, (l.map Prod.fst).count e.1 = 1 := by
  constructor
  · rintro ⟨hsorted, others, hperm, hothers⟩ e he
    have hnodup : ((l.reverse.take n).map Prod.fst).Nodup :=
      List.pairwise_map.mpr (hsorted.imp fun {a b} (h : r b.1 a.1) (heq : a.1 = b.1) ↦
        irrefl (r := r) b.1 (heq ▸ h))
    have hnot : e.1 ∉ others.map Prod.fst := by
      intro hmem
      obtain ⟨e', he', heq⟩ := List.mem_map.mp hmem
      exact irrefl _ (heq ▸ hothers e he e' he')
    rw [← (hperm.map Prod.fst).count_eq, List.map_append, List.count_append,
      List.nodup_iff_count_eq_one.mp hnodup _ (List.mem_map_of_mem he), List.count_eq_zero.mpr hnot]
  · intro hcount
    obtain ⟨hsorted, hothers⟩ := pairwise_take hl.swap_reverse fun e he ↦ by
      rw [List.map_reverse, List.count_reverse]
      exact hcount e he
    refine ⟨hsorted, l.reverse.drop n, ?_, hothers⟩
    rw [List.take_append_drop]
    exact l.reverse_perm

/-- Values that are computed from the last entries are the best ones exactly if they are what these
entries are, and no other entry has the key of one of them. -/
theorem best_map_iff (hl : Sorted r l) (f : κ × β → κ × β) :
    Best r l ((l.reverse.take n).map f) ↔
      ∀ e ∈ l.reverse.take n, f e = e ∧ (l.map Prod.fst).count e.1 = 1 := by
  constructor
  · intro h
    have heq : (l.reverse.take n).map f = l.reverse.take n := by
      rw [h.eq_take hl, List.length_map, List.length_take, ← List.take_eq_take_min]
    have hfix : ∀ e ∈ l.reverse.take n, f e = e :=
      List.map_inj_left.mp (heq.trans (List.map_id _).symm)
    rw [heq, best_take_iff hl] at h
    exact fun e he ↦ ⟨hfix e he, h e he⟩
  · intro h
    have heq : (l.reverse.take n).map f = l.reverse.take n :=
      (List.map_congr_left fun e he ↦ (h e he).1).trans (List.map_id _)
    rw [heq, best_take_iff hl]
    exact fun e he ↦ (h e he).2

end Ranking
