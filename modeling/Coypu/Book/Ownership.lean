import Coypu.Book.Level
import Coypu.Library.FreeList
import Coypu.Library.Run
import Mathlib.Data.List.Perm.Basic

/-!
# Who holds a level

Each level that the allocator has handed out is in one place: in the vector of the bids, in that of
the asks, or on the free list. `Owned` says so, with the free list as a list of slots, and every
call keeps it.
-/

set_option autoImplicit false

namespace Coypu

open FreeList

/-! ## The allocator -/

namespace LevelAllocator

variable {c : PageLayout} {la : LevelAllocator} {t : Slot}

/-- The slot lies in a page, at a multiple of its size. -/
def InPage (c : PageLayout) (la : LevelAllocator) (t : Slot) : Prop :=
  t.page < la.pages ∧ c.slotSize ∣ t.offset ∧ t.offset + c.slotSize ≤ c.pageSize

/-- The slots in front of the next one. -/
def Behind (la : LevelAllocator) (t : Slot) : Prop :=
  t.page + 1 < la.pages ∨ t.page + 1 = la.pages ∧ t.offset < la.curOffset

/-- The current offset is that of a slot, or the end of the page. -/
structure Valid (c : PageLayout) (la : LevelAllocator) : Prop where
  dvd : c.slotSize ∣ la.curOffset
  le : la.curOffset ≤ c.pageSize

theorem valid_new : new.Valid c := ⟨Nat.dvd_zero _, Nat.zero_le _⟩

theorem Valid.nextPage (h : la.Valid c) :
    (la.nextPage c).Valid c ∧ 0 < (la.nextPage c).pages ∧
      (la.nextPage c).curOffset + c.slotSize ≤ c.pageSize := by
  rw [LevelAllocator.nextPage]
  split_ifs with hfull
  · refine ⟨⟨Nat.dvd_zero _, Nat.zero_le _⟩, Nat.succ_pos _, ?_⟩
    rw [Nat.zero_add]
    exact Nat.le_of_dvd c.pageSize_pos c.dvd
  · rw [not_or] at hfull
    refine ⟨h, Nat.pos_of_ne_zero hfull.1, ?_⟩
    have hlt : la.curOffset < c.pageSize := Nat.lt_of_le_of_ne h.le hfull.2
    have hrest := Nat.le_of_dvd (Nat.sub_pos_of_lt hlt) (Nat.dvd_sub c.dvd h.dvd)
    omega

theorem Valid.allocate_curOffset (h : la.Valid c) :
    (la.allocate c).2.curOffset = (la.nextPage c).curOffset + c.slotSize :=
  CInt.toUnsigned_natCast (Nat.lt_of_le_of_lt h.nextPage.2.2 c.pageSize_lt)

theorem Valid.allocate (h : la.Valid c) : (la.allocate c).2.Valid c := by
  obtain ⟨hvalid, -, hroom⟩ := h.nextPage
  exact ⟨h.allocate_curOffset ▸ Nat.dvd_add hvalid.dvd (Nat.dvd_refl _),
    h.allocate_curOffset ▸ hroom⟩

theorem pages_le_nextPage : la.pages ≤ (la.nextPage c).pages := by
  rw [nextPage]
  split_ifs
  · exact Nat.le_succ _
  · exact Nat.le_refl _

theorem behind_nextPage (h : la.Behind t) : (la.nextPage c).Behind t := by
  rw [nextPage]
  split_ifs
  · unfold Behind at h ⊢
    exact .inl (by dsimp only; omega)
  · exact h

/-- **A slot that is handed out** lies in a page, behind the others. -/
theorem Valid.allocate_new (h : la.Valid c) :
    InPage c (la.allocate c).2 (la.allocate c).1 ∧ (la.allocate c).2.Behind (la.allocate c).1
      ∧ ¬la.Behind (la.allocate c).1 := by
  obtain ⟨hvalid, hpages, hroom⟩ := h.nextPage
  refine ⟨⟨Nat.sub_lt hpages Nat.one_pos, hvalid.dvd, hroom⟩, .inr ⟨Nat.sub_add_cancel hpages, ?_⟩,
    fun hbehind ↦ ?_⟩
  · rw [h.allocate_curOffset]
    exact Nat.lt_add_of_pos_right c.slotSize_pos
  · rcases behind_nextPage (c := c) hbehind with hlt | ⟨-, hlt⟩
    · exact absurd hlt (by rw [LevelAllocator.allocate]; dsimp only; omega)
    · exact Nat.lt_irrefl _ hlt

theorem Valid.allocate_old (h : la.Valid c) (ht : la.Behind t) : (la.allocate c).2.Behind t := by
  refine (behind_nextPage (c := c) ht).imp_right fun hlast ↦ ⟨hlast.1, ?_⟩
  rw [h.allocate_curOffset]
  exact Nat.lt_add_right _ hlast.2

theorem Valid.allocate_ne (h : la.Valid c) : (la.allocate c).2 ≠ la := by
  obtain ⟨-, hbehind, hnot⟩ := h.allocate_new
  intro heq
  rw [heq] at hbehind
  exact hnot hbehind

theorem InPage.allocate (h : la.InPage c t) : (la.allocate c).2.InPage c t :=
  ⟨Nat.lt_of_lt_of_le h.1 pages_le_nextPage, h.2⟩

end LevelAllocator

namespace Side

def other : Side → Side
  | bid => ask
  | ask => bid

theorem other_ne (side : Side) : side.other ≠ side := by
  cases side <;> simp [other]

theorem eq_or_eq_other (side side' : Side) : side' = side ∨ side' = side.other := by
  cases side <;> cases side' <;> simp [other]

end Side

namespace CBook

variable {c : PageLayout} {s : CBook} {side : Side} {t : Slot} {free slots v : List Slot}
  {px qty : ℕ} {index : ℤ}

/-- The link of each slot. -/
def next (s : CBook) (t : Slot) : Option Slot := (s.mem t).next

/-- The slot is on the free list. -/
def OnFreeList (s : CBook) (t : Slot) : Prop := ∃ free, Chain s.next s.freeList free ∧ t ∈ free

theorem onFreeList_iff (h : Chain s.next s.freeList free) : s.OnFreeList t ↔ t ∈ free :=
  ⟨fun ⟨_, h', ht⟩ ↦ h.unique h' ▸ ht, fun ht ↦ ⟨free, h, ht⟩⟩

@[simp] theorem setLevels_levels : (s.setLevels v side).levels side = v := by cases side <;> rfl

@[simp] theorem setLevels_levels_other :
    (s.setLevels v side).levels side.other = s.levels side.other := by
  cases side <;> rfl

@[simp] theorem setLevels_mem : (s.setLevels v side).mem = s.mem := by cases side <;> rfl

@[simp] theorem setLevels_la : (s.setLevels v side).la = s.la := by cases side <;> rfl

@[simp] theorem setLevels_freeList : (s.setLevels v side).freeList = s.freeList := by
  cases side <;> rfl

@[simp] theorem setLevels_next : (s.setLevels v side).next = s.next := by cases side <;> rfl

@[simp] theorem free_levels : (s.free t).levels side = s.levels side := by cases side <;> rfl

@[simp] theorem free_la : (s.free t).la = s.la := rfl

theorem free_mem {u : Slot} (hu : u ≠ t) : (s.free t).mem u = s.mem u :=
  Function.update_of_ne hu _ _

theorem free_mem_self : (s.free t).mem t = ⟨0, 0, s.freeList⟩ := Function.update_self ..

theorem free_next : (s.free t).next = Function.update s.next t s.freeList := by
  funext u
  by_cases hu : u = t
  · subst hu
    rw [Function.update_self]
    exact congrArg CoinLevel.next free_mem_self
  · rw [Function.update_of_ne hu]
    exact congrArg CoinLevel.next (free_mem hu)

theorem levels_perm (s : CBook) (side : Side) :
    (s.levels side ++ s.levels side.other).Perm (s.bids ++ s.asks) := by
  cases side
  · exact .refl _
  · exact List.perm_append_comm

/-! ## The invariant -/

/-- The slots that were handed out are those of the free list and of the vectors, each once. -/
structure Owned (c : PageLayout) (s : CBook) (free slots : List Slot) : Prop where
  chain : Chain s.next s.freeList free
  perm : (free ++ (s.bids ++ s.asks)).Perm slots
  nodup : slots.Nodup
  valid : s.la.Valid c
  handed : ∀ t ∈ slots, s.la.InPage c t ∧ s.la.Behind t

namespace Owned

theorem perm_side (h : Owned c s free slots) (side : Side) :
    (free ++ (s.levels side ++ s.levels side.other)).Perm slots :=
  (List.Perm.append_left free (s.levels_perm side)).trans h.perm

theorem nodup_side (h : Owned c s free slots) (side : Side) :
    (free ++ (s.levels side ++ s.levels side.other)).Nodup :=
  (h.perm_side side).nodup_iff.mpr h.nodup

/-- A level of one side is neither one of the other side nor on the free list. -/
theorem disjoint (h : Owned c s free slots) (side : Side) (ht : t ∈ s.levels side) :
    t ∉ s.levels side.other ∧ t ∉ free := by
  have hnodup := h.nodup_side side
  refine ⟨fun hmem ↦ ?_, fun hmem ↦ ?_⟩
  · exact (List.nodup_append.mp (List.nodup_append.mp hnodup).2.1).2.2 _ ht _ hmem rfl
  · exact (List.nodup_append.mp hnodup).2.2 _ hmem _ (List.mem_append_left _ ht) rfl

theorem new : Owned c .new [] [] := ⟨rfl, .refl _, .nil, LevelAllocator.valid_new, by simp⟩

theorem of_perm {s' : CBook} {free' : List Slot} (h : Owned c s free slots) (side : Side)
    (hchain : Chain s'.next s'.freeList free') (hla : s'.la = s.la)
    (hperm : (free' ++ (s'.levels side ++ s'.levels side.other)).Perm
      (free ++ (s.levels side ++ s.levels side.other))) :
    Owned c s' free' slots :=
  ⟨hchain, (List.Perm.append_left free' (s'.levels_perm side).symm).trans
    (hperm.trans (h.perm_side side)),
    h.nodup, hla ▸ h.valid, hla ▸ h.handed⟩

end Owned

/-! ## Freeing -/

theorem foldl_free_levels : (v.foldl CBook.free s).levels side = s.levels side := by
  induction v generalizing s with
  | nil => rfl
  | cons t v ih => rw [List.foldl_cons, ih, free_levels]

theorem foldl_free_la : (v.foldl CBook.free s).la = s.la := by
  induction v generalizing s with
  | nil => rfl
  | cons t v ih => rw [List.foldl_cons, ih, free_la]

theorem foldl_free_mem (ht : t ∉ v) : (v.foldl CBook.free s).mem t = s.mem t := by
  induction v generalizing s with
  | nil => rfl
  | cons u v ih =>
    rw [List.mem_cons, not_or] at ht
    rw [List.foldl_cons, ih ht.2, free_mem ht.1]

theorem chain_free (h : Chain s.next s.freeList free) (ht : t ∉ free) :
    Chain (s.free t).next (s.free t).freeList (t :: free) := by
  rw [free_next]
  exact h.push ht

theorem chain_foldl_free (h : Chain s.next s.freeList free) (hv : (free ++ v).Nodup) :
    Chain (v.foldl CBook.free s).next (v.foldl CBook.free s).freeList (v.reverse ++ free) := by
  induction v generalizing s free with
  | nil => exact h
  | cons t v ih =>
    have hperm : (free ++ t :: v).Perm (t :: free ++ v) := List.perm_middle
    have hnodup := hperm.nodup_iff.mp hv
    have ht : t ∉ free := fun hmem ↦ (List.nodup_cons.mp hnodup).1 (List.mem_append_left _ hmem)
    rw [List.foldl_cons, List.reverse_cons, List.append_assoc, List.singleton_append]
    exact ih (chain_free h ht) hnodup

theorem Owned.clearSide (h : Owned c s free slots) (side : Side) :
    Owned c (s.clearSide side) ((s.levels side).reverse ++ free) slots := by
  have hnodup := h.nodup_side side
  rw [← List.append_assoc] at hnodup
  refine h.of_perm side ?_ ?_ ?_
  · exact chain_foldl_free (by rw [setLevels_next, setLevels_freeList]; exact h.chain)
      (List.nodup_append.mp hnodup).1
  · rw [CBook.clearSide, foldl_free_la, setLevels_la]
  · rw [CBook.clearSide, foldl_free_levels, foldl_free_levels, setLevels_levels,
      setLevels_levels_other, List.nil_append, ← List.append_assoc]
    exact ((List.perm_append_comm.trans
      (List.Perm.append_left free (List.reverse_perm _))).append_right _)

theorem clearSide_levels : (s.clearSide side).levels side = [] := by
  rw [clearSide, foldl_free_levels, setLevels_levels]

theorem clearSide_levels_other : (s.clearSide side).levels side.other = s.levels side.other := by
  rw [clearSide, foldl_free_levels, setLevels_levels_other]

theorem clearSide_mem (ht : t ∉ s.levels side) : (s.clearSide side).mem t = s.mem t := by
  rw [clearSide, foldl_free_mem ht, setLevels_mem]

/-! ## Searching -/

theorem mem_of_find {cmp : ℕ → ℕ → Prop} [DecidableRel cmp] {mem : Slot → CoinLevel}
    (h : CLevelFwdBook.find cmp mem v px = some t) :
    t ∈ v ∧ (mem t).px = px ∧ v[CLevelFwdBook.lowerBound cmp mem v px]? = some t := by
  obtain ⟨hget, hpx⟩ := Option.filter_eq_some_iff.mp h
  exact ⟨List.mem_of_getElem? hget, (of_decide_eq_true hpx).symm, hget⟩

theorem perm_of_find {mem : Slot → CoinLevel} (h : CLevelFwdBook.find side.cmp mem v px = some t) :
    (t :: v.eraseIdx (CLevelFwdBook.lowerBound side.cmp mem v px)).Perm v := by
  obtain ⟨-, -, hget⟩ := mem_of_find h
  obtain ⟨hlt, rfl⟩ := List.getElem?_eq_some_iff.mp hget
  exact List.getElem_cons_eraseIdx_perm hlt

theorem erase_some (h : CLevelFwdBook.find side.cmp s.mem (s.levels side) px = some t) :
    s.erase side px =
      ((true, CInt.toInt (CLevelFwdBook.lowerBound side.cmp s.mem (s.levels side) px)),
      (s.setLevels ((s.levels side).eraseIdx
        (CLevelFwdBook.lowerBound side.cmp s.mem (s.levels side) px)) side).free t) := by
  rw [erase, CLevelFwdBook.erase, h]

theorem erase_none (h : CLevelFwdBook.find side.cmp s.mem (s.levels side) px = none) :
    s.erase side px = ((false, -1), s) := by
  rw [erase, CLevelFwdBook.erase, h]

theorem update_some (h : CLevelFwdBook.find side.cmp s.mem (s.levels side) px = some t) :
    s.update side px qty index =
      ((true, CInt.toInt (CLevelFwdBook.lowerBound side.cmp s.mem (s.levels side) px)),
      { s with mem := Function.update s.mem t { s.mem t with qty := qty } }) := by
  rw [update, CLevelFwdBook.update, h]

theorem update_none (h : CLevelFwdBook.find side.cmp s.mem (s.levels side) px = none) :
    s.update side px qty index = ((false, index), s) := by
  rw [update, CLevelFwdBook.update, h]

theorem update_frame (s : CBook) (side : Side) (px qty : ℕ) (index : ℤ) :
    let s' := (s.update side px qty index).2
    s'.freeList = s.freeList ∧ s'.la = s.la ∧ s'.bids = s.bids ∧ s'.asks = s.asks ∧ s'.next = s.next
      ∧ ∀ t, (s'.mem t).px = (s.mem t).px := by
  cases h : CLevelFwdBook.find side.cmp s.mem (s.levels side) px with
  | none =>
    rw [update_none h]
    exact ⟨rfl, rfl, rfl, rfl, rfl, fun _ ↦ rfl⟩
  | some t =>
    rw [update_some h]
    refine ⟨rfl, rfl, rfl, rfl, funext fun u ↦ ?_, fun u ↦ ?_⟩
    all_goals
      by_cases hu : u = t
      · subst hu
        simp [next]
      · simp [next, hu]

/-! ## Allocating -/

theorem chain_of_update {s' : CBook} {head : Option Slot} {l : CoinLevel}
    (h : Chain s.next head free) (ht : t ∉ free) (hmem : s'.mem = Function.update s.mem t l) :
    Chain s'.next head free := by
  refine h.congr fun u hu ↦ congrArg CoinLevel.next ?_
  rw [hmem]
  refine Function.update_of_ne ?_ _ _
  rintro rfl
  exact ht hu

/-- `t` is in no place, and its level is written: it was the first free level, or it is new. -/
structure Takes (c : PageLayout) (s s' : CBook) (t : Slot) (l : CoinLevel)
    (free free' slots : List Slot) : Prop where
  bids : s'.bids = s.bids
  asks : s'.asks = s.asks
  mem : s'.mem = Function.update s.mem t l
  chain : Chain s'.next s'.freeList free'
  not_mem : t ∉ free' ++ (s.bids ++ s.asks)
  cases : free = t :: free' ∧ s'.la = s.la
    ∨ free = [] ∧ free' = [] ∧ t = (s.la.allocate c).1 ∧ s'.la = (s.la.allocate c).2 ∧ t ∉ slots

theorem allocate_takes (h : Owned c s free slots) (px qty : ℕ) :
    ∃ free', Takes c s (s.allocate c px qty).2 (s.allocate c px qty).1
      ⟨px, qty, none⟩ free free' slots := by
  have hnodup := h.perm.nodup_iff.mpr h.nodup
  cases free with
  | nil =>
    have hnot : (s.la.allocate c).1 ∉ slots :=
      fun hmem ↦ h.valid.allocate_new.2.2 (h.handed _ hmem).2
    rw [allocate, chain_nil.mp h.chain]
    exact ⟨[], rfl, rfl, rfl, rfl, h.perm.mem_iff.not.mpr hnot, .inr ⟨rfl, rfl, rfl, rfl, hnot⟩⟩
  | cons t free' =>
    rw [List.cons_append, List.nodup_cons] at hnodup
    have hfree : t ∉ free' := fun hmem ↦ hnodup.1 (List.mem_append_left _ hmem)
    rw [allocate, h.chain.1]
    exact ⟨free', rfl, rfl, rfl, chain_of_update h.chain.2 hfree rfl, hnodup.1, .inl ⟨rfl, rfl⟩⟩

namespace Takes

variable {s' : CBook} {l : CoinLevel} {free' : List Slot}

theorem levels (h : Takes c s s' t l free free' slots) (side : Side) :
    s'.levels side = s.levels side := by
  cases side
  · exact h.bids
  · exact h.asks

theorem mem_self (h : Takes c s s' t l free free' slots) : s'.mem t = l := by
  rw [h.mem, Function.update_self]

theorem mem_of_ne (h : Takes c s s' t l free free' slots) {u : Slot} (hu : u ≠ t) :
    s'.mem u = s.mem u := by
  rw [h.mem, Function.update_of_ne hu]

theorem not_mem_levels (h : Takes c s s' t l free free' slots) (side : Side) :
    t ∉ s.levels side := by
  have hnot := h.not_mem
  rw [List.mem_append, List.mem_append, not_or, not_or] at hnot
  cases side
  · exact hnot.2.1
  · exact hnot.2.2

end Takes

/-- **`InsertBid` and `InsertAsk`** take a level and put it at its place. -/
theorem insert_takes (h : Owned c s free slots) (side : Side) (px qty : ℕ) :
    ∃ t s' free', Takes c s s' t ⟨px, qty, none⟩ free free' slots
      ∧ s.insert c side px qty
        = ((true, CInt.toInt (CLevelFwdBook.lowerBound side.cmp s'.mem (s.levels side) px)),
          s'.setLevels
          ((s.levels side).insertIdx
            (CLevelFwdBook.lowerBound side.cmp s'.mem (s.levels side) px) t) side) := by
  obtain ⟨free', htakes⟩ := allocate_takes h px qty
  refine ⟨_, _, free', htakes, ?_⟩
  rw [insert, CLevelFwdBook.insert, htakes.mem_self, htakes.levels]

/-! ## A call -/

/-- The slot that the allocator hands out in a call, if it hands out one. -/
def handed (c : PageLayout) (s : CBook) (k : Call) : List Slot :=
  if (s.call c k).1.la = s.la then [] else [(s.la.allocate c).1]

/-- The calls that take the levels of a price out of a side. -/
def Call.Removes (side : Side) (px : ℕ) : Call → Prop
  | .erase side' px' => side' = side ∧ px' = px
  | .clearSide side' => side' = side
  | .clear => True
  | _ => False

/-- A new slot is taken only while the free list is empty. A level stays in its vector and keeps its
price, or it is erased or cleared and is then on the free list; and no other level gets there. -/
structure Careful (c : PageLayout) (s : CBook) (k : Call) : Prop where
  fresh : s.handed c k ≠ [] → s.freeList = none
  keeps : ∀ side, ∀ t ∈ s.levels side,
    (t ∈ (s.call c k).1.levels side ∧ ((s.call c k).1.mem t).px = (s.mem t).px)
      ∨ k.Removes side (s.mem t).px ∧ (s.call c k).1.OnFreeList t
  freed : ∀ t, (s.call c k).1.OnFreeList t →
    s.OnFreeList t ∨ ∃ side, t ∈ s.levels side ∧ k.Removes side (s.mem t).px

theorem handed_of_la {k : Call} (h : (s.call c k).1.la = s.la) : s.handed c k = [] := if_pos h

theorem perm_insertIdx {s' : CBook} {n : ℕ} (hn : n ≤ (s'.levels side).length) :
    ((s'.setLevels ((s'.levels side).insertIdx n t) side).levels side
        ++ (s'.setLevels ((s'.levels side).insertIdx n t) side).levels side.other).Perm
      (t :: (s'.levels side ++ s'.levels side.other)) := by
  rw [setLevels_levels, setLevels_levels_other]
  exact (List.perm_insertIdx t _ hn).append_right _

theorem mem_insertIdx_levels {s' : CBook} {n : ℕ} (hn : n ≤ (s'.levels side).length) {side' : Side}
    {u : Slot} (hu : u ∈ s'.levels side') :
    u ∈ (s'.setLevels ((s'.levels side).insertIdx n t) side).levels side' := by
  rcases side.eq_or_eq_other side' with rfl | rfl
  · rw [setLevels_levels, List.mem_insertIdx hn]
    exact .inr hu
  · rwa [setLevels_levels_other]

theorem Owned.of_new {s' : CBook} (h : Owned c s [] slots) (hnot : (s.la.allocate c).1 ∉ slots)
    (hchain : Chain s'.next s'.freeList []) (hla : s'.la = (s.la.allocate c).2)
    (hperm : (s'.levels side ++ s'.levels side.other).Perm
      ((s.la.allocate c).1 :: (s.levels side ++ s.levels side.other))) :
    Owned c s' [] (slots ++ [(s.la.allocate c).1]) := by
  obtain ⟨hpage, hbehind, -⟩ := h.valid.allocate_new
  refine ⟨hchain, ?_, ?_, hla ▸ h.valid.allocate, fun t ht ↦ ?_⟩
  · rw [List.nil_append]
    calc (s'.bids ++ s'.asks).Perm (s'.levels side ++ s'.levels side.other) :=
      (s'.levels_perm side).symm
      _ |>.Perm ((s.la.allocate c).1 :: (s.levels side ++ s.levels side.other)) := hperm
      _ |>.Perm ((s.la.allocate c).1 :: slots) := (h.perm_side side).cons _
      _ |>.Perm (slots ++ [(s.la.allocate c).1]) := (List.perm_append_singleton _ _).symm
  · exact (List.perm_append_singleton _ _).nodup_iff.mpr (List.nodup_cons.mpr ⟨hnot, h.nodup⟩)
  · rw [hla]
    rcases List.mem_append.mp ht with ht | ht
    · exact ⟨(h.handed t ht).1.allocate, h.valid.allocate_old (h.handed t ht).2⟩
    · rw [List.mem_singleton.mp ht]
      exact ⟨hpage, hbehind⟩

theorem owned_insert (h : Owned c s free slots) (side : Side) (px qty : ℕ) :
    Careful c s (.insert side px qty) ∧ ∃ free', Owned c (s.call c (.insert side px qty)).1 free'
      (slots ++ s.handed c (.insert side px qty)) := by
  obtain ⟨t, s', free', htakes, heq⟩ := insert_takes h side px qty
  have hcall : (s.call c (.insert side px qty)).1 = s'.setLevels ((s'.levels side).insertIdx
      (CLevelFwdBook.lowerBound side.cmp s'.mem (s'.levels side) px) t) side := by
    rw [call_insert, heq, htakes.levels]
  have hle : CLevelFwdBook.lowerBound side.cmp s'.mem
    (s'.levels side) px ≤ (s'.levels side).length :=
    LowerBound.lowerBound_le
  have hchain : Chain (s.call c (.insert side px qty)).1.next
    (s.call c (.insert side px qty)).1.freeList free' := by
    rw [hcall, setLevels_next, setLevels_freeList]
    exact htakes.chain
  have hperm := perm_insertIdx (t := t) hle
  rw [← hcall, htakes.levels, htakes.levels] at hperm
  have hla : (s.call c (.insert side px qty)).1.la = s'.la := by rw [hcall, setLevels_la]
  refine ⟨⟨fun hnew ↦ ?_, fun side' u hu ↦ .inl ⟨?_, ?_⟩, fun u hu ↦ .inl ?_⟩, free', ?_⟩
  · rcases htakes.cases with ⟨-, hsame⟩ | ⟨rfl, -⟩
    · exact absurd (handed_of_la (hla.trans hsame)) hnew
    · exact h.chain
  · rw [hcall]
    exact mem_insertIdx_levels hle ((htakes.levels side').symm ▸ hu)
  · rw [hcall, setLevels_mem, htakes.mem_of_ne fun heq ↦ htakes.not_mem_levels side' (heq ▸ hu)]
  · rw [onFreeList_iff hchain] at hu
    rcases htakes.cases with ⟨rfl, -⟩ | ⟨-, rfl, -⟩
    · exact ⟨_, h.chain, List.mem_cons_of_mem _ hu⟩
    · exact absurd hu List.not_mem_nil
  · rcases htakes.cases with ⟨rfl, hsame⟩ | ⟨rfl, rfl, rfl, hnew, hnot⟩
    · rw [handed_of_la (hla.trans hsame), List.append_nil]
      exact h.of_perm side hchain (hla.trans hsame)
        ((List.Perm.append_left free' hperm).trans List.perm_middle)
    · have hne : (s.call c (.insert side px qty)).1.la ≠ s.la := by
        rw [hla, hnew]
        exact h.valid.allocate_ne
      rw [handed, if_neg hne]
      exact h.of_new hnot hchain (hla.trans hnew) hperm

theorem owned_frame {k : Call} (h : Owned c s free slots)
    (hfree : (s.call c k).1.freeList = s.freeList)
    (hla : (s.call c k).1.la = s.la) (hbids : (s.call c k).1.bids = s.bids)
    (hasks : (s.call c k).1.asks = s.asks)
    (hnext : (s.call c k).1.next = s.next) (hpx : ∀ t, ((s.call c k).1.mem t).px = (s.mem t).px) :
    Careful c s k ∧ ∃ free', Owned c (s.call c k).1 free' (slots ++ s.handed c k) := by
  have hlevels : ∀ side, (s.call c k).1.levels side = s.levels side := by
    intro side
    cases side
    · exact hbids
    · exact hasks
  have hchain : Chain (s.call c k).1.next (s.call c k).1.freeList free := by
    rw [hnext, hfree]
    exact h.chain
  refine ⟨⟨fun hnew ↦ absurd (handed_of_la hla) hnew,
    fun side t ht ↦ .inl ⟨(hlevels side).symm ▸ ht, hpx t⟩,
    fun t ht ↦ .inl ?_⟩, free, ?_⟩
  · rw [onFreeList_iff hchain] at ht
    exact ⟨free, h.chain, ht⟩
  · rw [handed_of_la hla, List.append_nil]
    exact ⟨hchain, by rw [hbids, hasks]; exact h.perm, h.nodup, hla ▸ h.valid, hla ▸ h.handed⟩

theorem owned_update (h : Owned c s free slots) (side : Side) (px qty : ℕ) (index : ℤ) :
    Careful c s (.update side px qty index) ∧
      ∃ free', Owned c (s.call c (.update side px qty index)).1 free'
      (slots ++ s.handed c (.update side px qty index)) := by
  obtain ⟨hfree, hla, hbids, hasks, hnext, hpx⟩ := s.update_frame side px qty index
  rw [show (s.update side px qty index).2 =
    (s.call c (.update side px qty index)).1 by rw [call_update]] at *
  exact owned_frame h hfree hla hbids hasks hnext hpx

/-- A call that puts levels on the free list, without taking any from it, and leaves the others. -/
theorem careful_of_freed {k : Call} {free' : List Slot} (h : Owned c s free slots)
    (hla : (s.call c k).1.la = s.la)
    (hchain : Chain (s.call c k).1.next (s.call c k).1.freeList (free' ++ free))
    (hfreed : ∀ side, ∀ t ∈ s.levels side, t ∈ free' ∧ k.Removes side (s.mem t).px
      ∨ t ∈ (s.call c k).1.levels side ∧ (s.call c k).1.mem t = s.mem t)
    (hlevels : ∀ t ∈ free', ∃ side, t ∈ s.levels side ∧ k.Removes side (s.mem t).px) :
    Careful c s k := by
  refine ⟨fun hnew ↦ absurd (handed_of_la hla) hnew, fun side t ht ↦ ?_, fun t ht ↦ ?_⟩
  · rcases hfreed side t ht with ⟨hmem, hremoves⟩ | ⟨hmem, hsame⟩
    · exact .inr ⟨hremoves, _, hchain, List.mem_append_left _ hmem⟩
    · exact .inl ⟨hmem, by rw [hsame]⟩
  · rw [onFreeList_iff hchain, List.mem_append] at ht
    rcases ht with ht | ht
    · exact .inr (hlevels t ht)
    · exact .inl ⟨free, h.chain, ht⟩

theorem owned_erase (h : Owned c s free slots) (side : Side) (px : ℕ) :
    Careful c s (.erase side px) ∧ ∃ free', Owned c (s.call c (.erase side px)).1 free'
      (slots ++ s.handed c (.erase side px)) := by
  cases hfind : CLevelFwdBook.find side.cmp s.mem (s.levels side) px with
  | none =>
    have hcall : (s.call c (.erase side px)).1 = s := by rw [call_erase, erase_none hfind]
    exact owned_frame h (by rw [hcall]) (by rw [hcall]) (by rw [hcall]) (by rw [hcall])
      (by rw [hcall])
      (by rw [hcall]; exact fun _ ↦ rfl)
  | some t =>
    obtain ⟨ht, hpx, -⟩ := mem_of_find hfind
    have hperm := perm_of_find hfind
    obtain ⟨hother, hfree⟩ := h.disjoint side ht
    have hcall : (s.call c (.erase side px)).1 = (s.setLevels ((s.levels side).eraseIdx
        (CLevelFwdBook.lowerBound side.cmp s.mem (s.levels side) px)) side).free t := by
      rw [call_erase, erase_some hfind]
    have hla : (s.call c (.erase side px)).1.la = s.la := by rw [hcall, free_la, setLevels_la]
    have hchain : Chain (s.call c (.erase side px)).1.next (s.call c (.erase side px)).1.freeList
      ([t] ++ free) := by
      rw [hcall]
      exact chain_free (by rw [setLevels_next, setLevels_freeList]; exact h.chain) hfree
    refine ⟨careful_of_freed h hla hchain (fun side' u hu ↦ ?_) fun u hu ↦ ⟨side, ?_⟩, t :: free,
      ?_⟩
    -- the level that is erased is on its own side only
    · by_cases heq : u = t
      · subst heq
        rcases side.eq_or_eq_other side' with rfl | rfl
        · exact .inl ⟨List.mem_singleton_self _, rfl, hpx.symm⟩
        · exact absurd hu hother
      · refine .inr ⟨?_, ?_⟩
        · rw [hcall, free_levels]
          rcases side.eq_or_eq_other side' with rfl | rfl
          · rw [setLevels_levels]
            exact List.mem_of_ne_of_mem heq (hperm.mem_iff.mpr hu)
          · rwa [setLevels_levels_other]
        · rw [hcall, free_mem heq, setLevels_mem]
    · rw [List.mem_singleton.mp hu]
      exact ⟨ht, rfl, hpx.symm⟩
    · rw [handed_of_la hla, List.append_nil]
      refine h.of_perm side hchain hla ?_
      rw [hcall, free_levels, free_levels, setLevels_levels, setLevels_levels_other]
      exact List.perm_middle.symm.trans (List.Perm.append_left free (hperm.append_right _))

theorem owned_clearSide (h : Owned c s free slots) (side : Side) :
    Careful c s (.clearSide side) ∧ ∃ free', Owned c (s.call c (.clearSide side)).1 free'
      (slots ++ s.handed c (.clearSide side)) := by
  have howned := h.clearSide side
  have hcall : (s.call c (.clearSide side)).1 = s.clearSide side := by rw [call_clearSide]
  rw [← hcall] at howned
  have hla : (s.call c (.clearSide side)).1.la = s.la := by
    rw [hcall, clearSide, foldl_free_la, setLevels_la]
  refine ⟨careful_of_freed h hla howned.chain (fun side' t ht ↦ ?_) fun t ht ↦ ⟨side, ?_⟩,
    (s.levels side).reverse ++ free, ?_⟩
  · rcases side.eq_or_eq_other side' with rfl | rfl
    · exact .inl ⟨List.mem_reverse.mpr ht, rfl⟩
    · refine .inr ⟨?_, ?_⟩
      · rwa [hcall, clearSide_levels_other]
      · rw [hcall]
        exact clearSide_mem fun hmem ↦ (h.disjoint side hmem).1 ht
  · exact ⟨List.mem_reverse.mp ht, rfl⟩
  · rw [handed_of_la hla, List.append_nil]
    exact howned

theorem owned_clear (h : Owned c s free slots) :
    Careful c s .clear ∧ ∃ free', Owned c (s.call c .clear).1 free'
      (slots ++ s.handed c .clear) := by
  have howned : Owned c (s.call c .clear).1 (s.asks.reverse ++ (s.bids.reverse ++ free)) slots := by
    have hasks := (h.clearSide .bid).clearSide .ask
    rwa [show (s.clearSide .bid).levels .ask = s.asks from clearSide_levels_other] at hasks
  have hla : (s.call c .clear).1.la = s.la := by
    rw [call, clear, clearAsk, clearBid, clearSide, foldl_free_la, setLevels_la, clearSide,
      foldl_free_la, setLevels_la]
  have hchain := howned.chain
  rw [← List.append_assoc] at hchain
  refine ⟨careful_of_freed h hla hchain (fun side t ht ↦ .inl ⟨?_, trivial⟩) fun t ht ↦ ?_,
    s.asks.reverse ++ (s.bids.reverse ++ free), ?_⟩
  · rw [List.mem_append, List.mem_reverse, List.mem_reverse]
    cases side
    · exact .inr ht
    · exact .inl ht
  · rw [List.mem_append, List.mem_reverse, List.mem_reverse] at ht
    rcases ht with ht | ht
    · exact ⟨.ask, ht, trivial⟩
    · exact ⟨.bid, ht, trivial⟩
  · rw [handed_of_la hla, List.append_nil]
    exact howned

/-- **One call.** -/
theorem owned_call (h : Owned c s free slots) (k : Call) :
    Careful c s k ∧ ∃ free', Owned c (s.call c k).1 free' (slots ++ s.handed c k) := by
  cases k with
  | insert side px qty => exact owned_insert h side px qty
  | update side px qty index => exact owned_update h side px qty index
  | erase side px => exact owned_erase h side px
  | clearSide side => exact owned_clearSide h side
  | clear => exact owned_clear h

/-! ## Runs -/

/-- A call, which answers with the slots that the allocator hands out. -/
def step (c : PageLayout) (s : CBook) (k : Call) :
    CBook × List Slot := ((s.call c k).1, s.handed c k)

theorem run_owned_from (h : Owned c s free slots) (calls : List Call) :
    Run.Steps (step c) (Careful c) s calls ∧ ∃ free', Owned c (Run.run (step c) s calls).1 free'
      (slots ++ (Run.run (step c) s calls).2.flatten) := by
  induction calls generalizing s free slots with
  | nil => exact ⟨trivial, free, by rw [Run.run_nil, List.flatten_nil, List.append_nil]; exact h⟩
  | cons k calls ih =>
    obtain ⟨hcareful, free', hcall⟩ := owned_call h k
    obtain ⟨hsteps, free'', hrun⟩ := ih hcall
    refine ⟨⟨hcareful, hsteps⟩, free'', ?_⟩
    rw [Run.run_cons, List.flatten_cons, ← List.append_assoc]
    exact hrun

/-- **No level is lost or in two places.** After any calls on a new book, the slots that its
allocator has handed out are distinct, lie in its pages, and are those of the free list, which ends,
and of the two vectors, each once. Every call on the way is careful with them. -/
theorem run_owned (c : PageLayout) (calls : List Call) :
    let r := Run.run (step c) new calls
    r.2.flatten.Nodup ∧ (∀ t ∈ r.2.flatten, r.1.la.InPage c t)
      ∧ (∃ free, Chain r.1.next r.1.freeList free ∧
        (free ++ (r.1.bids ++ r.1.asks)).Perm r.2.flatten)
      ∧ Run.Steps (step c) (Careful c) new calls := by
  obtain ⟨hsteps, free, h⟩ := run_owned_from Owned.new calls
  rw [List.nil_append] at h
  exact ⟨h.nodup, fun t ht ↦ (h.handed t ht).1, ⟨free, h.chain, h.perm⟩, hsteps⟩

end CBook

end Coypu
