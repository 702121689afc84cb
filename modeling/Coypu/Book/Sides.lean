import Coypu.Book.Ownership
import Mathlib.Data.List.Nodup

/-!
# A side of the book is a map

The entries of a side are the prices and quantities of its levels, in the order of its vector. Each
call changes them as a sorted list changes that represents a finite map, and leaves the other side
alone. So a side is the map that its feed describes (`run_follows`).
-/

set_option autoImplicit false

namespace Coypu

open SortedMap

namespace CBook

/-- The price and the quantity of a level. -/
def entry (mem : Slot → CoinLevel) (t : Slot) : ℕ × ℕ := ((mem t).px, (mem t).qty)

def entries (s : CBook) (side : Side) : List (ℕ × ℕ) := (s.levels side).map (entry s.mem)

/-! ## Calls -/

section Calls

variable {c : PageLayout} {s : CBook} {side : Side} {t : Slot} {free slots v : List Slot}
  {px qty : ℕ} {index : ℤ} {m : ℕ → Option ℕ}

theorem lowerBound_eq {cmp : ℕ → ℕ → Prop} [DecidableRel cmp] {mem : Slot → CoinLevel} :
    CLevelFwdBook.lowerBound cmp mem v px = position cmp (v.map (entry mem)) px := by
  rw [position, LowerBound.lowerBound_map]
  rfl

theorem map_entry_congr {mem mem' : Slot → CoinLevel} (h : ∀ t ∈ v, mem' t = mem t) :
    v.map (entry mem') = v.map (entry mem) :=
  List.map_congr_left fun t ht ↦ by rw [entry, entry, h t ht]

theorem entry_of_find (h : CLevelFwdBook.find side.cmp s.mem (s.levels side) px = some t) :
    (s.entries side)[position side.cmp (s.entries side) px]? = some (px, (s.mem t).qty) := by
  obtain ⟨-, hpx, hget⟩ := mem_of_find h
  rw [lowerBound_eq] at hget
  rw [entries, List.getElem?_map, hget, Option.map_some, entry, hpx]

theorem find_isSome (h : Represents side.cmp (s.entries side) m) :
    (CLevelFwdBook.find side.cmp s.mem (s.levels side) px).isSome ↔ (m px).isSome := by
  constructor
  · intro hfind
    obtain ⟨t, ht⟩ := Option.isSome_iff_exists.mp hfind
    rw [(h.mem_iff _ _).mp (List.mem_of_getElem? (entry_of_find ht))]
    rfl
  · intro hm
    obtain ⟨qty, hqty⟩ := Option.isSome_iff_exists.mp hm
    have hget := h.getElem?_position hqty
    rw [entries, List.getElem?_map, Option.map_eq_some_iff] at hget
    obtain ⟨t, ht, hentry⟩ := hget
    rw [CLevelFwdBook.find, lowerBound_eq, ht, Option.filter_some_pos]
    · rfl
    · exact decide_eq_true (congrArg Prod.fst hentry).symm

theorem insert_entries (h : Owned c s free slots) (side : Side) (px qty : ℕ) :
    (s.insert c side px qty).1 = (true, CInt.toInt (position side.cmp (s.entries side) px))
      ∧ (s.insert c side px qty).2.entries side
        = (s.entries side).insertIdx (position side.cmp (s.entries side) px) (px, qty)
      ∧ (s.insert c side px qty).2.levels side.other = s.levels side.other
      ∧ (s.insert c side px qty).2.entries side.other = s.entries side.other := by
  obtain ⟨t, s', free', htakes, heq⟩ := insert_takes h side px qty
  have hsame : ∀ side', (s.levels side').map (entry s'.mem) = s.entries side' := fun side' ↦
    map_entry_congr fun u hu ↦ htakes.mem_of_ne fun heq ↦ htakes.not_mem_levels side' (heq ▸ hu)
  have hself : entry s'.mem t = (px, qty) := by rw [entry, htakes.mem_self]
  rw [lowerBound_eq, hsame] at heq
  rw [heq]
  refine ⟨rfl, ?_, ?_, ?_⟩
  · rw [entries, setLevels_levels, setLevels_mem, List.map_insertIdx, hself, hsame]
  · rw [setLevels_levels_other, htakes.levels]
  · rw [entries, setLevels_levels_other, setLevels_mem, htakes.levels, hsame]

theorem map_entry_update {mem : Slot → CoinLevel} {i : ℕ} (hv : v.Nodup) (ht : v[i]? = some t) :
    v.map (entry (Function.update mem t { mem t with qty := qty })) = (v.map (entry mem)).set i
      ((mem t).px, qty) := by
  obtain ⟨hlt, rfl⟩ := List.getElem?_eq_some_iff.mp ht
  refine List.ext_getElem (by rw [List.length_set, List.length_map, List.length_map]) fun j hj _ ↦
    ?_
  rw [List.length_map] at hj
  rw [List.getElem_set, List.getElem_map, List.getElem_map]
  split_ifs with hij
  · subst hij
    rw [entry, Function.update_self]
  · rw [entry, Function.update_of_ne fun heq ↦ hij ((List.Nodup.getElem_inj_iff hv).mp heq).symm,
      entry]

theorem Owned.nodup_levels (h : Owned c s free slots) (side : Side) : (s.levels side).Nodup :=
  (List.nodup_append.mp (List.nodup_append.mp (h.nodup_side side)).2.1).1

variable (qty index) in
theorem update_entries (h : Owned c s free slots)
    (hfind : CLevelFwdBook.find side.cmp s.mem (s.levels side) px = some t) :
    (s.update side px qty index).1 = (true, CInt.toInt (position side.cmp (s.entries side) px))
      ∧ (s.update side px qty index).2.entries side
        = (s.entries side).set (position side.cmp (s.entries side) px) (px, qty)
      ∧ (s.update side px qty index).2.levels side.other = s.levels side.other
      ∧ (s.update side px qty index).2.entries side.other = s.entries side.other := by
  obtain ⟨ht, hpx, hget⟩ := mem_of_find hfind
  rw [lowerBound_eq] at hget
  have hlevels : ∀ side', (s.update side px qty index).2.levels side' = s.levels side' := by
    intro side'
    cases side' <;> rfl
  have hmem : (s.update side px qty index).2.mem
    = Function.update s.mem t { s.mem t with qty := qty } := by
    rw [update_some hfind]
  refine ⟨?_, ?_, hlevels _, ?_⟩
  · rw [update_some hfind, lowerBound_eq]
    rfl
  · rw [entries, hlevels, hmem, map_entry_update (h.nodup_levels side) hget, hpx]
    rfl
  · rw [entries, hlevels, hmem]
    -- the level that is written is on one side only
    refine map_entry_congr fun u hu ↦ Function.update_of_ne ?_ _ _
    rintro rfl
    exact (h.disjoint side ht).1 hu

theorem erase_entries (h : Owned c s free slots)
    (hfind : CLevelFwdBook.find side.cmp s.mem (s.levels side) px = some t) :
    (s.erase side px).1 = (true, CInt.toInt (position side.cmp (s.entries side) px))
      ∧ (s.erase side px).2.entries side = (s.entries side).eraseIdx
        (position side.cmp (s.entries side) px)
      ∧ (s.erase side px).2.levels side.other = s.levels side.other
      ∧ (s.erase side px).2.entries side.other = s.entries side.other := by
  have hperm := perm_of_find hfind
  obtain ⟨ht, -, -⟩ := mem_of_find hfind
  rw [lowerBound_eq] at hperm
  have hnodup := hperm.nodup_iff.mpr (h.nodup_levels side)
  rw [erase_some hfind, lowerBound_eq]
  refine ⟨rfl, ?_, ?_, ?_⟩
  · rw [entries, free_levels, setLevels_levels, entries, List.eraseIdx_map]
    refine map_entry_congr fun u hu ↦ ?_
    rw [free_mem, setLevels_mem]
    rintro rfl
    exact (List.nodup_cons.mp hnodup).1 hu
  · rw [free_levels, setLevels_levels_other]
  · rw [entries, free_levels, setLevels_levels_other]
    refine map_entry_congr fun u hu ↦ ?_
    rw [free_mem, setLevels_mem]
    rintro rfl
    exact (h.disjoint side ht).1 hu

theorem clearSide_entries (h : Owned c s free slots) (side : Side) :
    (s.clearSide side).entries side = [] ∧ (s.clearSide side).levels side.other =
      s.levels side.other ∧ (s.clearSide side).entries side.other = s.entries side.other := by
  refine ⟨by rw [entries, clearSide_levels, List.map_nil], clearSide_levels_other, ?_⟩
  rw [entries, clearSide_levels_other]
  exact map_entry_congr fun u hu ↦ clearSide_mem fun hmem ↦ (h.disjoint side hmem).1 hu

end Calls

/-! ## The feed -/

/-- What a feed says about a side: that it is cleared, a level of a snapshot, or a change of a
level. -/
inductive FeedOp
  | clear (side : Side)
  | level (side : Side) (px qty : ℕ)
  | change (side : Side) (px qty : ℕ)

/-- The quantity of each price that is live, on both sides. -/
abbrev Feed := Side → ℕ → Option ℕ

namespace FeedOp

def side : FeedOp → Side
  | clear side => side
  | level side _ _ => side
  | change side _ _ => side

/-- What is live then. A change to nothing ends a level. -/
def describe (m : Feed) : FeedOp → Feed
  | clear side => Function.update m side fun _ ↦ none
  | level side px qty => Function.update m side (Function.update (m side) px (some qty))
  | change side px qty =>
    Function.update m side (Function.update (m side) px (if qty = 0 then none else some qty))

/-- The levels of a snapshot have distinct prices, and come to a side that is cleared. -/
def Fresh (m : Feed) : FeedOp → Prop
  | level side px _ => m side px = none
  | _ => True

instance (m : Feed) : DecidablePred (Fresh m)
  | clear _ => .isTrue trivial
  | level side px _ => inferInstanceAs (Decidable (m side px = none))
  | change _ _ _ => .isTrue trivial

end FeedOp

/-- How the handlers of the feeds apply a change: the book, and the calls with the book that each is
made on. -/
def change (c : PageLayout) (s : CBook) (side : Side) (px qty : ℕ) : CBook × List (CBook × Call) :=
  if qty = 0 then ((s.erase side px).2, [(s, .erase side px)])
  else
    let u := s.update side px qty (-1)
    if u.1.1 then (u.2, [(s, .update side px qty (-1))])
    else ((u.2.insert c side px qty).2, [(s, .update side px qty (-1)), (u.2, .insert side px qty)])

def feed (c : PageLayout) (s : CBook) : FeedOp → CBook × List (CBook × Call)
  | .clear side => (s.clearSide side, [(s, .clearSide side)])
  | .level side px qty => ((s.insert c side px qty).2, [(s, .insert side px qty)])
  | .change side px qty => s.change c side px qty

/-- The call returns true exactly if it is an insertion or its price is live, and the index is the
position of the level, before it is erased or after it is there. -/
def Reports (conv : ℤ → ℤ) (c : PageLayout) (m : Feed) (r : CBook × Call) : Prop :=
  match r.2 with
  | .insert side px qty =>
    ∃ i : ℕ, (r.1.call c r.2).2 = some (true, conv i) ∧ ((r.1.call c r.2).1.entries side)[i]?
      = some (px, qty)
  | .update side px qty index =>
    if (m side px).isSome then
      ∃ i : ℕ, (r.1.call c r.2).2 = some (true, conv i) ∧ ((r.1.call c r.2).1.entries side)[i]?
        = some (px, qty)
    else (r.1.call c r.2).2 = some (false, index)
  | .erase side px =>
    if (m side px).isSome then
      ∃ (i : ℕ) (qty : ℕ), (r.1.call c r.2).2 = some (true, conv i) ∧ (r.1.entries side)[i]?
        = some (px, qty)
    else (r.1.call c r.2).2 = some (false, -1)
  | _ => True

/-- The highest bid, or the lowest ask, and none exactly if no price is live. -/
def IsBest (m : ℕ → Option ℕ) : Side → Option CoinLevel → Prop
  | _, none => ∀ px, m px = none
  | .bid, some l => m l.px = some l.qty ∧ ∀ px, (m px).isSome → px ≤ l.px
  | .ask, some l => m l.px = some l.qty ∧ ∀ px, (m px).isSome → l.px ≤ px

/-- A book with what its feed has described so far. -/
def feedStep (c : PageLayout) (b : CBook × Feed) (op : FeedOp) :
    (CBook × Feed) × List (CBook × Call) :=
  (((b.1.feed c op).1, op.describe b.2), (b.1.feed c op).2)

/-- Each side of the book is the map that is described, sorted; its best level is the best one; the
calls report what they should; and the side that is not spoken of does not change. -/
structure Follows (conv : ℤ → ℤ) (c : PageLayout) (b : CBook × Feed) (op : FeedOp) : Prop where
  represents : ∀ side, Represents side.cmp ((feedStep c b op).1.1.entries side)
    ((feedStep c b op).1.2 side)
  best : ∀ side, IsBest ((feedStep c b op).1.2 side) side ((feedStep c b op).1.1.best side)
  reports : ∀ r ∈ (feedStep c b op).2, Reports conv c b.2 r
  other : ∀ side ≠ op.side, (feedStep c b op).1.1.levels side = b.1.levels side
    ∧ (feedStep c b op).1.1.entries side = b.1.entries side

/-! ## Following the feed -/

section Following

variable {c : PageLayout} {s : CBook} {side : Side} {free slots : List Slot} {px qty : ℕ}

variable (s side) in
theorem best_eq : (s.best side).map (fun l ↦ (l.px, l.qty)) = (s.entries side).getLast? := by
  rw [best, CLevelFwdBook.getBack, Option.map_map, entries, List.getLast?_map]
  rfl

theorem isBest {m : ℕ → Option ℕ} (h : Represents side.cmp (s.entries side) m) :
    IsBest m side (s.best side) := by
  cases hbest : s.best side with
  | none =>
    have hlast := best_eq s side
    rw [hbest, Option.map_none] at hlast
    have hnone := h.getLast?_eq_none.mp hlast.symm
    cases side
    · exact hnone
    · exact hnone
  | some l =>
    -- the last entry is the largest in the order of the side
    have hlast := best_eq s side
    rw [hbest, Option.map_some] at hlast
    obtain ⟨hl, hmax⟩ := h.getLast?_eq_some hlast.symm
    cases side
    all_goals
      refine ⟨hl, fun px hpx ↦ ?_⟩
      obtain ⟨qty, hqty⟩ := Option.isSome_iff_exists.mp hpx
      rcases hmax px qty hqty with heq | hlt
      · exact Nat.le_of_eq (by rw [heq])
      · exact Nat.le_of_lt hlt

/-- One side is then the map `m'`, and the other one is as it was. -/
structure Moves (s s' : CBook) (side : Side) (m : Feed) (m' : ℕ → Option ℕ) : Prop where
  represents : ∀ side', Represents side'.cmp (s'.entries side') (Function.update m side m' side')
  other : ∀ side' ≠ side, s'.levels side' = s.levels side' ∧ s'.entries side' = s.entries side'

variable {m : Feed}

theorem Moves.of_side {s' : CBook} {m' : ℕ → Option ℕ}
    (h : ∀ side, Represents side.cmp (s.entries side) (m side))
    (hside : Represents side.cmp (s'.entries side) m')
    (hlevels : s'.levels side.other = s.levels side.other)
    (hother : s'.entries side.other = s.entries side.other) : Moves s s' side m m' := by
  refine ⟨fun side' ↦ ?_, fun side' hne ↦ ?_⟩
  all_goals rcases side.eq_or_eq_other side' with rfl | rfl
  · rw [Function.update_self]
    exact hside
  · rw [Function.update_of_ne side.other_ne, hother]
    exact h side.other
  · exact absurd rfl hne
  · exact ⟨hlevels, hother⟩

variable (howned : Owned c s free slots) (h : ∀ side, Represents side.cmp (s.entries side) (m side))
include howned h

theorem moves_clearSide (side : Side) : Moves s (s.clearSide side) side m fun _ ↦ none := by
  obtain ⟨hentries, hlevels, hother⟩ := clearSide_entries howned side
  exact .of_side h (hentries ▸ represents_nil) hlevels hother

theorem moves_insert (hpx : m side px = none) (qty : ℕ) :
    Moves s (s.insert c side px qty).2 side m (Function.update (m side) px (some qty))
      ∧ Reports CInt.toInt c m (s, .insert side px qty) := by
  obtain ⟨hresult, hentries, hlevels, hother⟩ := insert_entries howned side px qty
  refine ⟨.of_side h (hentries ▸ (h side).insertIdx hpx qty) hlevels hother, ?_⟩
  rw [Reports, call_insert]
  refine ⟨_, by rw [hresult], ?_⟩
  rw [hentries, List.getElem?_insertIdx_self]
  exact if_pos position_le

theorem moves_update (hpx : (m side px).isSome) (qty : ℕ) (index : ℤ) :
    Moves s (s.update side px qty index).2 side m (Function.update (m side) px (some qty))
      ∧ (s.update side px qty index).1.1 = true ∧
        Reports CInt.toInt c m (s, .update side px qty index) := by
  obtain ⟨t, hfind⟩ := Option.isSome_iff_exists.mp ((find_isSome (h side)).mpr hpx)
  obtain ⟨hresult, hentries, hlevels, hother⟩ := update_entries qty index howned hfind
  obtain ⟨old, hold⟩ := Option.isSome_iff_exists.mp hpx
  have hget := (h side).getElem?_position hold
  refine ⟨.of_side h (hentries ▸ (h side).set hold qty) hlevels hother, by rw [hresult], ?_⟩
  rw [Reports, call_update]
  dsimp only
  rw [if_pos hpx]
  refine ⟨_, by rw [hresult], ?_⟩
  rw [hentries, List.getElem?_set_self]
  exact (List.getElem?_eq_some_iff.mp hget).1

omit howned in
theorem update_of_none (hpx : m side px = none) (qty : ℕ) (index : ℤ) :
    s.update side px qty index = ((false, index), s) ∧
      Reports CInt.toInt c m (s, .update side px qty index) := by
  have hnot : ¬(m side px).isSome := by rw [hpx]; exact Bool.false_ne_true
  have hfind := Option.not_isSome_iff_eq_none.mp ((find_isSome (h side)).not.mpr hnot)
  refine ⟨update_none hfind, ?_⟩
  rw [Reports, call_update]
  dsimp only
  rw [if_neg hnot, update_none hfind]

theorem moves_erase (side : Side) (px : ℕ) :
    Moves s (s.erase side px).2 side m (Function.update (m side) px none)
      ∧ Reports CInt.toInt c m (s, .erase side px) := by
  cases hpx : m side px with
  | none =>
    have hnot : ¬(m side px).isSome := by rw [hpx]; exact Bool.false_ne_true
    have hfind := Option.not_isSome_iff_eq_none.mp ((find_isSome (h side)).not.mpr hnot)
    refine ⟨?_, ?_⟩
    · rw [erase_none hfind, ← hpx, Function.update_eq_self]
      exact .of_side h (h side) rfl rfl
    · rw [Reports, call_erase]
      dsimp only
      rw [if_neg hnot, erase_none hfind]
  | some old =>
    have hlive : (m side px).isSome := by rw [hpx]; rfl
    obtain ⟨t, hfind⟩ := Option.isSome_iff_exists.mp ((find_isSome (h side)).mpr hlive)
    obtain ⟨hresult, hentries, hlevels, hother⟩ := erase_entries howned hfind
    refine ⟨.of_side h (hentries ▸ (h side).eraseIdx hpx) hlevels hother, ?_⟩
    rw [Reports, call_erase]
    dsimp only
    rw [if_pos hlive]
    exact ⟨_, old, by rw [hresult], (h side).getElem?_position hpx⟩

theorem moves_change (side : Side) (px qty : ℕ) :
    Moves s (s.change c side px qty).1 side m
      (Function.update (m side) px (if qty = 0 then none else some qty))
      ∧ ∀ r ∈ (s.change c side px qty).2, Reports CInt.toInt c m r := by
  rw [change]
  split_ifs with hqty
  · obtain ⟨hmoves, hreports⟩ := moves_erase howned h side px
    refine ⟨hmoves, fun r hr ↦ ?_⟩
    rw [List.mem_singleton.mp hr]
    exact hreports
  · cases hpx : m side px with
    | none =>
      obtain ⟨hupdate, hfirst⟩ := update_of_none (c := c) h hpx qty (-1)
      obtain ⟨hmoves, hsecond⟩ := moves_insert howned h hpx qty
      rw [hupdate]
      refine ⟨hmoves, fun r hr ↦ ?_⟩
      rcases List.mem_cons.mp hr with rfl | hr
      · exact hfirst
      · rw [List.mem_singleton.mp hr]
        exact hsecond
    | some old =>
      obtain ⟨hmoves, htrue, hreports⟩ := moves_update howned h (by rw [hpx]; rfl) qty (-1)
      dsimp only
      rw [if_pos htrue]
      refine ⟨hmoves, fun r hr ↦ ?_⟩
      rw [List.mem_singleton.mp hr]
      exact hreports

omit howned h in
theorem owned_feed (howned : ∃ free slots, Owned c s free slots) (op : FeedOp) :
    ∃ free slots, Owned c (s.feed c op).1 free slots := by
  have hcall : ∀ {s : CBook} (k : Call), (∃ free slots, Owned c s free slots) →
      ∃ free slots, Owned c (s.call c k).1 free slots := by
    rintro s k ⟨free, slots, h⟩
    obtain ⟨-, free', h'⟩ := owned_call h k
    exact ⟨free', _, h'⟩
  have hinsert : ∀ {s : CBook} (side px qty), (∃ free slots, Owned c s free slots) →
      ∃ free slots, Owned c (s.insert c side px qty).2 free slots := by
    intro s side px qty h
    have h' := hcall (.insert side px qty) h
    rwa [call_insert] at h'
  cases op with
  | clear side =>
    have h' := hcall (.clearSide side) howned
    rwa [call_clearSide] at h'
  | level side px qty => exact hinsert side px qty howned
  | change side px qty =>
    have herase := hcall (.erase side px) howned
    have hupdate := hcall (.update side px qty (-1)) howned
    rw [call_erase] at herase
    rw [call_update] at hupdate
    rw [feed, change]
    split_ifs
    · exact herase
    · dsimp only
      split_ifs
      · exact hupdate
      · exact hinsert side px qty hupdate

end Following

/-! ## Runs -/

/-- Each side of the book is the map that is described. -/
structure Described (c : PageLayout) (b : CBook × Feed) : Prop where
  owned : ∃ free slots, Owned c b.1 free slots
  represents : ∀ side, Represents side.cmp (b.1.entries side) (b.2 side)

theorem described_new (c : PageLayout) : Described c (new, fun _ _ ↦ none) := by
  refine ⟨⟨[], [], Owned.new⟩, fun side ↦ ?_⟩
  cases side <;> exact represents_nil

/-- **One operation of a feed.** -/
theorem Described.feedStep {c : PageLayout} {b : CBook × Feed} (h : Described c b) (op : FeedOp)
    (hfresh : op.Fresh b.2) : Described c (feedStep c b op).1 ∧ Follows CInt.toInt c b op := by
  obtain ⟨free, slots, howned⟩ := h.owned
  have hmoves : ∃ m', op.describe b.2 = Function.update b.2 op.side m' ∧
    Moves b.1 (b.1.feed c op).1 op.side b.2 m'
      ∧ ∀ r ∈ (b.1.feed c op).2, Reports CInt.toInt c b.2 r := by
    cases op with
    | clear side =>
      refine ⟨_, rfl, moves_clearSide howned h.represents side, fun r hr ↦ ?_⟩
      rw [List.mem_singleton.mp hr]
      trivial
    | level side px qty =>
      obtain ⟨hmoves, hreports⟩ := moves_insert howned h.represents hfresh qty
      refine ⟨_, rfl, hmoves, fun r hr ↦ ?_⟩
      rw [List.mem_singleton.mp hr]
      exact hreports
    | change side px qty => exact ⟨_, rfl, moves_change howned h.represents side px qty⟩
  obtain ⟨m', hdescribe, hmoves, hreports⟩ := hmoves
  have hrepresents : ∀ side, Represents side.cmp ((b.1.feed c op).1.entries side)
    (op.describe b.2 side) :=
    hdescribe ▸ hmoves.represents
  exact ⟨⟨owned_feed h.owned op, hrepresents⟩, hrepresents, fun side ↦ isBest (hrepresents side),
    hreports, hmoves.other⟩

/-- **A side of the book is the map that its feed describes**, over any run from a new book in
which no level of a snapshot has a price that is live. The indices are reported as values of type
`int`. -/
theorem run_follows (c : PageLayout) (ops : List FeedOp)
    (hfresh : Run.Steps (feedStep c) (fun b op ↦ op.Fresh b.2) (new, fun _ _ ↦ none) ops) :
    Run.Steps (feedStep c) (Follows CInt.toInt c) (new, fun _ _ ↦ none) ops :=
  Run.Steps.of_invariant (fun _ op h hok ↦ (h.feedStep op hok).1)
    (fun _ op h hok ↦ (h.feedStep op hok).2) (described_new c)
    hfresh

theorem run_follows_sixOps : Run.Steps (feedStep BookType) (Follows CInt.toInt BookType)
    (new, fun _ _ ↦ none)
    [.level .bid 5 1, .level .ask 7 2, .change .bid 6 3, .change .bid 5 4, .change .ask 7 0,
    .clear .bid] :=
  run_follows BookType _ (by decide)

/-- Bids at the prices below `n`, in their order. -/
@[irreducible]
def ascending (n : ℕ) : List FeedOp := (List.range n).map fun px ↦ .level .bid px 1

theorem ascending_zero : ascending 0 = [] := by
  rw [ascending, List.range_zero, List.map_nil]

theorem ascending_succ (n : ℕ) : ascending (n + 1) = ascending n ++ [.level .bid n 1] := by
  rw [ascending, ascending, List.range_succ, List.map_append, List.map_singleton]

theorem run_ascending (c : PageLayout) (n : ℕ) :
    let b := (Run.run (feedStep c) (new, fun _ _ ↦ none) (ascending n)).1
    Run.Steps (feedStep c) (fun b op ↦ op.Fresh b.2) (new, fun _ _ ↦ none) (ascending n) ∧
      Described c b
      ∧ (∀ px, (b.2 .bid px).isSome ↔ px < n) ∧ (b.1.entries .bid).length = n := by
  induction n with
  | zero =>
    rw [ascending_zero]
    exact ⟨trivial, described_new c, by simp, rfl⟩
  | succ n ih =>
    obtain ⟨hsteps, hdescribed, hlive, hlength⟩ := ih
    have hnone := Option.not_isSome_iff_eq_none.mp ((hlive n).not.mpr (Nat.lt_irrefl n))
    have hfresh : (FeedOp.level .bid n 1).Fresh
      (Run.run (feedStep c) (new, fun _ _ ↦ none) (ascending n)).1.2 := hnone
    rw [ascending_succ, Run.run_concat]
    refine ⟨Run.steps_concat.mpr ⟨hsteps, hfresh⟩, (hdescribed.feedStep _ hfresh).1, fun px ↦ ?_,
      ?_⟩
    · dsimp only [feedStep, FeedOp.describe]
      rw [Function.update_self, Function.update_apply]
      split_ifs with heq
      · exact iff_of_true rfl (by omega)
      · rw [hlive, Nat.lt_succ_iff_lt_or_eq, or_iff_left heq]
    · obtain ⟨free, slots, howned⟩ := hdescribed.owned
      obtain ⟨-, hentries, -⟩ := insert_entries howned .bid n 1
      rw [feedStep, feed, hentries, List.length_insertIdx_of_le_length position_le, hlength]

theorem fresh_ascending (c : PageLayout) (n : ℕ) :
    Run.Steps (feedStep c) (fun b op ↦ op.Fresh b.2) (new, fun _ _ ↦ none) (ascending n) :=
  (run_ascending c n).1

theorem insert_ascending (c : PageLayout) (n : ℕ) :
    ((Run.run (feedStep c) (new, fun _ _ ↦ none) (ascending n)).1.1.insert c .bid n 1).1 =
    (true, CInt.toInt n) := by
  obtain ⟨-, hdescribed, hlive, hlength⟩ := run_ascending c n
  obtain ⟨free, slots, howned⟩ := hdescribed.owned
  have hbefore : ∀ e ∈ (Run.run (feedStep c) (new, fun _ _ ↦ none) (ascending n)).1.1.entries .bid,
    e.1 < n := by
    intro e he
    refine (hlive e.1).mp ?_
    rw [((hdescribed.represents .bid).mem_iff e.1 e.2).mp he]
    rfl
  have hposition : position Side.bid.cmp (_ ++ []) n = _ := position_append hbefore (by simp)
  rw [List.append_nil, hlength] at hposition
  rw [(insert_entries howned .bid n 1).1, hposition]

/-- A position that is reported as it is has an `int` value that is not negative. -/
theorem toInt_of_follows {c : PageLayout} {n : ℕ}
    (h : Run.Steps (feedStep c) (Follows id c) (new, fun _ _ ↦ none) (ascending (n + 1))) :
    0 ≤ CInt.toInt n := by
  rw [ascending_succ, Run.steps_concat] at h
  obtain ⟨i, hreport, -⟩ := h.2.reports (_, .insert .bid n 1) (List.mem_singleton_self _)
  rw [call_insert, insert_ascending, Option.some.injEq, Prod.mk.injEq] at hreport
  rw [hreport.2]
  exact Int.natCast_nonneg i

/-- The bid behind 2³¹ others is reported at a negative index. -/
theorem not_follows_of_large :
    Run.Steps (feedStep BookType) (fun b op ↦ op.Fresh b.2) (new, fun _ _ ↦ none)
      (ascending (2 ^ 31 + 1))
      ∧ ¬Run.Steps (feedStep BookType) (Follows id BookType) (new, fun _ _ ↦ none)
        (ascending (2 ^ 31 + 1)) := by
  refine ⟨fresh_ascending BookType _, fun h ↦ ?_⟩
  have hnonneg := toInt_of_follows h
  have hlt := CInt.toInt_lt (2 ^ 31 : ℕ)
  have hmod := CInt.toInt_emod (2 ^ 31 : ℕ)
  omega

end CBook

end Coypu
