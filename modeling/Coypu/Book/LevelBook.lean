import Coypu.Book.Sides
import Coypu.Library.Ranking

/-!
# Two layouts of a side

`CLevelBook` searches its vector from the end, through reverse iterators, so that it holds the
levels in the opposite order of `CLevelFwdBook`. Inserting and updating are alike in the two
layouts. `Erase` of a `CLevelBook` removes the level and then reads what its iterator points to,
which by then is the next level, or the cell behind the end. So the layouts are equivalent exactly
as long as only the last level is erased, and the cell still holds it (`run_equivalent_iff`).
-/

set_option autoImplicit false

namespace Coypu

open Ranking

/-! ## The layout with reverse iterators -/

namespace CLevelBook

variable (cmp : ℕ → ℕ → Prop) [DecidableRel cmp] (mem : Slot → CoinLevel) (v : List Slot)

/-- `std::lower_bound` for a level with the price `px`: how far it is from `rbegin`. -/
def lowerBound (px : ℕ) : ℕ :=
  LowerBound.lowerBound (fun t ↦ decide (cmp (mem t).px px)) v.reverse

/-- The place of `base()` of a reverse iterator, which points to the element before it. -/
def base (lb : ℕ) : ℕ := v.length - lb

/-- `Insert`: the index, and the vector. -/
def insert (t : Slot) : ℤ × List Slot :=
  (CInt.toInt (lowerBound cmp mem v (mem t).px),
    v.insertIdx (base v (lowerBound cmp mem v (mem t).px)) t)

/-- The level that the iterator points to, if it is not `rend` and the price is its own. -/
def find (px : ℕ) : Option Slot :=
  (if lowerBound cmp mem v px = v.length then none
    else v[base v (lowerBound cmp mem v px) - 1]?).filter fun t ↦ px = (mem t).px

/-- `Erase`: the level, the index, and the vector. The iterator is read after the level is removed,
behind the end if that was the last one, where `pastEnd` is what is read in the cell of a level. -/
def erase (pastEnd : Slot → Option Slot) (px : ℕ) : (Option Slot × ℤ) × List Slot :=
  let place := base v (lowerBound cmp mem v px) - 1
  match find cmp mem v px with
  | some t =>
    (((v.eraseIdx place)[place]?.elim (pastEnd t) some, CInt.toInt place), v.eraseIdx place)
  | none => ((none, -1), v)

/-- `Update`: whether there is a level, the index, and the memory. -/
def update (px qty : ℕ) (index : ℤ) : (Bool × ℤ) × (Slot → CoinLevel) :=
  match find cmp mem v px with
  | some t =>
    ((true, CInt.toInt (lowerBound cmp mem v px)), Function.update mem t { mem t with qty := qty })
  | none => ((false, index), mem)

end CLevelBook

/-! ## Read backwards -/

section Backwards

variable {α : Type*} {l : List α} {i : ℕ}

theorem insertIdx_backwards (hi : i ≤ l.length) (a : α) :
    l.insertIdx (l.length - i) a = (l.reverse.insertIdx i a).reverse := by
  have hback : l.reverse.insertIdx i a = l.reverse.take i ++ a :: l.reverse.drop i := by
    have hlength : (l.reverse.take i).length = i := by
      rw [List.length_take, List.length_reverse, Nat.min_eq_left hi]
    have happend : (l.reverse.take i ++ l.reverse.drop i).insertIdx (l.reverse.take i).length a
      = _ :=
      SortedMap.insertIdx_append a
    rwa [List.take_append_drop, hlength] at happend
  have hlength : (l.take (l.length - i)).length = l.length - i := by
    rw [List.length_take, Nat.min_eq_left (Nat.sub_le _ _)]
  have happend : (l.take (l.length - i) ++ l.drop (l.length - i)).insertIdx
      (l.take (l.length - i)).length a = _ := SortedMap.insertIdx_append a
  rw [List.take_append_drop, hlength] at happend
  rw [hback, happend, List.take_reverse, List.drop_reverse, List.reverse_append, List.reverse_cons,
    List.reverse_reverse, List.reverse_reverse, List.append_assoc, List.singleton_append]

theorem eraseIdx_backwards (hi : i < l.length) :
    l.eraseIdx (l.length - i - 1) = (l.reverse.eraseIdx i).reverse := by
  have hsucc : l.length - i - 1 + 1 = l.length - i := by omega
  have hsub : l.length - i - 1 = l.length - (i + 1) := by omega
  rw [List.eraseIdx_eq_take_drop_succ, List.eraseIdx_eq_take_drop_succ, List.take_reverse,
    List.drop_reverse, List.reverse_append, List.reverse_reverse, List.reverse_reverse, hsucc, hsub]

end Backwards

namespace CLevelBook

variable {cmp : ℕ → ℕ → Prop} [DecidableRel cmp] {mem : Slot → CoinLevel} {v : List Slot}
  {px : ℕ} {t : Slot}

theorem lowerBound_reverse :
    lowerBound cmp mem v px = CLevelFwdBook.lowerBound cmp mem v.reverse px := rfl

theorem lowerBound_le : lowerBound cmp mem v px ≤ v.length := by
  have hlength : v.reverse.length = v.length := List.length_reverse
  rw [← hlength]
  exact LowerBound.lowerBound_le

theorem find_reverse : find cmp mem v px = CLevelFwdBook.find cmp mem v.reverse px := by
  rw [find, CLevelFwdBook.find, ← lowerBound_reverse]
  congr 1
  split_ifs with hend
  · rw [List.getElem?_eq_none (by rw [List.length_reverse, hend])]
  · have hlt := Nat.lt_of_le_of_ne lowerBound_le hend
    rw [List.getElem?_reverse hlt, base, Nat.sub_right_comm]

theorem insert_reverse : insert cmp mem v t = ((CLevelFwdBook.insert cmp mem v.reverse t).1,
    (CLevelFwdBook.insert cmp mem v.reverse t).2.reverse) := by
  rw [insert, CLevelFwdBook.insert, base, insertIdx_backwards lowerBound_le, lowerBound_reverse]

theorem update_reverse {qty : ℕ} {index : ℤ} :
    update cmp mem v px qty index = CLevelFwdBook.update cmp mem v.reverse px qty index := by
  rw [update, CLevelFwdBook.update, find_reverse]
  rfl

theorem lt_of_find (h : find cmp mem v px = some t) : lowerBound cmp mem v px < v.length := by
  rw [find_reverse] at h
  have hget := (Option.filter_eq_some_iff.mp h).1
  have hlt := (List.getElem?_eq_some_iff.mp hget).1
  rwa [List.length_reverse] at hlt

theorem erase_snd_reverse {pastEnd : Slot → Option Slot} :
    (erase cmp mem v pastEnd px).2 = (CLevelFwdBook.erase cmp mem v.reverse px).2.reverse := by
  rw [erase, CLevelFwdBook.erase, ← find_reverse]
  cases hfind : find cmp mem v px with
  | none => exact v.reverse_reverse.symm
  | some t => exact eraseIdx_backwards (lt_of_find hfind)

/-- The level that is returned is the one that the search has passed last, or what is read in the
cell behind the end if it has passed none. -/
theorem erase_fst {pastEnd : Slot → Option Slot} (h : find cmp mem v px = some t) :
    (erase cmp mem v pastEnd px).1.1 =
      if lowerBound cmp mem v px = 0 then pastEnd t
      else v.reverse[lowerBound cmp mem v px - 1]? := by
  have hlt := lt_of_find h
  rw [erase, h]
  dsimp only
  rw [List.getElem?_eraseIdx_of_ge (Nat.le_refl _), base]
  split_ifs with hzero
  · rw [List.getElem?_eq_none (by omega)]
    rfl
  · have hplace : v.length - lowerBound cmp mem v px - 1 + 1 =
        v.length - 1 - (lowerBound cmp mem v px - 1) := by omega
    rw [List.getElem?_reverse (by omega), ← hplace, List.getElem?_eq_getElem (by omega)]
    rfl

end CLevelBook

/-! ## Runs -/

/-- The levels of a side and the memory that they are in. -/
structure Levels where
  mem : Slot → CoinLevel
  v : List Slot

/-- A level with a price and a quantity is inserted, or a price is updated or erased. -/
inductive LevelOp
  | insert (t : Slot) (px qty : ℕ)
  | update (px qty : ℕ) (index : ℤ)
  | erase (px : ℕ)

/-- What a call returns, with the index. -/
inductive LevelResult
  | bool (b : Bool) (index : ℤ)
  | level (t : Option Slot) (index : ℤ)
deriving DecidableEq

def LevelResult.succeeded : LevelResult → Bool
  | bool b _ => b
  | level t _ => t.isSome

namespace Levels

variable (cmp : ℕ → ℕ → Prop) [DecidableRel cmp] (pastEnd : Slot → Option Slot) (s : Levels)

/-- The prices and quantities of the levels. -/
def entries : List (ℕ × ℕ) := s.v.map (CBook.entry s.mem)

/-- The memory when a level object has been given its values. -/
def write (t : Slot) (px qty : ℕ) : Slot → CoinLevel := Function.update s.mem t ⟨px, qty, none⟩

/-- A call on a `CLevelBook`. -/
def stepReverse : LevelOp → Levels × LevelResult
  | .insert t px qty =>
    let r := CLevelBook.insert cmp (s.write t px qty) s.v t
    (⟨s.write t px qty, r.2⟩, .bool true r.1)
  | .update px qty index =>
    let r := CLevelBook.update cmp s.mem s.v px qty index
    (⟨r.2, s.v⟩, .bool r.1.1 r.1.2)
  | .erase px =>
    let r := CLevelBook.erase cmp s.mem s.v pastEnd px
    (⟨s.mem, r.2⟩, .level r.1.1 r.1.2)

/-- A call on a `CLevelFwdBook`. -/
def stepForward : LevelOp → Levels × LevelResult
  | .insert t px qty =>
    let r := CLevelFwdBook.insert cmp (s.write t px qty) s.v t
    (⟨s.write t px qty, r.2⟩, .bool true r.1)
  | .update px qty index =>
    let r := CLevelFwdBook.update cmp s.mem s.v px qty index
    (⟨r.2, s.v⟩, .bool r.1.1 r.1.2)
  | .erase px =>
    let r := CLevelFwdBook.erase cmp s.mem s.v px
    (⟨s.mem, r.2⟩, .level r.1.1 r.1.2)

end Levels

/-- A `CLevelBook` and a `CLevelFwdBook`. -/
structure Layouts where
  lvl : Levels
  fwd : Levels

namespace Layouts

variable (cmp : ℕ → ℕ → Prop) [DecidableRel cmp] (pastEnd : Slot → Option Slot) (b : Layouts)

def new (mem : Slot → CoinLevel) : Layouts := ⟨⟨mem, []⟩, ⟨mem, []⟩⟩

/-- The same call on both. -/
def step (op : LevelOp) : Layouts × LevelResult × LevelResult :=
  (⟨(b.lvl.stepReverse cmp pastEnd op).1, (b.fwd.stepForward cmp op).1⟩,
    (b.lvl.stepReverse cmp pastEnd op).2, (b.fwd.stepForward cmp op).2)

/-- An object that is inserted is not in a book, and its price is not live. -/
def Fresh : LevelOp → Prop
  | .insert t px _ => t ∉ b.fwd.v ∧ px ∉ b.fwd.entries.map Prod.fst
  | .update _ _ _ | .erase _ => True

instance : DecidablePred b.Fresh
  | .insert t px _ => inferInstanceAs (Decidable (t ∉ b.fwd.v ∧ px ∉ b.fwd.entries.map Prod.fst))
  | .update _ _ _ => .isTrue trivial
  | .erase _ => .isTrue trivial

/-- A successful `Erase` returns a level of the book with the price. -/
def Returned (s : Levels) (r : LevelResult) (px : ℕ) : Prop :=
  ∀ t index, r = .level (some t) index → t ∈ s.v ∧ (s.mem t).px = px

/-- The two hold the same levels in opposite orders, they succeed on the same calls and erase the
level that they should, and both are sorted. -/
structure Equivalent (op : LevelOp) : Prop where
  levels : (b.step cmp pastEnd op).1.fwd.v = (b.step cmp pastEnd op).1.lvl.v.reverse
  mem : ∀ t ∈ (b.step cmp pastEnd op).1.fwd.v,
    (b.step cmp pastEnd op).1.fwd.mem t = (b.step cmp pastEnd op).1.lvl.mem t
  succeeded : (b.step cmp pastEnd op).2.1.succeeded = (b.step cmp pastEnd op).2.2.succeeded
  erased : ∀ px, op = .erase px →
    Returned b.lvl (b.step cmp pastEnd op).2.1 px ∧ Returned b.fwd (b.step cmp pastEnd op).2.2 px
  sorted_fwd : Sorted cmp (b.step cmp pastEnd op).1.fwd.entries
  sorted_lvl : Sorted (Function.swap cmp) (b.step cmp pastEnd op).1.lvl.entries

/-- An `Erase` that finds a level finds the last one of the `CLevelBook`, and its cell still holds
it when it is behind the end. -/
def ErasesLast : LevelOp → Prop
  | .erase px => ∀ t ∈ CLevelBook.find cmp b.lvl.mem b.lvl.v px,
    b.lvl.v.getLast? = some t ∧ pastEnd t = some t
  | .insert _ _ _ | .update _ _ _ => True

instance : DecidablePred (b.ErasesLast cmp pastEnd)
  | .erase px => inferInstanceAs (Decidable (∀ t ∈ CLevelBook.find cmp b.lvl.mem b.lvl.v px,
    b.lvl.v.getLast? = some t ∧ pastEnd t = some t))
  | .insert _ _ _ => .isTrue trivial
  | .update _ _ _ => .isTrue trivial

/-! ## Equivalence -/

section Equivalence

variable {cmp : ℕ → ℕ → Prop} [DecidableRel cmp] {pastEnd : Slot → Option Slot} {b : Layouts}
  {op : LevelOp} {mem : Slot → CoinLevel} {v : List Slot} {px qty : ℕ} {t : Slot}

variable (cmp) in
/-- The two are mirror images in memories that are alike, sorted, with distinct prices. -/
structure Mirrored (b : Layouts) : Prop where
  v : b.fwd.v = b.lvl.v.reverse
  mem : b.fwd.mem = b.lvl.mem
  sorted : Sorted cmp b.fwd.entries
  prices : (b.fwd.entries.map Prod.fst).Nodup

omit [DecidableRel cmp] in
theorem mirrored_new (mem : Slot → CoinLevel) : Mirrored cmp (new mem) :=
  ⟨rfl, rfl, Sorted.nil, .nil⟩

theorem keys_update {index : ℤ} :
    (v.map (CBook.entry (CLevelFwdBook.update cmp mem v px qty index).2)).map Prod.fst =
      (v.map (CBook.entry mem)).map Prod.fst := by
  rw [List.map_map, List.map_map]
  refine List.map_congr_left fun u _ ↦ ?_
  rw [CLevelFwdBook.update]
  cases CLevelFwdBook.find cmp mem v px with
  | none => rfl
  | some t =>
    dsimp only [Function.comp, CBook.entry]
    rw [Function.update_apply]
    split_ifs with heq
    · rw [heq]
    · rfl

variable (cmp mem v px) in
theorem entries_erase : ((CLevelFwdBook.erase cmp mem v px).2.map (CBook.entry mem)) =
    v.map (CBook.entry mem) ∨ ∃ i, ((CLevelFwdBook.erase cmp mem v px).2.map (CBook.entry mem)) =
      (v.map (CBook.entry mem)).eraseIdx i := by
  rw [CLevelFwdBook.erase]
  cases CLevelFwdBook.find cmp mem v px with
  | none => exact .inl rfl
  | some t => exact .inr ⟨_, (List.eraseIdx_map _ _ _).symm⟩

variable [IsStrictWeakOrder ℕ cmp]

variable (qty) in
theorem entries_insert (hs : Sorted cmp b.fwd.entries) (hp : (b.fwd.entries.map Prod.fst).Nodup)
    (ht : t ∉ b.fwd.v) (hpx : px ∉ b.fwd.entries.map Prod.fst) :
    Sorted cmp (b.fwd.stepForward cmp (.insert t px qty)).1.entries ∧
      ((b.fwd.stepForward cmp (.insert t px qty)).1.entries.map Prod.fst).Nodup := by
  have hself : CBook.entry (b.fwd.write t px qty) t = (px, qty) := by
    rw [CBook.entry, Levels.write, Function.update_self]
  have hothers : b.fwd.v.map (CBook.entry (b.fwd.write t px qty)) = b.fwd.entries :=
    CBook.map_entry_congr fun u hu ↦ Function.update_of_ne (fun heq : u = t ↦ ht (heq ▸ hu)) _ _
  have hentries : (b.fwd.stepForward cmp (.insert t px qty)).1.entries =
      b.fwd.entries.insertIdx (SortedMap.position cmp b.fwd.entries px) (px, qty) := by
    have hpx' : ((b.fwd.write t px qty) t).px = px := congrArg Prod.fst hself
    rw [Levels.stepForward, Levels.entries, CLevelFwdBook.insert]
    dsimp only
    rw [List.map_insertIdx, hself, hpx', CBook.lowerBound_eq, hothers]
  rw [hentries]
  refine ⟨hs.insertIdx px qty, ?_⟩
  have hperm := List.perm_insertIdx (px, qty) b.fwd.entries
    (SortedMap.position_le (r := cmp) (k := px))
  rw [(hperm.map Prod.fst).nodup_iff, List.map_cons]
  exact List.nodup_cons.mpr ⟨hpx, hp⟩

variable (pastEnd) in
theorem Mirrored.step (h : Mirrored cmp b) (hfresh : b.Fresh op) :
    Mirrored cmp (b.step cmp pastEnd op).1 := by
  obtain ⟨hv, hmem, hsorted, hprices⟩ := h
  cases op with
  | insert t px qty =>
    obtain ⟨hs, hp⟩ := entries_insert qty hsorted hprices hfresh.1 hfresh.2
    refine ⟨?_, ?_, hs, hp⟩
    · dsimp only [Layouts.step, Levels.stepReverse, Levels.stepForward, Levels.write]
      rw [CLevelBook.insert_reverse, List.reverse_reverse, ← hv, hmem]
    · dsimp only [Layouts.step, Levels.stepReverse, Levels.stepForward, Levels.write]
      rw [hmem]
  | update px qty index =>
    have hkeys : (b.step cmp pastEnd (.update px qty index)).1.fwd.entries.map Prod.fst =
        b.fwd.entries.map Prod.fst := keys_update
    refine ⟨hv, ?_, hsorted.congr hkeys, hkeys ▸ hprices⟩
    dsimp only [Layouts.step, Levels.stepReverse, Levels.stepForward]
    rw [CLevelBook.update_reverse, ← hv, hmem]
  | erase px =>
    refine ⟨?_, hmem, ?_, ?_⟩
    · dsimp only [Layouts.step, Levels.stepReverse, Levels.stepForward]
      rw [CLevelBook.erase_snd_reverse, List.reverse_reverse, ← hv, hmem]
    · dsimp only [Layouts.step, Levels.stepForward, Levels.entries]
      rcases entries_erase cmp b.fwd.mem b.fwd.v px with heq | ⟨i, heq⟩
      · exact heq ▸ hsorted
      · exact heq ▸ hsorted.eraseIdx i
    · dsimp only [Layouts.step, Levels.stepForward, Levels.entries]
      rcases entries_erase cmp b.fwd.mem b.fwd.v px with heq | ⟨i, heq⟩
      · exact heq ▸ hprices
      · rw [heq]
        exact hprices.sublist ((List.eraseIdx_sublist _ i).map Prod.fst)

theorem cmp_of_passed (hs : Sorted cmp (v.map (CBook.entry mem))) {j : ℕ}
    (hj : j < CLevelFwdBook.lowerBound cmp mem v px) (hget : v[j]? = some t) :
    cmp (mem t).px px := by
  obtain ⟨l₁, l₂, hsplit, h₁, h₂⟩ := hs.split px
  rw [CBook.lowerBound_eq, hsplit, SortedMap.position_append h₁ h₂] at hj
  have hentry : (l₁ ++ l₂)[j]? = some (CBook.entry mem t) := by
    rw [← hsplit, List.getElem?_map, hget, Option.map_some]
  rw [List.getElem?_append_left hj] at hentry
  exact h₁ _ (List.mem_of_getElem? hentry)

theorem eq_of_px (hp : ((v.map (CBook.entry mem)).map Prod.fst).Nodup) {u : Slot} (hu : u ∈ v)
    (ht : t ∈ v) (heq : (mem u).px = (mem t).px) : u = t := by
  rw [List.map_map] at hp
  exact List.inj_on_of_nodup_map hp hu ht heq

variable (pastEnd) in
/-- An `Erase` that finds a level. What it returns is a level of the book with the price exactly if
the level is the last one, and is still there to be read. -/
theorem returned_iff (h : Mirrored cmp b)
    (hfind : CLevelBook.find cmp b.lvl.mem b.lvl.v px = some t) (index : ℤ) :
    (((CLevelBook.erase cmp b.lvl.mem b.lvl.v pastEnd px).1.1.isSome = true ∧
      Returned b.lvl (.level (CLevelBook.erase cmp b.lvl.mem b.lvl.v pastEnd px).1.1 index) px) ↔
        b.lvl.v.getLast? = some t ∧ pastEnd t = some t) := by
  obtain ⟨hv, hmem, hsorted, hprices⟩ := h
  have hfwd := hfind
  rw [CLevelBook.find_reverse, ← hv] at hfwd
  obtain ⟨ht, hpx, hget⟩ := CBook.mem_of_find hfwd
  have hmem' : ∀ {u}, u ∈ b.lvl.v ↔ u ∈ b.fwd.v := fun {u} ↦ by rw [hv, List.mem_reverse]
  have hlast : b.lvl.v.getLast? = b.fwd.v[0]? := by
    rw [hv, ← List.head?_eq_getElem?, List.head?_reverse]
  have hfirst : CLevelBook.lowerBound cmp b.lvl.mem b.lvl.v px =
      CLevelFwdBook.lowerBound cmp b.lvl.mem b.fwd.v px := by rw [CLevelBook.lowerBound_reverse, hv]
  rw [Levels.entries, hmem] at hsorted hprices
  rw [CLevelBook.erase_fst hfind, hlast, hfirst, ← hv]
  split_ifs with hzero
  · rw [hzero] at hget
    rw [hget, and_iff_right rfl]
    constructor
    · rintro ⟨hsome, hreturned⟩
      obtain ⟨u, hu⟩ := Option.isSome_iff_exists.mp hsome
      obtain ⟨hmemu, hpxu⟩ := hreturned u index (by rw [hu])
      rw [hu, eq_of_px hprices (hmem'.mp hmemu) ht (hpxu.trans hpx.symm)]
    · intro hpast
      rw [hpast]
      refine ⟨rfl, fun u index' heq ↦ ?_⟩
      obtain ⟨rfl, -⟩ : t = u ∧ index = index' := by simpa using heq
      exact ⟨hmem'.mpr ht, hpx⟩
  · -- a level that is passed is before the price, and so not at it
    have hne : ∀ {u j}, j < CLevelFwdBook.lowerBound cmp b.lvl.mem b.fwd.v px →
        b.fwd.v[j]? = some u → (b.lvl.mem u).px ≠ px := by
      intro u j hj hu heq
      have hlt := cmp_of_passed hsorted hj hu
      rw [heq] at hlt
      exact irrefl_of cmp px hlt
    constructor
    · rintro ⟨hsome, hreturned⟩
      obtain ⟨u, hu⟩ := Option.isSome_iff_exists.mp hsome
      exact absurd (hreturned u index (by rw [hu])).2 (hne (by omega) hu)
    · rintro ⟨hget₀, -⟩
      exact absurd hpx (hne (Nat.pos_of_ne_zero hzero) hget₀)

/-- The books stay mirror images, so that what is left is what the calls return. -/
theorem equivalent_iff_results (h : Mirrored cmp b) (hfresh : b.Fresh op) :
    b.Equivalent cmp pastEnd op ↔
      (b.step cmp pastEnd op).2.1.succeeded = (b.step cmp pastEnd op).2.2.succeeded ∧
        ∀ px, op = .erase px → Returned b.lvl (b.step cmp pastEnd op).2.1 px ∧
          Returned b.fwd (b.step cmp pastEnd op).2.2 px := by
  have hstep := h.step pastEnd hfresh
  constructor
  · intro heq
    exact ⟨heq.succeeded, heq.erased⟩
  · rintro ⟨hsucceeded, herased⟩
    refine ⟨hstep.v, fun t _ ↦ by rw [hstep.mem], hsucceeded, herased, hstep.sorted, ?_⟩
    have hback : (b.step cmp pastEnd op).1.lvl.entries =
        (b.step cmp pastEnd op).1.fwd.entries.reverse := by
      rw [Levels.entries, Levels.entries, hstep.v, hstep.mem, ← List.map_reverse,
        List.reverse_reverse]
    rw [hback]
    exact hstep.sorted.swap_reverse

theorem erase_results_iff (h : Mirrored cmp b) :
    ((b.step cmp pastEnd (.erase px)).2.1.succeeded =
      (b.step cmp pastEnd (.erase px)).2.2.succeeded ∧
      Returned b.lvl (b.step cmp pastEnd (.erase px)).2.1 px ∧
        Returned b.fwd (b.step cmp pastEnd (.erase px)).2.2 px) ↔
      b.ErasesLast cmp pastEnd (.erase px) := by
  have hfwd : CLevelFwdBook.find cmp b.fwd.mem b.fwd.v px =
      CLevelBook.find cmp b.lvl.mem b.lvl.v px := by rw [CLevelBook.find_reverse, h.v, h.mem]
  dsimp only [Layouts.step, Levels.stepReverse, Levels.stepForward, ErasesLast]
  cases hfind : CLevelBook.find cmp b.lvl.mem b.lvl.v px with
  | none =>
    rw [CLevelBook.erase, CLevelFwdBook.erase, hfwd, hfind]
    refine iff_of_true ⟨rfl, ?_, ?_⟩ (by simp)
    · rintro t index ⟨⟩
    · rintro t index ⟨⟩
  | some t =>
    have hreturned : (CLevelFwdBook.erase cmp b.fwd.mem b.fwd.v px).1.1 = some t := by
      rw [CLevelFwdBook.erase, hfwd, hfind]
    obtain ⟨ht, hpx, -⟩ := CBook.mem_of_find (hfwd.trans hfind)
    have hiff := returned_iff pastEnd h hfind
      (CLevelBook.erase cmp b.lvl.mem b.lvl.v pastEnd px).1.2
    simp only [Option.mem_def, Option.some.injEq, forall_eq']
    rw [← hiff, LevelResult.succeeded, LevelResult.succeeded, hreturned]
    constructor
    · rintro ⟨hsucceeded, hlvl, -⟩
      exact ⟨hsucceeded, hlvl⟩
    · rintro ⟨hsome, hlvl⟩
      refine ⟨hsome, hlvl, fun u index heq ↦ ?_⟩
      obtain ⟨rfl, -⟩ : t = u ∧ _ = index := by simpa using heq
      exact ⟨ht, hpx⟩

/-- **One step.** -/
theorem equivalent_iff (h : Mirrored cmp b) (hfresh : b.Fresh op) :
    b.Equivalent cmp pastEnd op ↔ b.ErasesLast cmp pastEnd op := by
  rw [equivalent_iff_results h hfresh]
  cases op with
  | insert t px qty =>
    refine iff_of_true ⟨?_, fun _ heq ↦ nomatch heq⟩ trivial
    dsimp only [Layouts.step, Levels.stepReverse, Levels.stepForward, LevelResult.succeeded]
  | update px qty index =>
    refine iff_of_true ⟨?_, fun _ heq ↦ nomatch heq⟩ trivial
    dsimp only [Layouts.step, Levels.stepReverse, Levels.stepForward]
    rw [CLevelBook.update_reverse, ← h.v, h.mem]
  | erase px =>
    rw [← erase_results_iff h]
    refine and_congr_right fun _ ↦ ⟨fun hall ↦ hall px rfl, ?_⟩
    rintro hone px' ⟨⟩
    exact hone

/-- **Where the layouts are equivalent.** In every run of calls on a `CLevelBook` and a
`CLevelFwdBook` with one comparator, in which the live prices are distinct, the books are equivalent
exactly if each `Erase` that finds a level finds the last one of the `CLevelBook`, and its cell
still holds it when it is behind the end. -/
theorem run_equivalent_iff (cmp : ℕ → ℕ → Prop) [DecidableRel cmp] [IsStrictWeakOrder ℕ cmp]
    (pastEnd : Slot → Option Slot) (mem : Slot → CoinLevel) (ops : List LevelOp)
    (hfresh : Run.Steps (step cmp pastEnd) Fresh (new mem) ops) :
    Run.Steps (step cmp pastEnd) (Equivalent cmp pastEnd) (new mem) ops ↔
      Run.Steps (step cmp pastEnd) (ErasesLast cmp pastEnd) (new mem) ops :=
  Run.steps_congr_of_invariant (P := Mirrored cmp) (fun _ _ h hop ↦ h.step pastEnd hop)
    (fun _ _ h hop ↦ equivalent_iff h hop) (mirrored_new mem) hfresh

end Equivalence

/-- Three levels, of which the smallest is erased. -/
theorem run_equivalent_lowest :
    Run.Steps (step (· < ·) some) (Equivalent (· < ·) some) (new fun _ ↦ ⟨0, 0, none⟩)
      [.insert ⟨0, 0⟩ 2 5, .insert ⟨0, 64⟩ 1 6, .insert ⟨0, 128⟩ 3 7, .update 2 8 (-1), .erase 1,
      .erase 4] :=
  (run_equivalent_iff (· < ·) some _ _ (by decide)).mpr (by decide)

/-- The level at 2 is erased, and the one at 1 is returned. -/
theorem not_equivalent_of_erase :
    Run.Steps (step (· < ·) some) Fresh (new fun _ ↦ ⟨0, 0, none⟩)
      [.insert ⟨0, 0⟩ 1 1, .insert ⟨0, 64⟩ 2 2, .erase 2] ∧
    ¬Run.Steps (step (· < ·) some) (Equivalent (· < ·) some) (new fun _ ↦ ⟨0, 0, none⟩)
      [.insert ⟨0, 0⟩ 1 1, .insert ⟨0, 64⟩ 2 2, .erase 2] := by
  refine ⟨by decide, ?_⟩
  rintro ⟨-, -, h, -⟩
  have hpx := ((h.erased 2 rfl).1 ⟨0, 0⟩ 0 (by decide)).2
  exact absurd hpx (by decide)

end Layouts

end Coypu
