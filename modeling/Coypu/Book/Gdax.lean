import Coypu.Book.Sides
import Coypu.Http.Head
import Mathlib.Data.List.Nodup

/-!
# The books of the GDAX feed

A snapshot gives the levels of a product, as pairs of a price and a size, and an update changes some
of them. The handler of a snapshot takes the book of the product, makes one if there is none, and
inserts the levels. It reads the price where the size should be, and it does not clear a book that
is there. Both are harmless only in the cases of `sets_iff`.
-/

set_option autoImplicit false

namespace Coypu

open SortedMap

namespace Gdax

/-- The text of a number, or of a name. -/
abbrev Text := List UInt8

/-- The books of the feed by their products. -/
abbrev BookMap := Text → Option CBook

/-- The messages that change books, and the event that clears them. -/
inductive Message
  | snapshot (product : Text) (bids asks : List (Text × Text))
  | l2update (product : Text) (changes : List (Text × Text × Text))
  | clearBooks

variable (c : PageLayout) (conv : Text → ℕ) (books : BookMap)

/-- The loop over the levels of a side. -/
def load (side : Side) (book : CBook) (levels : List (Text × Text)) : CBook :=
  levels.foldl (fun book level ↦
    let px := level.1
    let qty := level.1
    (book.insert c side (conv px) (conv qty)).2) book

/-- The snapshot branch of `onText`. -/
def onSnapshot (product : Text) (bids asks : List (Text × Text)) : BookMap :=
  let book := (books product).getD .new
  Function.update books product (some (load c conv .ask (load c conv .bid book bids) asks))

def sideOf (side : Text) : Side := if side = ascii "buy" then .bid else .ask

/-- The loop over the changes. -/
def applyChanges (book : CBook) (changes : List (Text × Text × Text)) : CBook :=
  changes.foldl (fun book change ↦
    (book.change c (sideOf change.1) (conv change.2.1) (conv change.2.2)).1) book

/-- The `l2update` branch of `onText`, which asserts that there is a book. -/
def onUpdate (product : Text) (changes : List (Text × Text × Text)) : Option BookMap :=
  (books product).map fun book ↦ Function.update books product
    (some (applyChanges c conv book changes))

def onMessage : Message → Option BookMap
  | .snapshot product bids asks => some (onSnapshot c conv books product bids asks)
  | .l2update product changes => onUpdate c conv books product changes
  | .clearBooks => some fun product ↦ (books product).map CBook.clear

/-! ## The purpose -/

/-- The map of a list of levels. -/
def quantities (levels : List (Text × Text)) (px : ℕ) : Option ℕ :=
  (levels.find? fun level ↦ conv level.1 = px).map fun level ↦ conv level.2

/-- The levels of a side of a snapshot. -/
def sideLevels (bids asks : List (Text × Text)) : Side → List (Text × Text)
  | .bid => bids
  | .ask => asks

/-- What changes describe. -/
def describe (m : CBook.Feed) (changes : List (Text × Text × Text)) : CBook.Feed :=
  changes.foldl (fun m change ↦
    CBook.FeedOp.describe m (.change (sideOf change.1) (conv change.2.1) (conv change.2.2))) m

/-- The snapshot sets the book of the product, and a later update acts on that. -/
def Sets (product : Text) (bids asks : List (Text × Text)) : Prop :=
  ∀ changes, ∃ book,
    (onUpdate c conv (onSnapshot c conv books product bids asks) product changes).bind
      (· product) = some book ∧ ∀ side, Represents side.cmp (book.entries side)
        (describe conv (fun side ↦ quantities conv (sideLevels bids asks side)) changes side)

/-- The book has no levels, the prices of a side are distinct numbers, and each size is the same
number as its price. -/
def Harmless (product : Text) (bids asks : List (Text × Text)) : Prop :=
  (∀ book, books product = some book → ∀ side, book.levels side = [])
    ∧ ∀ side, ((sideLevels bids asks side).map fun level ↦ conv level.1).Nodup
      ∧ ∀ level ∈ sideLevels bids asks side, conv level.2 = conv level.1

/-! ## Loading -/

section Loading

variable {c conv} {side : Side} {book : CBook} {levels : List (Text × Text)}

theorem load_cons (level : Text × Text) :
    load c conv side book (level :: levels)
      = load c conv side (book.insert c side (conv level.1) (conv level.1)).2 levels := rfl

theorem owned_insert (h : ∃ free slots, CBook.Owned c book free slots) (side : Side) (px qty : ℕ) :
    ∃ free slots, CBook.Owned c (book.insert c side px qty).2 free slots :=
  CBook.owned_feed h (.level side px qty)

theorem owned_load (h : ∃ free slots, CBook.Owned c book free slots) :
    ∃ free slots, CBook.Owned c (load c conv side book levels) free slots := by
  induction levels generalizing book with
  | nil => exact h
  | cons level levels ih =>
    rw [load_cons]
    exact ih (owned_insert h side _ _)

theorem load_other (h : ∃ free slots, CBook.Owned c book free slots) :
    (load c conv side book levels).entries side.other = book.entries side.other := by
  induction levels generalizing book with
  | nil => rfl
  | cons level levels ih =>
    obtain ⟨free, slots, howned⟩ := h
    rw [load_cons, ih (owned_insert ⟨free, slots, howned⟩ side _ _)]
    exact (CBook.insert_entries howned side _ _).2.2.2

theorem load_perm (h : ∃ free slots, CBook.Owned c book free slots) :
    ((load c conv side book levels).entries side).Perm
      (book.entries side ++ levels.map fun level ↦ (conv level.1, conv level.1)) := by
  induction levels generalizing book with
  | nil => rw [List.map_nil, List.append_nil]; exact .refl _
  | cons level levels ih =>
    obtain ⟨free, slots, howned⟩ := h
    rw [load_cons]
    refine (ih (owned_insert ⟨free, slots, howned⟩ side _ _)).trans ?_
    rw [(CBook.insert_entries howned side _ _).2.1, List.map_cons]
    exact ((List.perm_insertIdx _ _ position_le).append_right _).trans List.perm_middle.symm

theorem load_represents (h : ∃ free slots, CBook.Owned c book free slots) {m : CBook.Feed}
    (hm : ∀ side, Represents side.cmp (book.entries side) (m side))
    (hnodup : (levels.map fun level ↦ conv level.1).Nodup)
    (hnew : ∀ level ∈ levels, m side (conv level.1) = none) :
    ∃ m' : CBook.Feed, ∀ side', Represents side'.cmp ((load c conv side book levels).entries side')
      (m' side') := by
  induction levels generalizing book m with
  | nil => exact ⟨m, hm⟩
  | cons level levels ih =>
    rw [List.map_cons, List.nodup_cons] at hnodup
    obtain ⟨free, slots, howned⟩ := h
    obtain ⟨hmoves, -⟩ := CBook.moves_insert howned hm (hnew level List.mem_cons_self)
      (conv level.1)
    rw [load_cons]
    refine ih (owned_insert ⟨free, slots, howned⟩ side _ _) hmoves.represents hnodup.2
      fun level' hlevel' ↦ ?_
    rw [Function.update_self, Function.update_of_ne]
    · exact hnew level' (List.mem_cons_of_mem _ hlevel')
    · intro heq
      exact hnodup.1 (heq ▸ List.mem_map_of_mem hlevel')

end Loading

/-! ## The map of a snapshot -/

section Quantities

variable {conv} {levels : List (Text × Text)} {px qty : ℕ} {side : Side}

theorem mem_of_quantities (h : quantities conv levels px = some qty) :
    ∃ level ∈ levels, conv level.1 = px ∧ conv level.2 = qty := by
  obtain ⟨level, hfind, hqty⟩ := Option.map_eq_some_iff.mp h
  exact ⟨level, List.mem_of_find?_eq_some hfind, by simpa using List.find?_some hfind, hqty⟩

theorem quantities_of_mem (hnodup : (levels.map fun level ↦ conv level.1).Nodup)
    {level : Text × Text} (h : level ∈ levels) :
    quantities conv levels (conv level.1) = some (conv level.2) := by
  cases hq : quantities conv levels (conv level.1) with
  | none =>
    have hnone := List.find?_eq_none.mp (Option.map_eq_none_iff.mp hq) level h
    exact absurd (decide_eq_true rfl) hnone
  | some qty =>
    obtain ⟨level', hlevel', hpx, rfl⟩ := mem_of_quantities hq
    rw [List.inj_on_of_nodup_map hnodup hlevel' h hpx]

theorem harmless_of_represents {l old : List (ℕ × ℕ)}
    (h : Represents side.cmp l (quantities conv levels))
    (hperm : l.Perm (old ++ levels.map fun level ↦ (conv level.1, conv level.1))) :
    old = [] ∧ (levels.map fun level ↦ conv level.1).Nodup ∧ ∀ level ∈ levels, conv level.2
      = conv level.1 := by
  have hkeys : (l.map Prod.fst).Nodup := by
    rw [List.Nodup, List.pairwise_map]
    refine h.sorted.imp fun {a b} hlt heq ↦ ?_
    rw [heq] at hlt
    exact irrefl b.1 hlt
  have hperm' := hperm.map Prod.fst
  rw [List.map_append, List.map_map] at hperm'
  have hnodup := List.nodup_append.mp (hperm'.nodup_iff.mp hkeys)
  refine ⟨List.eq_nil_iff_forall_not_mem.mpr fun e he ↦ ?_, hnodup.2.1, fun level hlevel ↦ ?_⟩
  · have hmem := (h.mem_iff e.1 e.2).mp (hperm.mem_iff.mpr (List.mem_append_left _ he))
    obtain ⟨level, hlevel, hpx, -⟩ := mem_of_quantities hmem
    exact hnodup.2.2 e.1 (List.mem_map_of_mem he) _ (List.mem_map_of_mem hlevel) hpx.symm
  · have hmem : (conv level.1, conv level.1) ∈ l :=
      hperm.mem_iff.mpr (List.mem_append_right _ (List.mem_map.mpr ⟨level, hlevel, rfl⟩))
    have hq := (h.mem_iff _ _).mp hmem
    rw [quantities_of_mem hnodup.2.1 hlevel] at hq
    exact Option.some.inj hq

/-- Sorted entries that have the price in both places, where that is harmless. -/
theorem represents_of_harmless {l : List (ℕ × ℕ)} {m : ℕ → Option ℕ} (h : Represents side.cmp l m)
    (hperm : l.Perm (levels.map fun level ↦ (conv level.1, conv level.1)))
    (hnodup : (levels.map fun level ↦ conv level.1).Nodup)
    (hsize : ∀ level ∈ levels, conv level.2 = conv level.1) :
    Represents side.cmp l (quantities conv levels) := by
  refine ⟨h.sorted, fun px qty ↦ ?_⟩
  rw [hperm.mem_iff, List.mem_map]
  constructor
  · rintro ⟨level, hlevel, heq⟩
    obtain ⟨rfl, rfl⟩ := Prod.mk.inj heq
    rw [quantities_of_mem hnodup hlevel, hsize level hlevel]
  · intro hq
    obtain ⟨level, hlevel, rfl, rfl⟩ := mem_of_quantities hq
    exact ⟨level, hlevel, by rw [hsize level hlevel]⟩

end Quantities

/-! ## Messages -/

section Messages

variable {c conv} {books : BookMap} {book : CBook} {product : Text} {bids asks : List (Text × Text)}
  {changes : List (Text × Text × Text)}

theorem described_applyChanges {m : CBook.Feed} (h : CBook.Described c (book, m)) :
    CBook.Described c (applyChanges c conv book changes, describe conv m changes) := by
  induction changes generalizing book m with
  | nil => exact h
  | cons change changes ih => exact ih (h.feedStep (.change _ _ _) trivial).1

theorem owned_applyChanges (h : ∃ free slots, CBook.Owned c book free slots) :
    ∃ free slots, CBook.Owned c (applyChanges c conv book changes) free slots := by
  induction changes generalizing book with
  | nil => exact h
  | cons change changes ih => exact ih (CBook.owned_feed h (.change _ _ _))

variable (conv bids asks) in
theorem load_load_perm (h : ∃ free slots, CBook.Owned c book free slots) (side : Side) :
    ((load c conv .ask (load c conv .bid book bids) asks).entries side).Perm
      (book.entries side ++ (sideLevels bids asks side).map fun level ↦
        (conv level.1, conv level.1)) := by
  cases side with
  | bid =>
    have hother : (load c conv .ask (load c conv .bid book bids) asks).entries .bid
        = (load c conv .bid book bids).entries .bid := load_other (owned_load h)
    rw [hother]
    exact load_perm h
  | ask =>
    have hother : (load c conv .bid book bids).entries .ask = book.entries .ask := load_other h
    rw [← hother]
    exact load_perm (owned_load h)

theorem load_load_represents (h : ∃ free slots, CBook.Owned c book free slots)
    (hempty : ∀ side, book.levels side = [])
    (hnodup : ∀ side, ((sideLevels bids asks side).map fun level ↦ conv level.1).Nodup) :
    ∃ m : CBook.Feed, ∀ side,
      Represents side.cmp ((load c conv .ask (load c conv .bid book bids) asks).entries side)
        (m side) := by
  have hentries : ∀ side, book.entries side = [] := fun side ↦ by rw [CBook.entries, hempty,
    List.map_nil]
  obtain ⟨m, hm⟩ := load_represents (m := fun _ _ ↦ none) h
    (fun side ↦ hentries side ▸ represents_nil) (hnodup .bid)
    fun _ _ ↦ rfl
  have hother : (load c conv .bid book bids).entries .ask = [] :=
    (load_other h).trans (hentries .ask)
  refine load_represents (owned_load h) hm (hnodup .ask) fun level _ ↦
    Option.eq_none_iff_forall_ne_some.mpr ?_
  intro qty hqty
  have hmem : (conv level.1, qty) ∈ (load c conv .bid book bids).entries .ask :=
    ((hm .ask).mem_iff _ _).mpr hqty
  rw [hother] at hmem
  exact List.not_mem_nil hmem

theorem onUpdate_onSnapshot :
    (onUpdate c conv (onSnapshot c conv books product bids asks) product changes).bind (· product)
    = some (applyChanges c conv
      (load c conv .ask (load c conv .bid ((books product).getD .new) bids) asks) changes) := by
  rw [onUpdate, onSnapshot, Function.update_self, Option.map_some, Option.bind_some,
    Function.update_self]

/-- The allocator of each book is sound. -/
def AllOwned (c : PageLayout) (books : BookMap) : Prop :=
  ∀ product book, books product = some book → ∃ free slots, CBook.Owned c book free slots

theorem owned_getD (h : AllOwned c books) (product : Text) :
    ∃ free slots, CBook.Owned c ((books product).getD .new) free slots := by
  cases hbook : books product with
  | none => exact ⟨[], [], CBook.Owned.new⟩
  | some book => exact h product book hbook

theorem allOwned_update {books : BookMap} (h : AllOwned c books) (product : Text)
    (hbook : ∃ free slots, CBook.Owned c book free slots) :
    AllOwned c (Function.update books product (some book)) := by
  intro product' book' hbook'
  rw [Function.update_apply] at hbook'
  split_ifs at hbook' with heq
  · obtain rfl := Option.some.inj hbook'
    exact hbook
  · exact h product' book' hbook'

theorem AllOwned.onMessage (h : AllOwned c books) {message : Message} {books' : BookMap}
    (hmessage : onMessage c conv books message = some books') : AllOwned c books' := by
  cases message with
  | snapshot product bids asks =>
    obtain rfl := Option.some.inj hmessage
    exact allOwned_update h product (owned_load (owned_load (owned_getD h product)))
  | l2update product changes =>
    obtain ⟨book, hbook, rfl⟩ := Option.map_eq_some_iff.mp hmessage
    exact allOwned_update h product (owned_applyChanges (h product book hbook))
  | clearBooks =>
    obtain rfl := Option.some.inj hmessage
    intro product book hbook
    obtain ⟨book', hbook', rfl⟩ := Option.map_eq_some_iff.mp hbook
    obtain ⟨free, slots, howned⟩ := h product book' hbook'
    obtain ⟨-, free', hclear⟩ := CBook.owned_clear howned
    exact ⟨free', _, hclear⟩

variable (conv) in
theorem AllOwned.foldlM (h : AllOwned c books) (messages : List Message) {books' : BookMap}
    (hrun : messages.foldlM (Gdax.onMessage c conv) books = some books') : AllOwned c books' := by
  induction messages generalizing books with
  | nil => exact Option.some.inj hrun ▸ h
  | cons message messages ih =>
    rw [List.foldlM_cons] at hrun
    obtain ⟨books'', hmessage, hrest⟩ := Option.bind_eq_some_iff.mp hrun
    exact ih (h.onMessage hmessage) hrest

theorem sets_iff_of_owned (h : AllOwned c books) (product : Text) (bids asks : List (Text × Text)) :
    Sets c conv books product bids asks ↔ Harmless conv books product bids asks := by
  have howned := owned_getD h product
  constructor
  · intro hsets
    obtain ⟨book, hbook, hrepresents⟩ := hsets []
    obtain rfl := Option.some.inj (onUpdate_onSnapshot.symm.trans hbook)
    have hside := fun side ↦ harmless_of_represents (hrepresents side)
      (load_load_perm conv bids asks howned side)
    refine ⟨fun book hbook side ↦ ?_, fun side ↦ (hside side).2⟩
    have hempty := (hside side).1
    rw [hbook, Option.getD_some, CBook.entries, List.map_eq_nil_iff] at hempty
    exact hempty
  · rintro ⟨hempty, hlevels⟩ changes
    have hnone : ∀ side, ((books product).getD .new).levels side = [] := by
      cases hbook : books product with
      | none => intro side; cases side <;> rfl
      | some book => exact hempty book hbook
    obtain ⟨m, hm⟩ := load_load_represents howned hnone fun side ↦ (hlevels side).1
    have hperm := load_load_perm conv bids asks howned
    have hentries : ∀ side, ((books product).getD .new).entries side = [] := fun side ↦ by
      rw [CBook.entries, hnone, List.map_nil]
    refine ⟨_, onUpdate_onSnapshot,
      (described_applyChanges ⟨owned_load (owned_load howned), fun side ↦ ?_⟩).represents⟩
    refine represents_of_harmless (hm side) ?_ (hlevels side).1 (hlevels side).2
    have hside := hperm side
    rwa [hentries, List.nil_append] at hside

end Messages

/-- **A snapshot sets the book**, after any messages, exactly if the book of the product has no
levels, the prices of each side are distinct numbers and each size is the same number as its
price. -/
theorem sets_iff (c : PageLayout) (conv : Text → ℕ) (messages : List Message) (books : BookMap)
    (hrun : messages.foldlM (onMessage c conv) (fun _ ↦ none) = some books) (product : Text)
    (bids asks : List (Text × Text)) :
    Sets c conv books product bids asks ↔ Harmless conv books product bids asks :=
  sets_iff_of_owned (AllOwned.foldlM conv (by simp [AllOwned]) messages hrun) product bids asks

/-- Whole numbers of coins, in units of 10⁻⁸. -/
def wholeCoins (text : Text) : ℕ := text.foldl (fun n digit ↦ 10 * n + (digit.toNat - 48)) 0
    * 100000000

theorem sets_iff_firstMessage :
    Sets BookType wholeCoins (fun _ ↦ none) (ascii "BTC-USD") [(ascii "10", ascii "10")] [] ↔
      Harmless wholeCoins (fun _ ↦ none) (ascii "BTC-USD") [(ascii "10", ascii "10")] [] :=
  sets_iff BookType wholeCoins [] _ rfl _ _ _

/-- Three coins at the price of ten become ten coins. And a snapshot leaves the level of an earlier
one. -/
theorem not_sets_of_size :
    ¬Sets BookType wholeCoins (fun _ ↦ none) (ascii "BTC-USD") [(ascii "10", ascii "3")] []
      ∧ ∃ books, [Message.snapshot (ascii "BTC-USD") [(ascii "10", ascii "10")] []].foldlM
          (onMessage BookType wholeCoins) (fun _ ↦ none) = some books
        ∧ ¬Sets BookType wholeCoins books (ascii "BTC-USD") [(ascii "11", ascii "11")] [] := by
  have hnone : AllOwned BookType fun _ ↦ none := by simp [AllOwned]
  refine ⟨fun h ↦ ?_, _, rfl, fun h ↦ ?_⟩
  · obtain ⟨-, hlevels⟩ := (sets_iff_of_owned hnone _ _ _).mp h
    exact absurd ((hlevels .bid).2 _ List.mem_cons_self) (by decide)
  · have howned := AllOwned.foldlM wholeCoins hnone
      [.snapshot (ascii "BTC-USD") [(ascii "10", ascii "10")] []] rfl
    obtain ⟨hempty, -⟩ := (sets_iff_of_owned howned _ _ _).mp h
    exact absurd (hempty _ rfl .bid) (by decide)

end Gdax

end Coypu
