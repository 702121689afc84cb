import Coypu.Book.Sides
import Coypu.Http.Head
import Coypu.Library.Ranking
import Coypu.Library.Rounding
import Coypu.Protobuf.Merging

/-!
# Snapshots of a book

A client asks for the best levels of a book, and for how many of them, `0` being all. The levels are
read from the end of each side. Their number is a `uint32` in the request and an `int` in `Snap`,
and prices and quantities are integers in the book and of type `double` in the response. So a
response lists the best levels exactly if nothing is lost in these conversions, and the best levels
of the side can be told (`run_listsBest_iff`).
-/

set_option autoImplicit false

namespace Coypu

open Ranking

/-! ## Messages -/

/-- A natural number of type `double`, which has 52 bits behind the leading one. -/
structure Double where
  value : ℕ
  fits : Rounding.Fits 52 value

/-- The conversion of an integer. -/
def Double.ofNat (n : ℕ) : Double := ⟨Rounding.roundEven 52 n, Rounding.fits_roundEven⟩

structure BookLevel where
  qty : Double
  px : Double

/-- The fields of a `CoypuBook` that a snapshot has. -/
structure CoypuBook where
  key : List UInt8
  source : ℕ
  bid : List BookLevel
  ask : List BookLevel

structure CoypuError where
  errorMsg : List UInt8

namespace CoypuMessage

inductive Kind
  | heartbeat
  | tick
  | trade
  | bookSnap
  | error
deriving DecidableEq

/-- The alternatives that a response has. -/
inductive Message
  | snap (book : CoypuBook)
  | error (error : CoypuError)

end CoypuMessage

structure CoypuMessage where
  type : CoypuMessage.Kind
  message : CoypuMessage.Message

/-! ## `Snap` -/

namespace CLevelFwdBook

variable (mem : Slot → CoinLevel)

def bookLevel (t : Slot) : BookLevel := ⟨.ofNat (mem t).qty, .ofNat (mem t).px⟩

/-- The loop of `Snap`, over the levels from the last one on. -/
def snapLoop (levels : ℤ) : ℤ → List Slot → List BookLevel
  | _, [] => []
  | i, b :: e =>
    if levels = 0 ∨ i < levels then bookLevel mem b :: snapLoop levels (CInt.toInt (i + 1)) e else
      []

/-- `Snap`. -/
def snap (v : List Slot) (outBook : CoypuBook) (levels : ℤ) : Side → CoypuBook
  | .bid => { outBook with bid := outBook.bid ++ snapLoop mem levels 0 v.reverse }
  | .ask => { outBook with ask := outBook.ask ++ snapLoop mem levels 0 v.reverse }

variable {mem} {v : List Slot}

theorem snapLoop_zero (i : ℤ) : snapLoop mem 0 i v = v.map (bookLevel mem) := by
  induction v generalizing i with
  | nil => rfl
  | cons t v ih => rw [snapLoop, if_pos (.inl rfl), ih, List.map_cons]

theorem snapLoop_of_le {levels i : ℤ} (h₀ : levels ≠ 0) (h : levels ≤ i) :
    snapLoop mem levels i v = [] := by
  cases v with
  | nil => rfl
  | cons t v => rw [snapLoop, if_neg (not_or.mpr ⟨h₀, Int.not_lt.mpr h⟩)]

/-- A number of levels that is positive as an `int`. -/
theorem snapLoop_natCast {n i : ℕ} (h₀ : n ≠ 0) (hn : n < 2 ^ 31) (hi : i ≤ n) :
    snapLoop mem n i v = (v.take (n - i)).map (bookLevel mem) := by
  induction v generalizing i with
  | nil => rw [snapLoop, List.take_nil, List.map_nil]
  | cons t v ih =>
    rcases Nat.lt_or_eq_of_le hi with hlt | rfl
    · have hnext : CInt.toInt ((i : ℤ) + 1) = (i + 1 : ℕ) := CInt.toInt_of_mem (by omega) (by omega)
      have hsub : n - i = n - (i + 1) + 1 := by omega
      rw [snapLoop, if_pos (.inr (by exact_mod_cast hlt)), hnext, ih hlt, hsub,
        List.take_succ_cons, List.map_cons]
    · rw [snapLoop_of_le (by exact_mod_cast h₀) (Int.le_refl _), Nat.sub_self, List.take_zero,
        List.map_nil]

end CLevelFwdBook

/-- `CBook::Snap`. -/
def CBook.snap (s : CBook) (outBook : CoypuBook) (levels : ℤ) : CoypuBook :=
  let outBook := CLevelFwdBook.snap s.mem s.bids outBook levels .bid
  CLevelFwdBook.snap s.mem s.asks outBook levels .ask

/-! ## `processRequest` -/

/-- The books by their sources and keys. -/
abbrev BookSourceMap := ℕ → List UInt8 → Option CBook

def CoypuSource.unknown : ℕ := 0

def CoypuSource.max : ℕ := 3

def CoypuRequest.heartbeat : ℤ := 0

def CoypuRequest.bookSnapshotRequest : ℤ := 1

namespace BookSourceMap

variable (bookMap : BookSourceMap) (request : CoypuRequest)

def errorMessage (msg : List UInt8) : CoypuMessage := ⟨.error, .error ⟨msg⟩⟩

/-- The branch for a snapshot of a book. -/
def bookSnapshot (s : BookSnapshot) : CoypuMessage :=
  if CoypuSource.unknown < s.source ∧ s.source < CoypuSource.max then
    match bookMap s.source s.key with
    | some book => ⟨.bookSnap, .snap (book.snap ⟨s.key, s.source, [], []⟩ (CInt.toInt s.levels))⟩
    | none =>
      errorMessage (ascii "Book not found " ++ s.key ++ ascii " " ++ ascii (Nat.repr s.source))
  else errorMessage (ascii "Unsupported source " ++ ascii (Nat.repr s.source))

/-- `processRequest`, with what is left of the request, whose `snap` it sets. A type that is not of
the protocol has no name, and the call that logs it ends the process. -/
def processRequest : CoypuRequest × Option CoypuMessage :=
  if request.type = CoypuRequest.bookSnapshotRequest then
    let s := request.snap.getD .empty
    ({ request with snap := some s }, some (bookMap.bookSnapshot s))
  else if request.type = CoypuRequest.heartbeat then
    (request, some (errorMessage (ascii "Unsupported request")))
  else (request, none)

/-! ## Runs -/

/-- A book is made for a product, a handler of a feed makes a call on one, or a client sends a
request. -/
inductive Op
  | create (source : ℕ) (key : List UInt8)
  | call (source : ℕ) (key : List UInt8) (k : CBook.Call)
  | request (request : CoypuRequest)

def set (source : ℕ) (key : List UInt8) (book : CBook) : BookSourceMap :=
  Function.update bookMap source (Function.update (bookMap source) key (some book))

def step (c : PageLayout) (bookMap : BookSourceMap) : Op → BookSourceMap × Option CoypuMessage
  | .create source key => (bookMap.set source key ((bookMap source key).getD .new), none)
  | .call source key k =>
    match bookMap source key with
    | some book => (bookMap.set source key (book.call c k).1, none)
    | none => (bookMap, none)
  | .request request => (bookMap, (bookMap.processRequest request).2)

/-- The number of levels of a request is of type `uint32`. -/
def Op.WellFormed : Op → Prop
  | .request request => (request.snap.getD .empty).levels < 2 ^ 32
  | .create _ _ | .call _ _ _ => True

instance : DecidablePred Op.WellFormed
  | .request request => inferInstanceAs (Decidable ((request.snap.getD .empty).levels < 2 ^ 32))
  | .create _ _ => .isTrue trivial
  | .call _ _ _ => .isTrue trivial

/-- The book that a request is for, and the number of levels. -/
def asked : Option (CBook × ℕ) :=
  let s := request.snap.getD .empty
  if request.type = CoypuRequest.bookSnapshotRequest ∧ CoypuSource.unknown < s.source ∧
      s.source < CoypuSource.max then
    (bookMap s.source s.key).map fun book ↦ (book, s.levels)
  else none

end BookSourceMap

/-! ## Best levels -/

/-- How many of the levels of a side are asked for. -/
def CBook.wanted (n depth : ℕ) : ℕ := if n = 0 then depth else min n depth

def BookLevel.entry (level : BookLevel) : ℕ × ℕ := (level.px.value, level.qty.value)

def CoypuBook.levels (b : CoypuBook) : Side → List BookLevel
  | .bid => b.bid
  | .ask => b.ask

/-- On each side the response has as many levels as are asked for, which are the best ones, with
their quantities. -/
def CoypuBook.ListsBest (b : CoypuBook) (s : CBook) (n : ℕ) : Prop :=
  ∀ side, (b.levels side).length = CBook.wanted n (s.entries side).length ∧
    Best side.cmp (s.entries side) ((b.levels side).map BookLevel.entry)

namespace CBook

/-- The entries of a side from which the levels are computed. -/
def listed (s : CBook) (n : ℕ) (side : Side) : List (ℕ × ℕ) :=
  (s.entries side).reverse.take (wanted n (s.entries side).length)

/-- The number of levels is not negative as an `int`, or the side is empty. Of the entries that are
listed, the prices and quantities are values of type `double`, and no other level has the price. -/
def Listable (s : CBook) (n : ℕ) : Prop :=
  ∀ side, (n < 2 ^ 31 ∨ s.entries side = []) ∧ ∀ e ∈ s.listed n side,
    (Rounding.Fits 52 e.1 ∧ Rounding.Fits 52 e.2) ∧ ((s.entries side).map Prod.fst).count e.1 = 1

instance (s : CBook) (n : ℕ) : Decidable (s.Listable n) :=
  decidable_of_iff (∀ side ∈ [Side.bid, Side.ask], (n < 2 ^ 31 ∨ s.entries side = []) ∧
    ∀ e ∈ s.listed n side, (Rounding.Fits 52 e.1 ∧ Rounding.Fits 52 e.2) ∧
      ((s.entries side).map Prod.fst).count e.1 = 1)
    ⟨fun h side ↦ h side (by cases side <;> simp), fun h side _ ↦ h side⟩

/-- The slots of a book are owned, and its sides are sorted. -/
structure Kept (c : PageLayout) (s : CBook) : Prop where
  owned : ∃ free slots, Owned c s free slots
  sorted : ∀ side, Sorted side.cmp (s.entries side)

namespace Kept

variable {c : PageLayout} {s s' : CBook} {side : Side} {px qty : ℕ}

theorem new : Kept c new := by
  refine ⟨⟨[], [], Owned.new⟩, fun side ↦ ?_⟩
  cases side
  · exact Sorted.nil
  · exact Sorted.nil

theorem owned_call (h : Kept c s) (k : Call) : ∃ free slots, Owned c (s.call c k).1 free slots := by
  obtain ⟨free, slots, howned⟩ := h.owned
  obtain ⟨-, free', howned'⟩ := CBook.owned_call howned k
  exact ⟨free', _, howned'⟩

/-- The side that a call is made on is sorted afterwards, and the other one is as it was. -/
theorem sorted_of_side (h : Kept c s) (hside : Sorted side.cmp (s'.entries side))
    (hother : s'.entries side.other = s.entries side.other) (side' : Side) :
    Sorted side'.cmp (s'.entries side') := by
  rcases side.eq_or_eq_other side' with rfl | rfl
  · exact hside
  · rw [hother]
    exact h.sorted _

theorem sorted_insert (h : Kept c s) (side : Side) (px qty : ℕ) (side' : Side) :
    Sorted side'.cmp ((s.insert c side px qty).2.entries side') := by
  obtain ⟨free, slots, howned⟩ := h.owned
  obtain ⟨-, hentries, -, hother⟩ := insert_entries howned side px qty
  exact h.sorted_of_side (hentries ▸ (h.sorted side).insertIdx px qty) hother side'

theorem sorted_update (h : Kept c s) (side : Side) (px qty : ℕ) (index : ℤ) (side' : Side) :
    Sorted side'.cmp ((s.update side px qty index).2.entries side') := by
  obtain ⟨free, slots, howned⟩ := h.owned
  cases hfind : CLevelFwdBook.find side.cmp s.mem (s.levels side) px with
  | none =>
    rw [update_none hfind]
    exact h.sorted side'
  | some t =>
    obtain ⟨-, hentries, -, hother⟩ := update_entries qty index howned hfind
    exact h.sorted_of_side (hentries ▸ (h.sorted side).set (entry_of_find hfind)) hother side'

theorem sorted_erase (h : Kept c s) (side : Side) (px : ℕ) (side' : Side) :
    Sorted side'.cmp ((s.erase side px).2.entries side') := by
  obtain ⟨free, slots, howned⟩ := h.owned
  cases hfind : CLevelFwdBook.find side.cmp s.mem (s.levels side) px with
  | none =>
    rw [erase_none hfind]
    exact h.sorted side'
  | some t =>
    obtain ⟨-, hentries, -, hother⟩ := erase_entries howned hfind
    exact h.sorted_of_side (hentries ▸ (h.sorted side).eraseIdx _) hother side'

theorem clearSide (h : Kept c s) (side : Side) : Kept c (s.clearSide side) := by
  obtain ⟨free, slots, howned⟩ := h.owned
  obtain ⟨hentries, -, hother⟩ := clearSide_entries howned side
  have howned' := h.owned_call (.clearSide side)
  rw [call_clearSide] at howned'
  exact ⟨howned', h.sorted_of_side (hentries ▸ Sorted.nil) hother⟩

theorem call (h : Kept c s) (k : Call) : Kept c (s.call c k).1 := by
  refine ⟨h.owned_call k, fun side' ↦ ?_⟩
  cases k with
  | insert side px qty =>
    rw [call_insert]
    exact h.sorted_insert side px qty side'
  | update side px qty index =>
    rw [call_update]
    exact h.sorted_update side px qty index side'
  | erase side px =>
    rw [call_erase]
    exact h.sorted_erase side px side'
  | clearSide side =>
    rw [call_clearSide]
    exact (h.clearSide side).sorted side'
  | clear => exact ((h.clearSide .bid).clearSide .ask).sorted side'

end Kept

/-! ## What is listed -/

section Listed

variable {c : PageLayout} {s : CBook} {n : ℕ}

/-- What becomes of an entry in a response. -/
def converted (e : ℕ × ℕ) : ℕ × ℕ := (Rounding.roundEven 52 e.1, Rounding.roundEven 52 e.2)

theorem converted_eq_iff {e : ℕ × ℕ} :
    converted e = e ↔ Rounding.Fits 52 e.1 ∧ Rounding.Fits 52 e.2 := by
  rw [converted, Prod.ext_iff, Rounding.roundEven_eq_iff, Rounding.roundEven_eq_iff]

theorem wanted_le {depth : ℕ} : wanted n depth ≤ depth := by
  rw [wanted]
  split_ifs
  · exact Nat.le_refl _
  · exact Nat.min_le_right _ _

theorem snap_levels {outBook : CoypuBook} {levels : ℤ} (side : Side)
    (h : outBook.levels side = []) :
    (s.snap outBook levels).levels side
      = CLevelFwdBook.snapLoop s.mem levels 0 (s.levels side).reverse := by
  cases side
  · exact congrArg (· ++ _) h
  · exact congrArg (· ++ _) h

/-- What the loop makes of a number of levels below 2³¹. -/
theorem snapLoop_of_lt (hn : n < 2 ^ 31) (side : Side) :
    (CLevelFwdBook.snapLoop s.mem (CInt.toInt n) 0 (s.levels side).reverse).map BookLevel.entry =
      (s.listed n side).map converted := by
  have hlength : (s.entries side).length = (s.levels side).reverse.length := by
    rw [entries, List.length_map, List.length_reverse]
  have hmap : ∀ v : List Slot, (v.map (CLevelFwdBook.bookLevel s.mem)).map BookLevel.entry =
      (v.map (entry s.mem)).map converted := by
    intro v
    rw [List.map_map, List.map_map]
    rfl
  have hzero : ((0 : ℕ) : ℤ) = 0 := rfl
  rw [CInt.toInt_of_mem (by omega) (by omega), listed, entries, ← List.map_reverse, ← List.map_take,
    ← hmap, ← entries, hlength, wanted]
  split_ifs with h₀
  · subst h₀
    rw [hzero, CLevelFwdBook.snapLoop_zero, List.take_length]
  · have hloop : CLevelFwdBook.snapLoop s.mem n (0 : ℕ) (s.levels side).reverse = _ :=
      CLevelFwdBook.snapLoop_natCast h₀ hn (Nat.zero_le n)
    rw [hzero, Nat.sub_zero] at hloop
    rw [hloop, ← List.take_eq_take_min]

/-- A number of levels that is negative as an `int` gives none. -/
theorem snapLoop_of_ge (hge : 2 ^ 31 ≤ n) (hlt : n < 2 ^ 32) (v : List Slot) :
    CLevelFwdBook.snapLoop s.mem (CInt.toInt n) 0 v = [] := by
  have hmod := CInt.toInt_emod n
  have hbound := CInt.toInt_lt n
  exact CLevelFwdBook.snapLoop_of_le (by omega) (by omega)

/-- **A response** lists the best levels of a book exactly if they can be listed. -/
theorem listsBest_iff (h : Kept c s) (hn : n < 2 ^ 32) {outBook : CoypuBook}
    (hout : ∀ side, outBook.levels side = []) :
    (s.snap outBook (CInt.toInt n)).ListsBest s n ↔ s.Listable n := by
  refine forall_congr' fun side ↦ ?_
  rw [snap_levels side (hout side)]
  rcases Nat.lt_or_ge n (2 ^ 31) with hlt | hge
  · have hloop := snapLoop_of_lt (s := s) hlt side
    have hlength := congrArg List.length hloop
    rw [List.length_map, List.length_map, listed, List.length_take, List.length_reverse,
      Nat.min_eq_left wanted_le] at hlength
    rw [hloop, listed, best_map_iff (h.sorted side), and_iff_right hlength,
      and_iff_right (.inl hlt)]
    exact forall₂_congr fun e _ ↦ and_congr_left' converted_eq_iff
  · rw [snapLoop_of_ge hge hn, or_iff_right (Nat.not_lt.mpr hge)]
    have hwanted : ∀ depth, wanted n depth = min n depth := fun depth ↦ if_neg (by omega)
    constructor
    · rintro ⟨hlength, -⟩
      rw [hwanted, List.length_nil] at hlength
      have hnil : s.entries side = [] := List.length_eq_zero_iff.mp (by omega)
      rw [listed, hnil]
      exact ⟨rfl, by simp⟩
    · rintro ⟨hnil, -⟩
      rw [hnil]
      exact ⟨by rw [hwanted]; exact (Nat.min_zero n).symm, .nil, [], .refl _, by simp⟩

end Listed

end CBook

/-! ## Requests -/

namespace BookSourceMap

/-- A request for a book is answered with a snapshot of it that lists its best levels, and no
request changes a book. -/
def ListsBest (c : PageLayout) (bookMap : BookSourceMap) : Op → Prop
  | .request request =>
    (bookMap.step c (.request request)).1 = bookMap ∧ ∀ a ∈ bookMap.asked request,
      ∃ snap : CoypuBook,
        (bookMap.step c (.request request)).2 = some ⟨.bookSnap, .snap snap⟩ ∧
          snap.key = (request.snap.getD .empty).key ∧
          snap.source = (request.snap.getD .empty).source ∧ snap.ListsBest a.1 a.2
  | .create _ _ | .call _ _ _ => True

/-- What a request asks for can be listed. -/
def Listable (bookMap : BookSourceMap) : Op → Prop
  | .request request => ∀ a ∈ bookMap.asked request, a.1.Listable a.2
  | .create _ _ | .call _ _ _ => True

instance (bookMap : BookSourceMap) : DecidablePred bookMap.Listable
  | .request request =>
    inferInstanceAs (Decidable (∀ a ∈ bookMap.asked request, a.1.Listable a.2))
  | .create _ _ => .isTrue trivial
  | .call _ _ _ => .isTrue trivial

variable {c : PageLayout} {bookMap : BookSourceMap} {op : Op}

def Kept (c : PageLayout) (bookMap : BookSourceMap) : Prop :=
  ∀ source key book, bookMap source key = some book → CBook.Kept c book

theorem Kept.set (h : bookMap.Kept c) {book : CBook} (hbook : CBook.Kept c book) (source : ℕ)
    (key : List UInt8) : (bookMap.set source key book).Kept c := by
  intro source' key' book' hget
  rw [BookSourceMap.set, Function.update_apply] at hget
  split_ifs at hget
  · rw [Function.update_apply] at hget
    split_ifs at hget
    · exact Option.some.inj hget ▸ hbook
    · exact h _ _ _ hget
  · exact h _ _ _ hget

theorem Kept.step (h : bookMap.Kept c) (op : Op) : (bookMap.step c op).1.Kept c := by
  cases op with
  | create source key =>
    refine h.set ?_ source key
    cases hget : bookMap source key with
    | none => exact CBook.Kept.new
    | some book => exact h _ _ _ hget
  | call source key k =>
    rw [BookSourceMap.step]
    cases hget : bookMap source key with
    | none => exact h
    | some book => exact h.set ((h _ _ _ hget).call k) source key
  | request request => exact h

theorem processRequest_of_asked {request : CoypuRequest} {book : CBook} {n : ℕ}
    (h : bookMap.asked request = some (book, n)) :
    bookMap (request.snap.getD .empty).source (request.snap.getD .empty).key = some book ∧
      n = (request.snap.getD .empty).levels ∧ (bookMap.processRequest request).2 =
        some ⟨.bookSnap, .snap (book.snap ⟨(request.snap.getD .empty).key,
          (request.snap.getD .empty).source, [], []⟩ (CInt.toInt n))⟩ := by
  dsimp only [asked] at h
  split_ifs at h with hasked
  obtain ⟨book', hget, heq⟩ := Option.map_eq_some_iff.mp h
  obtain ⟨rfl, rfl⟩ := Prod.ext_iff.mp heq
  refine ⟨hget, rfl, ?_⟩
  rw [processRequest, if_pos hasked.1]
  dsimp only
  rw [bookSnapshot, if_pos hasked.2, hget]

/-- **One step.** -/
theorem listsBest_step_iff (h : bookMap.Kept c) (hop : op.WellFormed) :
    bookMap.ListsBest c op ↔ bookMap.Listable op := by
  cases op with
  | create source key => exact Iff.rfl
  | call source key k => exact Iff.rfl
  | request request =>
    refine (and_iff_right rfl).trans (forall₂_congr fun a hasked ↦ ?_)
    obtain ⟨book, n⟩ := a
    obtain ⟨hget, rfl, hanswer⟩ := processRequest_of_asked hasked
    have hout : ∀ side, (CoypuBook.mk (request.snap.getD .empty).key
        (request.snap.getD .empty).source [] []).levels side = [] := by
      intro side
      cases side <;> rfl
    have hiff := CBook.listsBest_iff (h _ _ _ hget) hop hout
    rw [← hiff]
    constructor
    · rintro ⟨snap, hsnap, -, -, hlists⟩
      rw [BookSourceMap.step, hanswer] at hsnap
      injection hsnap with hsnap
      injection hsnap with _ hsnap
      injection hsnap with hsnap
      rwa [hsnap]
    · intro hlists
      exact ⟨_, hanswer, rfl, rfl, hlists⟩

/-- **Where snapshots list the best levels.** In every run of calls on books and of requests for
them, each request is answered with the best levels of its book exactly if these can be listed. -/
theorem run_listsBest_iff (c : PageLayout) (ops : List Op)
    (hops : Run.Steps (step c) (fun _ op ↦ op.WellFormed) (fun _ _ ↦ none) ops) :
    Run.Steps (step c) (ListsBest c) (fun _ _ ↦ none) ops ↔
      Run.Steps (step c) Listable (fun _ _ ↦ none) ops :=
  Run.steps_congr_of_invariant (P := Kept c) (fun _ op h _ ↦ h.step op)
    (fun _ _ h hop ↦ listsBest_step_iff h hop)
    (fun _ _ _ hget ↦ absurd hget (Option.some_ne_none _).symm) hops

theorem run_listsBest_nine : Run.Steps (step BookType) (ListsBest BookType) (fun _ _ ↦ none)
    [.create 1 (ascii "BTC-USD"), .call 1 (ascii "BTC-USD") (.insert .bid 5 1),
    .call 1 (ascii "BTC-USD") (.insert .bid 7 2), .call 1 (ascii "BTC-USD") (.insert .ask 9 3),
    .request ⟨1, some ⟨ascii "BTC-USD", 1, 1⟩⟩, .call 1 (ascii "BTC-USD") (.erase .bid 7),
    .call 1 (ascii "BTC-USD") (.update .ask 9 4 (-1)), .request ⟨1, some ⟨ascii "BTC-USD", 1, 0⟩⟩,
    .request ⟨0, none⟩] :=
  (run_listsBest_iff BookType _ (by decide)).mpr (by decide)

/-- Of 2³¹ levels that are asked for, none is listed. -/
theorem not_listsBest_of_manyLevels :
    Run.Steps (step BookType) (fun _ op ↦ op.WellFormed) (fun _ _ ↦ none)
      [.create 1 [], .call 1 [] (.insert .bid 5 1), .request ⟨1, some ⟨[], 1, 2 ^ 31⟩⟩] ∧
    ¬Run.Steps (step BookType) (ListsBest BookType) (fun _ _ ↦ none)
      [.create 1 [], .call 1 [] (.insert .bid 5 1), .request ⟨1, some ⟨[], 1, 2 ^ 31⟩⟩] := by
  refine ⟨by decide, ?_⟩
  rintro ⟨-, -, ⟨-, h⟩, -⟩
  obtain ⟨snap, hsnap, -, -, hlists⟩ := h _ rfl
  injection hsnap with hsnap
  injection hsnap with _ hsnap
  injection hsnap with hsnap
  have hlength := (hlists .bid).1
  rw [← hsnap] at hlength
  exact absurd hlength (by decide)

end BookSourceMap

end Coypu
