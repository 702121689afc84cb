import Coypu.Book.Gdax
import Coypu.Book.Snapshot

/-!
# The Kraken feed

The exchange says which pair and which kind of data each channel has, and then sends the data under
the number of the channel. `onText` keeps a table of the channels and a book for each pair that has
a channel of kind `book`, applies updates to the books, and publishes a tick for each message about
a book and a trade for each trade.

The table keeps the first entry of a number. What the messages describe is a `View`, which has maps
for the books.
-/

set_option autoImplicit false

namespace Coypu

open SortedMap

namespace Kraken

abbrev Text := Gdax.Text

/-- `SOURCE_KRAKEN`. -/
def sourceKraken : ℕ := 2

/-- What `atof` makes of a text, and what a `double` is in units of 10⁻⁸. -/
structure Numbers (D : Type*) where
  atof : Text → D
  units : D → ℕ

/-- The number of units in a text. -/
def Numbers.conv {D : Type*} (n : Numbers D) (text : Text) : ℕ := n.units (n.atof text)

/-! ## Messages -/

/-- An element of a message about a book, with the members that it has: the levels of a side, and
changes to it, as prices and volumes. -/
structure BookUpdate where
  as : Option (List (Text × Text))
  a : Option (List (Text × Text))
  bs : Option (List (Text × Text))
  b : Option (List (Text × Text))
deriving DecidableEq

/-- What follows the number of a channel. -/
inductive Payload
  | trades (trades : List (Text × Text))
  | updates (updates : List BookUpdate)
deriving DecidableEq

/-- A message, as the document that it is: an object with an `event`, or one with an `Error` or with
neither, or an array. -/
inductive Message
  | systemStatus
  | subscriptionStatus (status : Text) (channelID : ℕ) (pair name : Text)
  | heartbeat
  | error
  | unknown
  | channel (channelId : ℤ) (payload : Payload)
deriving DecidableEq

/-- A `CoypuTick`, with the fields that are set. -/
structure CoypuTick where
  key : Text
  source : ℕ
  bidQty : Double
  bidPx : Double
  askQty : Double
  askPx : Double

/-- The kinds of data that nothing is done with. -/
def nops : List Text := [ascii "ohlc", ascii "spread", ascii "ticker", ascii "heartbeat"]

/-- What is published. -/
inductive Published (D : Type*)
  | tick (tick : CoypuTick)
  | trade (key : Text) (source : ℕ) (lastPx lastSize : D)

end Kraken

open Kraken

/-- `insert` of a map, which does not replace what is there. -/
def insertNew {α β : Type*} [DecidableEq α] (m : α → Option β) (k : α) (b : β) : α → Option β :=
  if m k = none then Function.update m k (some b) else m

theorem insertNew_apply {α β : Type*} [DecidableEq α] (m : α → Option β) (k : α) (b : β) (k' : α) :
    insertNew m k b k' = if k' = k then some ((m k).getD b) else m k' := by
  rw [insertNew]
  split_ifs with hnone hk hk
  · rw [hk, Function.update_self, hnone, Option.getD_none]
  · rw [Function.update_of_ne hk]
  · obtain ⟨b', hb'⟩ := Option.ne_none_iff_exists'.mp hnone
    rw [hk, hb', Option.getD_some]
  · rfl

/-! ## The handler -/

/-- A `CoinLevel` made without arguments, which `BestBid` and `BestAsk` leave as it is where there
is no level. -/
def CoinLevel.unset : CoinLevel := ⟨2 ^ 64 - 1, 2 ^ 64 - 1, none⟩

/-- The tick for a book. -/
def CBook.tick (book : CBook) (source : ℕ) (key : Kraken.Text) : CoypuTick :=
  let bid := book.bestBid.getD .unset
  let ask := book.bestAsk.getD .unset
  ⟨key, source, .ofNat bid.qty, .ofNat bid.px, .ofNat ask.qty, .ofNat ask.px⟩

/-- `_krakenChannelToPairType` and the books. -/
structure KrakenFeed where
  channelToPairType : ℤ → Option (Kraken.Text × Kraken.Text)
  bookMap : Gdax.BookMap

namespace KrakenFeed

def new : KrakenFeed := ⟨fun _ ↦ none, fun _ ↦ none⟩

variable {D : Type*} (c : PageLayout) (n : Numbers D) (s : KrakenFeed)

/-- The loop over the levels of a side that is cleared before. -/
def setLevels (side : Side) (book : CBook) (levels : List (Kraken.Text × Kraken.Text)) : CBook :=
  levels.foldl (fun book level ↦ (book.insert c side (n.conv level.1) (n.conv level.2)).2)
    (book.clearSide side)

/-- The loop over the changes of a side. -/
def changeLevels (side : Side) (book : CBook) (levels : List (Kraken.Text × Kraken.Text)) : CBook :=
  levels.foldl (fun book level ↦ (book.change c side (n.conv level.1) (n.conv level.2)).1) book

/-- An element of a message about a book. -/
def applyUpdate (book : CBook) (u : BookUpdate) : CBook :=
  let book := u.as.elim book (setLevels c n .ask book)
  let book := u.a.elim book (changeLevels c n .ask book)
  let book := u.bs.elim book (setLevels c n .bid book)
  u.b.elim book (changeLevels c n .bid book)

/-- The branch for a `subscriptionStatus`. The number of the channel becomes an `int`, and neither
map replaces what it has. -/
def onSubscriptionStatus (status : Kraken.Text) (channelID : ℕ) (pair name : Kraken.Text) :
    Option KrakenFeed :=
  if status = ascii "subscribed" then
    let id := CInt.toInt channelID
    some {
      channelToPairType := insertNew s.channelToPairType id (pair, name)
      bookMap := if name = ascii "book" then insertNew s.bookMap pair .new else s.bookMap }
  else if status = ascii "error" then some s
  else none

/-- The branch for an array. -/
def onChannel (channelId : ℤ) (payload : Payload) : Option (KrakenFeed × List (Published D)) :=
  if CInt.toInt channelId ≠ channelId then none
  else
    match s.channelToPairType channelId with
    | none => none
    | some (pair, type) =>
      if nops.contains type then some (s, [])
      else if type = ascii "trade" then
        match payload with
        | .trades trades =>
          some (s, trades.map fun t ↦ .trade pair sourceKraken (n.atof t.1) (n.atof t.2))
        | .updates _ => none
      else if type = ascii "book" then
        match s.bookMap pair, payload with
        | some book, .updates updates =>
          let book := updates.foldl (applyUpdate c n) book
          some ({ s with bookMap := Function.update s.bookMap pair (some book) },
            [.tick (book.tick sourceKraken pair)])
        | _, _ => none
      else none

/-- `onText`, for a message that is popped and parsed. It does not return if an assertion fails. -/
def onText : Message → Option (KrakenFeed × List (Published D))
  | .systemStatus | .heartbeat | .error => some (s, [])
  | .unknown => none
  | .subscriptionStatus status channelID pair name =>
    (s.onSubscriptionStatus status channelID pair name).map (·, [])
  | .channel channelId payload => s.onChannel c n channelId payload

/-- `EventClearBooks`. -/
def clearBooks : KrakenFeed := { s with bookMap := fun pair ↦ (s.bookMap pair).map CBook.clear }

end KrakenFeed

/-! ## What the exchange describes -/

namespace Kraken

variable {D : Type*} (n : Numbers D)

/-- The levels of a side are given. -/
def setOps (side : Side) (levels : List (Text × Text)) : List CBook.FeedOp :=
  .clear side :: levels.map fun level ↦ .level side (n.conv level.1) (n.conv level.2)

/-- Some levels of a side change. -/
def changeOps (side : Side) (levels : List (Text × Text)) : List CBook.FeedOp :=
  levels.map fun level ↦ .change side (n.conv level.1) (n.conv level.2)

/-- The operations that an element of a message about a book stands for. -/
def BookUpdate.ops (u : BookUpdate) : List CBook.FeedOp :=
  u.as.elim [] (setOps n .ask) ++ (u.a.elim [] (changeOps n .ask) ++
    (u.bs.elim [] (setOps n .bid) ++ u.b.elim [] (changeOps n .bid)))

/-- The prices of the levels of a side are distinct. -/
def BookUpdate.Distinct (u : BookUpdate) : Prop :=
  (∀ levels ∈ u.as, (levels.map fun level ↦ n.conv level.1).Nodup) ∧
    ∀ levels ∈ u.bs, (levels.map fun level ↦ n.conv level.1).Nodup

instance : DecidablePred (BookUpdate.Distinct n) := fun _ ↦ inferInstanceAs (Decidable (_ ∧ _))

/-- Data of a kind, where a message about a book has no price twice in the levels of a side. -/
def Payload.Fits (type : Text) : Payload → Prop
  | .trades _ => type ∈ nops ∨ type = ascii "trade"
  | .updates us => type ∈ nops ∨ type = ascii "book" ∧ ∀ u ∈ us, u.Distinct n

instance (type : Text) : DecidablePred (Payload.Fits n type)
  | .trades _ => inferInstanceAs (Decidable (_ ∨ _))
  | .updates _ => inferInstanceAs (Decidable (_ ∨ _ ∧ _))

/-- The channels by their numbers, and the books that are described. -/
structure View where
  channels : ℤ → Option (Text × Text)
  live : Text → CBook.Feed

namespace View

variable (v : View)

def new : View := ⟨fun _ ↦ none, fun _ _ _ ↦ none⟩

/-- What a message describes. -/
def onMessage : Message → View
  | .subscriptionStatus status channelID pair name =>
    if status = ascii "subscribed" then
      { v with channels := insertNew v.channels channelID (pair, name) }
    else v
  | .channel channelId (.updates updates) =>
    match v.channels channelId with
    | none => v
    | some (pair, type) =>
      if type = ascii "book" then
        { v with
          live := Function.update v.live pair
            ((updates.flatMap (BookUpdate.ops n)).foldl CBook.FeedOp.describe (v.live pair)) }
      else v
  | _ => v

theorem channels_onMessage_channel (channelId : ℤ) (payload : Payload) :
    (v.onMessage n (.channel channelId payload)).channels = v.channels := by
  cases payload with
  | trades l => rfl
  | updates us =>
    rw [onMessage]
    split
    · rfl
    · split_ifs <;> rfl

/-- The books are described as empty. -/
def clearBooks : View := { v with live := fun _ _ _ ↦ none }

/-- What the exchange sends: it names the channels before it uses them, in the range of an `int`,
and sends what belongs to their kinds. -/
def Allows : Message → Prop
  | .systemStatus | .heartbeat | .error => True
  | .unknown => False
  | .subscriptionStatus status channelID _ _ =>
    (status = ascii "subscribed" ∧ channelID < 2 ^ 31) ∨ status = ascii "error"
  | .channel channelId payload => ∃ pairType ∈ v.channels channelId, payload.Fits n pairType.2

instance : DecidablePred (v.Allows n)
  | .systemStatus | .heartbeat | .error => .isTrue trivial
  | .unknown => .isFalse id
  | .subscriptionStatus _ _ _ _ => inferInstanceAs (Decidable (_ ∧ _ ∨ _))
  | .channel channelId payload =>
    inferInstanceAs (Decidable (∃ pairType ∈ v.channels channelId, payload.Fits n pairType.2))

end View

/-! ## The books are what is described -/

section Applying

variable {n} {c : PageLayout} {book : CBook} {m : CBook.Feed} {side : Side}
  {levels : List (Text × Text)}

open CBook KrakenFeed

theorem described_levels (h : Described c (book, m))
    (hnodup : (levels.map fun level ↦ n.conv level.1).Nodup)
    (hnew : ∀ level ∈ levels, m side (n.conv level.1) = none) :
    Described c (levels.foldl (fun book level ↦
        (book.insert c side (n.conv level.1) (n.conv level.2)).2) book,
      (levels.map fun level ↦ FeedOp.level side (n.conv level.1) (n.conv level.2)).foldl
        FeedOp.describe m) := by
  induction levels generalizing book m with
  | nil => exact h
  | cons level levels ih =>
    rw [List.map_cons, List.nodup_cons] at hnodup
    have hfirst := (h.feedStep (.level side (n.conv level.1) (n.conv level.2))
      (hnew level List.mem_cons_self)).1
    refine ih hfirst hnodup.2 fun level' hlevel' ↦ ?_
    have hne : n.conv level'.1 ≠ n.conv level.1 := fun heq ↦
      hnodup.1 (heq ▸ List.mem_map_of_mem hlevel')
    simp only [FeedOp.describe, Function.update_self, Function.update_of_ne hne]
    exact hnew level' (List.mem_cons_of_mem _ hlevel')

theorem described_setLevels (h : Described c (book, m))
    (hnodup : (levels.map fun level ↦ n.conv level.1).Nodup) :
    Described c (setLevels c n side book levels,
      (setOps n side levels).foldl FeedOp.describe m) := by
  have hclear := (h.feedStep (.clear side) trivial).1
  refine described_levels hclear hnodup fun level _ ↦ ?_
  simp only [FeedOp.describe, Function.update_self]

theorem described_changeLevels (h : Described c (book, m)) :
    Described c (changeLevels c n side book levels,
      (changeOps n side levels).foldl FeedOp.describe m) := by
  induction levels generalizing book m with
  | nil => exact h
  | cons level levels ih => exact ih (h.feedStep (.change _ _ _) trivial).1

theorem described_elim (h : Described c (book, m)) {f : CBook → List (Text × Text) → CBook}
    {ops : List (Text × Text) → List FeedOp} (member : Option (List (Text × Text)))
    (hsome : ∀ levels, member = some levels →
      Described c (f book levels, (ops levels).foldl FeedOp.describe m)) :
    Described c (member.elim book (f book), (member.elim [] ops).foldl FeedOp.describe m) := by
  cases member with
  | none => exact h
  | some levels => exact hsome levels rfl

theorem described_applyUpdate (h : Described c (book, m)) {u : BookUpdate} (hu : u.Distinct n) :
    Described c (applyUpdate c n book u, (u.ops n).foldl FeedOp.describe m) := by
  rw [BookUpdate.ops, List.foldl_append, List.foldl_append, List.foldl_append]
  have has : Described c (u.as.elim book (setLevels c n .ask book), _) :=
    described_elim h u.as fun levels hlevels ↦ described_setLevels h (hu.1 levels hlevels)
  have ha : Described c (u.a.elim _ (changeLevels c n .ask _), _) :=
    described_elim has u.a fun _ _ ↦ described_changeLevels has
  have hbs : Described c (u.bs.elim _ (setLevels c n .bid _), _) :=
    described_elim ha u.bs fun levels hlevels ↦ described_setLevels ha (hu.2 levels hlevels)
  exact described_elim hbs u.b fun _ _ ↦ described_changeLevels hbs

theorem described_applyUpdates (h : Described c (book, m)) {updates : List BookUpdate}
    (hupdates : ∀ u ∈ updates, u.Distinct n) :
    Described c (updates.foldl (applyUpdate c n) book,
      (updates.flatMap (BookUpdate.ops n)).foldl FeedOp.describe m) := by
  induction updates generalizing book m with
  | nil => exact h
  | cons u updates ih =>
    rw [List.flatMap_cons, List.foldl_append]
    obtain ⟨hu, hrest⟩ := List.forall_mem_cons.mp hupdates
    exact ih (described_applyUpdate h hu) hrest

theorem described_clear (h : Described c (book, m)) : Described c (book.clear, fun _ _ ↦ none) := by
  have hboth := (h.feedStep (.clear .bid) trivial).1.feedStep (.clear .ask) trivial
  have hnone : ((FeedOp.clear .ask).describe ((FeedOp.clear .bid).describe m)) =
      fun _ _ ↦ none := by
    funext side
    cases side <;> rfl
  exact hnone ▸ hboth.1

end Applying

end Kraken

end Coypu
