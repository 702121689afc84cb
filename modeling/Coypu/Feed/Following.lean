import Coypu.Feed.Kraken

/-!
# Following the Kraken feed

As long as a number that is given again is given to the same pair and kind, no assertion of the
handler fails, each book is the map that the messages describe, and each tick has the best levels of
it (`run_followsFeed`).
-/

set_option autoImplicit false

namespace Coypu

open SortedMap

namespace Kraken

variable {D : Type*}

/-! ## Runs -/

/-- A message, or the event that clears the books. -/
inductive FeedEvent
  | message (message : Message)
  | clearBooks
deriving DecidableEq

/-- The quantity and the price of a side of a tick. -/
def CoypuTick.level (t : CoypuTick) : Side → Double × Double
  | .bid => (t.bidQty, t.bidPx)
  | .ask => (t.askQty, t.askPx)

/-- A tick has the best levels, and the largest 64-bit number in both places where a side has
none. -/
def CoypuTick.TellsBest (t : CoypuTick) (m : CBook.Feed) : Prop :=
  ∀ side, ∃ best : Option CoinLevel, CBook.IsBest (m side) side best ∧
    t.level side = (.ofNat (best.getD .unset).qty, .ofNat (best.getD .unset).px)

/-- What is to be published behind an event: a trade for each trade, and a tick for a message about
a book. -/
def View.Tells (n : Numbers D) (v : View) (published : List (Published D)) : FeedEvent → Prop
  | .message (.channel channelId payload) =>
    ∃ pair type, v.channels channelId = some (pair, type) ∧
      if type = ascii "trade" then ∃ l, payload = .trades l ∧
        published = l.map fun t ↦ .trade pair sourceKraken (n.atof t.1) (n.atof t.2)
      else if type = ascii "book" then ∃ tick : CoypuTick, published = [.tick tick] ∧
        tick.key = pair ∧ tick.source = sourceKraken ∧ tick.TellsBest (v.live pair)
      else published = []
  | _ => published = []

end Kraken

/-- The handler, and what the exchange described. -/
structure KrakenTrace where
  feed : KrakenFeed
  view : Kraken.View

namespace KrakenTrace

open Kraken

variable {D : Type*} (c : PageLayout) (n : Numbers D) (s : KrakenTrace)

def new : KrakenTrace := ⟨KrakenFeed.new, View.new⟩

def step : FeedEvent → KrakenTrace × Option (List (Published D))
  | .message message =>
    let r := s.feed.onText c n message
    (⟨(r.map Prod.fst).getD s.feed, s.view.onMessage n message⟩, r.map Prod.snd)
  | .clearBooks => (⟨s.feed.clearBooks, s.view.clearBooks⟩, some [])

/-- A number that the table has is given to the pair and the kind that it has there. -/
def Agrees : FeedEvent → Prop
  | .message (.subscriptionStatus status channelID pair name) => status = ascii "subscribed" →
      ∀ pairType ∈ s.feed.channelToPairType (CInt.toInt channelID), pairType = (pair, name)
  | _ => True

instance : DecidablePred s.Agrees
  | .message (.subscriptionStatus _ _ _ _) => inferInstanceAs (Decidable (_ → _))
  | .message .systemStatus | .message .heartbeat | .message .error | .message .unknown
  | .message (.channel _ _) | .clearBooks => .isTrue trivial

/-- The exchange may send the message. -/
def Allowed : FeedEvent → Prop
  | .message message => s.view.Allows n message
  | .clearBooks => True

instance : DecidablePred (s.Allowed n)
  | .message message => inferInstanceAs (Decidable (s.view.Allows n message))
  | .clearBooks => .isTrue trivial

/-- The exchange may send the message, and the table agrees with it. -/
def Meets (e : FeedEvent) : Prop := s.Allowed n e ∧ s.Agrees e

instance : DecidablePred (s.Meets n) := fun _ ↦ inferInstanceAs (Decidable (_ ∧ _))

/-- No assertion fails. Behind the event each book is the map that is described, there is one for
each channel of kind `book`, and what is published tells of it. -/
structure Follows (e : FeedEvent) : Prop where
  returns : ∃ published, (s.step c n e).2 = some published ∧
    (s.step c n e).1.view.Tells n published e
  books : ∀ pair book, (s.step c n e).1.feed.bookMap pair = some book → ∀ side,
    Represents side.cmp (book.entries side) ((s.step c n e).1.view.live pair side)
  present : ∀ id pair, (s.step c n e).1.view.channels id = some (pair, ascii "book") →
    ((s.step c n e).1.feed.bookMap pair).isSome

/-- The table has the channels that were named, each book is what is described, and where there is
none nothing is. -/
structure Inv : Prop where
  channels : ∀ id pairType, s.view.channels id = some pairType →
    s.feed.channelToPairType id = some pairType ∧ CInt.toInt id = id
  described : ∀ pair book, s.feed.bookMap pair = some book →
    CBook.Described c (book, s.view.live pair)
  present : ∀ id pair, s.feed.channelToPairType id = some (pair, ascii "book") →
    (s.feed.bookMap pair).isSome
  absent : ∀ pair, s.feed.bookMap pair = none → s.view.live pair = fun _ _ ↦ none

variable {c n s}

theorem inv_new : Inv c new :=
  ⟨fun _ _ h ↦ absurd h (by simp [new, View.new]),
    fun _ _ h ↦ absurd h (by simp [new, KrakenFeed.new]),
    fun _ _ h ↦ absurd h (by simp [new, KrakenFeed.new]), fun _ _ ↦ rfl⟩

/-! ### One event -/

theorem Inv.subscribed (h : s.Inv c) {channelID : ℕ} {pair name : Kraken.Text}
    (hlt : channelID < 2 ^ 31)
    (hagrees : ∀ pairType ∈ s.feed.channelToPairType (CInt.toInt channelID),
      pairType = (pair, name)) :
    ∃ feed, s.feed.onSubscriptionStatus (ascii "subscribed") channelID pair name = some feed ∧
      Inv c ⟨feed, s.view.onMessage n
        (.subscriptionStatus (ascii "subscribed") channelID pair name)⟩ := by
  have hid : CInt.toInt channelID = channelID := CInt.toInt_of_mem (by omega) (by omega)
  have hgiven : (s.feed.channelToPairType channelID).getD (pair, name) = (pair, name) := by
    rw [hid] at hagrees
    cases hfeed : s.feed.channelToPairType channelID with
    | none => rfl
    | some pairType => exact hagrees pairType hfeed
  -- a new book is described as empty
  have hbooks : ∀ pair' book,
      (if name = ascii "book" then insertNew s.feed.bookMap pair .new else s.feed.bookMap) pair' =
        some book → CBook.Described c (book, s.view.live pair') := by
    intro pair' book hbook
    split_ifs at hbook
    · rw [insertNew_apply] at hbook
      split_ifs at hbook with hpair
      · subst hpair
        cases hold : s.feed.bookMap pair' with
        | none =>
          rw [hold, Option.getD_none] at hbook
          rw [← Option.some.inj hbook, h.absent pair' hold]
          exact CBook.described_new c
        | some old =>
          rw [hold, Option.getD_some] at hbook
          exact h.described pair' book (hold.trans hbook)
      · exact h.described pair' book hbook
    · exact h.described pair' book hbook
  have hkept : ∀ pair', (s.feed.bookMap pair').isSome → ((if name = ascii "book" then
      insertNew s.feed.bookMap pair .new else s.feed.bookMap) pair').isSome := by
    intro pair' hsome
    split_ifs
    · rw [insertNew_apply]
      split_ifs
      · rfl
      · exact hsome
    · exact hsome
  refine ⟨_, if_pos rfl, fun id pairType hchannel ↦ ?_, hbooks, fun id pair' hchannel ↦ ?_,
    fun pair' hnone ↦ h.absent pair' ?_⟩
  · simp only [hid]
    simp only [View.onMessage, if_true, insertNew_apply] at hchannel ⊢
    split_ifs at hchannel ⊢ with heq
    · rw [heq, hgiven]
      refine ⟨?_, hid⟩
      cases hview : s.view.channels channelID with
      | none =>
        rw [hview, Option.getD_none] at hchannel
        exact hchannel
      | some pairType' =>
        rw [hview, Option.getD_some] at hchannel
        rw [(h.channels _ _ hview).1, Option.getD_some] at hgiven
        rw [← hgiven, hchannel]
    · exact h.channels id pairType hchannel
  · simp only [hid, insertNew_apply] at hchannel
    split_ifs at hchannel with heq
    · rw [hgiven] at hchannel
      obtain ⟨rfl, rfl⟩ := Prod.mk.inj (Option.some.inj hchannel)
      simp only [if_true, insertNew_apply, Option.isSome_some]
    · exact hkept pair' (h.present id pair' hchannel)
  · by_contra hsome
    have hkept' := hkept pair' (Option.isSome_iff_ne_none.mpr hsome)
    simp only at hnone
    rw [hnone] at hkept'
    exact Bool.false_ne_true hkept'

theorem tellsBest_tick {book : CBook} {m : CBook.Feed} (h : CBook.Described c (book, m))
    (source : ℕ) (key : Kraken.Text) : (book.tick source key).TellsBest m := by
  intro side
  refine ⟨book.best side, CBook.isBest (h.represents side), ?_⟩
  cases side <;> rfl

theorem Inv.updates (h : s.Inv c) {channelId : ℤ} {pair : Kraken.Text} {us : List BookUpdate}
    (hchannel : s.view.channels channelId = some (pair, ascii "book"))
    (hus : ∀ u ∈ us, u.Distinct n) :
    ∃ feed tick, s.feed.onText c n (.channel channelId (.updates us)) = some (feed, [.tick tick]) ∧
      Inv c ⟨feed, s.view.onMessage n (.channel channelId (.updates us))⟩ ∧ tick.key = pair ∧
      tick.source = sourceKraken ∧
      tick.TellsBest ((s.view.onMessage n (.channel channelId (.updates us))).live pair) := by
  obtain ⟨hfeed, hfits⟩ := h.channels _ _ hchannel
  obtain ⟨book, hbook⟩ := Option.isSome_iff_exists.mp (h.present _ _ hfeed)
  have hview : s.view.onMessage n (.channel channelId (.updates us)) = { s.view with
      live := Function.update s.view.live pair
        ((us.flatMap (BookUpdate.ops n)).foldl CBook.FeedOp.describe (s.view.live pair)) } := by
    rw [View.onMessage, hchannel]
    exact if_pos rfl
  obtain ⟨book', hbook'⟩ : ∃ book', book' = us.foldl (KrakenFeed.applyUpdate c n) book := ⟨_, rfl⟩
  have hdescribed := described_applyUpdates (h.described pair book hbook) hus
  rw [← hbook'] at hdescribed
  have hnop : ¬nops.contains (ascii "book") = true := by decide
  have htrade : ascii "book" ≠ ascii "trade" := by decide
  have htext : s.feed.onText c n (.channel channelId (.updates us)) =
      some ({ s.feed with bookMap := Function.update s.feed.bookMap pair (some book') },
        [.tick (book'.tick sourceKraken pair)]) := by
    rw [KrakenFeed.onText, KrakenFeed.onChannel, if_neg (not_not.mpr hfits), hfeed]
    simp only [if_neg hnop, if_neg htrade, if_true, hbook, hbook']
  refine ⟨_, _, htext, ?_, rfl, rfl, ?_⟩
  · rw [hview]
    refine ⟨h.channels, fun pair' new hnew ↦ ?_, fun id pair' hid ↦ ?_, fun pair' hnone ↦ ?_⟩
    · simp only [Function.update_apply] at hnew ⊢
      split_ifs at hnew ⊢ with heq
      · rw [← Option.some.inj hnew]
        exact hdescribed
      · exact h.described pair' new hnew
    · simp only [Function.update_apply]
      split_ifs
      · rfl
      · exact h.present id pair' hid
    · simp only [Function.update_apply] at hnone ⊢
      split_ifs at hnone ⊢
      exact h.absent pair' hnone
  · rw [hview]
    simp only [Function.update_self]
    exact tellsBest_tick hdescribed sourceKraken pair

theorem Inv.other (h : s.Inv c) {channelId : ℤ} {pair type : Kraken.Text} {payload : Payload}
    (hchannel : s.view.channels channelId = some (pair, type)) (hfits : payload.Fits n type)
    (hbook : type ≠ ascii "book") :
    ∃ published, s.feed.onText c n (.channel channelId payload) = some (s.feed, published) ∧
      s.view.onMessage n (.channel channelId payload) = s.view ∧
      s.view.Tells n published (.message (.channel channelId payload)) := by
  obtain ⟨hfeed, hid⟩ := h.channels _ _ hchannel
  have htext : s.feed.onText c n (.channel channelId payload)
      = s.feed.onChannel c n channelId payload := rfl
  have hview : s.view.onMessage n (.channel channelId payload) = s.view := by
    cases payload with
    | trades l => rfl
    | updates us =>
      rw [View.onMessage, hchannel]
      exact if_neg hbook
  rw [htext, KrakenFeed.onChannel, if_neg (not_not.mpr hid), hfeed, hview]
  by_cases hnop : type ∈ nops
  · have htrade : type ≠ ascii "trade" := by
      rintro rfl
      exact absurd hnop (by decide)
    refine ⟨[], if_pos (List.contains_iff_mem.mpr hnop), rfl, pair, type, hchannel, ?_⟩
    rw [if_neg htrade, if_neg hbook]
  · cases payload with
    | trades l =>
      obtain rfl : type = ascii "trade" := hfits.resolve_left hnop
      refine ⟨l.map fun t ↦ .trade pair sourceKraken (n.atof t.1) (n.atof t.2), ?_, rfl, pair, _,
        hchannel, ?_⟩
      · simp only [if_neg (mt List.contains_iff_mem.mp hnop), if_true]
      · rw [if_pos rfl]
        exact ⟨l, rfl, rfl⟩
    | updates us => exact absurd (hfits.resolve_left hnop).1 hbook

theorem Inv.clearBooks (h : s.Inv c) : Inv c ⟨s.feed.clearBooks, s.view.clearBooks⟩ := by
  refine ⟨h.channels, fun pair book hbook ↦ ?_, fun id pair hid ↦ ?_, fun pair _ ↦ rfl⟩
  · obtain ⟨old, hold, rfl⟩ := Option.map_eq_some_iff.mp hbook
    exact described_clear (h.described pair old hold)
  · exact Option.isSome_map.trans (h.present id pair hid)

/-- **An event** is handled, and what is published tells of it. -/
theorem Inv.step (h : s.Inv c) {e : FeedEvent} (hmeets : s.Meets n e) :
    (s.step c n e).1.Inv c ∧ ∃ published, (s.step c n e).2 = some published ∧
      (s.step c n e).1.view.Tells n published e := by
  obtain ⟨hallows, hagrees⟩ := hmeets
  cases e with
  | clearBooks => exact ⟨h.clearBooks, [], rfl, rfl⟩
  | message message =>
    have hallows : s.view.Allows n message := hallows
    cases message with
    | systemStatus => exact ⟨h, [], rfl, rfl⟩
    | heartbeat => exact ⟨h, [], rfl, rfl⟩
    | error => exact ⟨h, [], rfl, rfl⟩
    | unknown => exact absurd hallows id
    | subscriptionStatus status channelID pair name =>
      rcases hallows with ⟨rfl, hlt⟩ | rfl
      · obtain ⟨feed, hfeed, hinv⟩ := h.subscribed (n := n) hlt (hagrees rfl)
        simp only [KrakenTrace.step, KrakenFeed.onText, hfeed]
        exact ⟨hinv, [], rfl, rfl⟩
      · have hne : ascii "error" ≠ ascii "subscribed" := by decide
        simp only [KrakenTrace.step, KrakenFeed.onText, KrakenFeed.onSubscriptionStatus,
          View.onMessage, if_neg hne, if_true]
        exact ⟨h, [], rfl, rfl⟩
    | channel channelId payload =>
      obtain ⟨⟨pair, type⟩, hchannel, hfits⟩ := hallows
      have hfits : payload.Fits n type := hfits
      by_cases hbook : type = ascii "book" ∧ ∃ us, payload = .updates us
      · obtain ⟨rfl, us, rfl⟩ := hbook
        have hnop : ascii "book" ∉ nops := by decide
        have htrade : ascii "book" ≠ ascii "trade" := by decide
        obtain ⟨feed, tick, htext, hinv, hkey, hsource, hbest⟩ :=
          h.updates hchannel (hfits.resolve_left hnop).2
        simp only [KrakenTrace.step, htext]
        refine ⟨hinv, _, rfl, pair, ascii "book", ?_, ?_⟩
        · exact (congrArg (· channelId) (View.channels_onMessage_channel _ _ _ _)).trans hchannel
        · rw [if_neg htrade, if_pos rfl]
          exact ⟨tick, rfl, hkey, hsource, hbest⟩
      · have hne : type ≠ ascii "book" := by
          rintro rfl
          cases payload with
          | trades l => exact hfits.elim (absurd · (by decide)) (absurd · (by decide))
          | updates us => exact hbook ⟨rfl, us, rfl⟩
        obtain ⟨published, htext, hview, htells⟩ := h.other (c := c) hchannel hfits hne
        simp only [KrakenTrace.step, htext, hview]
        exact ⟨h, published, rfl, htells⟩

theorem Inv.follows (h : s.Inv c) {e : FeedEvent} (hmeets : s.Meets n e) : s.Follows c n e := by
  obtain ⟨hinv, hreturns⟩ := h.step hmeets
  exact ⟨hreturns, fun pair book hbook ↦ (hinv.described pair book hbook).represents,
    fun id pair hid ↦ hinv.present id pair (hinv.channels _ _ hid).1⟩

/-- **The handler follows the feed.** -/
theorem run_followsFeed (c : PageLayout) (n : Numbers D) (events : List FeedEvent)
    (hmeets : Run.Steps (step c n) (Meets n) new events) :
    Run.Steps (step c n) (Follows c n) new events :=
  Run.Steps.of_invariant (fun _ _ h hmeets ↦ (h.step hmeets).1) (fun _ _ h ↦ h.follows) inv_new
    hmeets

/-- Two sides of a book, the end of a bid, and a trade. -/
theorem run_followsFeed_book :
    Run.Steps (step BookType ⟨id, Gdax.wholeCoins⟩) (Follows BookType ⟨id, Gdax.wholeCoins⟩) new
      [.message (.subscriptionStatus (ascii "subscribed") 1 (ascii "XBT/USD") (ascii "book")),
        .message (.subscriptionStatus (ascii "subscribed") 2 (ascii "XBT/USD") (ascii "trade")),
        .message (.channel 1 (.updates [⟨some [(ascii "7", ascii "2"), (ascii "8", ascii "1")],
          none, some [(ascii "5", ascii "1")], none⟩])),
        .message (.channel 1 (.updates [⟨none, none, none, some [(ascii "5", ascii "0")]⟩])),
        .message (.channel 2 (.trades [(ascii "7", ascii "1")]))] :=
  run_followsFeed _ _ _ (by decide)

end KrakenTrace

end Coypu
