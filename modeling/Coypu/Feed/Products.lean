import Coypu.Feed.Cleared
import Mathlib.Data.List.Forall2

/-!
# The products of GDAX

A snapshot of GDAX is loaded with the price of each level in the place of its size, and an update
sets the size of a level. So a book has the prices that are live, each with its size if an update
has given it, and the ticks have the best prices (`run_tellsPrices`).

A snapshot clears nothing. On a connection there is one for each product, and the books are cleared
before the source is connected again.
-/

set_option autoImplicit false

namespace Coypu

open SortedMap Kraken

namespace Gdax

/-! ## What the exchange describes -/

/-- The live prices of a product, each with its size and with whether an update has given it. -/
abbrev Live := Side → ℕ → Option (ℕ × Bool)

/-- The levels of a book: in the place of a size that no update has given there is the price. -/
def held (m : Live) : CBook.Feed := fun side px ↦ (m side px).map fun l ↦ if l.2 then l.1 else px

namespace Live

variable (conv : Text → ℕ) (m : Live)

def empty : Live := fun _ _ ↦ none

def set (side : Side) (px : ℕ) (l : Option (ℕ × Bool)) : Live :=
  Function.update m side (Function.update (m side) px l)

/-- The levels of a side of a snapshot. -/
def load (side : Side) (levels : List (Text × Text)) : Live :=
  levels.foldl (fun m level ↦ set m side (conv level.1) (some (conv level.2, false))) m

/-- A change, to nothing if its size is zero. -/
def change (change : Text × Text × Text) : Live :=
  set m (sideOf change.1) (conv change.2.1)
    (if conv change.2.2 = 0 then none else some (conv change.2.2, true))

/-- The maps behind the changes, one after the other. -/
def afterEach : Live → List (Text × Text × Text) → List Live
  | _, [] => []
  | m, first :: changes => change conv m first :: afterEach (change conv m first) changes

end Live

/-- The products that a snapshot was given of on this connection. -/
abbrev Products := Text → Option Live

namespace Products

variable (conv : Text → ℕ) (v : Products)

def new : Products := fun _ ↦ none

/-- The books are described as empty. -/
def clearBooks : Products := fun product ↦ (v product).map fun _ ↦ .empty

/-- What a message describes. -/
def onMessage : Message → Products
  | .snapshot product bids asks =>
    Function.update v product (some (((Live.empty).load conv .bid bids).load conv .ask asks))
  | .l2update product changes =>
    Function.update v product ((v product).map (changes.foldl (Live.change conv)))
  | .clearBooks => clearBooks v

/-- What the exchange sends: one snapshot of a product, with no price twice on a side, and updates
behind it. -/
def Allows : Message → Prop
  | .snapshot product bids asks => (v product).isNone ∧
      (bids.map fun level ↦ conv level.1).Nodup ∧ (asks.map fun level ↦ conv level.1).Nodup
  | .l2update product _ => (v product).isSome
  | .clearBooks => False

instance : DecidablePred (Allows conv v)
  | .snapshot product _ _ => inferInstanceAs (Decidable ((v product).isNone ∧ _ ∧ _))
  | .l2update product _ => inferInstanceAs (Decidable ((v product).isSome))
  | .clearBooks => .isFalse id

/-- What is published for a message: for each change of an update, the best levels behind it. -/
def Tells {D : Type*} (published : List (Published D)) : Message → Prop
  | .l2update product changes => ∃ m ticks, v product = some m ∧ published = ticks.map .tick ∧
      List.Forall₂ (fun (tick : CoypuTick) m' ↦ tick.key = product ∧
        tick.source = FeedSource.gdax.source ∧ tick.TellsBest (held m'))
        ticks (Live.afterEach conv m changes)
  | _ => published = []

end Products

/-! ## Books -/

section Books

variable {c : PageLayout} {conv : Text → ℕ} {book : CBook} {m : Live} {side : Side}
  {levels : List (Text × Text)}

theorem held_set (px : ℕ) (l : Option (ℕ × Bool)) : held (m.set side px l)
    = Function.update (held m) side
      (Function.update (held m side) px (l.map fun l ↦ if l.2 then l.1 else px)) := by
  funext side' px'
  by_cases hside : side' = side
  · subst hside
    by_cases hpx : px' = px
    · subst hpx
      simp only [held, Live.set, Function.update_self]
    · simp only [held, Live.set, Function.update_self, Function.update_of_ne hpx]
  · simp only [held, Live.set, Function.update_of_ne hside]

theorem held_empty : held .empty = fun _ _ ↦ none := rfl

theorem described_load (h : CBook.Described c (book, held m))
    (hnodup : (levels.map fun level ↦ conv level.1).Nodup)
    (hnew : ∀ level ∈ levels, m side (conv level.1) = none) :
    CBook.Described c (load c conv side book levels, held (m.load conv side levels)) := by
  induction levels generalizing book m with
  | nil => exact h
  | cons level levels ih =>
    rw [List.map_cons, List.nodup_cons] at hnodup
    have hfresh : (CBook.FeedOp.level side (conv level.1) (conv level.1)).Fresh (held m) := by
      change held m side (conv level.1) = none
      rw [held, hnew level List.mem_cons_self, Option.map_none]
    have hfirst : CBook.Described c ((book.insert c side (conv level.1) (conv level.1)).2,
        held (m.set side (conv level.1) (some (conv level.2, false)))) := by
      rw [held_set]
      exact (h.feedStep (.level side (conv level.1) (conv level.1)) hfresh).1
    refine ih hfirst hnodup.2 fun level' hlevel' ↦ ?_
    have hne : conv level'.1 ≠ conv level.1 := fun heq ↦
      hnodup.1 (heq ▸ List.mem_map_of_mem hlevel')
    simp only [Live.set, Function.update_self, Function.update_of_ne hne]
    exact hnew level' (List.mem_cons_of_mem _ hlevel')

theorem load_apply_of_ne {side' : Side} (hne : side' ≠ side) :
    m.load conv side levels side' = m side' := by
  induction levels generalizing m with
  | nil => rfl
  | cons level levels ih => exact ih.trans (Function.update_of_ne hne ..)

theorem described_snapshot (h : CBook.Described c (book, held .empty))
    {bids asks : List (Text × Text)} (hbids : (bids.map fun level ↦ conv level.1).Nodup)
    (hasks : (asks.map fun level ↦ conv level.1).Nodup) :
    CBook.Described c (load c conv .ask (load c conv .bid book bids) asks,
      held (((Live.empty).load conv .bid bids).load conv .ask asks)) := by
  have hbid : CBook.Described c
      (load c conv .bid book bids, held (Live.empty.load conv .bid bids)) :=
    described_load h hbids fun _ _ ↦ rfl
  refine described_load hbid hasks fun level _ ↦ ?_
  rw [load_apply_of_ne (by decide)]
  rfl

theorem described_change (conv : Text → ℕ) (h : CBook.Described c (book, held m))
    (change : Text × Text × Text) :
    CBook.Described c
      ((book.change c (sideOf change.1) (conv change.2.1) (conv change.2.2)).1,
        held (m.change conv change)) := by
  have hstep := (h.feedStep (.change (sideOf change.1) (conv change.2.1) (conv change.2.2))
    trivial).1
  rw [Live.change, held_set]
  have hqty : (if conv change.2.2 = 0 then none else some (conv change.2.2, true)).map
      (fun l : ℕ × Bool ↦ if l.2 then l.1 else conv change.2.1)
      = if conv change.2.2 = 0 then none else some (conv change.2.2) := by
    split_ifs <;> rfl
  rw [hqty]
  exact hstep

theorem described_publishChanges (conv : Text → ℕ) (product : Text)
    (h : CBook.Described c (book, held m)) (changes : List (Text × Text × Text)) :
    CBook.Described c ((publishChanges c conv product book changes).1,
        held (changes.foldl (Live.change conv) m)) ∧
      List.Forall₂ (fun (tick : CoypuTick) m' ↦ tick.key = product ∧
        tick.source = FeedSource.gdax.source ∧ tick.TellsBest (held m'))
        (publishChanges c conv product book changes).2 (m.afterEach conv changes) := by
  induction changes generalizing book m with
  | nil => exact ⟨h, .nil⟩
  | cons change changes ih =>
    have hfirst := described_change conv h change
    obtain ⟨hrest, hticks⟩ := ih hfirst
    exact ⟨hrest, .cons ⟨rfl, rfl, KrakenTrace.tellsBest_tick hfirst _ _⟩ hticks⟩

end Books

/-! ## All books -/

/-- Each book is what the exchange describes of its product, and there is one for each product that
a snapshot was given of. -/
structure Products.Describes (c : PageLayout) (books : BookMap) (v : Products) : Prop where
  described : ∀ product book, books product = some book →
    CBook.Described c (book, held ((v product).getD .empty))
  present : ∀ product, (v product).isSome → (books product).isSome

namespace Products.Describes

variable {c : PageLayout} {conv : Text → ℕ} {books : BookMap} {v : Products}

theorem update (h : Describes c books v) {product : Text} {book : CBook} {m : Live}
    (hbook : CBook.Described c (book, held m)) :
    Describes c (Function.update books product (some book))
      (Function.update v product (some m)) := by
  refine ⟨fun product' book' hbook' ↦ ?_, fun product' hsome ↦ ?_⟩
  · rw [Function.update_apply] at hbook' ⊢
    split_ifs at hbook' ⊢ with heq
    · rw [← Option.some.inj hbook']
      exact hbook
    · exact h.described product' book' hbook'
  · rw [Function.update_apply] at hsome ⊢
    split_ifs at hsome ⊢ with heq
    · rfl
    · exact h.present product' hsome

theorem clearBooks (h : Describes c books v) :
    Describes c (fun product ↦ (books product).map CBook.clear) (clearBooks v) := by
  refine ⟨fun product book hbook ↦ ?_, fun product hsome ↦ ?_⟩
  · obtain ⟨old, hold, rfl⟩ := Option.map_eq_some_iff.mp hbook
    have hempty : (Products.clearBooks v product).getD .empty = .empty := by
      unfold Products.clearBooks
      cases v product <;> rfl
    rw [hempty, held_empty]
    exact described_clear (h.described product old hold)
  · rw [Option.isSome_map]
    exact h.present product (by rwa [Products.clearBooks, Option.isSome_map] at hsome)

theorem connected (h : Describes c books v) (hempty : BookMap.Empty books) :
    Describes c books .new := by
  refine ⟨fun product book hbook ↦ ⟨(h.described product book hbook).owned, fun side ↦ ?_⟩,
    fun product hsome ↦ absurd hsome (by simp [Products.new])⟩
  rw [CBook.entries, hempty product book hbook side]
  exact represents_nil

/-- **A message** that the exchange may send. -/
theorem onMessage {D : Type*} (h : Describes c books v) {message : Message}
    (hallows : Allows conv v message) :
    ∃ books' published, onText (D := D) c conv books message = some (books', published) ∧
      Describes c books' (v.onMessage conv message) ∧ Tells conv v published message := by
  cases message with
  | snapshot product bids asks =>
    obtain ⟨hnone, hbids, hasks⟩ := hallows
    rw [Option.isNone_iff_eq_none] at hnone
    have hbook : CBook.Described c ((books product).getD .new, held .empty) := by
      cases hbook : books product with
      | none => exact CBook.described_new c
      | some book =>
        have hdescribed := h.described product book hbook
        rwa [hnone] at hdescribed
    exact ⟨_, _, rfl, h.update (described_snapshot hbook hbids hasks), rfl⟩
  | l2update product changes =>
    obtain ⟨m, hm⟩ := Option.isSome_iff_exists.mp hallows
    obtain ⟨book, hbook⟩ := Option.isSome_iff_exists.mp (h.present product hallows)
    have hdescribed := h.described product book hbook
    rw [hm, Option.getD_some] at hdescribed
    obtain ⟨hafter, hticks⟩ := described_publishChanges conv product hdescribed changes
    rw [publishChanges_fst] at hafter
    refine ⟨Function.update books product (some (applyChanges c conv book changes)),
      ((publishChanges c conv product book changes).2).map .tick, ?_, ?_, m, _, hm, rfl, hticks⟩
    · rw [onText, Gdax.onMessage, onUpdate, hbook]
      rfl
    · rw [Products.onMessage, hm, Option.map_some]
      exact h.update hafter
  | clearBooks => exact absurd hallows id

end Products.Describes

end Gdax

/-! ## Runs -/

/-- The context, and what GDAX has described since it was connected or its books were cleared. -/
structure ProductTrace where
  context : CoypuContext
  products : Gdax.Products

namespace ProductTrace

open CoypuContext Gdax

variable {D : Type*} (c : PageLayout) (n : Numbers D) (s : ProductTrace)

/-- A callback has run. -/
def ran (v : Products) (u : UInt64) : Products :=
  if u = FeedSource.gdax.bookClear then v.clearBooks
  else if u = FeedSource.gdax.wsConnect then .new else v

def step (op : ContextOp) : ProductTrace × Option (ContextTrace D) :=
  let r := s.context.step c n op
  (⟨r.1, match op with
    | .gdaxText _ message => s.products.onMessage n.conv message
    | _ => (r.2.elim [] ContextTrace.ran).foldl ran s.products⟩, r.2)

def main (doGdax doKraken : Bool) : ProductTrace := ⟨.main doGdax doKraken, .new⟩

/-- What can happen, where GDAX sends what it may. -/
def Meets : ContextOp → Prop
  | .gdaxText fd message => s.context.connections fd = some .gdax ∧
      s.products.Allows n.conv message
  | op => s.context.Possible op

instance : DecidablePred (s.Meets n)
  | .gdaxText _ message => inferInstanceAs (Decidable (_ ∧ s.products.Allows n.conv message))
  | .event _ _ => inferInstanceAs (Decidable (s.context.Possible (.event _ _)))
  | .round fd => inferInstanceAs (Decidable (s.context.Possible (.round fd)))
  | .close fd => inferInstanceAs (Decidable (s.context.Possible (.close fd)))
  | .krakenText fd message =>
    inferInstanceAs (Decidable (s.context.Possible (.krakenText fd message)))
  | .adminQueue u => inferInstanceAs (Decidable (s.context.Possible (.adminQueue u)))
  | .request request => inferInstanceAs (Decidable (s.context.Possible (.request request)))

/-- No assertion fails at a message of GDAX, and what is published tells of it. Behind a step each
book has the prices that are live, with their sizes where an update has given them. -/
structure TellsPrices (op : ContextOp) : Prop where
  tells : ∀ fd message, op = .gdaxText fd message → ∃ published,
    (s.step c n op).2 = some ⟨[], published, none⟩ ∧
      s.products.Tells n.conv published message
  books : ∀ product book, (s.step c n op).1.context.gdaxBooks product = some book → ∀ side,
    Represents side.cmp (book.entries side)
      (held (((s.step c n op).1.products product).getD .empty) side)

structure Inv : Prop where
  wired : s.context.Wired
  cleared : s.context.Cleared
  describes : Products.Describes c s.context.gdaxBooks s.products

variable {c n s}

theorem inv_main (doGdax doKraken : Bool) : (main doGdax doKraken).Inv c where
  wired := .main doGdax doKraken
  cleared := cleared_main doGdax doKraken
  describes := ⟨fun _ _ hbook ↦ absurd hbook (Option.some_ne_none _).symm,
    fun _ hsome ↦ absurd hsome (by simp [main, Products.new])⟩

theorem Inv.possible (h : s.Inv c) {op : ContextOp} (hop : s.Meets n op) :
    s.context.Possible op := by
  cases op with
  | gdaxText fd message =>
    refine ⟨hop.1, ?_⟩
    cases message with
    | snapshot product bids asks => trivial
    | l2update product changes => exact h.describes.present product hop.2
    | clearBooks => exact hop.2
  | _ => exact hop

/-- The callback of an event. -/
theorem ran_callback (h : Products.Describes c s.context.gdaxBooks s.products) {fd : ℤ}
    (hfd : 0 < fd) (u : UInt64) : ∃ s', s.context.callback fd u = some s' ∧
      ((∀ e : FeedSource, e.wsConnect = u → (s'.books e).Empty) →
        Products.Describes c s'.gdaxBooks (ran s.products u)) := by
  rcases callback_cases (s := s.context) hfd u with
    ⟨e, rfl, hcall⟩ | ⟨e, rfl, hcall⟩ | ⟨hne, hcall⟩
  · refine ⟨_, hcall, fun _ ↦ ?_⟩
    cases e with
    | gdax => exact h.clearBooks
    | kraken => exact h
  · refine ⟨_, hcall, fun hempty ↦ ?_⟩
    cases e with
    | gdax => exact h.connected (hempty .gdax rfl)
    | kraken => exact h
  · refine ⟨_, hcall, fun _ ↦ ?_⟩
    rw [ran, if_neg (hne .gdax).1, if_neg (hne .gdax).2]
    exact h

/-- **A step.** -/
theorem Inv.step (h : s.Inv c) {op : ContextOp} (hop : s.Meets n op) : (s.step c n op).1.Inv c := by
  have hpossible := h.possible hop
  have hwired := h.wired.step (c := c) (n := n) hpossible
  obtain ⟨hcleared, hempty⟩ := h.cleared.step (c := c) (n := n) h.wired hpossible
  refine ⟨hwired, hcleared, ?_⟩
  cases op with
  | event readable writable => exact h.describes
  | round fd =>
    simp only [ProductTrace.step]
    rcases round_cases c n h.wired.manager hop with
      ⟨hqueue, m, -, hm, -, heq⟩ | ⟨u, queue, hqueue, -, heq⟩
    · rw [heq]
      exact h.describes
    · obtain ⟨s', hcall, hdescribes⟩ := ran_callback (s := ⟨s.context.popped queue, s.products⟩)
        h.describes hop.2.1 u
      rw [heq, hcall] at hempty ⊢
      exact hdescribes fun e he ↦ hempty _ rfl e (List.mem_singleton.mpr he)
  | close fd =>
    obtain ⟨e, he⟩ := Option.ne_none_iff_exists'.mp hop.1
    simp only [ProductTrace.step, CoypuContext.step, he]
    rw [gdaxBooks_closeSSL]
    exact h.describes
  | krakenText fd message =>
    have hquiet : ∀ {o : Option (KrakenFeed × List (Published D))}, (((o.map fun r ↦
        (⟨[], r.2, none⟩ : ContextTrace D)).elim [] ContextTrace.ran).foldl ran s.products)
          = s.products := fun {o} ↦ by cases o <;> rfl
    simp only [ProductTrace.step, CoypuContext.step, hquiet]
    exact h.describes
  | gdaxText fd message =>
    obtain ⟨books', published, htext, hdescribes, -⟩ := h.describes.onMessage (D := D) hop.2
    simp only [ProductTrace.step, CoypuContext.step, htext]
    exact hdescribes
  | adminQueue u => exact h.describes
  | request request =>
    obtain ⟨message, hmessage⟩ := s.context.exists_processRequest hop
    simp only [ProductTrace.step, CoypuContext.step, hmessage]
    exact h.describes

theorem Inv.tellsPrices (h : s.Inv c) {op : ContextOp} (hop : s.Meets n op) :
    s.TellsPrices c n op := by
  refine ⟨?_, fun product book hbook ↦ ((h.step hop).describes.described product book
    hbook).represents⟩
  rintro fd message rfl
  obtain ⟨books', published, htext, -, htells⟩ := h.describes.onMessage (D := D) hop.2
  refine ⟨published, ?_, htells⟩
  simp only [ProductTrace.step, CoypuContext.step, htext, Option.map_some]

/-- **The ticks of GDAX have the best prices** in every run in which GDAX sends what it may, and
sizes that an update has given are right, though a snapshot is loaded with its prices for sizes and
clears nothing. -/
theorem run_tellsPrices (c : PageLayout) (n : Numbers D) (doGdax doKraken : Bool)
    (ops : List ContextOp) (hops : Run.Steps (step c n) (Meets n) (main doGdax doKraken) ops) :
    Run.Steps (step c n) (TellsPrices c n) (main doGdax doKraken) ops :=
  Run.Steps.of_invariant (fun _ _ h hop ↦ h.step hop) (fun _ _ h hop ↦ h.tellsPrices hop)
    (inv_main doGdax doKraken) hops

/-- A snapshot and an update, and both again on the next connection. -/
theorem run_tellsPrices_again :
    Run.Steps (step BookType ⟨id, wholeCoins⟩) (TellsPrices BookType ⟨id, wholeCoins⟩)
      (main true false) [.event false true, .event true false, .round 7, .round 8,
        .gdaxText 7 (.snapshot (ascii "BTC-USD") [(ascii "5", ascii "1"), (ascii "4", ascii "2")]
          [(ascii "6", ascii "3")]),
        .gdaxText 7 (.l2update (ascii "BTC-USD") [(ascii "buy", ascii "5", ascii "0"),
          (ascii "sell", ascii "7", ascii "1")]),
        .close 7, .event false true, .event true false, .round 8, .round 7, .round 8,
        .gdaxText 7 (.snapshot (ascii "BTC-USD") [(ascii "4", ascii "2")] []),
        .gdaxText 7 (.l2update (ascii "BTC-USD") [(ascii "buy", ascii "4", ascii "1")])] :=
  run_tellsPrices _ _ _ _ _ (by decide)

end ProductTrace

end Coypu
