import Coypu.Feed.Supervision

/-!
# What the books tell

When a source is connected its books are empty, so that a book of Kraken is what the exchange has
described on this connection (`run_startsEmpty`). A request for such a book is answered with the
best levels of it (`run_answersSnapshots`).
-/

set_option autoImplicit false

namespace Coypu

open SortedMap Kraken

namespace Gdax.BookMap

/-- No book has a level. -/
def Empty (books : Gdax.BookMap) : Prop :=
  ∀ key book, books key = some book → ∀ side, book.levels side = []

theorem empty_clear (books : Gdax.BookMap) : Empty fun key ↦ (books key).map CBook.clear := by
  intro key book hbook side
  obtain ⟨old, -, rfl⟩ := Option.map_eq_some_iff.mp hbook
  cases side with
  | bid => exact CBook.clearSide_levels_other.trans CBook.clearSide_levels
  | ask => exact CBook.clearSide_levels

end Gdax.BookMap

namespace CoypuContext

variable {D : Type*} {c : PageLayout} {n : Numbers D} {s s' : CoypuContext}

theorem empty_clearBooks (s : CoypuContext) (e : FeedSource) :
    ((s.clearBooks e).books e).Empty := by
  cases e with
  | gdax => exact Gdax.BookMap.empty_clear s.gdaxBooks
  | kraken => exact Gdax.BookMap.empty_clear s.kraken.bookMap

theorem books_clearBooks {e e' : FeedSource} (h : e' ≠ e) :
    (s.clearBooks e).books e' = s.books e' := by
  cases e <;> cases e' <;> first | rfl | exact absurd rfl h

theorem kraken_closeSSL (e : FeedSource) (fd : ℕ) : (s.closeSSL e fd).kraken = s.kraken := by
  cases e with
  | gdax => rfl
  | kraken =>
    rw [closeSSL]
    dsimp only
    split_ifs <;> rfl

theorem gdaxBooks_closeSSL (e : FeedSource) (fd : ℕ) :
    (s.closeSSL e fd).gdaxBooks = s.gdaxBooks := by
  cases e with
  | gdax => rfl
  | kraken =>
    rw [closeSSL]
    dsimp only
    split_ifs <;> rfl

variable (c n) in
theorem exists_onText {fd : ℕ} {message : Gdax.Message} (h : s.Possible (.gdaxText fd message)) :
    ∃ r : Gdax.BookMap × List (Published D),
      Gdax.onText c n.conv s.gdaxBooks message = some r := by
  obtain ⟨-, hmessage⟩ := h
  cases message with
  | snapshot product bids asks => exact ⟨_, rfl⟩
  | l2update product changes =>
    obtain ⟨book, hbook⟩ := Option.isSome_iff_exists.mp hmessage
    rw [Gdax.onText, Gdax.onMessage, Gdax.onUpdate, hbook]
    exact ⟨_, rfl⟩
  | clearBooks => exact absurd hmessage id

variable (s) in
theorem exists_processRequest {request : CoypuRequest} (h : s.Possible (.request request)) :
    ∃ message, (s.bookSourceMap.processRequest request).2 = some message := by
  rw [BookSourceMap.processRequest]
  rcases h with h | h
  · rw [h, if_neg (by decide), if_pos rfl]
    exact ⟨_, rfl⟩
  · rw [h, if_pos rfl]
    exact ⟨_, rfl⟩

/-- A source that is going to be connected has no levels then: its books are empty, or are going to
be cleared before. -/
def Cleared (s : CoypuContext) : Prop :=
  ∀ e : FeedSource, e.wsConnect ∈ s.cbManager.queue →
    [e.bookClear, e.wsConnect].Sublist s.cbManager.queue ∨ (s.books e).Empty

theorem cleared_main (doGdax doKraken : Bool) : (main doGdax doKraken).Cleared :=
  fun e _ ↦ .inr fun _ _ hbook ↦ by cases e <;> exact absurd hbook (Option.some_ne_none _).symm

theorem Cleared.congr (h : s.Cleared) (hqueue : s'.cbManager.queue = s.cbManager.queue)
    (hbooks : ∀ e : FeedSource, e.wsConnect ∈ s.cbManager.queue → s'.books e = s.books e) :
    s'.Cleared := by
  intro e he
  rw [hqueue] at he ⊢
  rw [hbooks e he]
  exact h e he

/-- An event is queued that connects no source. -/
theorem Cleared.queue (h : s.Cleared) {u : UInt64} (hne : ∀ e : FeedSource, u ≠ e.wsConnect) :
    (s.queue u).Cleared := by
  rw [CoypuContext.queue, EventCBManager.queueEvent]
  split_ifs
  · intro e he
    simp only [List.mem_append, List.mem_singleton, or_iff_left (hne e).symm] at he
    refine (h e he).imp (fun hsub ↦ ?_) id
    exact hsub.trans (List.sublist_append_left ..)
  · exact h

theorem Cleared.queue_both (h : s.Cleared) {e : FeedSource}
    (hroom : s.cbManager.queue.length + 2 ≤ EventCBManager.maxSize) :
    ((s.queue e.bookClear).queue e.wsConnect).Cleared := by
  have hfirst : s.queue e.bookClear = { s with cbManager :=
      { s.cbManager with queue := s.cbManager.queue ++ [e.bookClear], epollout := true } } := by
    rw [CoypuContext.queue, EventCBManager.queueEvent_of_lt (by omega)]
  have hlength : (s.cbManager.queue ++ [e.bookClear]).length < EventCBManager.maxSize := by
    rw [List.length_append, List.length_singleton]
    omega
  rw [hfirst, CoypuContext.queue, EventCBManager.queueEvent_of_lt hlength]
  simp only [List.append_assoc, List.singleton_append]
  intro e' he'
  by_cases heq : e' = e
  · subst heq
    exact .inl (List.sublist_append_right ..)
  · simp only [List.mem_append, List.mem_cons, List.not_mem_nil, or_false,
      (FeedSource.bookClear_ne e e').symm, FeedSource.wsConnect_inj, heq] at he'
    exact (h e' he').imp (fun hsub ↦ hsub.trans (List.sublist_append_left ..)) id

theorem Cleared.closeSSL (h : s.Cleared) (e : FeedSource) (fd : ℕ)
    (hroom : s.cbManager.queue.length + 2 ≤ EventCBManager.maxSize) :
    (s.closeSSL e fd).Cleared := by
  cases e with
  | gdax =>
    refine Cleared.queue_both (s := { s with connections := _ }) ?_ hroom
    exact h.congr rfl fun e _ ↦ by cases e <;> rfl
  | kraken =>
    rw [CoypuContext.closeSSL]
    dsimp only
    split_ifs
    · refine Cleared.queue_both (s := { s with connections := _, krakenReconnects := _ }) ?_ hroom
      exact h.congr rfl fun e _ ↦ by cases e <;> rfl
    · exact h.congr rfl fun e _ ↦ by cases e <;> rfl

theorem ran_map {α : Type*} {f : α → ContextTrace D} (hf : ∀ a, (f a).ran = []) {o : Option α}
    {t : ContextTrace D} (ht : t ∈ o.map f) : t.ran = [] := by
  obtain ⟨a, -, rfl⟩ := Option.map_eq_some_iff.mp ht
  exact hf a

theorem ran_eq_nil {op : ContextOp} (hop : ∀ fd, op ≠ .round fd) {t : ContextTrace D}
    (ht : t ∈ (s.step c n op).2) : t.ran = [] := by
  cases op with
  | round fd => exact absurd rfl (hop fd)
  | event _ _ | adminQueue _ =>
    obtain rfl := Option.some.inj ht
    rfl
  | close fd =>
    rw [step] at ht
    split at ht
    · obtain rfl := Option.some.inj ht
      rfl
    · obtain rfl := Option.some.inj ht
      rfl
  | krakenText _ _ | gdaxText _ _ | request _ => exact ran_map (fun _ ↦ rfl) ht

/-- An event is taken: behind its callback, a source that is going to be connected has no levels
then, and one that it connects has none now. -/
theorem Cleared.taken (h : s.Cleared)
    (hcount : ∀ e : FeedSource, s.cbManager.queue.count e.wsConnect ≤ 1)
    {u : UInt64} {queue : List UInt64} (hqueue : s.cbManager.queue = u :: queue)
    (hs' : s'.cbManager.queue = queue)
    (hbooks : ∀ e : FeedSource, u ≠ e.bookClear → s'.books e = s.books e)
    (hclear : ∀ e : FeedSource, u = e.bookClear → (s'.books e).Empty) :
    s'.Cleared ∧ ∀ e : FeedSource, e.wsConnect = u → (s'.books e).Empty := by
  have hsub : ∀ e : FeedSource, u ≠ e.bookClear → [e.bookClear, e.wsConnect].Sublist (u :: queue) →
      [e.bookClear, e.wsConnect].Sublist queue := by
    intro e hne hsub
    rcases List.sublist_cons_iff.mp hsub with hsub | ⟨rest, heq, -⟩
    · exact hsub
    · exact absurd (List.cons.inj heq).1.symm hne
  refine ⟨fun e he ↦ ?_, fun e he ↦ ?_⟩
  · rw [hs'] at he ⊢
    have hmem : e.wsConnect ∈ s.cbManager.queue := hqueue ▸ List.mem_cons_of_mem _ he
    by_cases hu : u = e.bookClear
    · exact .inr (hclear e hu)
    · rw [hbooks e hu]
      refine (h e hmem).imp (fun hboth ↦ hsub e hu ?_) id
      rwa [← hqueue]
  · have hu : u ≠ e.bookClear := he ▸ (e.bookClear_ne e).symm
    rw [hbooks e hu]
    refine (h e (hqueue ▸ he ▸ List.mem_cons_self)).resolve_left fun hboth ↦ ?_
    -- it would be queued twice
    rw [hqueue] at hboth
    have hmem : e.wsConnect ∈ queue := (hsub e hu hboth).subset (by simp)
    have hone := hcount e
    rw [hqueue, he, List.count_cons_self] at hone
    exact List.count_eq_zero.mp (by omega) (he ▸ hmem)

/-- The callback of the first event. -/
theorem Cleared.callback (h : s.Cleared)
    (hcount : ∀ e : FeedSource, s.cbManager.queue.count e.wsConnect ≤ 1) {u : UInt64}
    {queue : List UInt64} (hqueue : s.cbManager.queue = u :: queue) {fd : ℤ} (hfd : 0 < fd) :
    ∃ s', (s.popped queue).callback fd u = some s' ∧ s'.Cleared ∧
      ∀ e : FeedSource, e.wsConnect = u → (s'.books e).Empty := by
  rcases callback_cases (s := s.popped queue) hfd u with
    ⟨e, rfl, hcall⟩ | ⟨e, rfl, hcall⟩ | ⟨hne, hcall⟩
  · refine ⟨_, hcall, h.taken hcount hqueue (by cases e <;> rfl) (fun e' he' ↦ ?_) fun e' he' ↦ ?_⟩
    · exact books_clearBooks fun heq ↦ he' (heq ▸ rfl)
    · exact FeedSource.bookClear_inj.mp he' ▸ empty_clearBooks _ e
  · refine ⟨_, hcall, h.taken hcount hqueue rfl (fun e' _ ↦ by cases e' <;> rfl) fun e' he' ↦ ?_⟩
    exact absurd he'.symm (e'.bookClear_ne e)
  · refine ⟨_, hcall, h.taken hcount hqueue rfl (fun e' _ ↦ by cases e' <;> rfl) fun e' he' ↦ ?_⟩
    exact absurd he' (hne e').1

/-- **A step**, and the sources that it connects. -/
theorem Cleared.step (h : s.Cleared) (hwired : s.Wired) {op : ContextOp} (hop : s.Possible op) :
    (s.step c n op).1.Cleared ∧ ∀ t ∈ (s.step c n op).2, ∀ e : FeedSource,
      e.wsConnect ∈ t.ran → ((s.step c n op).1.books e).Empty := by
  have hquiet : (∀ fd, op ≠ .round fd) → ∀ t ∈ (s.step c n op).2, ∀ e : FeedSource,
      e.wsConnect ∈ t.ran → ((s.step c n op).1.books e).Empty := fun hne t ht e he ↦ by
    rw [ran_eq_nil hne ht] at he
    exact absurd he List.not_mem_nil
  cases op with
  | event readable writable =>
    refine ⟨?_, hquiet fun _ ↦ ContextOp.noConfusion⟩
    exact h.congr (s.cbManager.event_keeps readable writable).1 fun e _ ↦ by cases e <;> rfl
  | round fd =>
    rcases round_cases c n hwired.manager hop with
      ⟨hqueue, m, -, hm, -, heq⟩ | ⟨u, queue, hqueue, -, heq⟩
    · rw [heq]
      refine ⟨h.congr (hm.trans hqueue.symm) fun e _ ↦ by cases e <;> rfl, fun t ht e he ↦ ?_⟩
      rw [← Option.some.inj ht] at he
      exact absurd he List.not_mem_nil
    · obtain ⟨s', hcall, hnext, hempty⟩ := h.callback hwired.count_le hqueue hop.2.1
      rw [heq, hcall]
      refine ⟨hnext, fun t ht e he ↦ hempty e ?_⟩
      rw [← Option.some.inj ht] at he
      exact List.mem_singleton.mp he
  | close fd =>
    refine ⟨?_, hquiet fun _ ↦ ContextOp.noConfusion⟩
    obtain ⟨hfd, hroom⟩ := hop
    obtain ⟨e, he⟩ := Option.ne_none_iff_exists'.mp hfd
    simp only [CoypuContext.step, he]
    exact h.closeSSL e fd hroom
  | krakenText fd message =>
    refine ⟨h.congr rfl fun e he ↦ ?_, hquiet fun _ ↦ ContextOp.noConfusion⟩
    cases e with
    | gdax => rfl
    | kraken => exact absurd he (hwired.alone fd _ hop)
  | gdaxText fd message =>
    refine ⟨h.congr rfl fun e he ↦ ?_, hquiet fun _ ↦ ContextOp.noConfusion⟩
    cases e with
    | gdax => exact absurd he (hwired.alone fd _ hop.1)
    | kraken => rfl
  | adminQueue u => exact ⟨h.queue hop.2.1, hquiet fun _ ↦ ContextOp.noConfusion⟩
  | request request => exact ⟨h, hquiet fun _ ↦ ContextOp.noConfusion⟩

end CoypuContext

/-! ## What Kraken describes -/

/-- The context, and what Kraken has described since it was connected or its books were cleared. -/
structure CoypuTrace where
  context : CoypuContext
  view : Kraken.View

namespace CoypuTrace

open CoypuContext

variable {D : Type*} (c : PageLayout) (n : Numbers D) (s : CoypuTrace)

/-- A callback has run. -/
def ran (v : View) (u : UInt64) : View :=
  if u = FeedSource.kraken.bookClear then v.clearBooks
  else if u = FeedSource.kraken.wsConnect then .new else v

def step (op : ContextOp) : CoypuTrace × Option (ContextTrace D) :=
  let r := s.context.step c n op
  (⟨r.1, match op with
    | .krakenText _ message => s.view.onMessage n message
    | _ => (r.2.elim [] ContextTrace.ran).foldl ran s.view⟩, r.2)

def main (doGdax doKraken : Bool) : CoypuTrace := ⟨.main doGdax doKraken, .new⟩

/-- What can happen, where Kraken sends what it may and the table of channels agrees with it. -/
def Meets : ContextOp → Prop
  | .krakenText fd message => s.context.Possible (.krakenText fd message) ∧
      KrakenTrace.Meets n ⟨s.context.kraken, s.view⟩ (.message message)
  | op => s.context.Possible op

instance : DecidablePred (s.Meets n)
  | .krakenText _ _ => inferInstanceAs (Decidable (s.context.Possible _ ∧ _))
  | .event _ _ => inferInstanceAs (Decidable (s.context.Possible (.event _ _)))
  | .round fd => inferInstanceAs (Decidable (s.context.Possible (.round fd)))
  | .close fd => inferInstanceAs (Decidable (s.context.Possible (.close fd)))
  | .gdaxText fd message => inferInstanceAs (Decidable (s.context.Possible (.gdaxText fd message)))
  | .adminQueue u => inferInstanceAs (Decidable (s.context.Possible (.adminQueue u)))
  | .request request => inferInstanceAs (Decidable (s.context.Possible (.request request)))

/-- No assertion fails. A source that is connected has no levels, and behind the step each book of
Kraken is the map that is described. -/
structure StartsEmpty (op : ContextOp) : Prop where
  returns : (s.step c n op).2.isSome
  empty : ∀ t ∈ (s.step c n op).2, ∀ e : FeedSource, e.wsConnect ∈ t.ran →
    ((s.step c n op).1.context.books e).Empty
  books : ∀ pair book, (s.step c n op).1.context.kraken.bookMap pair = some book → ∀ side,
    Represents side.cmp (book.entries side) ((s.step c n op).1.view.live pair side)

structure Inv : Prop where
  wired : s.context.Wired
  cleared : s.context.Cleared
  kraken : KrakenTrace.Inv c ⟨s.context.kraken, s.view⟩

variable {c n s}

theorem Meets.possible {op : ContextOp} (h : s.Meets n op) : s.context.Possible op := by
  cases op with
  | krakenText fd message => exact h.1
  | _ => exact h

theorem inv_main (doGdax doKraken : Bool) : (main doGdax doKraken).Inv c where
  wired := .main doGdax doKraken
  cleared := cleared_main doGdax doKraken
  kraken := KrakenTrace.inv_new

theorem inv_connected {feed : KrakenFeed} {v : View} (h : KrakenTrace.Inv c ⟨feed, v⟩)
    (hempty : Gdax.BookMap.Empty feed.bookMap) : KrakenTrace.Inv c ⟨feed, .new⟩ := by
  refine ⟨fun id _ hid ↦ absurd hid (Option.some_ne_none _).symm, fun pair book hbook ↦ ?_,
    h.present, fun _ _ ↦ rfl⟩
  refine ⟨(h.described pair book hbook).owned, fun side ↦ ?_⟩
  rw [CBook.entries, hempty pair book hbook side]
  exact represents_nil

/-- The callback of an event. -/
theorem ran_callback (h : KrakenTrace.Inv c ⟨s.context.kraken, s.view⟩) {fd : ℤ} (hfd : 0 < fd)
    (u : UInt64) : ∃ s', s.context.callback fd u = some s' ∧
      ((∀ e : FeedSource, e.wsConnect = u → (s'.books e).Empty) →
        KrakenTrace.Inv c ⟨s'.kraken, ran s.view u⟩) := by
  rcases callback_cases (s := s.context) hfd u with
    ⟨e, rfl, hcall⟩ | ⟨e, rfl, hcall⟩ | ⟨hne, hcall⟩
  · refine ⟨_, hcall, fun _ ↦ ?_⟩
    cases e with
    | gdax => exact h
    | kraken => exact h.clearBooks
  · refine ⟨_, hcall, fun hempty ↦ ?_⟩
    cases e with
    | gdax => exact h
    | kraken => exact inv_connected h (hempty .kraken rfl)
  · refine ⟨_, hcall, fun _ ↦ ?_⟩
    rw [ran, if_neg (hne .kraken).1, if_neg (hne .kraken).2]
    exact h

/-- **A step.** -/
theorem Inv.step (h : s.Inv c) {op : ContextOp} (hop : s.Meets n op) :
    (s.step c n op).1.Inv c ∧ (s.step c n op).2.isSome := by
  have hwired := h.wired.step (c := c) (n := n) hop.possible
  obtain ⟨hcleared, hempty⟩ := h.cleared.step (c := c) (n := n) h.wired hop.possible
  suffices hkraken : KrakenTrace.Inv c
      ⟨(s.step c n op).1.context.kraken, (s.step c n op).1.view⟩ ∧ (s.step c n op).2.isSome from
    ⟨⟨hwired, hcleared, hkraken.1⟩, hkraken.2⟩
  cases op with
  | event readable writable => exact ⟨h.kraken, rfl⟩
  | round fd =>
    simp only [CoypuTrace.step]
    rcases round_cases c n h.wired.manager hop with
      ⟨hqueue, m, -, hm, -, heq⟩ | ⟨u, queue, hqueue, -, heq⟩
    · rw [heq]
      exact ⟨h.kraken, rfl⟩
    · obtain ⟨s', hcall, hkraken⟩ := ran_callback (s := ⟨s.context.popped queue, s.view⟩) h.kraken
        hop.2.1 u
      rw [heq, hcall] at hempty ⊢
      exact ⟨hkraken fun e he ↦ hempty _ rfl e (List.mem_singleton.mpr he), rfl⟩
  | close fd =>
    obtain ⟨e, he⟩ := Option.ne_none_iff_exists'.mp hop.1
    simp only [CoypuTrace.step, CoypuContext.step, he]
    rw [kraken_closeSSL]
    exact ⟨h.kraken, rfl⟩
  | krakenText fd message =>
    obtain ⟨hinv, published, hpublished, -⟩ := h.kraken.step hop.2
    obtain ⟨r, hr, rfl⟩ := Option.map_eq_some_iff.mp hpublished
    refine ⟨hinv, ?_⟩
    simp only [CoypuTrace.step, CoypuContext.step, hr, Option.map_some, Option.isSome_some]
  | gdaxText fd message =>
    obtain ⟨r, hr⟩ := exists_onText c n hop.possible
    simp only [CoypuTrace.step, CoypuContext.step, hr]
    exact ⟨h.kraken, rfl⟩
  | adminQueue u => exact ⟨h.kraken, rfl⟩
  | request request =>
    obtain ⟨message, hmessage⟩ := s.context.exists_processRequest hop
    simp only [CoypuTrace.step, CoypuContext.step, hmessage]
    exact ⟨h.kraken, rfl⟩

theorem Inv.startsEmpty (h : s.Inv c) {op : ContextOp} (hop : s.Meets n op) :
    s.StartsEmpty c n op := by
  obtain ⟨hinv, hreturns⟩ := h.step hop
  obtain ⟨-, hempty⟩ := h.cleared.step (c := c) (n := n) h.wired hop.possible
  exact ⟨hreturns, hempty, fun pair book hbook ↦
    (hinv.kraken.described pair book hbook).represents⟩

/-- **A connection starts with empty books**, and no assertion fails: in every run in which Kraken
sends what it may and gives no number of a channel away that the table has, a book of Kraken is the
map that was described since the last connection. -/
theorem run_startsEmpty (c : PageLayout) (n : Numbers D) (doGdax doKraken : Bool)
    (ops : List ContextOp) (hops : Run.Steps (step c n) (Meets n) (main doGdax doKraken) ops) :
    Run.Steps (step c n) (StartsEmpty c n) (main doGdax doKraken) ops :=
  Run.Steps.of_invariant (fun _ _ h hop ↦ (h.step hop).1) (fun _ _ h hop ↦ h.startsEmpty hop)
    (inv_main doGdax doKraken) hops

/-- A book of Kraken, whose connection is closed and made again. -/
theorem run_startsEmpty_again :
    Run.Steps (step BookType ⟨id, Gdax.wholeCoins⟩) (StartsEmpty BookType ⟨id, Gdax.wholeCoins⟩)
      (main false true) [.event false true, .event true false, .round 7, .round 8,
        .krakenText 7
          (.subscriptionStatus (ascii "subscribed") 1 (ascii "XBT/USD") (ascii "book")),
        .krakenText 7 (.channel 1 (.updates [⟨none, none, some [(ascii "5", ascii "1")], none⟩])),
        .close 7, .event false true, .event true false, .round 8, .round 7, .round 8,
        .krakenText 7
          (.subscriptionStatus (ascii "subscribed") 1 (ascii "XBT/USD") (ascii "book"))] :=
  run_startsEmpty _ _ _ _ _ (by decide)

/-! ## Snapshots -/

/-- On each side, the best levels of a map, as many as are asked for. -/
def Lists (m : CBook.Feed) (b : CoypuBook) (levels : ℕ) : Prop :=
  ∀ side, ∃ l, Represents side.cmp l (m side) ∧
    (b.levels side).map BookLevel.entry = l.reverse.take (CBook.wanted levels l.length)

/-- The prices and quantities are values of type `double`. -/
def Small (m : CBook.Feed) : Prop :=
  ∀ side px qty, m side px = some qty → px < 2 ^ 53 ∧ qty < 2 ^ 53

/-- The best levels that are described, or, where there is no channel for the book, an error. -/
def Answers (v : View) (asked : BookSnapshot) (t : Option (ContextTrace D)) : Prop :=
  (∃ b : CoypuBook, t = some ⟨[], [], some ⟨.bookSnap, .snap b⟩⟩ ∧ b.key = asked.key ∧
    b.source = asked.source ∧ Lists (v.live asked.key) b asked.levels) ∨
  t = some ⟨[], [], some (BookSourceMap.errorMessage
      (ascii "Book not found " ++ asked.key ++ ascii " " ++ ascii "2"))⟩ ∧
    (∀ side px, v.live asked.key side px = none) ∧
    ∀ id, v.channels id ≠ some (asked.key, ascii "book")

/-- A request for a book of Kraken, with a number of levels that is not negative as an `int`, is
answered with what is described. -/
def AnswersSnapshots (c : PageLayout) (n : Numbers D) (s : CoypuTrace) : ContextOp → Prop
  | .request request => request.type = CoypuRequest.bookSnapshotRequest →
      (request.snap.getD .empty).source = sourceKraken →
      (request.snap.getD .empty).levels < 2 ^ 31 →
      Small (s.view.live (request.snap.getD .empty).key) →
      Answers s.view (request.snap.getD .empty) (s.step c n (.request request)).2
  | _ => True

theorem lists_snap {book : CBook} {m : CBook.Feed} (h : CBook.Described c (book, m)) (hm : Small m)
    {levels : ℕ} (hlevels : levels < 2 ^ 31) (key : List UInt8) (source : ℕ) :
    Lists m (book.snap ⟨key, source, [], []⟩ (CInt.toInt levels)) levels := by
  intro side
  refine ⟨book.entries side, h.represents side, ?_⟩
  have hnil : (CoypuBook.mk key source [] []).levels side = [] := by cases side <;> rfl
  rw [CBook.snap_levels side hnil, CBook.snapLoop_of_lt hlevels, ← CBook.listed]
  refine (List.map_congr_left fun e he ↦ ?_).trans (List.map_id _)
  have hmem : e ∈ book.entries side := List.mem_reverse.mp (List.mem_of_mem_take he)
  obtain ⟨hpx, hqty⟩ := hm side e.1 e.2 (((h.represents side).mem_iff _ _).mp hmem)
  exact CBook.converted_eq_iff.mpr ⟨Rounding.fits_of_lt hpx, Rounding.fits_of_lt hqty⟩

theorem Inv.answersSnapshots (h : s.Inv c) (op : ContextOp) : s.AnswersSnapshots c n op := by
  cases op with
  | request request =>
    intro htype hsource hlevels hsmall
    have hanswer : (s.step c n (.request request)).2 = some ⟨[], [],
        some (s.context.bookSourceMap.bookSnapshot (request.snap.getD .empty))⟩ := by
      simp only [CoypuTrace.step, CoypuContext.step, BookSourceMap.processRequest, if_pos htype,
        Option.map_some]
    rw [hanswer]
    generalize request.snap.getD .empty = asked at hsource hlevels hsmall ⊢
    have hmap : s.context.bookSourceMap sourceKraken = s.context.kraken.bookMap :=
      (if_neg (by decide)).trans (if_pos rfl)
    rw [BookSourceMap.bookSnapshot, hsource, hmap, if_pos (by decide)]
    cases hbook : s.context.kraken.bookMap asked.key with
    | some book =>
      refine .inl ⟨_, rfl, rfl, hsource.symm, ?_⟩
      exact lists_snap (h.kraken.described _ _ hbook) hsmall hlevels _ _
    | none =>
      refine .inr ⟨rfl, fun side px ↦ ?_, fun id hid ↦ ?_⟩
      · exact congrFun (congrFun (h.kraken.absent _ hbook) side) px
      · have hsome := h.kraken.present id _ (h.kraken.channels _ _ hid).1
        rw [hbook] at hsome
        exact Bool.false_ne_true hsome
  | _ => trivial

/-- **Clients see what Kraken describes.** -/
theorem run_answersSnapshots (c : PageLayout) (n : Numbers D) (doGdax doKraken : Bool)
    (ops : List ContextOp) (hops : Run.Steps (step c n) (Meets n) (main doGdax doKraken) ops) :
    Run.Steps (step c n) (AnswersSnapshots c n) (main doGdax doKraken) ops :=
  Run.Steps.of_invariant (fun _ _ h hop ↦ (h.step hop).1) (fun _ op h _ ↦ h.answersSnapshots op)
    (inv_main doGdax doKraken) hops

/-- A request for a book, and for one that there is not. -/
theorem run_answersSnapshots_two :
    Run.Steps (step BookType ⟨id, Gdax.wholeCoins⟩)
      (AnswersSnapshots BookType ⟨id, Gdax.wholeCoins⟩) (main false true)
      [.event false true, .event true false, .round 7, .round 8,
        .krakenText 7
          (.subscriptionStatus (ascii "subscribed") 1 (ascii "XBT/USD") (ascii "book")),
        .krakenText 7 (.channel 1 (.updates [⟨none, none, some [(ascii "5", ascii "1")], none⟩])),
        .request ⟨1, some ⟨ascii "XBT/USD", 2, 1⟩⟩, .request ⟨1, some ⟨ascii "ETH/USD", 2, 0⟩⟩] :=
  run_answersSnapshots _ _ _ _ _ (by decide)

end CoypuTrace

end Coypu
