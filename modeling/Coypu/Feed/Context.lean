import Coypu.Event.EventCBManager
import Coypu.Feed.Following

/-!
# The feeds of the application

`main` queues an event that connects each of its feeds. When the connection of a feed is closed, an
event that clears the books of the source and one that connects again are queued, for Kraken at most
16 times. A connection is made by the callback of an event, in the loop of `EventCBManager`.

A step here is an event of the eventfd or a round of the loop, a connection that is closed, a
message of a feed, a number that the admin port queues, or a request for a book.
-/

set_option autoImplicit false

namespace Coypu

open Kraken

/-- The sources that have a feed. -/
inductive FeedSource
  | gdax
  | kraken
deriving DecidableEq

namespace FeedSource

/-- `SOURCE_GDAX` and `SOURCE_KRAKEN`. -/
def source : FeedSource → ℕ
  | gdax => 1
  | kraken => sourceKraken

/-- `CE_BOOK_CLEAR_GDAX` and `CE_BOOK_CLEAR_KRAKEN`. -/
def bookClear : FeedSource → UInt64
  | gdax => 1
  | kraken => 2

/-- `CE_WS_CONNECT_GDAX` and `CE_WS_CONNECT_KRAKEN`. -/
def wsConnect : FeedSource → UInt64
  | gdax => 3
  | kraken => 4

theorem bookClear_ne (e e' : FeedSource) : e.bookClear ≠ e'.wsConnect := by
  cases e <;> cases e' <;> decide

theorem bookClear_inj {e e' : FeedSource} : e.bookClear = e'.bookClear ↔ e = e' := by
  cases e <;> cases e' <;> decide

theorem wsConnect_inj {e e' : FeedSource} : e.wsConnect = e'.wsConnect ↔ e = e' := by
  cases e <;> cases e' <;> decide

end FeedSource

/-! ## The handler of the GDAX feed -/

namespace Gdax

variable (c : PageLayout) (conv : Text → ℕ)

/-- The loop over the changes, with the tick that is published for each. -/
def publishChanges (product : Text) (book : CBook) :
    List (Text × Text × Text) → CBook × List CoypuTick
  | [] => (book, [])
  | change :: changes =>
    let book := (book.change c (sideOf change.1) (conv change.2.1) (conv change.2.2)).1
    let r := publishChanges product book changes
    (r.1, book.tick FeedSource.gdax.source product :: r.2)

theorem publishChanges_fst {product : Text} {book : CBook} (changes : List (Text × Text × Text)) :
    (publishChanges c conv product book changes).1 = applyChanges c conv book changes := by
  induction changes generalizing book with
  | nil => rfl
  | cons change changes ih => exact ih

/-- `onText`, for a snapshot and for an update. -/
def onText {D : Type*} (books : BookMap) (message : Message) :
    Option (BookMap × List (Published D)) :=
  (onMessage c conv books message).map fun books' ↦
    (books', match message with
      | .l2update product changes =>
        ((publishChanges c conv product ((books product).getD .new) changes).2).map .tick
      | _ => [])

end Gdax

/-! ## The context -/

/-- The members of `CoypuContext` that the feeds use: the file descriptors of the sources, and the
connections that are registered, with their sources. `krakenReconnects` is a variable of the
callback that closes a connection. -/
structure CoypuContext where
  cbManager : EventCBManager
  fd : FeedSource → ℤ
  krakenReconnects : ℕ
  connections : ℕ → Option FeedSource
  kraken : KrakenFeed
  gdaxBooks : Gdax.BookMap

/-- What happens to it. A round gets the file descriptor that `ConnectStream` returns, if its
callback connects. -/
inductive ContextOp
  | event (readable writable : Bool)
  | round (fd : ℤ)
  | close (fd : ℕ)
  | krakenText (fd : ℕ) (message : Kraken.Message)
  | gdaxText (fd : ℕ) (message : Gdax.Message)
  | adminQueue (u : UInt64)
  | request (request : CoypuRequest)

/-- The callbacks that a step ran, what it published, and the response to a request. -/
structure ContextTrace (D : Type*) where
  ran : List UInt64
  published : List (Published D)
  response : Option CoypuMessage

namespace CoypuContext

variable {D : Type*} (c : PageLayout) (n : Numbers D) (s : CoypuContext)

/-- The books of `_bookSourceMap`. -/
def books : FeedSource → Gdax.BookMap
  | .gdax => s.gdaxBooks
  | .kraken => s.kraken.bookMap

def bookSourceMap : BookSourceMap := fun source ↦
  if source = FeedSource.gdax.source then s.books .gdax
  else if source = FeedSource.kraken.source then s.books .kraken else fun _ ↦ none

/-- `Queue` of the `EventCBManager`. -/
def queue (u : UInt64) : CoypuContext := { s with cbManager := (s.cbManager.queueEvent u).1 }

/-- `EventClearBooks`. -/
def clearBooks : FeedSource → CoypuContext
  | .gdax => { s with gdaxBooks := fun product ↦ (s.gdaxBooks product).map CBook.clear }
  | .kraken => { s with kraken := s.kraken.clearBooks }

/-- `StreamGDAX` and `StreamKraken`, which assert that there is a file descriptor. -/
def stream (e : FeedSource) (fd : ℤ) : Option CoypuContext :=
  if 0 < fd then
    some { s with
      fd := Function.update s.fd e fd
      connections := Function.update s.connections fd.toNat (some e) }
  else none

/-- `closeSSL` of the two. -/
def closeSSL (e : FeedSource) (fd : ℕ) : CoypuContext :=
  let s := { s with connections := Function.update s.connections fd none }
  match e with
  | .gdax => (s.queue e.bookClear).queue e.wsConnect
  | .kraken =>
    let s := { s with krakenReconnects := s.krakenReconnects + 1 }
    if s.krakenReconnects ≤ 16 then (s.queue e.bookClear).queue e.wsConnect else s

/-- The callback of a type. -/
def callback (fd : ℤ) (u : UInt64) : Option CoypuContext :=
  if u = FeedSource.gdax.bookClear then some (s.clearBooks .gdax)
  else if u = FeedSource.kraken.bookClear then some (s.clearBooks .kraken)
  else if u = FeedSource.gdax.wsConnect then s.stream .gdax fd
  else if u = FeedSource.kraken.wsConnect then s.stream .kraken fd
  else some s

/-- The callbacks that `main` registers, and the events that it queues. -/
def mainOps (doGdax doKraken : Bool) : List CBOp :=
  [.register FeedSource.gdax.bookClear, .register FeedSource.kraken.bookClear] ++
    ((if doGdax then
      [.register FeedSource.gdax.wsConnect, .queue FeedSource.gdax.wsConnect] else []) ++
    if doKraken then
      [.register FeedSource.kraken.wsConnect, .queue FeedSource.kraken.wsConnect] else [])

/-- The context when `main` comes to its loop. -/
def main (doGdax doKraken : Bool) : CoypuContext where
  cbManager := (Run.run EventCBManager.step .new (mainOps doGdax doKraken)).1
  fd := fun _ ↦ -1
  krakenReconnects := 0
  connections := fun _ ↦ none
  kraken := .new
  gdaxBooks := fun _ ↦ none

/-- A step, with nothing in the place of its trace if an assertion fails. -/
def step : ContextOp → CoypuContext × Option (ContextTrace D)
  | .event readable writable =>
    ({ s with cbManager := s.cbManager.event readable writable }, some ⟨[], [], none⟩)
  | .round fd =>
    let r := s.cbManager.round
    let s := { s with cbManager := r.1 }
    match r.2.ran with
    | [] => (s, some ⟨[], [], none⟩)
    | u :: _ => ((s.callback fd u).getD s, (s.callback fd u).map fun _ ↦ ⟨[u], [], none⟩)
  | .close fd =>
    match s.connections fd with
    | none => (s, some ⟨[], [], none⟩)
    | some e => (s.closeSSL e fd, some ⟨[], [], none⟩)
  | .krakenText _ message =>
    let r := s.kraken.onText c n message
    ({ s with kraken := (r.map Prod.fst).getD s.kraken }, r.map fun r ↦ ⟨[], r.2, none⟩)
  | .gdaxText _ message =>
    let r := Gdax.onText c n.conv s.gdaxBooks message
    ({ s with gdaxBooks := (r.map Prod.fst).getD s.gdaxBooks }, r.map fun r ↦ ⟨[], r.2, none⟩)
  | .adminQueue u => (s.queue u, some ⟨[], [], none⟩)
  | .request request =>
    (s, (s.bookSourceMap.processRequest request).2.map fun message ↦ ⟨[], [], some message⟩)

/-! ## What can happen -/

/-- A connection has a new file descriptor, messages come from the connections, and the admin port
queues no connect. There is memory for what is queued. -/
def Possible : ContextOp → Prop
  | .event readable writable => s.cbManager.Possible (.event readable writable)
  | .round fd => s.cbManager.phase ≠ .idle ∧ 0 < fd ∧ s.connections fd.toNat = none
  | .close fd => s.connections fd ≠ none ∧ s.cbManager.queue.length + 2 ≤ EventCBManager.maxSize
  | .krakenText fd _ => s.connections fd = some .kraken
  | .gdaxText fd message => s.connections fd = some .gdax ∧
      match message with
      | .snapshot _ _ _ => True
      | .l2update product _ => (s.gdaxBooks product).isSome
      | .clearBooks => False
  | .adminQueue u => u ∈ s.cbManager.cbMap ∧ (∀ e : FeedSource, u ≠ e.wsConnect) ∧
      s.cbManager.queue.length + 2 ≤ EventCBManager.maxSize
  | .request request =>
      request.type = CoypuRequest.heartbeat ∨ request.type = CoypuRequest.bookSnapshotRequest

end CoypuContext

end Coypu
