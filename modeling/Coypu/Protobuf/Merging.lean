import Coypu.Library.CInt
import Coypu.Protobuf.ProtoManager

/-!
# Merging requests

protobuf merges a message into the request that it is given: a field on the wire overwrites, a
message in it is merged, and what is not on the wire stays. The request is a member of the manager,
and never cleared. So a request is as its own bytes say exactly if these carry all that the request
before it has left (`CoypuRequest.Covered`).

What protobuf reads is taken not to depend on the request that it merges into (`ProtoLib.Merges`).
-/

set_option autoImplicit false

namespace Coypu

open Transport ZeroCopy

/-! ## Overwriting -/

section Overwriting

variable {α β : Type} {slot : α → Option β} {v v' : β} {l : List α}

/-- A value behind some items, of which some overwrite it. -/
def overwritten (slot : α → Option β) (v : β) (l : List α) : β :=
  l.foldl (fun v a ↦ (slot a).getD v) v

theorem overwritten_cons (a : α) :
    overwritten slot v (a :: l) = overwritten slot ((slot a).getD v) l := rfl

/-- What a value was before can be seen unless it is overwritten. -/
theorem overwritten_eq_iff :
    overwritten slot v l = overwritten slot v' l ↔ v = v' ∨ ∃ a ∈ l, (slot a).isSome = true := by
  induction l generalizing v v' with
  | nil => simp [overwritten]
  | cons a l ih =>
    rw [overwritten_cons, overwritten_cons, ih]
    cases ha : slot a with
    | none => simp [ha]
    | some b => simp [ha]

end Overwriting

/-! ## Messages -/

/-- `BookSnapshot`. -/
structure BookSnapshot where
  key : List UInt8
  source : ℕ
  levels : ℕ
deriving DecidableEq, Repr

namespace BookSnapshot

/-- All fields have their defaults. -/
def empty : BookSnapshot := ⟨[], 0, 0⟩

/-- A field on the wire. -/
inductive Field where
  | key (value : List UInt8)
  | source (value : ℕ)
  | levels (value : ℕ)

namespace Field

def key? : Field → Option (List UInt8)
  | key value => some value
  | source _ | levels _ => none

def source? : Field → Option ℕ
  | source value => some value
  | key _ | levels _ => none

def levels? : Field → Option ℕ
  | levels value => some value
  | key _ | source _ => none

end Field

variable (s : BookSnapshot)

def merge : Field → BookSnapshot
  | .key value => { s with key := value }
  | .source value => { s with source := value }
  | .levels value => { s with levels := value }

def mergeAll (fields : List Field) : BookSnapshot := fields.foldl merge s

theorem mergeAll_eq (fields : List Field) :
    s.mergeAll fields = ⟨overwritten Field.key? s.key fields,
      overwritten Field.source? s.source fields, overwritten Field.levels? s.levels fields⟩ := by
  induction fields generalizing s with
  | nil => rfl
  | cons field fields ih =>
    rw [mergeAll, List.foldl_cons, ← mergeAll, ih]
    cases field <;> rfl

/-- Every field that is not as by default is on the wire. -/
def Covered (fields : List Field) : Prop :=
  (s.key = [] ∨ ∃ field ∈ fields, field.key?.isSome = true) ∧
    (s.source = 0 ∨ ∃ field ∈ fields, field.source?.isSome = true) ∧
    (s.levels = 0 ∨ ∃ field ∈ fields, field.levels?.isSome = true)

instance (fields : List Field) : Decidable (s.Covered fields) :=
  inferInstanceAs (Decidable (_ ∧ _ ∧ _))

theorem mergeAll_eq_iff (fields : List Field) :
    s.mergeAll fields = empty.mergeAll fields ↔ s.Covered fields := by
  rw [mergeAll_eq, mergeAll_eq, mk.injEq, overwritten_eq_iff, overwritten_eq_iff,
    overwritten_eq_iff]
  exact Iff.rfl

end BookSnapshot

/-- `CoypuRequest`, whose `oneof` has one alternative. -/
structure CoypuRequest where
  type : ℤ
  snap : Option BookSnapshot
deriving DecidableEq, Repr

namespace CoypuRequest

/-- All fields have their defaults. -/
def empty : CoypuRequest := ⟨0, none⟩

/-- A field on the wire. -/
inductive Field where
  | type (value : ℤ)
  | snap (fields : List BookSnapshot.Field)

namespace Field

def type? : Field → Option ℤ
  | type value => some value
  | snap _ => none

def snap? : Field → Option (List BookSnapshot.Field)
  | snap fields => some fields
  | type _ => none

end Field

variable (r : CoypuRequest)

def merge : Field → CoypuRequest
  | .type value => { r with type := value }
  | .snap fields => { r with snap := some ((r.snap.getD .empty).mergeAll fields) }

def mergeAll (fields : List Field) : CoypuRequest := fields.foldl merge r

/-- The fields of the snapshots, which are one behind another. -/
def snapFields (fields : List Field) : List BookSnapshot.Field :=
  fields.flatMap fun field ↦ field.snap?.getD []

/-- Every field that is not as by default is on the wire. -/
def Covered (fields : List Field) : Prop :=
  (r.type = 0 ∨ ∃ field ∈ fields, field.type?.isSome = true) ∧
    ∀ s ∈ r.snap, (∃ field ∈ fields, field.snap?.isSome = true) ∧ s.Covered (snapFields fields)

instance (fields : List Field) : Decidable (r.Covered fields) :=
  inferInstanceAs (Decidable (_ ∧ ∀ s ∈ r.snap, _))

theorem mergeAll_cons (field : Field) (fields : List Field) :
    r.mergeAll (field :: fields) = (r.merge field).mergeAll fields := rfl

theorem mergeAll_type (fields : List Field) :
    (r.mergeAll fields).type = overwritten Field.type? r.type fields := by
  induction fields generalizing r with
  | nil => rfl
  | cons field fields ih =>
    rw [mergeAll_cons, ih]
    cases field <;> rfl

theorem mergeAll_snap_of_none {fields : List Field} (h : ∀ field ∈ fields, field.snap? = none) :
    (r.mergeAll fields).snap = r.snap := by
  induction fields generalizing r with
  | nil => rfl
  | cons field fields ih =>
    rw [mergeAll_cons, ih _ fun f hf ↦ h f (List.mem_cons_of_mem _ hf)]
    cases field with
    | type => rfl
    | snap l => exact absurd (h _ List.mem_cons_self) (by simp [Field.snap?])

theorem mergeAll_snap {fields : List Field} (h : ∃ field ∈ fields, field.snap?.isSome = true) :
    (r.mergeAll fields).snap = some ((r.snap.getD .empty).mergeAll (snapFields fields)) := by
  induction fields generalizing r with
  | nil => exact absurd h (by simp)
  | cons field fields ih =>
    rw [mergeAll_cons]
    cases field with
    | type value =>
      have hrest : ∃ field ∈ fields, field.snap?.isSome = true := by simpa [Field.snap?] using h
      exact ih _ hrest
    | snap l =>
      have hsplit : snapFields (.snap l :: fields) = l ++ snapFields fields := List.flatMap_cons
      rw [hsplit, BookSnapshot.mergeAll, List.foldl_append]
      -- whether it is the last snapshot on the wire
      by_cases hrest : ∃ field ∈ fields, field.snap?.isSome = true
      · rw [ih _ hrest]
        rfl
      · have hnone : ∀ field ∈ fields, field.snap? = none := by simpa using hrest
        have hnil : snapFields fields = [] := by
          refine List.flatMap_eq_nil_iff.mpr fun field hfield ↦ ?_
          rw [hnone field hfield, Option.getD_none]
        rw [mergeAll_snap_of_none _ hnone, hnil]
        rfl

/-- **A request is as its own bytes say** exactly if these carry what the request before it has
left. -/
theorem mergeAll_eq_iff (fields : List Field) :
    r.mergeAll fields = empty.mergeAll fields ↔ r.Covered fields := by
  have hparts (a b : CoypuRequest) : a = b ↔ a.type = b.type ∧ a.snap = b.snap := by
    rw [CoypuRequest.mk.injEq]
  rw [hparts, mergeAll_type, mergeAll_type, overwritten_eq_iff]
  refine and_congr_right fun _ ↦ ?_
  by_cases h : ∃ field ∈ fields, field.snap?.isSome = true
  · rw [mergeAll_snap _ h, mergeAll_snap _ h, Option.some_inj]
    cases hsnap : r.snap with
    | none => exact iff_of_true rfl fun s hs ↦ absurd hs (by simp)
    | some s =>
      rw [Option.getD_some, show empty.snap.getD .empty = BookSnapshot.empty from rfl,
        BookSnapshot.mergeAll_eq_iff]
      simp [h]
  -- the old snapshot stays, so there must be none
  · have hnone : ∀ field ∈ fields, field.snap? = none := by simpa using h
    rw [mergeAll_snap_of_none _ hnone, mergeAll_snap_of_none _ hnone]
    cases hsnap : r.snap with
    | none => exact iff_of_true rfl fun s hs ↦ absurd hs (by simp)
    | some s => exact iff_of_false (by simp [empty]) fun hall ↦ h (hall s rfl).1

end CoypuRequest

/-- What protobuf reads of a message are its fields, up to an error, whatever they are merged
into. -/
def MergesFields (mergeFrom : CoypuRequest → ℕ → Program (CoypuRequest × Bool))
    (read : ℕ → Program (List CoypuRequest.Field × Bool)) : Prop :=
  ∀ request n, mergeFrom request n = (read n).map fun q ↦ (request.mergeAll q.1, q.2)

/-! ## The proto socket -/

namespace ProtoConnection

variable {Req α β : Type} (lib : ProtoLib Req) (read : ℕ → Program (α × Bool))
  (con : ProtoConnection)

/-- What is read of the message that `Read` hands over, if it does, behind the call of `Readv`. -/
def message : Option (Option α) :=
  if 4 ≤ con.readBuf.available then
    (con.takeHeader lib).bind fun con ↦
      if 0 < con.gSize ∧ con.gSize ≤ con.readBuf.available then
        ((read con.gSize).run BufZeroCopyInputStream.source ⟨con.readBuf, 0⟩).bind fun r ↦
          if lib.asserts = true ∧ r.1.2 = false then none else some (lib.cb.map fun _ ↦ r.1.1)
      else some none
  else some none

variable {lib read con}

theorem process_requests (fd : ℕ) {request : Req} :
    (con.process lib fd request).map (fun r ↦ r.1.map Dispatch.request)
      = (con.message lib (lib.mergeFrom request)).map Option.toList := by
  rw [process, message]
  split_ifs
  · cases con.takeHeader lib with
    | none => rfl
    | some con =>
      rw [Option.bind_some, Option.bind_some]
      split_ifs
      · rw [dispatch]
        cases (lib.mergeFrom request con.gSize).run BufZeroCopyInputStream.source
          ⟨con.readBuf, 0⟩ with
        | none => rfl
        | some r =>
          rw [Option.bind_some, Option.bind_some]
          split_ifs
          · rfl
          · cases lib.cb <;> rfl
      · rfl
  · rfl

theorem message_map (f : α → β) :
    con.message lib (fun n ↦ (read n).map fun q ↦ (f q.1, q.2))
      = (con.message lib read).map (Option.map f) := by
  rw [message, message]
  split_ifs
  · cases con.takeHeader lib with
    | none => rfl
    | some con =>
      rw [Option.bind_some, Option.bind_some]
      split_ifs
      · rw [Program.run_map]
        cases (read con.gSize).run BufZeroCopyInputStream.source ⟨con.readBuf, 0⟩ with
        | none => rfl
        | some r =>
          rw [Option.map_some, Option.bind_some, Option.bind_some]
          split_ifs
          · rfl
          · cases lib.cb <;> rfl
      · rfl
  · rfl

end ProtoConnection

namespace ProtoManager

variable {lib : ProtoLib CoypuRequest} {read : ℕ → Program (List CoypuRequest.Field × Bool)}
  {m : ProtoManager CoypuRequest} {op : ProtoOp}

/-- The requests that a step hands over. -/
def requestsOf {Req : Type} (r : ℤ × List (Dispatch Req)) : List Req := r.2.map Dispatch.request

/-- A step hands over what it would hand over if no request had been there before. -/
def HandsOwn (lib : ProtoLib CoypuRequest) (m : ProtoManager CoypuRequest) (op : ProtoOp) : Prop :=
  (m.step lib op).2.map requestsOf = (step lib { m with request := .empty } op).2.map requestsOf

/-- The message that is handed over carries all that the request has. -/
def Covers (lib : ProtoLib CoypuRequest) (read : ℕ → Program (List CoypuRequest.Field × Bool))
    (m : ProtoManager CoypuRequest) : ProtoOp → Prop
  | .read fd cb => ∀ con ∈ m.connections fd, ∀ message ∈ (con.receive cb).message lib read,
      ∀ fields ∈ message, m.request.Covered fields
  | .register _ | .unregister _ => True

instance : DecidablePred (m.Covers lib read)
  | .read _ _ => inferInstanceAs
    (Decidable (∀ con ∈ m.connections _, ∀ message ∈ _, ∀ fields ∈ message, _))
  | .register _ | .unregister _ => .isTrue trivial

theorem step_requests {fd : ℕ} {cb : Reader UInt8} {con : ProtoConnection}
    (hcon : m.connections fd = some con) :
    (m.step lib (.read fd cb)).2.map requestsOf
      = ((con.receive cb).message lib (lib.mergeFrom m.request)).map Option.toList := by
  rw [← ProtoConnection.process_requests fd, step]
  simp only [hcon, ProtoManager.read]
  cases (con.receive cb).process lib fd m.request with
  | none => rfl
  | some r => rfl

/-- A step hands over a request of its own bytes exactly if these carry all that the request before
has. -/
theorem handsOwn_iff (hlib : MergesFields lib.mergeFrom read) :
    m.HandsOwn lib op ↔ m.Covers lib read op := by
  cases op with
  | register fd =>
    rw [HandsOwn, step, step]
    exact iff_of_true (by cases m.connections fd <;> rfl) trivial
  | unregister fd =>
    rw [HandsOwn, step, step]
    exact iff_of_true (by cases m.connections fd <;> rfl) trivial
  | read fd cb =>
    rw [HandsOwn, Covers]
    cases hcon : m.connections fd with
    | none =>
      refine iff_of_true ?_ fun con hmem ↦ absurd hmem (by simp)
      rw [step, step]
      simp only [hcon]
    | some con =>
      have hmerges (request : CoypuRequest) : (con.receive cb).message lib (lib.mergeFrom request)
          = ((con.receive cb).message lib read).map (Option.map request.mergeAll) := by
        rw [funext (hlib request), ProtoConnection.message_map]
      rw [step_requests hcon, step_requests (m := { m with request := .empty }) hcon, hmerges,
        hmerges]
      cases hmessage : (con.receive cb).message lib read with
      | none => simp [hmessage]
      | some message =>
        cases message with
        | none => simp [hmessage]
        | some fields =>
          have hone (a b : CoypuRequest) : some [a] = some [b] ↔ a = b := by simp
          refine (hone _ _).trans ((m.request.mergeAll_eq_iff fields).trans ?_)
          simp [hmessage]

theorem steps_handsOwn_iff (hlib : MergesFields lib.mergeFrom read) {ops : List ProtoOp} :
    Run.Steps (step lib) (HandsOwn lib) m ops ↔ Run.Steps (step lib) (Covers lib read) m ops :=
  Run.steps_iff_of_invariant (P := fun _ ↦ True) (fun _ _ _ _ ↦ trivial)
    (fun _ _ _ ↦ handsOwn_iff hlib) trivial

end ProtoManager

/-! ## The wire format -/

/-- An integer, seven bits a byte. -/
def varint : List UInt8 → Option (ℕ × List UInt8)
  | [] => none
  | b :: bs =>
    if b < 128 then some (b.toNat, bs) else (varint bs).map fun q ↦ (b.toNat - 128 + 128 * q.1, q.2)

inductive WireValue where
  | varint (n : ℕ)
  | bytes (l : List UInt8)
  | fixed (l : List UInt8)

/-- The first `n` bytes, and those behind them. -/
def splitBytes (n : ℕ) (l : List UInt8) : Option (List UInt8 × List UInt8) :=
  if n ≤ l.length then some (l.take n, l.drop n) else none

/-- A field: its number, and a value as its type says. Groups are refused. -/
def wireField (l : List UInt8) : Option ((ℕ × WireValue) × List UInt8) :=
  (varint l).bind fun tag ↦
    match tag.1 % 8 with
    | 0 => (varint tag.2).map fun q ↦ ((tag.1 / 8, .varint q.1), q.2)
    | 1 => (splitBytes 8 tag.2).map fun q ↦ ((tag.1 / 8, .fixed q.1), q.2)
    | 2 => (varint tag.2).bind fun n ↦ (splitBytes n.1 n.2).map fun q ↦
      ((tag.1 / 8, .bytes q.1), q.2)
    | 5 => (splitBytes 4 tag.2).map fun q ↦ ((tag.1 / 8, .fixed q.1), q.2)
    | _ => none

/-- The fields of a message up to an error, and whether there is none. -/
def wireFields : ℕ → List UInt8 → List (ℕ × WireValue) × Bool
  | _, [] => ([], true)
  | 0, _ :: _ => ([], false)
  | fuel + 1, b :: bs =>
    match wireField (b :: bs) with
    | none => ([], false)
    | some (field, rest) => (field :: (wireFields fuel rest).1, (wireFields fuel rest).2)

/-- A field of a snapshot. Fields of other numbers are skipped. -/
def BookSnapshot.Field.ofWire : ℕ × WireValue → Option BookSnapshot.Field
  | (1, .bytes l) => some (.key l)
  | (2, .varint n) => some (.source (n % 2 ^ 32))
  | (3, .varint n) => some (.levels (n % 2 ^ 32))
  | _ => none

def CoypuRequest.Field.ofWire : ℕ × WireValue → Option CoypuRequest.Field
  | (1, .varint n) => some (.type (CInt.toInt n))
  | (2, .bytes l) => some (.snap ((wireFields l.length l).1.filterMap BookSnapshot.Field.ofWire))
  | _ => none

/-- The fields of a request up to an error, and whether there is none. -/
def wireRequest (l : List UInt8) : List CoypuRequest.Field × Bool :=
  ((wireFields l.length l).1.filterMap CoypuRequest.Field.ofWire, (wireFields l.length l).2)

/-- Reads the fields of a request. -/
def readRequest (n : ℕ) : Program (List CoypuRequest.Field × Bool) :=
  (ZeroCopy.take n).map wireRequest

/-- The decoder of requests. The callback does nothing. -/
def ProtoLib.wire : ProtoLib CoypuRequest where
  asserts := true
  mergeFrom request n := (readRequest n).map fun q ↦ (request.mergeAll q.1, q.2)
  cb := some fun _ request ↦ request

theorem ProtoLib.wire_merges : MergesFields wire.mergeFrom readRequest := fun _ _ ↦ rfl

end Coypu
