import Coypu.Buf.DirectWrites

/-!
# The stream that protobuf writes to

`BufZeroCopyOutputStream` hands protobuf the free cells of a buffer. It counts what it hands out,
and what it takes back if the buffer takes it back, so that its count is the number of items it has
put there.
-/

set_option autoImplicit false

namespace Coypu

open FlatMemory

/-- `BufZeroCopyOutputStream` over a buffer. -/
structure BufZeroCopyOutputStream (T : CapacityType) (α : Type*) where
  buf : BipBuf T α
  byteCount : ℤ

/-- The calls of a stream. The caller of `Next` fills the first cells of what it gets. -/
inductive OutCall (α : Type*) where
  | next (caller : Filler α)
  | backUp (count : ℕ)

namespace BufZeroCopyOutputStream

variable {T : CapacityType} {α : Type*} (t : BufZeroCopyOutputStream T α)

/-- `Next`. -/
def next : Option Region × BufZeroCopyOutputStream T α :=
  let o := t.buf.pushDirect
  match o.ret with
  | none => (none, { t with buf := o.buf })
  | some r => (some r, ⟨o.buf, t.byteCount + r.len⟩)

/-- `BackUp`. -/
def backUp (count : ℕ) : BufZeroCopyOutputStream T α :=
  let o := t.buf.backupDirect count
  ⟨o.buf, if o.ret then t.byteCount - count else t.byteCount⟩

/-- The caller stores items in the region it got. -/
def poke (start : ℕ) (k : List α) : BufZeroCopyOutputStream T α :=
  { t with buf := t.buf.poke start k }

/-- A call of a caller that fills what it gets. -/
def step (t : BufZeroCopyOutputStream T α) : OutCall α → BufZeroCopyOutputStream T α × Unit
  | .next caller =>
    (match t.next.1 with
      | none => t.next.2
      | some r => t.next.2.poke r.start (caller.run r.len), ())
  | .backUp count => (t.backUp count, ())

/-- Not more is given back than was handed out, as protobuf promises. -/
def InContract (t : BufZeroCopyOutputStream T α) : OutCall α → Prop
  | .next _ => True
  | .backUp count => (count : ℤ) ≤ t.byteCount

/-- The count is the number of items that the stream has put behind those of `l`. -/
def Counts (l : List α) (t : BufZeroCopyOutputStream T α) : Prop :=
  t.byteCount = (t.buf.contents.length : ℤ) - l.length

/-- The stream has put `byteCount` items behind those of `l`. -/
def Keeps (l : List α) (t : BufZeroCopyOutputStream T α) : Prop :=
  ∃ kept, t.buf.contents = l ++ kept ∧ t.byteCount = kept.length

variable {t} {l : List α}

theorem step_next (h : t.buf.Wf) (hf : t.buf.full = false) (caller : Filler α) :
    ∃ k, (t.step (.next caller)).1.buf.Rep (t.buf.contents ++ k) ∧ k.length = t.buf.freeRun ∧
      (t.step (.next caller)).1.byteCount = t.byteCount + t.buf.freeRun ∧
        (t.step (.next caller)).1.buf.Wf := by
  have hrep := BipBuf.pushDirect_poke_rep h h.rep hf (caller.length_le t.buf.freeRun)
  have hstep : (t.step (.next caller)).1
      = ⟨t.buf.pushDirect.buf.poke t.buf.head (caller.run t.buf.freeRun),
        t.byteCount + t.buf.freeRun⟩ := by
    simp only [step, next, BipBuf.pushDirect_ret hf, poke]
  rw [hstep]
  exact ⟨_, hrep, BipBuf.length_padded (caller.length_le _), rfl,
    (BipBuf.pushDirect_keeping h).wf.poke _ _⟩

theorem step_next_of_full (hf : t.buf.full = true) (caller : Filler α) :
    (t.step (.next caller)).1 = t := by
  have hfull : t.buf.pushDirect = ⟨none, t.buf, [], []⟩ := by rw [BipBuf.pushDirect, if_pos hf]
  simp only [step, next, hfull]

theorem step_backUp (h : t.buf.Wf) {n : ℕ} (hn : n ≤ t.buf.contents.length) :
    (t.step (.backUp n)).1.buf.Rep (t.buf.contents.take (t.buf.contents.length - n)) ∧
      (t.step (.backUp n)).1.byteCount = t.byteCount - n := by
  obtain ⟨hret, hrep⟩ := BipBuf.backupDirect_rep h.rep h.tail_lt hn
  refine ⟨hrep, ?_⟩
  simp only [step, backUp, hret, if_true]

theorem step_backUp_of_lt (h : t.buf.Wf) {n : ℕ} (hn : t.buf.contents.length < n) :
    (t.step (.backUp n)).1 = t := by
  have hav := h.rep.available_eq
  have hback : t.buf.backupDirect n = ⟨false, t.buf, [], []⟩ := by
    rw [BipBuf.backupDirect, if_neg (by omega), if_pos (by omega)]
  simp only [step, backUp, hback]
  rfl

theorem step_wf (h : t.buf.Wf) (call : OutCall α) : (t.step call).1.buf.Wf := by
  cases call with
  | next caller =>
    by_cases hf : t.buf.full = true
    · rwa [step_next_of_full hf]
    · obtain ⟨-, -, -, -, hwf⟩ := step_next h (Bool.eq_false_iff.mpr hf) caller
      exact hwf
  | backUp count => exact (BipBuf.backupDirect_keeping h count).wf

theorem Counts.step (h : t.buf.Wf) (hcounts : Counts l t) (call : OutCall α) :
    Counts l (t.step call).1 := by
  unfold Counts at hcounts ⊢
  cases call with
  | next caller =>
    by_cases hf : t.buf.full = true
    · rwa [step_next_of_full hf]
    · obtain ⟨k, hrep, hlen, hcount, -⟩ := step_next h (Bool.eq_false_iff.mpr hf) caller
      rw [hrep.contents_eq, hcount, List.length_append]
      omega
  | backUp n =>
    rcases Nat.lt_or_ge t.buf.contents.length n with hlt | hle
    · rwa [step_backUp_of_lt h hlt]
    · obtain ⟨hrep, hcount⟩ := step_backUp h hle
      rw [hrep.contents_eq, hcount, List.length_take]
      omega

/-- The items of `l` stay in front, as long as the stream is not asked to give back more than it
has. -/
theorem Keeps.step (h : t.buf.Wf) (hkeeps : Keeps l t) {call : OutCall α}
    (hcall : t.InContract call) : Keeps l (t.step call).1 := by
  obtain ⟨kept, hcontents, hcount⟩ := hkeeps
  cases call with
  | next caller =>
    by_cases hf : t.buf.full = true
    · rw [step_next_of_full hf]
      exact ⟨kept, hcontents, hcount⟩
    · obtain ⟨k, hrep, hlen, hcount', -⟩ := step_next h (Bool.eq_false_iff.mpr hf) caller
      refine ⟨kept ++ k, by rw [hrep.contents_eq, hcontents, List.append_assoc], ?_⟩
      rw [hcount', hcount, List.length_append]
      omega
  | backUp n =>
    have hn : (n : ℤ) ≤ t.byteCount := hcall
    have hlen := congrArg List.length hcontents
    rw [List.length_append] at hlen
    obtain ⟨hrep, hcount'⟩ := step_backUp h (n := n) (by omega)
    refine ⟨kept.take (kept.length - n), ?_, ?_⟩
    · have htake : t.buf.contents.length - n = l.length + (kept.length - n) := by omega
      rw [hrep.contents_eq, htake, hcontents, List.take_length_add_append]
    · rw [hcount', hcount, List.length_take]
      omega

/-! ## Writing a list -/

/-- A list is written to the stream. The writer asks for cells as long as there are items left,
fails where it gets none, and gives back the cells it does not need. The last condition on `hl`
leaves open whether it asks for more when the items end with the cells. -/
inductive Writes : BufZeroCopyOutputStream T α → List α → Bool → BufZeroCopyOutputStream T α →
    Prop where
  | done (t : BufZeroCopyOutputStream T α) : Writes t [] true t
  | refused {t : BufZeroCopyOutputStream T α} {l : List α} (h : t.next.1 = none) (hl : l ≠ []) :
      Writes t l false t.next.2
  | last {t : BufZeroCopyOutputStream T α} {l : List α} {r : Region} (h : t.next.1 = some r)
      (hl : l.length ≤ r.len) : Writes t l true
        ((t.next.2.poke r.start l).backUp (r.len - l.length))
  | more {t t' : BufZeroCopyOutputStream T α} {l : List α} {ok : Bool} {r : Region}
      (h : t.next.1 = some r) (hl : r.len ≤ l.length)
      (hrest : Writes (t.next.2.poke r.start (l.take r.len)) (l.drop r.len) ok t') :
      Writes t l ok t'

theorem next_of_not_full (hf : t.buf.full = false) :
    t.next = (some ⟨t.buf.head, t.buf.freeRun⟩,
      ⟨t.buf.pushDirect.buf, t.byteCount + t.buf.freeRun⟩) := by
  simp only [next, BipBuf.pushDirect_ret hf]

theorem next_of_full (hf : t.buf.full = true) : t.next = (none, t) := by
  have hfull : t.buf.pushDirect = ⟨none, t.buf, [], []⟩ := by rw [BipBuf.pushDirect, if_pos hf]
  simp only [next, hfull]

theorem of_next {r : Region} (h : t.next.1 = some r) :
    t.buf.full = false ∧ r = ⟨t.buf.head, t.buf.freeRun⟩ := by
  by_cases hf : t.buf.full = true
  · rw [next_of_full hf] at h
    exact absurd h (by simp)
  · have hf' := Bool.eq_false_iff.mpr hf
    rw [next_of_not_full hf'] at h
    exact ⟨hf', (Option.some.inj h).symm⟩

theorem freeRun_le_free (h : t.buf.Wf) (hf : t.buf.full = false) : t.buf.freeRun ≤ t.buf.free := by
  obtain ⟨-, -, hroom⟩ := BipBuf.freeRun_le h hf
  rw [BipBuf.free]
  omega

/-- The items are put behind those there are, as far as there is room for them. -/
theorem Writes.contents {t' : BufZeroCopyOutputStream T α} {ok : Bool} (hwrites : Writes t l ok t')
    (h : t.buf.Wf) :
    t'.buf.Wf ∧ t'.buf.contents = t.buf.contents ++ l.take t.buf.free ∧
      (ok = true ↔ l.length ≤ t.buf.free) := by
  induction hwrites with
  | done t =>
    exact ⟨h, by rw [List.take_nil, List.append_nil], iff_of_true rfl (Nat.zero_le _)⟩
  | @refused t l hnext hl =>
    have hf : t.buf.full = true := by
      by_contra hf
      rw [next_of_not_full (Bool.eq_false_iff.mpr hf)] at hnext
      exact absurd hnext (by simp)
    have hfree : t.buf.free = 0 := by rw [h.rep.free_eq, (h.rep.of_full hf).2, Nat.sub_self]
    rw [next_of_full hf, hfree, List.take_zero, List.append_nil]
    refine ⟨h, rfl, iff_of_false Bool.false_ne_true fun hle ↦ hl ?_⟩
    exact List.length_eq_zero_iff.mp (Nat.le_zero.mp hle)
  | @last t l r hnext hl =>
    obtain ⟨hf, rfl⟩ := of_next hnext
    have hfree := freeRun_le_free h hf
    obtain ⟨-, hrep, hwf⟩ := BipBuf.fill_exact h h.rep hf hl
    have hle : l.length ≤ t.buf.free := Nat.le_trans hl hfree
    rw [next_of_not_full hf, List.take_of_length_le hle]
    exact ⟨hwf, hrep.contents_eq, iff_of_true rfl hle⟩
  | @more t t' l ok r hnext hl hrest ih =>
    obtain ⟨hf, rfl⟩ := of_next hnext
    have hfree := freeRun_le_free h hf
    have hlen : (l.take t.buf.freeRun).length = t.buf.freeRun := List.length_take_of_le hl
    have hrep := BipBuf.pushDirect_rep h h.rep hf hlen
    have hkeeping := BipBuf.pushDirect_keeping h
    rw [next_of_not_full hf] at ih
    obtain ⟨hwf, hcontents, hok⟩ := ih (hkeeping.wf.poke _ _)
    -- behind the region there are as many free cells less
    have hrest' : (t.buf.pushDirect.buf.poke t.buf.head (l.take t.buf.freeRun)).free
        = t.buf.free - t.buf.freeRun := by
      have hcap : (t.buf.pushDirect.buf.poke t.buf.head (l.take t.buf.freeRun)).capacity
        = t.buf.capacity :=
        hkeeping.capacity_eq
      rw [hrep.free_eq, hcap, h.rep.free_eq, List.length_append, hlen, Nat.sub_add_eq]
    simp only [poke, hrep.contents_eq, hrest', List.length_drop] at hcontents hok
    refine ⟨hwf, ?_, hok.trans (by omega)⟩
    rw [hcontents, List.append_assoc, ← List.take_add, Nat.add_sub_cancel' hfree]

end BufZeroCopyOutputStream

/-- **Writing without a copy is exact.** A well-formed buffer that is not full hands out free cells
behind its items, and keeps what is filled of them. Filled in this way any number of times and
drained by `pop`, it is a queue. A stream over it counts the items it has put there after each of
its calls; they are behind those that were there before, if it is never asked to give back more than
it has handed out. -/
theorem run_writes_exact {T : CapacityType} {α : Type*} {b : BipBuf T α} (h : b.Wf) :
    (b.full = false → b.FillsExactly) ∧
      (∀ ops : List (FillOp α),
        b.contents ++ (Run.run BipBuf.fillStep b ops).2.flatMap Moved.added
          = (Run.run BipBuf.fillStep b ops).2.flatMap Moved.removed
            ++ (Run.run BipBuf.fillStep b ops).1.contents) ∧
      ∀ calls : List (OutCall α),
        Run.Throughout BufZeroCopyOutputStream.step (BufZeroCopyOutputStream.Counts b.contents)
          ⟨b, 0⟩ calls ∧
          (Run.Steps BufZeroCopyOutputStream.step BufZeroCopyOutputStream.InContract ⟨b, 0⟩ calls →
            Run.Throughout BufZeroCopyOutputStream.step (BufZeroCopyOutputStream.Keeps b.contents)
              ⟨b, 0⟩ calls) := by
  refine ⟨BipBuf.fillsExactly h, BipBuf.run_fill_fifo h, fun calls ↦ ⟨?_, fun hcalls ↦ ?_⟩⟩
  · have hinv : Run.Throughout BufZeroCopyOutputStream.step
        (fun t ↦ t.buf.Wf ∧ BufZeroCopyOutputStream.Counts b.contents t) ⟨b, 0⟩ calls :=
      Run.Throughout.of_step (fun t call ht _ ↦ ⟨BufZeroCopyOutputStream.step_wf ht.1 call,
        ht.2.step ht.1 call⟩)
        ⟨h, (Int.sub_self _).symm⟩ (Run.steps_true _ calls)
    exact hinv.mono fun _ ht ↦ ht.2
  · have hinv : Run.Throughout BufZeroCopyOutputStream.step
        (fun t ↦ t.buf.Wf ∧ BufZeroCopyOutputStream.Keeps b.contents t) ⟨b, 0⟩ calls :=
      Run.Throughout.of_step (fun t call ht hc ↦ ⟨BufZeroCopyOutputStream.step_wf ht.1 call,
        ht.2.step ht.1 hc⟩)
        ⟨h, [], (List.append_nil _).symm, rfl⟩ hcalls
    exact hinv.mono fun _ ht ↦ ht.2

/-- A buffer of four whose items go around the end: one of the two free cells is filled, the other
given back. -/
theorem run_writes_exact_wrapped :
    let b : BipBuf .int ℕ := ⟨1, 3, id, 4, false, by decide, by decide⟩
    b.FillsExactly ∧ Run.Throughout BufZeroCopyOutputStream.step
      (BufZeroCopyOutputStream.Keeps b.contents) ⟨b, 0⟩
        [.next ⟨fun n ↦ [7].take n, fun n ↦ by rw [List.length_take]; omega⟩, .backUp 1] := by
  intro b
  have h := run_writes_exact (b := b) ⟨by decide, by decide, fun hf ↦ absurd hf Bool.false_ne_true⟩
  exact ⟨h.1 rfl, (h.2.2 _).2 ⟨trivial, show (1 : ℤ) ≤ 2 by decide, trivial⟩⟩

end Coypu
