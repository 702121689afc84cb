import Coypu.Buf.Fill
import Coypu.Library.Run

/-!
# Draining to a socket

`write` and `writev` hand the oldest items to a callback and step over what it took. Both move the
tail as a removal does, so the lemmas about removals apply. `writev` hands over all items, in two
runs if they go around the end of the array; but it gets the length of a run that ends with the
array from `_tail - _capacity`, and it keeps the distance to the end in an `int`. `WritevFits` says
when neither matters.
-/

set_option autoImplicit false

namespace Coypu

open FlatMemory Transport

variable {T : CapacityType} {α : Type*}

/-- The operations of a buffer between pushes and a socket. -/
inductive FlowOp (α : Type*) where
  | push (indata : α)
  | pushBlock (indata : Option (ℕ → α)) (size : ℕ)
  | write (cb : Writer)
  | writev (cb : Writer)

/-- What a step took in and what it gave out. -/
structure Flow (α : Type*) where
  pushed : List α
  emitted : List α

namespace BipBuf

variable {b : BipBuf T α} {l : List α}

/-- The callback takes as many of the cells offered to it as it says. -/
def accepted (b : BipBuf T α) (o : Outcome T α ℤ) : List α :=
  (gather b.data o.loads).take o.ret.toNat

def flowStep (b : BipBuf T α) : FlowOp α → BipBuf T α × Flow α
  | .push x => ((b.push x).buf, ⟨if (b.push x).ret then [x] else [], []⟩)
  | .pushBlock p n =>
    ((b.pushBlock p n).buf,
      ⟨if (b.pushBlock p n).ret then p.elim [] fun p ↦ load p 0 n else [], []⟩)
  | .write cb => ((b.write cb).buf, ⟨[], b.accepted (b.write cb)⟩)
  | .writev cb => ((b.writev cb).buf, ⟨[], b.accepted (b.writev cb)⟩)

/-- A `writev` hands over all items in order and leaves those that were not taken. The other steps
add their items behind the others or take some of the oldest. -/
def Lossless (b : BipBuf T α) : FlowOp α → Prop
  | .writev cb => gather b.data (b.writev cb).loads = b.contents ∧
      ((b.writev cb).loads.map Region.len).sum = b.available ∧
      (b.writev cb).buf.contents = b.contents.drop (b.writev cb).ret.toNat
  | op => b.contents ++ (b.flowStep op).2.pushed
      = (b.flowStep op).2.emitted ++ (b.flowStep op).1.contents

/-- The states in which `writev` gets its lengths right: the items end before the end of the array;
or they go around it and the distance to the end is an `int`; or, by accident, they end with the
array and the negated length is the length itself. -/
def LengthsFit (b : BipBuf T α) : Prop :=
  b.tail < b.head ∨ (0 < b.head ∧ b.capacity - b.tail < 2 ^ 31) ∨
    (b.head = 0 ∧ T = .uint32 ∧ b.capacity - b.tail = 2 ^ 31)

/-- A `writev` of items starts in such a state. -/
def WritevFits (b : BipBuf T α) : FlowOp α → Prop
  | .writev _ => 0 < b.available → b.LengthsFit
  | _ => True

/-! ## Moving the tail -/

theorem Rep.congr {b' : BipBuf T α} (h : b.Rep l) (hhead : b'.head = b.head)
    (htail : b'.tail = b.tail) (hcap : b'.capacity = b.capacity) (hdata : b'.data = b.data)
    (hfull : b'.full = b.full) : b'.Rep l where
  toLayout := h.toLayout.congr hhead htail hcap hdata
  full_iff := by rw [hfull, hhead, htail, hcap, h.full_iff]
  head_pos := by rw [htail, hcap, hhead]; exact h.head_pos

theorem tail_removed_linear (hw : ¬(b.head < b.tail ∨ b.full = true)) (n : ℕ) :
    (b.afterFirst n).tail + (n - b.firstPart n) = b.tail + n := by
  have hx : b.firstPart n = 0 := if_neg hw
  rw [afterFirst, if_neg hw, hx, clearFull_tail, Nat.sub_zero]

theorem tail_removed_wrapped (h : b.tail ≤ b.capacity) (hw : b.head < b.tail ∨ b.full = true)
    (n : ℕ) :
    (b.afterFirst n).tail + (n - b.firstPart n)
      = if b.capacity ≤ b.tail + n then b.tail + n - b.capacity else b.tail + n := by
  have hx : b.firstPart n = min n (b.capacity - b.tail) := if_pos hw
  rw [afterFirst, if_pos hw, hx, clearFull_tail, wrapTail_tail, advance_tail, advance_capacity]
  split_ifs <;> omega

theorem Wf.drained (h : b.Wf) (v : List Region) {ret : ℤ} (move : ℤ → ℕ) (hle : ret ≤ b.available)
    (hmove : 0 < ret → (if move ret = b.capacity then 0 else move ret)
      = (b.afterFirst ret.toNat).tail + (ret.toNat - b.firstPart ret.toNat)) :
    (b.drained v ret move).buf.Wf ∧
      (b.drained v ret move).buf.contents = b.contents.drop ret.toNat := by
  have havail := h.rep.available_eq
  have htail := h.tail_lt
  rw [BipBuf.drained]
  by_cases hpos : 0 < ret
  · simp only [if_pos hpos]
    have hn : ret.toNat ≤ b.contents.length := by omega
    have hrep := h.rep.consumed (n := ret.toNat) (by omega) hn
    have hbounded := h.rep.consumed_bounded hn h.bounded
    have hmoved : ({ b with tail := move ret } : BipBuf T α).wrapTail.clearFull.tail
        = ((b.afterFirst ret.toNat).advance (ret.toNat - b.firstPart ret.toNat)).tail := by
      rw [clearFull_tail, wrapTail_tail, advance_tail, ← hmove hpos]
    have hrep' : ({ b with tail := move ret } : BipBuf T α).wrapTail.clearFull.Rep
        (b.contents.drop ret.toNat) := by
      refine hrep.congr ?_ hmoved ?_ ?_ rfl
      · simp
      · simp
      · simp [afterFirst_data, advance]
    refine ⟨hrep'.wf ⟨?_, ?_⟩, hrep'.contents_eq⟩
    · simpa using h.head_lt
    · rw [hmoved]
      simpa using hbounded.2
  · have hself : b.wrapTail = b := if_neg (by omega)
    simp only [if_neg hpos, hself]
    rw [Int.toNat_of_nonpos (by omega), List.drop_zero]
    exact ⟨h, rfl⟩

/-- The two shapes of a buffer that is not empty: one run, or two around the end of the array. -/
theorem Wf.contents_cases (h : b.Wf) (hav : b.available ≠ 0) :
    (b.tail < b.head ∧ ¬(b.head < b.tail ∨ b.full = true) ∧
      b.contents = load b.data b.tail (b.head - b.tail)) ∨
    (b.head ≤ b.tail ∧ (b.head < b.tail ∨ b.full = true) ∧
      b.contents = load b.data b.tail (b.capacity - b.tail) ++ load b.data 0 b.head) := by
  by_cases hw : b.head < b.tail ∨ b.full = true
  · right
    refine ⟨hw.elim Nat.le_of_lt fun hf ↦ Nat.le_of_eq (h.full_eq hf), hw, ?_⟩
    exact contents_of_wrapped hw.symm
  · left
    rw [not_or, Nat.not_lt] at hw
    refine ⟨?_, by rwa [not_or, Nat.not_lt], contents_of_linear hw.2 hw.1⟩
    rw [available, if_neg hw.2, if_pos hw.1] at hav
    omega

theorem Wf.write (h : b.Wf) (cb : Writer) :
    (b.write cb).buf.Wf ∧ b.contents = b.accepted (b.write cb) ++ (b.write cb).buf.contents := by
  rw [BipBuf.write]
  by_cases hav : b.available = 0
  · rw [if_pos hav]
    exact ⟨h, rfl⟩
  rw [if_neg hav]
  have havail := h.rep.available_eq
  have hhead := h.head_lt
  have htail := h.tail_lt
  rcases h.contents_cases hav with ⟨hlt, hw, hcont⟩ | ⟨hle, hw, hcont⟩
  · have hlen := congrArg List.length hcont
    rw [length_load] at hlen
    simp only [if_pos hlt]
    have hrun := cb.run_le [b.head - b.tail]
    rw [List.sum_singleton] at hrun
    obtain ⟨hwf, hdrop⟩ := h.drained [⟨b.tail, b.head - b.tail⟩]
      (fun ret ↦ T.ofInt (b.tail + ret)) (by omega : cb.run [b.head - b.tail] ≤ b.available)
      fun hpos ↦ by
        have hadd := ofInt_add_int (b := b) (m := b.tail) (Int.le_of_lt hpos) (by omega)
        rw [tail_removed_linear hw]
        split_ifs <;> omega
    refine ⟨hwf, ?_⟩
    rw [hdrop, accepted, BipBuf.drained, gather_cons, gather_nil, List.append_nil, ← hcont,
      List.take_append_drop]
  -- only the items up to the end of the array are offered
  · have hlen := congrArg List.length hcont
    rw [List.length_append, length_load, length_load] at hlen
    simp only [if_neg (Nat.not_lt.mpr hle)]
    have hrun := cb.run_le [b.capacity - b.tail]
    rw [List.sum_singleton] at hrun
    obtain ⟨hwf, hdrop⟩ := h.drained [⟨b.tail, b.capacity - b.tail⟩]
      (fun ret ↦ T.ofInt (b.tail + ret)) (by omega : cb.run [b.capacity - b.tail] ≤ b.available)
      fun hpos ↦ by
        have hadd := ofInt_add_int (b := b) (m := b.tail) (Int.le_of_lt hpos) (by omega)
        rw [tail_removed_wrapped (Nat.le_of_lt htail) hw]
        split_ifs <;> omega
    refine ⟨hwf, ?_⟩
    have htake : (load b.data b.tail (b.capacity - b.tail)).take
        (cb.run [b.capacity - b.tail]).toNat
        = b.contents.take (cb.run [b.capacity - b.tail]).toNat := by
      rw [hcont, List.take_append_of_le_length (by rw [length_load]; omega)]
    rw [hdrop, accepted, BipBuf.drained, gather_cons, gather_nil, List.append_nil, htake,
      List.take_append_drop]

theorem writev_of_empty (h : b.available = 0) (cb : Writer) : b.writev cb = ⟨-2, b, [], []⟩ := by
  rw [writev, if_pos h]

theorem writev_loads (h : b.available ≠ 0) (cb : Writer) :
    (b.writev cb).loads = b.writevRegions := by
  rw [writev, if_neg h]
  rfl

theorem writev_fits_of_gather (h : b.Wf) (hav : b.available ≠ 0)
    (hsum : (b.writevRegions.map Region.len).sum = b.available) : b.LengthsFit := by
  have havail := h.rep.available_eq
  have hbound := b.capacity_lt
  have hsize := T.bound_le_size
  have htail := h.tail_lt
  rcases h.contents_cases hav with ⟨hlt, -, -⟩ | ⟨hle, -, hcont⟩
  · exact Or.inl hlt
  right
  have hlen := congrArg List.length hcont
  rw [List.length_append, length_load, length_load] at hlen
  by_cases hpos : 0 < b.head
  · left
    refine ⟨hpos, ?_⟩
    have hx₁ := CInt.toInt_lt (b.capacity - b.tail : ℕ)
    have hx₂ := CInt.le_toInt (b.capacity - b.tail : ℕ)
    rw [writevRegions, if_neg (by omega), if_pos hpos] at hsum
    simp only [List.map_cons, List.map_nil, List.sum_cons, List.sum_nil, CInt.toUnsigned] at hsum
    omega
  · right
    rw [writevRegions, if_neg (by omega), if_neg hpos] at hsum
    simp only [List.map_cons, List.map_nil, List.sum_cons, List.sum_nil] at hsum
    refine ⟨by omega, ?_⟩
    cases T <;> simp only [CapacityType.subSize, CInt.toUnsigned, CapacityType.bound] at hsum hbound
    · omega
    · exact ⟨rfl, by omega⟩
    · omega

/-- Where `writev` puts the tail. -/
def writevMove (b : BipBuf T α) (ret : ℤ) : ℕ :=
  if b.tail < b.head then T.ofInt (b.tail + ret)
  else if 0 < b.head ∧ CInt.toInt (b.capacity - b.tail : ℕ) < ret then
    T.ofInt (CInt.toInt (ret - CInt.toInt (b.capacity - b.tail : ℕ)))
  else T.ofInt (b.tail + ret)

theorem writev_eq (hav : b.available ≠ 0) (cb : Writer) :
    b.writev cb
      = b.drained b.writevRegions (cb.run (b.writevRegions.map Region.len)) b.writevMove := by
  rw [writev, if_neg hav]
  rfl

theorem drained_capacity (v : List Region) (ret : ℤ) (move : ℤ → ℕ) :
    (b.drained v ret move).buf.capacity = b.capacity := by
  unfold BipBuf.drained
  split_ifs <;> simp

theorem writev_capacity (cb : Writer) : (b.writev cb).buf.capacity = b.capacity := by
  by_cases hav : b.available = 0
  · rw [writev_of_empty hav]
  · rw [writev_eq hav, drained_capacity]

theorem Wf.gather_writev (h : b.Wf) (hav : b.available ≠ 0) (hfits : b.LengthsFit) :
    gather b.data b.writevRegions = b.contents ∧
      (b.writevRegions.map Region.len).sum = b.contents.length := by
  unfold LengthsFit at hfits
  rcases h.contents_cases hav with ⟨hlt, hw, hcont⟩ | ⟨hle, hw, hcont⟩
  · rw [writevRegions, if_pos hlt, hcont]
    simp
  by_cases hpos : 0 < b.head
  · have hx : CInt.toInt (b.capacity - b.tail : ℕ) = (b.capacity - b.tail : ℕ) :=
      CInt.toInt_of_mem (by omega) (by omega)
    have hsize : CInt.toUnsigned 64 (b.capacity - b.tail : ℕ) = b.capacity - b.tail :=
      CInt.toUnsigned_natCast (by omega)
    rw [writevRegions, if_neg (by omega), if_pos hpos, hx, hsize, hcont]
    simp
  · rcases hfits with hlt | ⟨hpos', -⟩ | ⟨h0, rfl, hdist⟩
    · omega
    · omega
    have hsub : CapacityType.uint32.subSize b.tail b.capacity = b.capacity - b.tail := by
      have htail := h.tail_lt
      rw [CapacityType.subSize, CInt.toUnsigned]
      omega
    rw [writevRegions, if_neg (by omega), if_neg hpos, hsub, hcont, h0]
    simp

theorem Wf.writevMove (h : b.Wf) (hav : b.available ≠ 0) (hfits : b.LengthsFit) {ret : ℤ}
    (hpos : 0 < ret) (hle : ret ≤ b.contents.length) (hint : ret < 2 ^ 31) :
    (if b.writevMove ret = b.capacity then 0 else b.writevMove ret)
      = (b.afterFirst ret.toNat).tail + (ret.toNat - b.firstPart ret.toNat) := by
  have hhead := h.head_lt
  have htail := h.tail_lt
  have hadd := ofInt_add_int (b := b) (m := b.tail) (Int.le_of_lt hpos)
  unfold LengthsFit at hfits
  rcases h.contents_cases hav with ⟨hlt, hw, hcont⟩ | ⟨hge, hw, hcont⟩
  · have hlen := congrArg List.length hcont
    rw [length_load] at hlen
    have hadd' := hadd (by omega)
    have hval : b.writevMove ret = T.ofInt (b.tail + ret) := if_pos hlt
    rw [tail_removed_linear hw, hval]
    split_ifs <;> omega
  have hlen := congrArg List.length hcont
  rw [List.length_append, length_load, length_load] at hlen
  rw [tail_removed_wrapped (Nat.le_of_lt htail) hw]
  by_cases hlt : ret ≤ (b.capacity - b.tail : ℕ)
  · have hadd' := hadd (by omega)
    have hval : b.writevMove ret = T.ofInt (b.tail + ret) := by
      rw [BipBuf.writevMove, if_neg (by omega), if_neg]
      rintro ⟨hpos', hx⟩
      rw [CInt.toInt_of_mem (by omega) (by omega)] at hx
      omega
    rw [hval]
    split_ifs <;> omega
  · have hx : CInt.toInt (b.capacity - b.tail : ℕ) = (b.capacity - b.tail : ℕ) :=
      CInt.toInt_of_mem (by omega) (by omega)
    have hdiff : CInt.toInt (ret - (b.capacity - b.tail : ℕ)) = ret - (b.capacity - b.tail : ℕ) :=
      CInt.toInt_of_mem (by omega) (by omega)
    have hmoved : (T.ofInt (ret - (b.capacity - b.tail : ℕ)) : ℤ)
        = ret - (b.capacity - b.tail : ℕ) := by
      simpa using ofInt_add_int (b := b) (m := 0) (i := ret - (b.capacity - b.tail : ℕ))
        (by omega) (by omega)
    have hval : b.writevMove ret = T.ofInt (ret - (b.capacity - b.tail : ℕ)) := by
      rw [BipBuf.writevMove, if_neg (by omega), hx, if_pos (by omega), hdiff]
    rw [hval]
    split_ifs <;> omega

/-- Where its lengths are right, `writev` hands over exactly the items and drops what was taken. -/
theorem Wf.writev (h : b.Wf) (cb : Writer) (hfits : b.WritevFits (.writev cb)) :
    (b.writev cb).buf.Wf ∧ gather b.data (b.writev cb).loads = b.contents ∧
      ((b.writev cb).loads.map Region.len).sum = b.available ∧
      (b.writev cb).buf.contents = b.contents.drop (b.writev cb).ret.toNat := by
  have havail := h.rep.available_eq
  by_cases hav : b.available = 0
  · have hnil : b.contents = [] := List.length_eq_zero_iff.mp (by omega)
    rw [writev_of_empty hav]
    exact ⟨h, hnil.symm, by simp [hav], rfl⟩
  have hfits' := hfits (by omega)
  obtain ⟨hgather, hsum⟩ := h.gather_writev hav hfits'
  have hint := cb.run_lt (b.writevRegions.map Region.len)
  have hrun := cb.run_le (b.writevRegions.map Region.len)
  rw [hsum] at hrun
  obtain ⟨hwf, hdrop⟩ := h.drained b.writevRegions b.writevMove (by omega) fun hpos ↦
    h.writevMove hav hfits' hpos hrun hint
  rw [writev_eq hav]
  exact ⟨hwf, hgather, hsum.trans havail.symm, hdrop⟩

/-- One step loses and invents nothing exactly if it is not a `writev` with a wrong length. -/
theorem Wf.lossless_iff (h : b.Wf) (op : FlowOp α) : b.Lossless op ↔ b.WritevFits op := by
  cases op with
  | push x =>
    have hpush := push_refines h.rep h.bounded x
    refine ⟨fun _ ↦ trivial, fun _ ↦ ?_⟩
    simp only [Lossless, flowStep, hpush.ret_eq, hpush.rep.contents_eq, decide_eq_true_eq,
      List.nil_append]
    split_ifs <;> simp
  | pushBlock p n =>
    refine ⟨fun _ ↦ trivial, fun _ ↦ ?_⟩
    cases p with
    | none => simp [Lossless, flowStep, pushBlock]
    | some p =>
      have hpush := pushBlock_refines h.rep h.bounded p n
      simp only [Lossless, flowStep, hpush.ret_eq, hpush.rep.contents_eq, decide_eq_true_eq,
        List.nil_append, Option.elim_some]
      split_ifs <;> simp
  | write cb =>
    refine ⟨fun _ ↦ trivial, fun _ ↦ ?_⟩
    simp only [Lossless, flowStep, List.append_nil]
    exact (h.write cb).2
  | writev cb =>
    refine ⟨fun hlossless hav ↦ ?_, fun hfits ↦ (h.writev cb hfits).2⟩
    have hav' : b.available ≠ 0 := by omega
    have hsum := hlossless.2.1
    rw [writev_loads hav'] at hsum
    exact writev_fits_of_gather h hav' hsum

theorem Wf.flowStep (h : b.Wf) {op : FlowOp α} (hfits : b.WritevFits op) :
    (b.flowStep op).1.Wf ∧
      b.contents ++ (b.flowStep op).2.pushed
        = (b.flowStep op).2.emitted ++ (b.flowStep op).1.contents := by
  have hlossless := (h.lossless_iff op).mpr hfits
  cases op with
  | push x =>
    have hpush := push_refines h.rep h.bounded x
    exact ⟨hpush.rep.wf (hpush.bounded h.bounded), hlossless⟩
  | pushBlock p n =>
    refine ⟨?_, hlossless⟩
    cases p with
    | none => exact h
    | some p =>
      have hpush := pushBlock_refines h.rep h.bounded p n
      exact hpush.rep.wf (hpush.bounded h.bounded)
  | write cb => exact ⟨(h.write cb).1, hlossless⟩
  | writev cb =>
    obtain ⟨hwf, hgather, -, hdrop⟩ := h.writev cb hfits
    refine ⟨hwf, ?_⟩
    simp only [BipBuf.flowStep, accepted, hgather, hdrop, List.append_nil, List.take_append_drop]

/-! ## Runs -/

/-- What a run took in and gave out. -/
def pushed (b : BipBuf T α) (ops : List (FlowOp α)) : List α :=
  (Run.run flowStep b ops).2.flatMap Flow.pushed

def emitted (b : BipBuf T α) (ops : List (FlowOp α)) : List α :=
  (Run.run flowStep b ops).2.flatMap Flow.emitted

theorem emitted_append_contents (data : ℕ → α) (c : Capacity T) {ops : List (FlowOp α)}
    (hfits : Run.Steps flowStep WritevFits (new data c) ops) :
    (new data c).emitted ops ++ (Run.run flowStep (new data c) ops).1.contents
      = (new data c).pushed ops := by
  have hrep := rep_new data c
  have hstep : ∀ (b : BipBuf T α) (op : FlowOp α), b.Wf → b.WritevFits op →
      (b.flowStep op).1.Wf ∧ b.contents ++ (b.flowStep op).2.pushed
        = (b.flowStep op).2.emitted ++ (b.flowStep op).1.contents :=
    fun b op hb hok ↦ hb.flowStep hok
  have hrun := Run.run_conserves hstep (hrep.wf (bounded_new data c)) hfits
  rw [hrep.contents_eq, List.nil_append] at hrun
  exact hrun.symm

/-- **Draining to a socket.** Every step of a run hands over, takes and leaves exactly the items it
should if and only if every `writev` of the run starts in a state that its lengths fit. Then what
was emitted and what is still buffered is what was pushed, and two such runs that pushed the same
items emitted the same ones, as far as both have come. -/
theorem run_lossless_iff (data : ℕ → α) (c : Capacity T) (ops : List (FlowOp α)) :
    (Run.Steps flowStep Lossless (new data c) ops
      ↔ Run.Steps flowStep WritevFits (new data c) ops) ∧
    (Run.Steps flowStep WritevFits (new data c) ops →
      (new data c).emitted ops ++ (Run.run flowStep (new data c) ops).1.contents
          = (new data c).pushed ops ∧
        ∀ ops', Run.Steps flowStep WritevFits (new data c) ops' →
          (new data c).pushed ops = (new data c).pushed ops' →
          (new data c).emitted ops <+: (new data c).emitted ops' ∨
            (new data c).emitted ops' <+: (new data c).emitted ops) := by
  have hnew : (new data c).Wf := (rep_new data c).wf (bounded_new data c)
  refine ⟨?_, fun hfits ↦ ⟨emitted_append_contents data c hfits, fun ops' hfits' heq ↦ ?_⟩⟩
  · exact Run.steps_iff_of_invariant (P := Wf) (fun b op hb hok ↦ (hb.flowStep hok).1)
      (fun b op hb ↦ hb.lossless_iff op) hnew
  · have h₁ := emitted_append_contents data c hfits
    have h₂ := emitted_append_contents data c hfits'
    exact List.prefix_or_prefix_of_prefix ⟨_, h₁⟩ (heq ▸ ⟨_, h₂⟩)

/-- Eight bytes in a buffer of eight lie in one run that ends with the array: `writev` offers
`2⁶⁴ - 8` bytes. -/
theorem not_lossless_of_full :
    ¬∀ ops, Run.Steps flowStep Lossless
      (new (fun _ ↦ (0 : ℕ)) (⟨8, by decide, by decide⟩ : Capacity .uint64)) ops := by
  intro h
  have hsteps := h [.pushBlock (some fun i ↦ i) 8, .writev (Writer.atMost 8 (by decide))]
  exact absurd hsteps.2.1.2.1 (by decide)

end BipBuf

end Coypu
