import Coypu.Buf.Fill
import Coypu.Library.Run

/-!
# The invariant under every mix of operations

Any order of pushes, removals, transfers and the operations that hand out or take back cells. Pushes
and writes wrap an index that reaches the capacity; `read` and `readv` do not. So the invariant is
kept by every step but the reads that fill the array to its end (`StopsShort`), and a `readv` whose
distance to the end is not an `int` offers cells the array does not have.
-/

set_option autoImplicit false

namespace Coypu

open FlatMemory Transport

variable {T : CapacityType} {α ρ : Type*}

inductive MixedOp (α : Type*) where
  | push (indata : α)
  | pushBlock (indata : Option (ℕ → α)) (size : ℕ)
  | pushDirect
  | backupDirect (count : ℕ)
  | pop (size : ℕ) (peek : Bool)
  | skip (size : ℕ)
  | read (cb : Reader α)
  | readv (cb : Reader α)
  | write (cb : Writer)
  | backup (count : ℕ)

namespace BipBuf

variable {b : BipBuf T α}

/-- An operation, its answer left out. -/
def mixed (b : BipBuf T α) : MixedOp α → Outcome T α Unit
  | .push x => (b.push x).map fun _ ↦ ()
  | .pushBlock p n => (b.pushBlock p n).map fun _ ↦ ()
  | .pushDirect => b.pushDirect.map fun _ ↦ ()
  | .backupDirect n => (b.backupDirect n).map fun _ ↦ ()
  | .pop n peek => (b.pop n peek).map fun _ ↦ ()
  | .skip n => (b.skip n).map fun _ ↦ ()
  | .read cb => (b.read cb).map fun _ ↦ ()
  | .readv cb => (b.readv cb).map fun _ ↦ ()
  | .write cb => (b.write cb).map fun _ ↦ ()
  | .backup n => (b.backup n).map fun _ ↦ ()

def mixedStep (b : BipBuf T α) (op : MixedOp α) : BipBuf T α × Unit :=
  ((b.mixed op).buf, (b.mixed op).ret)

/-- What the step leaves: both indices inside the array, a flag that is up exactly when every cell
is taken, and no store outside the array. -/
def Keeps (b : BipBuf T α) (op : MixedOp α) : Prop :=
  (b.mixedStep op).1.head < b.capacity ∧ (b.mixedStep op).1.tail < b.capacity ∧
    ((b.mixedStep op).1.full = true ↔ (b.mixedStep op).1.available = b.capacity) ∧
    ∀ r ∈ (b.mixed op).stores, r.Inside b.capacity

/-- The reads that do not fill the array to its end: `read` into the run behind the head, `readv`
into an array that is free from its beginning, and a `readv` into both runs that has an `int` to
tell how far the end is. -/
def StopsShort (b : BipBuf T α) : MixedOp α → Prop
  | .read cb => b.full = false → b.tail ≤ b.head →
      (cb.run [b.capacity - b.head]).ret ≠ (b.capacity - b.head : ℕ)
  | .readv cb => b.full = false → b.tail ≤ b.head →
      if b.head = 0 ∧ b.tail = 0 then (cb.run [b.capacity]).ret ≠ b.capacity
      else 0 ≤ CInt.toInt (b.capacity - b.head : ℕ)
  | _ => True

/-! ## One operation -/

/-- An outcome that keeps the invariant and stores inside the array. -/
structure Keeping (b : BipBuf T α) (o : Outcome T α ρ) : Prop where
  wf : o.buf.Wf
  capacity_eq : o.buf.capacity = b.capacity
  inside : ∀ r ∈ o.stores, r.Inside b.capacity

theorem Wf.full_iff (h : b.Wf) : b.full = true ↔ b.available = b.capacity := by
  obtain ⟨hhead, htail, -⟩ := h
  rw [available]
  split_ifs with hf hle
  · exact ⟨fun _ ↦ rfl, fun _ ↦ hf⟩
  · exact ⟨fun h ↦ absurd h hf, fun _ ↦ by omega⟩
  · exact ⟨fun h ↦ absurd h hf, fun _ ↦ by omega⟩

theorem Refines.keeping {o : Outcome T α ρ} {r : ρ} {l : List α} (h : b.Refines o r l) (hb : b.Wf) :
    b.Keeping o :=
  ⟨h.rep.wf (h.bounded hb.bounded), h.capacity_eq,
    fun g hg ↦ h.inside g (List.mem_append_right _ hg)⟩

theorem Wf.keeping_self (h : b.Wf) (r : ρ) : b.Keeping ⟨r, b, [], []⟩ := ⟨h, rfl, by simp⟩

theorem pushBlock_of_room (h : b.Wf) (p : ℕ → α) {n : ℕ} (hn : 0 < n) (hroom : n ≤ b.free) :
    (b.pushBlock (some p) n).ret = true ∧ (b.pushBlock (some p) n).buf.Wf ∧
      (b.pushBlock (some p) n).buf.contents = b.contents ++ load p 0 n ∧
        (b.pushBlock (some p) n).buf.free = b.free - n := by
  have hlen := h.rep.length_le
  rw [h.rep.free_eq] at hroom ⊢
  have hpush := pushBlock_refines h.rep h.bounded p n
  have hfits : 0 < n ∧ b.contents.length + n ≤ b.capacity := ⟨hn, by omega⟩
  rw [if_pos hfits, decide_eq_true hfits] at hpush
  refine ⟨hpush.ret_eq, (hpush.keeping h).wf, hpush.rep.contents_eq, ?_⟩
  rw [hpush.rep.free_eq, hpush.capacity_eq, List.length_append, length_load]
  omega

theorem pushBlock_of_no_room (p : ℕ → α) {n : ℕ} (hroom : b.free < n) :
    b.pushBlock (some p) n = ⟨false, b, [], []⟩ := by
  rw [pushBlock]
  exact if_pos hroom

theorem pushDirect_keeping (h : b.Wf) : b.Keeping b.pushDirect := by
  obtain ⟨hhead, htail, hfull⟩ := h
  have hcap := b.capacity_pos
  unfold pushDirect
  split_ifs with hf hle
  · exact Wf.keeping_self ⟨hhead, htail, hfull⟩ _
  · have hend : b.head + (b.capacity - b.head) = b.capacity := by omega
    simp only [hend, wrapHead, if_true]
    exact ⟨⟨hcap, htail, by simp [markFull]⟩, rfl, by simp [Region.Inside]; omega⟩
  · have hend : b.head + (b.tail - b.head) = b.tail := by omega
    simp only [hend]
    exact ⟨⟨htail, htail, fun _ ↦ rfl⟩, rfl, by simp [Region.Inside]; omega⟩

theorem backupDirect_keeping (h : b.Wf) (count : ℕ) : b.Keeping (b.backupDirect count) := by
  have hself := h.keeping_self (ρ := Bool)
  obtain ⟨hhead, htail, hfull⟩ := h
  have hcap := b.capacity_pos
  unfold backupDirect
  by_cases h0 : count = 0
  · rw [if_pos h0]
    exact hself _
  by_cases hav : b.available < count
  · rw [if_neg h0, if_pos hav]
    exact hself _
  by_cases he : b.isEmpty = true
  · rw [if_neg h0, if_neg hav, if_pos he]
    exact hself _
  rw [if_neg h0, if_neg hav, if_neg he]
  by_cases hlt : b.tail < b.head
  · rw [if_pos hlt]
    exact ⟨⟨by simp; omega, htail, by simp⟩, rfl, by simp⟩
  · rw [if_neg hlt]
    refine ⟨⟨?_, htail, by simp⟩, rfl, by simp⟩
    simp only [clearFull_head, clearFull_capacity]
    split_ifs <;> omega

theorem backup_keeping (h : b.Wf) (count : ℕ) : b.Keeping (b.backup count) := by
  have hself := h.keeping_self (ρ := Bool)
  obtain ⟨hhead, htail, hfull⟩ := h
  unfold backup
  by_cases hfree : b.free < count
  · rw [if_pos hfree]
    exact hself _
  by_cases hmeet : b.full = true ∧ b.tail = b.head
  · rw [if_neg hfree, if_pos hmeet]
    exact hself _
  rw [if_neg hfree, if_neg hmeet]
  by_cases hlt : b.head < b.tail
  · rw [if_pos hlt]
    by_cases hroom : b.tail - b.head < count
    · rw [if_pos hroom]
      exact hself _
    · rw [if_neg hroom]
      exact ⟨⟨hhead, by simp; omega, by simp [markFull]⟩, rfl, by simp⟩
  · rw [if_neg hlt]
    by_cases hroom : b.tail + (b.capacity - b.head) < count
    · rw [if_pos hroom]
      exact hself _
    · rw [if_neg hroom]
      by_cases hmore : 0 < count - min b.tail count
      · simp only [if_pos hmore]
        exact ⟨⟨hhead, by simp; omega, by simp [markFull]⟩, rfl, by simp⟩
      · simp only [if_neg hmore]
        exact ⟨⟨hhead, by simp; omega, fun hf ↦ absurd ⟨hf, (hfull hf).symm⟩ hmeet⟩, rfl, by simp⟩

theorem filled_keeping (h : b.Wf) {v : List Region} {r : IoResult α} {move : ℤ → ℕ}
    (hv : ∀ g ∈ v, g.Inside b.capacity) (hmove : 0 < r.ret → move r.ret < b.capacity) :
    b.Keeping (b.filled v r move) := by
  refine ⟨?_, filled_capacity v r move, hv⟩
  obtain ⟨hhead, htail, hfull⟩ := h
  by_cases hpos : 0 < r.ret
  · rw [filled_of_pos hpos]
    exact ⟨hmove hpos, htail, by simp [markFull]⟩
  · rw [filled, if_neg hpos]
    exact ⟨hhead, htail, hfull⟩

/-- A write keeps the invariant if it leaves the tail at most at the end of the array. -/
theorem drained_keeping (h : b.Wf) {v : List Region} {ret : ℤ} {move : ℤ → ℕ}
    (hmove : 0 < ret → move ret ≤ b.capacity) : b.Keeping (b.drained v ret move) := by
  have hcap := b.capacity_pos
  obtain ⟨hhead, htail, hfull⟩ := h
  rw [drained]
  by_cases hpos : 0 < ret
  · simp only [if_pos hpos]
    refine ⟨⟨by simpa using hhead, ?_, by simp⟩, by simp, by simp⟩
    have hle := hmove hpos
    rw [clearFull_tail, wrapTail_tail, clearFull_capacity, wrapTail_capacity]
    split_ifs <;> simp only at * <;> omega
  · have hself : b.wrapTail = b := if_neg (by omega)
    simp only [if_neg hpos, hself]
    exact ⟨⟨hhead, htail, hfull⟩, rfl, by simp⟩

theorem write_keeping (h : b.Wf) (cb : Writer) : b.Keeping (b.write cb) := by
  unfold write
  by_cases hav : b.available = 0
  · rw [if_pos hav]
    exact h.keeping_self _
  rw [if_neg hav]
  refine drained_keeping h fun hpos ↦ ?_
  obtain ⟨hhead, htail, -⟩ := h
  have hrun := cb.run_le [if b.tail < b.head then b.head - b.tail else b.capacity - b.tail]
  have hadd := ofInt_add_int (b := b) (m := b.tail) (Int.le_of_lt hpos) ?_
  · rw [List.sum_singleton] at hrun
    split_ifs at * <;> omega
  · rw [List.sum_singleton] at hrun
    split_ifs at * <;> omega

theorem ret_le (cb : Reader α) (lens : List ℕ) : (cb.run lens).ret ≤ (lens.sum : ℕ) := by
  have hbytes := cb.length_bytes_le lens
  rcases cb.ret_cases lens with ⟨hle, -⟩ | ⟨-, heq⟩ <;> omega

theorem read_keeping (h : b.Wf) {cb : Reader α} (hshort : b.StopsShort (.read cb)) :
    b.Keeping (b.read cb) := by
  unfold read
  by_cases hf : b.full = true
  · rw [if_pos hf]
    exact h.keeping_self _
  rw [if_neg hf]
  have hshort' := hshort (Bool.eq_false_iff.mpr hf)
  obtain ⟨hhead, htail, -⟩ := id h
  by_cases hlt : b.head < b.tail
  · rw [if_pos hlt]
    refine filled_keeping h (by simp [Region.Inside]; omega) fun hpos ↦ ?_
    have hrun := ret_le cb [b.tail - b.head]
    rw [List.sum_singleton] at hrun
    have hadd := ofInt_add_int (b := b) (m := b.head) (Int.le_of_lt hpos) (by omega)
    omega
  · rw [if_neg hlt]
    refine filled_keeping h (by simp [Region.Inside]; omega) fun hpos ↦ ?_
    have hrun := ret_le cb [b.capacity - b.head]
    have hne := hshort' (by omega)
    rw [List.sum_singleton] at hrun
    have hadd := ofInt_add_int (b := b) (m := b.head) (Int.le_of_lt hpos) (by omega)
    omega

theorem readv_keeping (h : b.Wf) {cb : Reader α} (hshort : b.StopsShort (.readv cb)) :
    b.Keeping (b.readv cb) := by
  unfold readv
  by_cases hf : b.full = true
  · rw [if_pos hf]
    exact h.keeping_self _
  rw [if_neg hf]
  have hshort' := hshort (Bool.eq_false_iff.mpr hf)
  obtain ⟨hhead, htail, -⟩ := id h
  by_cases hlt : b.head < b.tail
  · rw [if_pos hlt]
    refine filled_keeping h (by simp [Region.Inside]; omega) fun hpos ↦ ?_
    have hrun := ret_le cb [b.tail - b.head]
    rw [List.sum_singleton] at hrun
    have hadd := ofInt_add_int (b := b) (m := b.head) (Int.le_of_lt hpos) (by omega)
    omega
  rw [if_neg hlt]
  by_cases h0 : b.head = 0 ∧ b.tail = 0
  · rw [if_pos h0]
    refine filled_keeping h (by simp [Region.Inside]; omega) fun hpos ↦ ?_
    have hrun := ret_le cb [b.capacity]
    have hne := hshort' (by omega)
    rw [if_pos h0] at hne
    rw [List.sum_singleton] at hrun
    have hadd := ofInt_add_int (b := b) (m := b.head) (Int.le_of_lt hpos) (by omega)
    omega
  -- the distance to the end of the array is what the `int` makes of it
  · have hx := hshort' (by omega)
    rw [if_neg h0] at hx ⊢
    have hxle := CInt.toInt_natCast_le hx
    have hxlt := CInt.toInt_lt (b.capacity - b.head : ℕ)
    generalize CInt.toInt (b.capacity - b.head : ℕ) = x at hx hxle hxlt ⊢
    have hlen : (CInt.toUnsigned 64 x : ℤ) = x := by
      rw [CInt.toUnsigned_of_mem hx (by omega)]
      omega
    refine filled_keeping h (by simp [Region.Inside]; omega) fun hpos ↦ ?_
    have hrun := ret_le cb [CInt.toUnsigned 64 x, b.tail]
    simp only [List.sum_cons, List.sum_nil] at hrun
    have hint : (cb.run [CInt.toUnsigned 64 x, b.tail]).ret < 2 ^ 31 := by
      have hbytes := cb.length_bytes_lt [CInt.toUnsigned 64 x, b.tail]
      rcases cb.ret_cases [CInt.toUnsigned 64 x, b.tail] with ⟨hle, -⟩ | ⟨-, heq⟩ <;> omega
    by_cases hltx : (cb.run [CInt.toUnsigned 64 x, b.tail]).ret < x
    · have hadd := ofInt_add_int (b := b) (m := b.head) (Int.le_of_lt hpos) (by omega)
      rw [if_pos hltx]
      omega
    · have hadd : (T.ofInt ((cb.run [CInt.toUnsigned 64 x, b.tail]).ret - x) : ℤ)
          = (cb.run [CInt.toUnsigned 64 x, b.tail]).ret - x := by
        simpa using ofInt_add_int (b := b) (m := 0)
          (i := (cb.run [CInt.toUnsigned 64 x, b.tail]).ret - x) (by omega) (by omega)
      rw [if_neg hltx, CInt.toInt_of_mem (by omega) (by omega)]
      omega

theorem pop_peek_keeping (h : b.Wf) (n : ℕ) : b.Keeping (b.pop n true) := by
  unfold pop
  by_cases hav : b.available < n
  · rw [if_pos hav]
    exact h.keeping_self _
  by_cases h0 : n = 0
  · rw [if_neg hav, if_pos h0]
    exact h.keeping_self _
  · rw [if_neg hav, if_neg h0]
    exact ⟨h, rfl, by simp⟩

theorem Keeping.map {ρ' : Type*} {o : Outcome T α ρ} (h : b.Keeping o) (f : ρ → ρ') :
    b.Keeping (o.map f) :=
  ⟨h.wf, h.capacity_eq, h.inside⟩

theorem mixed_keeping (h : b.Wf) {op : MixedOp α} (hshort : b.StopsShort op) :
    b.Keeping (b.mixed op) := by
  cases op with
  | push x => exact ((push_refines h.rep h.bounded x).keeping h).map fun _ ↦ ()
  | pushBlock p n =>
    cases p with
    | none => exact (h.keeping_self false).map fun _ ↦ ()
    | some p => exact ((pushBlock_refines h.rep h.bounded p n).keeping h).map fun _ ↦ ()
  | pushDirect => exact (pushDirect_keeping h).map fun _ ↦ ()
  | backupDirect n => exact (backupDirect_keeping h n).map fun _ ↦ ()
  | pop n peek =>
    cases peek with
    | false => exact ((pop_refines h.rep n).keeping h).map fun _ ↦ ()
    | true => exact (pop_peek_keeping h n).map fun _ ↦ ()
  | skip n => exact ((skip_refines h.rep n).keeping h).map fun _ ↦ ()
  | read cb => exact (read_keeping h hshort).map fun _ ↦ ()
  | readv cb => exact (readv_keeping h hshort).map fun _ ↦ ()
  | write cb => exact (write_keeping h cb).map fun _ ↦ ()
  | backup n => exact (backup_keeping h n).map fun _ ↦ ()

theorem head_of_read {cb : Reader α} (hf : b.full = false) (hle : b.tail ≤ b.head)
    (hhead : b.head < b.capacity)
    (hret : (cb.run [b.capacity - b.head]).ret = (b.capacity - b.head : ℕ)) :
    (b.read cb).buf.head = b.capacity := by
  have hadd := ofInt_add (b := b) (m := b.head) (n := b.capacity - b.head) (by omega)
  rw [read, if_neg (by simp [hf]), if_neg (by omega)]
  rw [filled_of_pos (by omega), markFull_head, hret, hadd]
  simp only [stored]
  omega

theorem head_of_readv {cb : Reader α} (hf : b.full = false) (h0 : b.head = 0 ∧ b.tail = 0)
    (hret : (cb.run [b.capacity]).ret = b.capacity) : (b.readv cb).buf.head = b.capacity := by
  have hcap := b.capacity_pos
  have hadd := ofInt_add (b := b) (m := b.head) (n := b.capacity) (by omega)
  rw [readv, if_neg (by simp [hf]), if_neg (by omega), if_pos h0]
  rw [filled_of_pos (by omega), markFull_head, hret, hadd]
  simp only [stored]
  omega

/-- A `readv` whose distance to the end of the array is no `int` offers cells outside of it. -/
theorem not_inside_of_readv {cb : Reader α} (hf : b.full = false) (hle : b.tail ≤ b.head)
    (h0 : ¬(b.head = 0 ∧ b.tail = 0)) (hx : CInt.toInt (b.capacity - b.head : ℕ) < 0) :
    ¬∀ r ∈ (b.readv cb).stores, r.Inside b.capacity := by
  have hbound := b.capacity_lt
  have hsize := T.bound_le_size
  have hlow := CInt.le_toInt (b.capacity - b.head : ℕ)
  rw [readv, if_neg (by simp [hf]), if_neg (by omega), if_neg h0]
  intro hinside
  have hfirst := hinside _ (List.mem_cons_self)
  simp only [Region.Inside, CInt.toUnsigned] at hfirst
  omega

theorem Keeps.stopsShort (h : b.Wf) {op : MixedOp α} (hkeeps : b.Keeps op) : b.StopsShort op := by
  obtain ⟨hhead, -, -, hinside⟩ := hkeeps
  cases op with
  | read cb =>
    intro hf hle hret
    have hat := head_of_read hf hle h.head_lt hret
    exact Nat.lt_irrefl _ (hat ▸ hhead)
  | readv cb =>
    intro hf hle
    split_ifs with h0
    · intro hret
      have hat := head_of_readv hf h0 hret
      exact Nat.lt_irrefl _ (hat ▸ hhead)
    · by_contra hx
      exact not_inside_of_readv hf hle h0 (by omega) hinside
  | _ => trivial

theorem Keeping.keeps {op : MixedOp α} (h : b.Keeping (b.mixed op)) : b.Keeps op := by
  have hfull := h.wf.full_iff
  obtain ⟨hhead, htail, -⟩ := h.wf
  rw [h.capacity_eq] at hhead htail hfull
  exact ⟨hhead, htail, hfull, h.inside⟩

/-! ## Runs -/

/-- **The invariant of the mixed operations.** A run from the empty buffer leaves both indices
inside the array, a flag that tells the full buffer, and no store outside the array, after each of
its steps, exactly if all its reads stop short. -/
theorem run_keeps_iff (data : ℕ → α) (c : Capacity T) (ops : List (MixedOp α)) :
    Run.Steps mixedStep Keeps (new data c) ops ↔
      Run.Steps mixedStep StopsShort (new data c) ops := by
  have hnew : (new data c).Wf := (rep_new data c).wf (bounded_new data c)
  exact Run.steps_iff_of_invariant (P := Wf) (fun b op hb hok ↦ (mixed_keeping hb hok).wf)
    (fun b op hb ↦ ⟨Keeps.stopsShort hb, fun hok ↦ (mixed_keeping hb hok).keeps⟩) hnew

/-- A `readv` of eight bytes into an empty buffer of eight leaves the head at the capacity, and the
next push stores behind the array. -/
theorem not_keeps_of_readv :
    ¬∀ ops, Run.Steps mixedStep Keeps
      (new (fun _ ↦ (0 : ℕ)) (⟨8, by decide, by decide⟩ : Capacity .uint64)) ops := by
  intro h
  have hsteps := h [.readv (Reader.ofList [1, 2, 3, 4, 5, 6, 7, 8] (by decide)), .push 9]
  exact absurd (hsteps.2.1.2.2.2 ⟨8, 1⟩ (by decide)) (by decide)

end BipBuf

end Coypu
