import Coypu.Buf.Mixed

/-!
# Writing without a copy

`pushDirect` hands out the free cells behind the head and counts all of them as filled, its caller
fills as many of them as it needs, and `backupDirect` takes back the others. The head may have gone
around the end of the array or onto the tail by then, with the flag up; what is taken back is the
same in each position.
-/

set_option autoImplicit false

namespace Coypu

namespace BipBuf

open FlatMemory

variable {T : CapacityType} {α : Type*} {b : BipBuf T α} {l k : List α}

/-- The caller of an operation stores items in the array. -/
def poke (b : BipBuf T α) (start : ℕ) (k : List α) : BipBuf T α :=
  { b with data := store b.data start k }

/-- A cell that holds one of the stored items. -/
def Occupied (b : BipBuf T α) (c : ℕ) : Prop :=
  ∃ i < b.available, c = Ring.index b.capacity (b.tail + i)

/-! ## Handing out free cells -/

/-- The number of free cells up to the end of the array, or up to the tail. -/
def freeRun (b : BipBuf T α) : ℕ := if b.tail ≤ b.head then b.capacity - b.head else b.tail - b.head

theorem freeRun_le (h : b.Wf) (hf : b.full = false) :
    1 ≤ b.freeRun ∧ b.head + b.freeRun ≤ b.capacity ∧ b.available + b.freeRun ≤ b.capacity := by
  obtain ⟨hhead, htail, -⟩ := id h
  have hav := h.rep.available_eq
  unfold freeRun
  rcases h.rep.of_not_full (by simp [hf]) with ⟨hle, he⟩ | ⟨hlt, he⟩
  · rw [if_pos hle]
    omega
  · rw [if_neg (Nat.not_le.mpr hlt)]
    omega

theorem freeRun_free (h : b.Wf) (hf : b.full = false) :
    b.head = Ring.index b.capacity (b.tail + b.available) ∧
      ∀ c, b.head ≤ c → c < b.head + b.freeRun → ¬b.Occupied c := by
  obtain ⟨hhead, htail, -⟩ := id h
  have hav := h.rep.available_eq
  unfold freeRun Occupied
  rcases h.rep.of_not_full (by simp [hf]) with ⟨hle, he⟩ | ⟨hlt, he⟩
  · rw [if_pos hle]
    refine ⟨by rw [Ring.index_of_lt (by omega)]; omega, ?_⟩
    rintro c hc - ⟨i, hi, rfl⟩
    rw [Ring.index_of_lt (by omega)] at hc
    omega
  · rw [if_neg (Nat.not_le.mpr hlt)]
    refine ⟨by rw [Ring.index_of_ge (by omega)]; omega, ?_⟩
    rintro c hc hc' ⟨i, hi, rfl⟩
    unfold Ring.index at hc hc'
    split_ifs at hc hc' <;> omega

theorem pushDirect_ret (hf : b.full = false) : b.pushDirect.ret = some ⟨b.head, b.freeRun⟩ := by
  rw [pushDirect, freeRun, if_neg (by simp [hf])]
  split_ifs <;> rfl

theorem pushDirect_buf (h : b.Wf) (hf : b.full = false) (hk : k.length = b.freeRun) :
    b.pushDirect.buf.poke b.head k = (b.put k).wrapHead.markFull := by
  obtain ⟨hhead, htail, -⟩ := h
  rw [pushDirect, if_neg (by simp [hf])]
  unfold freeRun at hk
  by_cases hle : b.tail ≤ b.head
  · rw [if_pos hle] at hk ⊢
    have hend : b.head + (b.capacity - b.head) = b.capacity := by omega
    simp only [put, hk, wrapHead, hend, if_true]
    rfl
  · rw [if_neg hle] at hk ⊢
    have hend : b.head + (b.tail - b.head) = b.tail := by omega
    have hne : ¬b.tail = b.capacity := Nat.ne_of_lt htail
    simp only [put, hk, wrapHead, hend, if_neg hne]
    rfl

theorem pushDirect_rep (h : b.Wf) (hrep : b.Rep l) (hf : b.full = false)
    (hk : k.length = b.freeRun) : (b.pushDirect.buf.poke b.head k).Rep (l ++ k) := by
  obtain ⟨hpos, hend, hroom⟩ := freeRun_le h hf
  rw [hrep.available_eq] at hroom
  rw [pushDirect_buf h hf hk]
  have hput : (b.put k).Layout (l ++ k) := hrep.toLayout.put (by omega) (by omega)
  refine (hput.wrapHead h.tail_lt).rep_markFull ?_ fun heq ↦ ?_
  · exact List.append_ne_nil_of_right_ne_nil l (List.length_pos_iff.mp (by omega))
  · rw [wrapHead_tail, put_tail, wrapHead_capacity, put_capacity] at heq
    exact absurd heq (Nat.ne_of_lt h.tail_lt)

/-! ## Taking back -/

theorem backupDirect_rep (h : b.Rep l) (htail : b.tail < b.capacity) {n : ℕ} (hn : n ≤ l.length) :
    (b.backupDirect n).ret = true ∧ (b.backupDirect n).buf.Rep (l.take (l.length - n)) := by
  have hav := h.available_eq
  by_cases hzero : n = 0
  · rw [backupDirect, if_pos hzero, hzero, Nat.sub_zero, List.take_length]
    exact ⟨rfl, h⟩
  have hempty : ¬b.isEmpty = true := by
    rw [h.isEmpty_eq, List.isEmpty_iff, ← List.length_eq_zero_iff]
    omega
  have hlen := h.length_le
  -- the items that stay are in their place, whatever end position fits them
  have hlay (head : ℕ) (hle : head ≤ b.capacity)
      (hends : Ring.Ends b.capacity b.tail (l.length - n) head) :
      (({ b with head := head } : BipBuf T α).clearFull).Rep (l.take (l.length - n)) := by
    have htake : (l.take (l.length - n)).length = l.length - n := by
      rw [List.length_take]
      omega
    have hlay : (({ b with head := head } : BipBuf T α).clearFull).Layout (l.take (l.length - n)) :=
      ⟨hle, h.tail_le, by simp only [clearFull_capacity]; omega, by rw [htake]; exact hends,
        h.holds.take _⟩
    refine hlay.rep_of_lt rfl ?_ fun heq ↦ absurd heq (Nat.ne_of_lt htail)
    simp only [clearFull_capacity]
    omega
  rw [backupDirect, if_neg hzero, if_neg (by omega), if_neg hempty]
  have hhead := h.head_le
  have hends := h.ends
  unfold Ring.Ends at hends hlay
  by_cases hlt : b.tail < b.head
  · rw [if_pos hlt]
    refine ⟨rfl, hlay _ (by omega) ?_⟩
    omega
  · rw [if_neg hlt]
    refine ⟨rfl, hlay _ ?_ ?_⟩
    · split_ifs <;> omega
    · split_ifs <;> omega

/-! ## Filling a part -/

/-- What lies in the free cells when the first of them are filled with `k`. -/
def padded (b : BipBuf T α) (k : List α) : List α :=
  k ++ load b.data (b.head + k.length) (b.freeRun - k.length)

theorem length_padded (hk : k.length ≤ b.freeRun) : (b.padded k).length = b.freeRun := by
  rw [padded, List.length_append, length_load]
  omega

theorem pushDirect_data : b.pushDirect.buf.data = b.data := by
  unfold pushDirect
  split_ifs
  · rfl
  · exact wrapHead_data
  · rfl

theorem poke_padded :
    b.pushDirect.buf.poke b.head (b.padded k) = b.pushDirect.buf.poke b.head k := by
  have hload : load b.data (b.head + k.length) (b.freeRun - k.length)
      = load (store b.data b.head k) (b.head + k.length) (b.freeRun - k.length) :=
    (load_store_of_disjoint (Or.inr (Nat.le_refl _))).symm
  rw [poke, poke, pushDirect_data, padded, store_append, hload, store_load]

theorem pushDirect_poke_rep (h : b.Wf) (hrep : b.Rep l) (hf : b.full = false)
    (hk : k.length ≤ b.freeRun) : (b.pushDirect.buf.poke b.head k).Rep (l ++ b.padded k) := by
  rw [← poke_padded]
  exact pushDirect_rep h hrep hf (length_padded hk)

theorem Wf.poke (h : b.Wf) (start : ℕ) (k : List α) : (b.poke start k).Wf :=
  ⟨h.head_lt, h.tail_lt, h.full_eq⟩

/-- What is filled is behind what there was. The caller of `pushDirect` fills `k` of the cells, and
gives back the others. -/
theorem fill_exact (h : b.Wf) (hrep : b.Rep l) (hf : b.full = false) (hk : k.length ≤ b.freeRun) :
    let o := (b.pushDirect.buf.poke b.head k).backupDirect (b.freeRun - k.length)
    o.ret = true ∧ o.buf.Rep (l ++ k) ∧ o.buf.Wf := by
  have hwf : (b.pushDirect.buf.poke b.head k).Wf := (pushDirect_keeping h).wf.poke _ _
  have hlen := length_padded hk
  obtain ⟨hret, hback⟩ := backupDirect_rep (n := b.freeRun - k.length)
    (pushDirect_poke_rep h hrep hf hk) hwf.tail_lt (by rw [List.length_append]; omega)
  have htake : (l ++ b.padded k).take ((l ++ b.padded k).length - (b.freeRun - k.length))
    = l ++ k := by
    have hkept : l.length + (b.padded k).length - (b.freeRun - k.length) = (l ++ k).length := by
      rw [List.length_append]
      omega
    rw [List.length_append, hkept, padded, ← List.append_assoc, List.take_left]
  rw [htake] at hback
  exact ⟨hret, hback, (backupDirect_keeping hwf _).wf⟩

/-- A buffer hands out a run of free cells right behind its items, and whatever the caller fills of
them, from the first one on, is behind these items when the others are given back. -/
structure FillsExactly (b : BipBuf T α) : Prop where
  ret_eq : b.pushDirect.ret = some ⟨b.head, b.freeRun⟩
  pos : 1 ≤ b.freeRun
  inside : b.head + b.freeRun ≤ b.capacity
  behind : b.head = Ring.index b.capacity (b.tail + b.available)
  free : ∀ c, b.head ≤ c → c < b.head + b.freeRun → ¬b.Occupied c
  fill : ∀ k : List α, k.length ≤ b.freeRun →
    let o := (b.pushDirect.buf.poke b.head k).backupDirect (b.freeRun - k.length)
    o.ret = true ∧ o.buf.contents = b.contents ++ k ∧ o.buf.Wf

theorem fillsExactly (h : b.Wf) (hf : b.full = false) : b.FillsExactly where
  ret_eq := pushDirect_ret hf
  pos := (freeRun_le h hf).1
  inside := (freeRun_le h hf).2.1
  behind := (freeRun_free h hf).1
  free := (freeRun_free h hf).2
  fill k hk := by
    obtain ⟨hret, hrep, hwf⟩ := fill_exact h h.rep hf hk
    exact ⟨hret, hrep.contents_eq, hwf⟩

/-! ## Runs -/

end BipBuf

/-- The caller of `pushDirect`: how it fills a region of a given length. -/
structure Filler (α : Type*) where
  run : ℕ → List α
  length_le : ∀ n, (run n).length ≤ n

/-- The operations of a buffer that is filled in place. -/
inductive FillOp (α : Type*) where
  | fill (caller : Filler α)
  | pop (size : ℕ)

/-- The items that an operation has added, and the items it has removed. -/
structure Moved (α : Type*) where
  added : List α
  removed : List α

namespace BipBuf

open FlatMemory

variable {T : CapacityType} {α : Type*} {b : BipBuf T α}

/-- An operation. A region is filled in part, and the rest of it given back. -/
def fillStep (b : BipBuf T α) : FillOp α → BipBuf T α × Moved α
  | .fill caller =>
    match b.pushDirect.ret with
    | none => (b.pushDirect.buf, ⟨[], []⟩)
    | some r =>
      (((b.pushDirect.buf.poke r.start (caller.run r.len)).backupDirect
        (r.len - (caller.run r.len).length)).buf, ⟨caller.run r.len, []⟩)
  | .pop n => ((b.pop n false).buf, ⟨[], (b.pop n false).ret.getD []⟩)

theorem fillStep_fill (hf : b.full = false) (caller : Filler α) :
    b.fillStep (.fill caller) = (((b.pushDirect.buf.poke b.head (caller.run b.freeRun)).backupDirect
      (b.freeRun - (caller.run b.freeRun).length)).buf, ⟨caller.run b.freeRun, []⟩) := by
  simp only [fillStep, pushDirect_ret hf]

theorem fillStep_full (hf : b.full = true) (caller : Filler α) :
    b.fillStep (.fill caller) = (b, ⟨[], []⟩) := by
  have hfull : b.pushDirect = ⟨none, b, [], []⟩ := by rw [pushDirect, if_pos hf]
  simp only [fillStep, hfull]

theorem fillStep_conserves (h : b.Wf) (op : FillOp α) :
    (b.fillStep op).1.Wf ∧
      b.contents ++ (b.fillStep op).2.added = (b.fillStep op).2.removed ++
        (b.fillStep op).1.contents := by
  cases op with
  | fill caller =>
    by_cases hf : b.full = true
    · rw [fillStep_full hf]
      exact ⟨h, List.append_nil _⟩
    · have hf' := Bool.eq_false_iff.mpr hf
      obtain ⟨-, hrep, hwf⟩ := fill_exact h h.rep hf' (caller.length_le b.freeRun)
      rw [fillStep_fill hf']
      exact ⟨hwf, hrep.contents_eq.symm⟩
  | pop n =>
    have hpop := pop_refines h.rep n
    have hwf := (hpop.keeping h).wf
    refine ⟨hwf, ?_⟩
    simp only [fillStep, hpop.ret_eq, hpop.rep.contents_eq, List.append_nil]
    split_ifs
    · exact (List.take_append_drop n b.contents).symm
    · rfl

/-- A buffer that is filled in place is a queue: what was in it and what was added are, in this
order, what was removed and what is left. -/
theorem run_fill_fifo (h : b.Wf) (ops : List (FillOp α)) :
    b.contents ++ (Run.run fillStep b ops).2.flatMap Moved.added
      = (Run.run fillStep b ops).2.flatMap Moved.removed ++ (Run.run fillStep b ops).1.contents :=
  Run.run_conserves (P := Wf) (fun _ op hb _ ↦ fillStep_conserves hb op) h
    (Run.steps_true b ops)

end BipBuf

end Coypu
