import Coypu.Buf.Fifo
import Coypu.Buf.Layout

/-!
# Reading and removing items

The operations that look at or remove items, on any buffer that represents a list. `pop`, `skip` and
`popAll` move the tail in the same two steps, to the end of the array and from its beginning
(`firstPart`, `afterFirst`), so that one pair of lemmas serves all three.
-/

set_option autoImplicit false

namespace Coypu

open FlatMemory

variable {T : CapacityType} {α ρ : Type*}

/-! ## Operations and answers -/

/-- The operations that look at or remove items. -/
inductive DrainOp (α : Type*) where
  | pop (size : ℕ)
  | skip (size : ℕ)
  | popAll (size : ℕ)
  | peak (offset : ℕ)
  | find (d : α)

/-- What the operations answer. -/
inductive Answer (α : Type*) where
  | done (ok : Bool)
  | items (dest : Option (List α))
  | delivered (ok : Bool) (l : List α)
  | item (x : Option α)
  | offset (i : Option ℕ)
  | transfer (ret : ℤ)

/-- The operations on the queue. Removing is one operation with three ways to report it. -/
def Fifo.drain [DecidableEq α] {cap : ℕ} (q : Fifo α cap) : DrainOp α → Fifo α cap × Answer α
  | .pop n => ((q.pop n).2, .items (q.pop n).1)
  | .skip n => ((q.pop n).2, .done (q.pop n).1.isSome)
  | .popAll n => ((q.pop n).2, .delivered (q.pop n).1.isSome ((q.pop n).1.getD []))
  | .peak i => (q, .item (q.peek i))
  | .find d => (q, .offset (q.find d))

/-- An outcome with its result reported in another form. -/
def Outcome.map {ρ' : Type*} (f : ρ → ρ') (o : Outcome T α ρ) : Outcome T α ρ' :=
  ⟨f o.ret, o.buf, o.loads, o.stores⟩

namespace BipBuf

variable {b : BipBuf T α} {l : List α}

/-- The outcome of an operation on `b` that answers `r`, leaves `l`, keeps the indices below the
capacity and stays inside the array. -/
structure Refines (b : BipBuf T α) (o : Outcome T α ρ) (r : ρ) (l : List α) : Prop where
  ret_eq : o.ret = r
  rep : o.buf.Rep l
  capacity_eq : o.buf.capacity = b.capacity
  bounded : b.Bounded → o.buf.Bounded
  inside : ∀ g ∈ o.loads ++ o.stores, g.Inside b.capacity

theorem Rep.refines_self (h : b.Rep l) (r : ρ) : b.Refines ⟨r, b, [], []⟩ r l :=
  ⟨rfl, h, rfl, id, by simp⟩

/-! ## Looking -/

theorem peak_refines (h : b.Rep l) (i : ℕ) : b.Refines (b.peak i) l[i]? l := by
  rw [peak, h.available_eq]
  by_cases hi : l.length ≤ i
  · rw [if_pos hi, List.getElem?_eq_none hi]
    exact h.refines_self none
  rw [if_neg hi]
  have hhead := h.head_le
  have htail := h.tail_le
  have hlen := h.length_le
  have hx : (if b.tail < b.head then b.tail + i
      else if i < b.capacity - b.tail then b.tail + i else i - (b.capacity - b.tail))
      = Ring.index b.capacity (b.tail + i) := by
    unfold Ring.index
    have he := h.ends
    unfold Ring.Ends at he
    split_ifs <;> omega
  simp only [hx]
  refine ⟨?_, h, rfl, id, ?_⟩
  · exact (h.holds.get (by omega)).symm
  · simp only [List.append_nil, List.mem_singleton, forall_eq, Region.Inside]
    unfold Ring.index
    split_ifs <;> omega

theorem scan_eq [DecidableEq α] (m : ℕ → α) (d : α) (x offset n : ℕ) :
    scan m d x offset n = ((load m x n).findIdx? (· = d)).map (· + offset) := by
  induction n generalizing x offset with
  | zero => rfl
  | succ n ih =>
    rw [scan, load_succ, List.findIdx?_cons]
    by_cases hd : m x = d
    · simp [hd]
    · rw [if_neg hd, ih, if_neg (by simpa using hd), Option.map_map]
      congr 1
      funext i
      simp only [Function.comp_apply]
      omega

theorem find_refines [DecidableEq α] (h : b.Rep l) (d : α) :
    b.Refines (b.find d) (l.findIdx? (· = d)) l := by
  have hhead := h.head_le
  have htail := h.tail_le
  rw [find, h.isEmpty_eq]
  by_cases he : l.isEmpty = true
  · rw [if_pos he, List.isEmpty_iff.mp he]
    exact (List.isEmpty_iff.mp he ▸ h).refines_self none
  rw [if_neg he]
  by_cases hlt : b.tail < b.head
  · have hf : ¬b.full = true := fun hf ↦ by
      have := (h.of_full hf).1
      omega
    rw [if_pos hlt]
    refine ⟨?_, h, rfl, id, by simp [Region.Inside]; omega⟩
    rw [scan_eq, ← contents_of_linear hf (Nat.le_of_lt hlt), h.contents_eq]
    simp
  · rw [if_neg hlt]
    refine ⟨?_, h, rfl, id, by simp [Region.Inside]; omega⟩
    have hw : b.full = true ∨ b.head < b.tail := by
      by_contra hn
      rw [not_or] at hn
      have hlen : l.length ≠ 0 := fun h0 ↦ he (by simp [List.length_eq_zero_iff.mp h0])
      rcases h.of_not_full hn.1 with ⟨-, he'⟩ | ⟨hlt', -⟩ <;> omega
    rw [scan_eq, scan_eq, ← h.contents_eq, contents_of_wrapped hw, List.findIdx?_append]
    simp

/-! ## Removing -/

/-- The items that a removal of `n` takes before the end of the array. -/
def firstPart (b : BipBuf T α) (n : ℕ) : ℕ :=
  if b.head < b.tail ∨ b.full then min n (b.capacity - b.tail) else 0

/-- The buffer after that first part. -/
def afterFirst (b : BipBuf T α) (n : ℕ) : BipBuf T α :=
  (if b.head < b.tail ∨ b.full then (b.advance (b.firstPart n)).wrapTail else b).clearFull

@[simp] theorem afterFirst_capacity (n : ℕ) : (b.afterFirst n).capacity = b.capacity := by
  unfold afterFirst
  split <;> simp

@[simp] theorem afterFirst_head (n : ℕ) : (b.afterFirst n).head = b.head := by
  unfold afterFirst
  split <;> simp

theorem afterFirst_data (n : ℕ) : (b.afterFirst n).data = b.data := by
  unfold afterFirst
  split
  · rw [clearFull_data, wrapTail_data]
    rfl
  · rfl

theorem firstPart_le (n : ℕ) : b.firstPart n ≤ n := by
  unfold firstPart
  split <;> omega

section Removal

variable {n : ℕ}

theorem Rep.wraps (h : b.Rep l) (hw : b.head < b.tail ∨ b.full = true) :
    b.tail + l.length = b.head + b.capacity := by
  rcases hw with hlt | hf
  · have he := h.ends
    unfold Ring.Ends at he
    omega
  · obtain ⟨heq, hlen⟩ := h.of_full hf
    omega

/-- The first part drops its items and leaves room for the second before the end of the array. -/
theorem Rep.afterFirst (h : b.Rep l) (hn : n ≤ l.length) :
    (b.afterFirst n).Layout (l.drop (b.firstPart n)) ∧
      (b.afterFirst n).tail + (n - b.firstPart n) ≤ b.capacity ∧
      b.tail + b.firstPart n ≤ b.capacity := by
  have htail := h.tail_le
  have hhead := h.head_le
  have hlen := h.length_le
  have hle := firstPart_le (b := b) n
  unfold BipBuf.afterFirst
  by_cases hw : b.head < b.tail ∨ b.full = true
  · have hwrap := h.wraps hw
    have hx : b.firstPart n = min n (b.capacity - b.tail) := if_pos hw
    have hadv := h.toLayout.advance (n := b.firstPart n) (by omega) (by omega)
    rw [if_pos hw]
    refine ⟨(hadv.wrapTail ?_).clearFull, ?_, by omega⟩
    · simp only [advance_tail, advance_head, advance_capacity, List.length_drop]
      omega
    · rw [clearFull_tail, wrapTail_tail, advance_tail, advance_capacity]
      split_ifs <;> omega
  · have hx : b.firstPart n = 0 := if_neg hw
    rw [not_or] at hw
    rw [if_neg (by simpa using hw), hx, List.drop_zero, clearFull_tail]
    refine ⟨h.toLayout.clearFull, ?_, by omega⟩
    rcases h.of_not_full hw.2 with ⟨-, he⟩ | ⟨hlt, -⟩ <;> omega

theorem Rep.load_parts (h : b.Rep l) (hn : n ≤ l.length) :
    load b.data b.tail (b.firstPart n)
        ++ load (b.afterFirst n).data (b.afterFirst n).tail (n - b.firstPart n) = l.take n := by
  obtain ⟨hlay, hsecond, hfirst⟩ := h.afterFirst hn
  have hle := firstPart_le (b := b) n
  rw [h.holds.load hfirst (by omega), hlay.holds.load (by simpa using hsecond) (by simp; omega),
    ← List.take_add, Nat.add_sub_cancel' hle]

/-- A removal ends at an index of the array, unless the buffer was only bounded weakly; then the
head is not at the beginning. -/
theorem Rep.tail_consumed (h : b.Rep l) (hn : n ≤ l.length) :
    ((b.afterFirst n).tail + (n - b.firstPart n) = b.capacity → 0 < b.head) ∧
      (b.Bounded → (b.afterFirst n).tail + (n - b.firstPart n) < b.capacity) := by
  have hcap := b.capacity_pos
  have hlen := h.length_le
  have htail := h.tail_le
  unfold Bounded
  unfold BipBuf.afterFirst
  by_cases hw : b.head < b.tail ∨ b.full = true
  · have hwrap := h.wraps hw
    have hx : b.firstPart n = min n (b.capacity - b.tail) := if_pos hw
    rw [if_pos hw, clearFull_tail, wrapTail_tail, advance_tail, advance_capacity]
    split_ifs <;> omega
  · have hx : b.firstPart n = 0 := if_neg hw
    rw [not_or] at hw
    rw [if_neg (by simpa using hw), hx, clearFull_tail]
    rcases h.of_not_full hw.2 with ⟨-, he⟩ | ⟨hlt, -⟩ <;> omega

theorem Rep.consumed (h : b.Rep l) (hpos : 0 < n) (hn : n ≤ l.length) :
    ((b.afterFirst n).advance (n - b.firstPart n)).Rep (l.drop n) := by
  obtain ⟨hlay, hsecond, -⟩ := h.afterFirst hn
  have hle := firstPart_le (b := b) n
  have hlen := h.length_le
  have hadv := hlay.advance (n := n - b.firstPart n) (by simp; omega) (by simpa using hsecond)
  rw [List.drop_drop, Nat.add_sub_cancel' hle] at hadv
  have hfull : (b.afterFirst n).full = false := rfl
  refine hadv.rep_of_lt hfull ?_ fun heq ↦ ?_
  · rw [List.length_drop, advance_capacity, afterFirst_capacity]
    omega
  · rw [advance_tail, advance_capacity, afterFirst_capacity] at heq
    rw [advance_head, afterFirst_head]
    exact (h.tail_consumed hn).1 heq

theorem Rep.consumed_bounded (h : b.Rep l) (hn : n ≤ l.length) (hb : b.Bounded) :
    ((b.afterFirst n).advance (n - b.firstPart n)).Bounded := by
  refine ⟨?_, ?_⟩
  · simpa using hb.1
  · simpa using (h.tail_consumed hn).2 hb

theorem Rep.inside_parts (h : b.Rep l) (hn : n ≤ l.length) :
    ∀ g ∈ [(⟨b.tail, b.firstPart n⟩ : Region), ⟨(b.afterFirst n).tail, n - b.firstPart n⟩],
      g.Inside b.capacity := by
  obtain ⟨-, hsecond, hfirst⟩ := h.afterFirst hn
  intro g hg
  simp only [List.mem_cons, List.not_mem_nil, or_false] at hg
  rcases hg with rfl | rfl
  · exact hfirst
  · exact hsecond

end Removal

theorem pop_eq {n : ℕ} (hav : ¬b.available < n) (hn : n ≠ 0) :
    b.pop n false =
      ⟨some (load b.data b.tail (b.firstPart n)
          ++ load (b.afterFirst n).data (b.afterFirst n).tail (n - b.firstPart n)),
        (b.afterFirst n).advance (n - b.firstPart n),
        [⟨b.tail, b.firstPart n⟩, ⟨(b.afterFirst n).tail, n - b.firstPart n⟩], []⟩ := by
  rw [pop, if_neg hav, if_neg hn]
  rfl

theorem pop_refines (h : b.Rep l) (n : ℕ) :
    b.Refines (b.pop n false) (if 0 < n ∧ n ≤ l.length then some (l.take n) else none)
      (if 0 < n ∧ n ≤ l.length then l.drop n else l) := by
  have havail := h.available_eq
  by_cases hn : 0 < n ∧ n ≤ l.length
  · rw [pop_eq (by omega) (by omega), if_pos hn, if_pos hn]
    refine ⟨congrArg some (h.load_parts hn.2), h.consumed hn.1 hn.2, afterFirst_capacity n,
      h.consumed_bounded hn.2, ?_⟩
    rw [List.append_nil]
    exact h.inside_parts hn.2
  · rw [if_neg hn, if_neg hn, pop, havail]
    by_cases hlt : l.length < n
    · rw [if_pos hlt]
      exact h.refines_self none
    · rw [if_neg hlt, if_pos (by omega)]
      exact h.refines_self none

theorem skip_refines (h : b.Rep l) (n : ℕ) :
    b.Refines (b.skip n) (decide (0 < n ∧ n ≤ l.length))
      (if 0 < n ∧ n ≤ l.length then l.drop n else l) := by
  rw [skip, h.available_eq]
  by_cases hn : 0 < n ∧ n ≤ l.length
  · rw [if_neg (by omega), if_neg (by omega), if_pos hn, decide_eq_true hn]
    exact ⟨rfl, h.consumed hn.1 hn.2, afterFirst_capacity n, h.consumed_bounded hn.2, by simp⟩
  · rw [if_neg hn, decide_eq_false hn]
    by_cases hlt : l.length < n
    · rw [if_pos hlt]
      exact h.refines_self false
    · rw [if_neg hlt, if_pos (by omega)]
      exact h.refines_self false

/-- A callback that takes every segment, behind those it has. -/
def acceptAll (taken segment : List α) : Bool × List α := (true, taken ++ segment)

theorem popAll_eq {n : ℕ} (hav : ¬b.available < n) (hn : n ≠ 0) :
    (b.popAll acceptAll [] n).buf = (b.afterFirst n).advance (n - b.firstPart n) ∧
      (b.popAll acceptAll [] n).ret = (true, load b.data b.tail (b.firstPart n)
          ++ load (b.afterFirst n).data (b.afterFirst n).tail (n - b.firstPart n)) ∧
      (∀ g ∈ (b.popAll acceptAll [] n).loads,
        g ∈ [(⟨b.tail, b.firstPart n⟩ : Region), ⟨(b.afterFirst n).tail, n - b.firstPart n⟩]) ∧
      (b.popAll acceptAll [] n).stores = [] := by
  rw [popAll, if_neg hav, if_neg hn]
  by_cases hw : b.head < b.tail ∨ b.full = true
  · have hx : b.firstPart n = min n (b.capacity - b.tail) := if_pos hw
    have hb : b.afterFirst n = (b.advance (b.firstPart n)).wrapTail.clearFull := by
      rw [afterFirst, if_pos hw]
    rw [if_pos hw, hb, hx]
    simp only [acceptAll, if_true]
    by_cases hrem : n - min n (b.capacity - b.tail) = 0
    · simp only [hrem, if_true]
      exact ⟨rfl, by simp, by simp, trivial⟩
    · simp only [hrem, if_false]
      exact ⟨trivial, by simp, by simp, trivial⟩
  · have hx : b.firstPart n = 0 := if_neg hw
    have hb : b.afterFirst n = b.clearFull := by rw [afterFirst, if_neg hw]
    rw [if_neg hw, hb, hx]
    simp only [acceptAll, if_true]
    exact ⟨rfl, by simp, by simp, trivial⟩

theorem popAll_refines (h : b.Rep l) (n : ℕ) :
    b.Refines (b.popAll acceptAll [] n)
      (if 0 < n ∧ n ≤ l.length then (true, l.take n) else (false, []))
      (if 0 < n ∧ n ≤ l.length then l.drop n else l) := by
  have havail := h.available_eq
  by_cases hn : 0 < n ∧ n ≤ l.length
  · obtain ⟨hbuf, hret, hloads, hstores⟩ :=
      popAll_eq (b := b) (n := n) (by omega) (by omega)
    rw [if_pos hn, if_pos hn]
    refine ⟨by rw [hret, h.load_parts hn.2], hbuf ▸ h.consumed hn.1 hn.2, ?_, ?_, ?_⟩
    · rw [hbuf]
      exact afterFirst_capacity n
    · rw [hbuf]
      exact h.consumed_bounded hn.2
    · rw [hstores, List.append_nil]
      exact fun g hg ↦ h.inside_parts hn.2 g (hloads g hg)
  · rw [if_neg hn, if_neg hn, popAll, havail]
    by_cases hlt : l.length < n
    · rw [if_pos hlt]
      exact h.refines_self _
    · rw [if_neg hlt, if_pos (by omega)]
      exact h.refines_self _

/-- A callback gets the items before the end of the array, and the others if it took these. -/
theorem Rep.popAll_ret {σ : Type*} (h : b.Rep l) (hne : l ≠ []) (cb : σ → List α → Bool × σ)
    (s : σ) : (b.popAll cb s l.length).ret =
      if (cb s (l.take (b.capacity - b.tail))).1 = true ∧ b.capacity - b.tail < l.length then
        cb (cb s (l.take (b.capacity - b.tail))).2 (l.drop (b.capacity - b.tail))
      else cb s (l.take (b.capacity - b.tail)) := by
  have htail := h.tail_le
  have hlen := h.length_le
  rw [popAll, h.available_eq, if_neg (Nat.lt_irrefl _), if_neg (by simpa using hne)]
  by_cases hw : b.head < b.tail ∨ b.full = true
  · obtain ⟨hlay, hsecond, hfirst⟩ := h.afterFirst (Nat.le_refl l.length)
    have hx : b.firstPart l.length = min l.length (b.capacity - b.tail) := if_pos hw
    have hafter : b.afterFirst l.length =
      (b.advance (b.firstPart l.length)).wrapTail.clearFull := by
      rw [BipBuf.afterFirst, if_pos hw]
    have hload : load b.data b.tail (min l.length (b.capacity - b.tail))
      = l.take (b.capacity - b.tail) := by
      rw [h.holds.load (by omega) (by omega), Nat.min_comm, ← List.take_eq_take_min]
    rw [hafter, hx] at hlay hsecond
    rw [if_pos hw]
    simp only [hload]
    by_cases htakes : (cb s (l.take (b.capacity - b.tail))).1 = true
    · by_cases hmore : b.capacity - b.tail < l.length
      · have hmin : min l.length (b.capacity - b.tail) = b.capacity - b.tail := by omega
        rw [hmin] at hlay hsecond
        have hdrop : (l.drop (b.capacity - b.tail)).length = l.length - (b.capacity - b.tail) :=
          List.length_drop
        have hrest := hlay.holds.load (n := l.length - (b.capacity - b.tail))
          (by simpa using hsecond)
          (Nat.le_of_eq hdrop.symm)
        rw [List.take_of_length_le (Nat.le_of_eq hdrop)] at hrest
        have hremaining : ¬l.length - (b.capacity - b.tail) = 0 := by omega
        simp only [if_pos htakes, hmin, if_neg hremaining]
        rw [if_pos ⟨htakes, hmore⟩]
        exact congrArg _ hrest
      · have hremaining : l.length - min l.length (b.capacity - b.tail) = 0 := by omega
        simp only [if_pos htakes, if_pos hremaining]
        rw [if_neg (fun hand ↦ hmore hand.2)]
        exact Prod.ext htakes.symm rfl
    · simp only [if_neg htakes]
      rw [if_neg (fun hand ↦ htakes hand.1)]
      exact Prod.ext (Bool.eq_false_iff.mpr htakes).symm rfl
  · -- the items end before the end of the array
    have hle : l.length ≤ b.capacity - b.tail := by
      rw [not_or] at hw
      have hhead := h.head_le
      rcases h.of_not_full hw.2 with ⟨-, he⟩ | ⟨hlt, -⟩ <;> omega
    have hload : load b.data b.tail l.length = l.take (b.capacity - b.tail) := by
      rw [h.holds.load (by omega) (Nat.le_refl _), List.take_length, List.take_of_length_le hle]
    rw [if_neg hw, hload, if_neg (fun hand ↦ by omega)]

/-! ## The draining operations as one -/

theorem Refines.map {ρ' : Type*} {o : Outcome T α ρ} {r : ρ} (h : b.Refines o r l) (f : ρ → ρ') :
    b.Refines (o.map f) (f r) l :=
  ⟨congrArg f h.ret_eq, h.rep, h.capacity_eq, h.bounded, h.inside⟩

/-- A draining operation, `popAll` with a callback that takes everything. -/
def drain [DecidableEq α] (b : BipBuf T α) : DrainOp α → Outcome T α (Answer α)
  | .pop n => (b.pop n false).map .items
  | .skip n => (b.skip n).map .done
  | .popAll n => (b.popAll acceptAll [] n).map fun r ↦ .delivered r.1 r.2
  | .peak i => (b.peak i).map .item
  | .find d => (b.find d).map .offset

/-- A draining operation does to the buffer what it does to the queue it represents. -/
theorem drain_refines [DecidableEq α] {cap : ℕ} {q : Fifo α cap} (h : b.Rep q.items)
    (op : DrainOp α) : b.Refines (b.drain op) (q.drain op).2 (q.drain op).1.items := by
  cases op with
  | pop n =>
    have hpop := (pop_refines h n).map Answer.items
    rw [drain, Fifo.drain, Fifo.pop]
    split_ifs at hpop ⊢ <;> exact hpop
  | skip n =>
    have hskip := (skip_refines h n).map (Answer.done (α := α))
    rw [drain, Fifo.drain, Fifo.pop]
    split_ifs at hskip ⊢ with hn <;> simpa [hn] using hskip
  | popAll n =>
    have hall := (popAll_refines h n).map fun r ↦ Answer.delivered r.1 r.2
    rw [drain, Fifo.drain, Fifo.pop]
    split_ifs at hall ⊢ <;> exact hall
  | peak i => exact (peak_refines h i).map Answer.item
  | find d => exact (find_refines h d).map Answer.offset

end BipBuf

end Coypu
