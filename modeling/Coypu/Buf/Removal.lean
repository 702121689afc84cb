import Coypu.Buf.Direct

/-!
# Removing less than was asked for

Two variants of `pop` leave items in the buffer. A `pop` that only looks (`pop n true`) leaves all
of them. It shares the first copy with the one that removes, but takes the rest from the beginning
of the array, where the tail would be had it gone around the end; in a buffer that does not go
around the end it has not, and these are other cells. A `popAll` whose callback refuses a segment
leaves what was refused: the tail and the flag are updated between the two calls, and the ring is
consistent there.
-/

set_option autoImplicit false

namespace Coypu

namespace BipBuf

open FlatMemory

variable {T : CapacityType} {α : Type*} {b : BipBuf T α} {l : List α} {n : ℕ}

/-! ## Behind the first part -/

/-- A removal that goes around the end of the array goes on at its beginning. -/
theorem afterFirst_tail_of_wraps (h : b.Rep l) (hw : b.head < b.tail ∨ b.full = true)
    (hrest : b.firstPart n < n) :
    b.firstPart n = b.capacity - b.tail ∧ (b.afterFirst n).tail = 0 := by
  have htail := h.tail_le
  have hx : b.firstPart n = min n (b.capacity - b.tail) := if_pos hw
  have hend : b.firstPart n = b.capacity - b.tail := by omega
  refine ⟨hend, ?_⟩
  rw [afterFirst, if_pos hw, clearFull_tail, wrapTail_tail, advance_tail, advance_capacity]
  exact if_pos (by omega)

theorem Rep.between (h : b.Rep l) (hw : b.head < b.tail ∨ b.full = true) (hn : n ≤ l.length)
    (hrest : b.firstPart n < n) : (b.afterFirst n).Rep (l.drop (b.firstPart n)) := by
  obtain ⟨hlay, -, -⟩ := h.afterFirst hn
  obtain ⟨hend, htail⟩ := afterFirst_tail_of_wraps h hw hrest
  have hwrap := h.wraps hw
  have hle := h.tail_le
  refine hlay.rep_of_linear rfl ?_
  rw [htail, afterFirst_head, List.length_drop]
  omega

/-! ## Looking ahead -/

theorem peek_eq (hav : ¬b.available < n) (hn : n ≠ 0) :
    b.pop n true = ⟨some (load b.data b.tail (b.firstPart n) ++ load b.data 0 (n - b.firstPart n)),
      b, [⟨b.tail, b.firstPart n⟩, ⟨0, n - b.firstPart n⟩], []⟩ := by
  rw [pop, if_neg hav, if_neg hn]
  rfl

/-- A look ahead from the beginning of the array, or around its end, is right. -/
theorem Rep.peek_ret (h : b.Rep l) (hpos : 0 < n) (hn : n ≤ l.length)
    (hw : (b.head < b.tail ∨ b.full = true) ∨ b.tail = 0) :
    (b.pop n true).ret = some (l.take n) := by
  rw [peek_eq (by rw [h.available_eq]; omega) (by omega)]
  have hparts := h.load_parts hn
  rw [afterFirst_data] at hparts
  rw [← hparts]
  by_cases hwraps : b.head < b.tail ∨ b.full = true
  · rcases Nat.lt_or_ge (b.firstPart n) n with hrest | hrest
    · rw [(afterFirst_tail_of_wraps h hwraps hrest).2]
    · rw [Nat.sub_eq_zero_of_le hrest, load_zero, load_zero]
  · have htail : (b.afterFirst n).tail = b.tail := by
      rw [BipBuf.afterFirst, if_neg hwraps, clearFull_tail]
    rw [htail, hw.resolve_left hwraps]

/-- A look ahead writes what a removal behind it writes, and leaves the buffer as it is. -/
def PeeksAsPops (b : BipBuf T α) (n : ℕ) : Prop :=
  (b.pop n true).ret = ((b.pop n true).buf.pop n false).ret ∧ (b.pop n true).buf = b

/-- **Where a look ahead is right.** It writes the items that a removal would exactly if the items
go around the end of the array or fill it, or if the cells at the beginning of the array hold the
same items as those at the tail. -/
theorem peeksAsPops_iff (h : b.Rep l) (hpos : 0 < n) (hn : n ≤ b.available) :
    b.PeeksAsPops n ↔
      (b.head < b.tail ∨ b.full = true) ∨ load b.data 0 n = load b.data b.tail n := by
  have hpeek := peek_eq (b := b) (n := n) (Nat.not_lt.mpr hn) (by omega)
  have hpop := pop_eq (b := b) (n := n) (Nat.not_lt.mpr hn) (by omega)
  rw [PeeksAsPops, hpeek]
  simp only [and_true]
  rw [hpop, afterFirst_data, Option.some.injEq, List.append_cancel_left_eq]
  by_cases hw : b.head < b.tail ∨ b.full = true
  · refine iff_of_true ?_ (Or.inl hw)
    rcases Nat.lt_or_ge (b.firstPart n) n with hrest | hrest
    · rw [(afterFirst_tail_of_wraps h hw hrest).2]
    · rw [Nat.sub_eq_zero_of_le hrest, load_zero, load_zero]
  · have hx : b.firstPart n = 0 := if_neg hw
    have htail : (b.afterFirst n).tail = b.tail := by
      rw [afterFirst, if_neg hw, clearFull_tail]
    rw [hx, htail, Nat.sub_zero]
    exact ⟨Or.inr, fun hor ↦ hor.resolve_left hw⟩

theorem peeksAsPops_pushed :
    let b : BipBuf .uint32 Char := ((new (fun _ ↦ 'x') ⟨8, by decide, by decide⟩).pushBlock
      (some fun i ↦ if i = 0 then 'a' else 'b') 2).buf
    b.PeeksAsPops 2 :=
  (peeksAsPops_iff (Wf.rep ⟨by decide, by decide, by decide⟩) (by decide) (by decide)).mpr
    (Or.inr (by decide))

/-- Two items are pushed and one is removed: a look at the second shows the first again. -/
theorem not_peeksAsPops_of_moved :
    let b := (((new (fun _ ↦ 0) (⟨8, by decide, by decide⟩ : Capacity .uint32)).pushBlock
      (some fun i ↦ i + 1) 2).buf.pop 1 false).buf
    b.Wf ∧ 0 < 1 ∧ 1 ≤ b.available ∧ ¬b.PeeksAsPops 1 ∧
      (b.pop 1 true).ret = some [1] ∧ (b.pop 1 false).ret = some [2] := by
  refine ⟨⟨by decide, by decide, by decide⟩, by decide, by decide, fun h ↦ ?_, by decide, by decide⟩
  exact absurd h.1 (by decide)

/-! ## Refusals -/

/-- A callback that is watched: the segments it gets are recorded, each with its answer. -/
def watched {σ : Type*} (cb : σ → List α → Bool × σ) (s : σ × List (List α × Bool))
    (segment : List α) : Bool × (σ × List (List α × Bool)) :=
  ((cb s.1 segment).1, (cb s.1 segment).2, s.2 ++ [(segment, (cb s.1 segment).1)])

/-- The items that were passed to the callback. -/
def passed (calls : List (List α × Bool)) : List α := (calls.map Prod.fst).flatten

/-- The items it took. -/
def taken (calls : List (List α × Bool)) : List α := passed (calls.filter Prod.snd)

/-- A removal of `n` items of `l` that ended with `ret` and the buffer `b'` has passed the segments
in `calls`: they are the oldest items, and the buffer is left without those that were taken. -/
structure Removes (b : BipBuf T α) (l : List α) (n : ℕ) (ret : Bool) (calls : List (List α × Bool))
    (b' : BipBuf T α) : Prop where
  in_order : passed calls <+: l.take n
  ret_iff : ret = true ↔ taken calls = l.take n
  split : taken calls ++ l.drop (taken calls).length = l
  rep : b'.Rep (l.drop (taken calls).length)
  capacity_eq : b'.capacity = b.capacity
  bounded : b.Bounded → b'.Bounded

section Calls

variable {σ : Type*} {cb : σ → List α → Bool × σ} {s : σ}

theorem Rep.removes_all (h : b.Rep l) (hpos : 0 < n) (hn : n ≤ l.length)
    {calls : List (List α × Bool)}
    (hpassed : passed calls = l.take n) (htaken : taken calls = l.take n) :
    b.Removes l n true calls ((b.afterFirst n).advance (n - b.firstPart n)) := by
  have hlen : (taken calls).length = n := by rw [htaken, List.length_take, Nat.min_eq_left hn]
  refine ⟨hpassed ▸ List.prefix_refl _, iff_of_true rfl htaken, ?_, ?_, ?_, ?_⟩
  · rw [hlen, htaken, List.take_append_drop]
  · rw [hlen]
    exact h.consumed hpos hn
  · rw [advance_capacity, afterFirst_capacity]
  · exact h.consumed_bounded hn

theorem removes_some {b' : BipBuf T α} {k : ℕ} (hk : k < n) (hn : n ≤ l.length)
    (hrep : b'.Rep (l.drop k))
    (hcap : b'.capacity = b.capacity) (hbounded : b.Bounded → b'.Bounded)
    {calls : List (List α × Bool)}
    (hpassed : passed calls <+: l.take n) (htaken : taken calls = l.take k) :
    b.Removes l n false calls b' := by
  have hlen : (taken calls).length = k := by
    rw [htaken, List.length_take, Nat.min_eq_left (Nat.le_trans (Nat.le_of_lt hk) hn)]
  refine ⟨hpassed, ?_, ?_, by rwa [hlen], hcap, hbounded⟩
  · refine iff_of_false Bool.false_ne_true fun heq ↦ ?_
    rw [heq, List.length_take, Nat.min_eq_left hn] at hlen
    exact Nat.lt_irrefl _ (hlen ▸ hk)
  · rw [hlen, htaken, List.take_append_drop]

end Calls

theorem Rep.load_first (h : b.Rep l) (hn : n ≤ l.length) :
    load b.data b.tail (b.firstPart n) = l.take (b.firstPart n) :=
  h.holds.load (h.afterFirst hn).2.2 (Nat.le_trans (firstPart_le n) hn)

theorem Rep.load_second (h : b.Rep l) (hn : n ≤ l.length) :
    load (b.afterFirst n).data (b.afterFirst n).tail (n - b.firstPart n)
      = (l.drop (b.firstPart n)).take (n - b.firstPart n) := by
  obtain ⟨hlay, hsecond, -⟩ := h.afterFirst hn
  refine hlay.holds.load (by simpa using hsecond) ?_
  rw [List.length_drop]
  omega

/-- A removal that goes around the end of the array calls back once or twice. -/
theorem popAll_of_wraps (hav : ¬b.available < n) (hn : n ≠ 0) (hw : b.head < b.tail ∨ b.full = true)
    {τ : Type*} (cb : τ → List α → Bool × τ) (s : τ) :
    let first := cb s (load b.data b.tail (b.firstPart n))
    let second := cb first.2 (load (b.afterFirst n).data (b.afterFirst n).tail (n - b.firstPart n))
    (b.popAll cb s n).ret =
        (if first.1 = true then if n - b.firstPart n = 0 then (true, first.2) else second
          else (false, first.2)) ∧
      (b.popAll cb s n).buf =
        if first.1 = true then
          if n - b.firstPart n = 0 ∨ second.1 = true then
            (b.afterFirst n).advance (n - b.firstPart n)
          else b.afterFirst n
        else b := by
  have hx : b.firstPart n = min n (b.capacity - b.tail) := if_pos hw
  have hafter : b.afterFirst n = (b.advance (b.firstPart n)).wrapTail.clearFull := by
    rw [afterFirst, if_pos hw]
  rw [popAll, if_neg hav, if_neg hn, if_pos hw, hafter, hx]
  by_cases hfirst : (cb s (load b.data b.tail (min n (b.capacity - b.tail)))).1 = true
  · by_cases hrest : n - min n (b.capacity - b.tail) = 0
    · simp only [if_pos hfirst, hrest, true_or, if_true]
      exact ⟨trivial, rfl⟩
    · simp only [if_pos hfirst, hrest, false_or, if_false]
      exact ⟨trivial, trivial⟩
  · simp only [if_neg hfirst]
    exact ⟨trivial, trivial⟩

theorem popAll_of_linear (hav : ¬b.available < n) (hn : n ≠ 0)
    (hw : ¬(b.head < b.tail ∨ b.full = true)) {τ : Type*} (cb : τ → List α → Bool × τ) (s : τ) :
    (b.popAll cb s n).ret = cb s (load b.data b.tail n) ∧
      (b.popAll cb s n).buf =
        if (cb s (load b.data b.tail n)).1 = true then (b.afterFirst n).advance (n - b.firstPart n)
        else b := by
  have hclear : b.clearFull = b := by
    have hf : b.full = false := Bool.eq_false_iff.mpr fun hf ↦ hw (Or.inr hf)
    rw [clearFull, ← hf]
  rw [popAll, if_neg hav, if_neg hn, if_neg hw, afterFirst, if_neg hw, firstPart, if_neg hw, hclear]
  exact ⟨rfl, rfl⟩

/-! ## An interrupted removal -/

section Interrupted

variable {σ : Type*}

/-- **An interrupted removal keeps what was refused.** Whatever the callback answers, the segments
it gets are the oldest items in order, the removal returns `true` exactly if all `n` were taken, and
the buffer is left well-formed with its former contents without the segments that were taken. That
the callback is watched changes nothing. -/
theorem popAll_removes (h : b.Rep l) (hpos : 0 < n) (hn : n ≤ b.available)
    (cb : σ → List α → Bool × σ) (s : σ) :
    let o := b.popAll (watched cb) (s, []) n
    b.Removes l n o.ret.1 o.ret.2.2 o.buf ∧ o.buf = (b.popAll cb s n).buf ∧
      (o.ret.1, o.ret.2.1) = (b.popAll cb s n).ret := by
  have hlen : n ≤ l.length := by rwa [h.available_eq] at hn
  have hav := Nat.not_lt.mpr hn
  have hne := Nat.pos_iff_ne_zero.mp hpos
  by_cases hw : b.head < b.tail ∨ b.full = true
  · obtain ⟨hret, hbuf⟩ := popAll_of_wraps hav hne hw (watched cb) (s, [])
    obtain ⟨hret', hbuf'⟩ := popAll_of_wraps hav hne hw cb s
    have hparts := h.load_parts hlen
    have hfirst := h.load_first hlen
    simp only [hret, hbuf, hret', hbuf']
    rw [hfirst] at hparts ⊢
    simp only [watched]
    by_cases htakes : (cb s (l.take (b.firstPart n))).1 = true
    · simp only [htakes, if_true]
      by_cases hrest : n - b.firstPart n = 0
      · simp only [hrest, true_or, if_true]
        refine ⟨?_, trivial, trivial⟩
        have hall : b.firstPart n = n := Nat.le_antisymm (firstPart_le n)
          (Nat.sub_eq_zero_iff_le.mp hrest)
        have hremoves : b.Removes l n true [(l.take (b.firstPart n), true)] _ :=
          h.removes_all hpos hlen (by simp [passed, hall]) (by simp [taken, passed, hall])
        rwa [hrest] at hremoves
      · simp only [hrest, false_or, if_false]
        refine ⟨?_, trivial, trivial⟩
        have hlt : b.firstPart n < n := by omega
        have hsecond := h.load_second hlen
        rw [hsecond] at hparts ⊢
        set k := b.firstPart n
        by_cases hsecond : (cb (cb s (l.take k)).2 ((l.drop k).take (n - k))).1 = true
        · rw [if_pos hsecond, hsecond]
          exact h.removes_all hpos hlen (by simpa [passed] using hparts)
            (by simpa [taken, passed] using hparts)
        · -- the second segment is refused: the buffer stays between the two parts
          rw [if_neg hsecond, Bool.eq_false_iff.mpr hsecond]
          refine removes_some hlt hlen (h.between hw hlen hlt) (afterFirst_capacity n) ?_ ?_ ?_
          · rintro ⟨hhead, -⟩
            refine ⟨by simpa using hhead, ?_⟩
            rw [(afterFirst_tail_of_wraps h hw hlt).2]
            exact (b.afterFirst n).capacity_pos
          · simp [passed, hparts]
          · simp [taken, passed]
    · -- the first segment is refused
      simp only [htakes, Bool.false_eq_true, if_false]
      refine ⟨removes_some hpos hlen h rfl id ?_ (by simp [taken, passed]), trivial, trivial⟩
      rw [← hparts]
      simp [passed]
  · obtain ⟨hret, hbuf⟩ := popAll_of_linear hav hne hw (watched cb) (s, [])
    obtain ⟨hret', hbuf'⟩ := popAll_of_linear hav hne hw cb s
    have hload : load b.data b.tail n = l.take n := by
      have hparts := h.load_parts hlen
      rwa [firstPart, if_neg hw, load_zero, List.nil_append, afterFirst, if_neg hw, Nat.sub_zero]
        at hparts
    simp only [hret, hbuf, hret', hbuf', hload, watched]
    refine ⟨?_, trivial, trivial⟩
    by_cases htakes : (cb s (l.take n)).1 = true
    · rw [if_pos htakes, htakes]
      exact h.removes_all hpos hlen (by simp [passed]) (by simp [taken, passed])
    · rw [if_neg htakes, Bool.eq_false_iff.mpr htakes]
      exact removes_some hpos hlen h rfl id (by simp [passed]) (by simp [taken, passed])

/-- A full buffer of four is asked for three items, and the callback takes its first segment only:
the two items at the end of the array are gone. -/
theorem popAll_removes_first :
    let b : BipBuf .uint64 ℕ := ⟨2, 2, id, 4, true, by decide, by decide⟩
    let o := b.popAll (watched fun k _ ↦ (decide (k = 0), k + 1)) (0, []) 3
    b.Removes b.contents 3 o.ret.1 o.ret.2.2 o.buf ∧ o.ret.1 = false ∧ o.buf.contents = [0, 1] :=
  ⟨(popAll_removes (Wf.rep ⟨by decide, by decide, fun _ ↦ rfl⟩) (by decide) (by decide) _ _).1,
    by decide, by decide⟩

end Interrupted

end BipBuf

end Coypu
