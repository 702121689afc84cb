import Coypu.Buf.Direct
import Coypu.Buf.Mixed

/-!
# Reading without a copy

Runs of `direct`, each call with or without a `backup` of a part of what it handed out. In a buffer
whose items do not go around the end of the array, or that is full, `direct` hands out the longest
run of cells at the tail that holds items, and what is backed up is there again. In any other buffer
the length that it computes is `_head - _tail`, which is negative.

A full buffer gets into that position by a `backup`: its tail is at the beginning of the array
behind the first piece, and what is given back of the piece lies at the end.
-/

set_option autoImplicit false

namespace Coypu

namespace BipBuf

open FlatMemory

variable {T : CapacityType} {α : Type*} {b : BipBuf T α} {l : List α}

/-- `direct`, and a `backup` if one follows. -/
def directStep (b : BipBuf T α) (count : Option ℕ) : BipBuf T α × Option Region :=
  (match count with
    | none => b.direct.buf
    | some k => (b.direct.buf.backup k).buf,
    b.direct.ret)

/-- A `backup` follows a piece that was handed out, and gives back at most its length. -/
def GivesBack (b : BipBuf T α) : Option ℕ → Prop
  | none => True
  | some k => ∃ r, b.direct.ret = some r ∧ k ≤ r.len

/-- The number of items in front of the end of the array. -/
def contiguous (b : BipBuf T α) : ℕ := min b.available (b.capacity - b.tail)

/-- `direct` hands out the longest run of items at the tail and removes them, and `backup` returns
the last of them. -/
structure ReadsExactly (b : BipBuf T α) (count : Option ℕ) : Prop where
  of_nil : b.contents = [] → b.direct.ret = none ∧ b.direct.buf.contents = []
  piece : b.contents ≠ [] → 0 < b.contiguous ∧ b.direct.ret = some ⟨b.tail, b.contiguous⟩ ∧
    load b.data b.tail b.contiguous = b.contents.take b.contiguous ∧
      b.direct.buf.contents = b.contents.drop b.contiguous
  backup : ∀ k, count = some k → (b.directStep count).1.contents
    = b.contents.drop (b.contiguous - k)

/-- Calls of `direct` hand out the whole contents once, and nothing from then on. -/
def Drains (b : BipBuf T α) : Prop :=
  ∃ v : List Region, gather b.data v = b.contents ∧
    ∀ k, (Run.run directStep b (List.replicate (v.length + k) none)).2
      = v.map some ++ List.replicate k none

/-! ## One piece -/

theorem direct_data : b.direct.buf.data = b.data := by
  unfold direct
  split_ifs <;> rfl

theorem direct_wf (h : b.Wf) : b.direct.buf.Wf := by
  have hself := h
  have hcap := b.capacity_pos
  obtain ⟨hhead, htail, -⟩ := h
  unfold direct
  split_ifs
  · exact hself
  · exact ⟨hhead, hhead, fun hf ↦ absurd hf Bool.false_ne_true⟩
  · exact ⟨hhead, hcap, fun hf ↦ absurd hf Bool.false_ne_true⟩
  · exact ⟨hhead, hcap, fun hf ↦ absurd hf Bool.false_ne_true⟩

theorem directStep_wf (h : b.Wf) (count : Option ℕ) : (b.directStep count).1.Wf := by
  cases count with
  | none => exact direct_wf h
  | some k => exact (backup_keeping (direct_wf h) k).wf

/-- A buffer that is not split hands out the items in front of the end of the array. -/
theorem handed_of_unsplit (h : b.Wf) (hun : b.Unsplit) (hne : b.contents ≠ []) :
    b.direct.ret = some ⟨b.tail, b.contiguous⟩ ∧
      Handed b.direct.buf b.capacity b.contents b.contiguous := by
  have hrep := h.rep
  have hav := hrep.available_eq
  by_cases hf : b.full = true
  · have hn : b.contiguous = b.capacity - b.tail := by
      rw [contiguous, hav, (hrep.of_full hf).2]
      omega
    rw [hn]
    exact direct_of_full hrep hf h.tail_lt
  · have hle := hun.resolve_left hf
    have hhead := h.head_lt
    have hn : b.contiguous = b.contents.length := by
      rw [contiguous, hav]
      rcases hrep.of_not_full hf with ⟨-, he⟩ | ⟨hlt, -⟩ <;> omega
    rw [hn]
    exact direct_of_linear hrep hne (Bool.eq_false_iff.mpr hf) hle

theorem contiguous_pos (h : b.Wf) (hne : b.contents ≠ []) : 0 < b.contiguous := by
  have hpos := List.length_pos_iff.mpr hne
  have htail := h.tail_lt
  rw [contiguous, h.rep.available_eq]
  omega

theorem load_contiguous (h : b.Wf) :
    load b.data b.tail b.contiguous = b.contents.take b.contiguous := by
  have hav := h.rep.available_eq
  have htail := h.tail_lt
  refine h.rep.holds.load ?_ ?_
  · unfold contiguous
    omega
  · rw [← hav]
    exact Nat.min_le_left _ _

/-- A split buffer hands out a region that is longer than its items are together. -/
theorem direct_of_split (h : b.Wf) (hun : ¬b.Unsplit) :
    b.contents ≠ [] ∧ ∃ n, b.direct.ret = some ⟨b.tail, n⟩ ∧ b.contents.length < n := by
  obtain ⟨hf, hle⟩ := not_or.mp hun
  have hlt := Nat.not_le.mp hle
  have htail := h.tail_lt
  have hcap := Nat.lt_of_lt_of_le b.capacity_lt T.bound_le
  have hlen : b.tail + b.contents.length = b.head + b.capacity := by
    rcases h.rep.of_not_full hf with ⟨hge, -⟩ | ⟨-, he⟩
    · exact absurd hge hle
    · exact he
  have hempty : ¬b.isEmpty = true := by
    rw [isEmpty, Bool.and_eq_true, decide_eq_true_iff]
    rintro ⟨heq, -⟩
    exact Nat.ne_of_lt hlt heq
  have hcast : ((2 ^ T.bits : ℕ) : ℤ) = 2 ^ T.bits := Int.natCast_pow 2 T.bits
  have hn : (T.ofInt ((b.head : ℤ) - b.tail) : ℤ) = (b.head : ℤ) - b.tail + 2 ^ T.bits :=
    CInt.toUnsigned_of_neg (by omega) (by omega)
  refine ⟨List.length_pos_iff.mp (by omega), T.ofInt ((b.head : ℤ) - b.tail), ?_, by omega⟩
  rw [direct, if_neg hempty, if_neg (Nat.not_lt.mpr (Nat.le_of_lt hlt)), if_neg hf]

theorem readsExactly_of_unsplit (h : b.Wf) (hun : b.Unsplit) {count : Option ℕ}
    (hback : b.GivesBack count) : b.ReadsExactly count := by
  by_cases hne : b.contents = []
  · have hnil := direct_of_nil (hne ▸ h.rep)
    refine ⟨fun _ ↦ ⟨hnil.1, by rw [hnil.2, hne]⟩, fun h' ↦ absurd hne h', ?_⟩
    rintro k rfl
    obtain ⟨r, hr, -⟩ := hback
    rw [hnil.1] at hr
    exact absurd hr (by simp)
  · obtain ⟨hret, hhanded⟩ := handed_of_unsplit h hun hne
    refine ⟨fun h' ↦ absurd h' hne, fun _ ↦ ⟨contiguous_pos h hne, hret, load_contiguous h,
      hhanded.rep.contents_eq⟩, ?_⟩
    rintro k rfl
    obtain ⟨r, hr, hk⟩ := hback
    rw [hret, Option.some.injEq] at hr
    rw [← hr] at hk
    exact (hhanded.backup k hk).1.contents_eq

theorem readsExactly_iff (h : b.Wf) {count : Option ℕ} (hback : b.GivesBack count) :
    b.ReadsExactly count ↔ b.Unsplit := by
  refine ⟨fun hreads ↦ ?_, fun hun ↦ readsExactly_of_unsplit h hun hback⟩
  by_contra hun
  obtain ⟨hne, n, hret, hlt⟩ := direct_of_split h hun
  have hle : b.contiguous ≤ b.contents.length := by
    rw [← h.rep.available_eq]
    exact Nat.min_le_left _ _
  have heq := hret.symm.trans (hreads.piece hne).2.1
  simp only [Option.some.injEq, Region.mk.injEq] at heq
  omega

/-! ## All pieces -/

theorem drains_of_nil (h : b.Wf) (hnil : b.contents = []) : b.Drains := by
  have hdirect := direct_of_nil (hnil ▸ h.rep)
  refine ⟨[], hnil.symm, fun k ↦ ?_⟩
  rw [List.length_nil, Nat.zero_add, List.map_nil, List.nil_append]
  induction k with
  | zero => rfl
  | succ k ih =>
    rw [List.replicate_succ, List.replicate_succ, Run.run_cons]
    simp only [directStep, hdirect.1, hdirect.2]
    rw [ih]

theorem Drains.cons {r : Region} (h : b.direct.buf.Drains) (hret : b.direct.ret = some r)
    (hl : load b.data r.start r.len ++ b.direct.buf.contents = b.contents) : b.Drains := by
  obtain ⟨v, hgather, hrun⟩ := h
  rw [direct_data] at hgather
  refine ⟨r :: v, by rw [gather_cons, hgather, hl], fun k ↦ ?_⟩
  rw [List.length_cons, Nat.add_right_comm, List.replicate_succ, Run.run_cons, List.map_cons,
    List.cons_append, ← hrun k, ← hret]
  rfl

theorem drains_of_handed (h : b.Wf) (hun : b.Unsplit) (hne : b.contents ≠ [])
    (hrest : b.direct.buf.Drains) : b.Drains := by
  obtain ⟨hret, hhanded⟩ := handed_of_unsplit h hun hne
  refine hrest.cons hret ?_
  rw [load_contiguous h, hhanded.rep.contents_eq, List.take_append_drop]

/-- A buffer whose items do not go around the end of the array is empty behind one piece. -/
theorem drains_of_linear (h : b.Wf) (hf : b.full = false) (hle : b.tail ≤ b.head) : b.Drains := by
  by_cases hne : b.contents = []
  · exact drains_of_nil h hne
  · obtain ⟨-, hhanded⟩ := direct_of_linear h.rep hne hf hle
    have hempty : b.direct.buf.contents = [] := by rw [hhanded.rep.contents_eq, List.drop_length]
    exact drains_of_handed h (Or.inr hle) hne (drains_of_nil (direct_wf h) hempty)

theorem drains_of_unsplit (h : b.Wf) (hun : b.Unsplit) : b.Drains := by
  by_cases hne : b.contents = []
  · exact drains_of_nil h hne
  · obtain ⟨-, hhanded⟩ := handed_of_unsplit h hun hne
    exact drains_of_handed h hun hne
      (drains_of_linear (direct_wf h) hhanded.unsplit.1 hhanded.unsplit.2)

theorem unsplit_of_drains (h : b.Wf) (hdrains : b.Drains) : b.Unsplit := by
  by_contra hun
  obtain ⟨hne, n, hret, hlt⟩ := direct_of_split h hun
  obtain ⟨v, hgather, hrun⟩ := hdrains
  cases v with
  | nil => exact hne hgather.symm
  | cons r v =>
    -- the first of the regions is the one that is too long
    have hfirst := hrun 0
    rw [List.length_cons, Nat.add_zero, List.replicate_succ, Run.run_cons, List.map_cons,
      List.cons_append, List.cons.injEq] at hfirst
    have hr : r = ⟨b.tail, n⟩ := (Option.some.inj (hret.symm.trans hfirst.1)).symm
    have hlen := congrArg List.length hgather
    rw [gather_cons, List.length_append, length_load, hr] at hlen
    simp only at hlen
    omega

/-! ## Runs -/

/-- **Where reading without a copy is exact.** In a run of `direct` calls, each with or without a
`backup` of at most what it handed out, every call and every `backup` is exact if and only if no
call finds the items split by the end of the array while the buffer is not full. Calls without a
`backup` yield the whole contents once, and nothing behind them, if and only if this holds of the
buffer they begin with. -/
theorem run_reads_iff (h : b.Wf) {counts : List (Option ℕ)}
    (hback : Run.Steps directStep GivesBack b counts) :
    (Run.Steps directStep ReadsExactly b counts ↔
      Run.Steps directStep (fun b _ ↦ b.Unsplit) b counts) ∧
      (b.Drains ↔ b.Unsplit) := by
  constructor
  · exact Run.steps_congr_of_invariant (P := Wf) (fun b count hb _ ↦ directStep_wf hb count)
      (fun b count hb hc ↦ readsExactly_iff hb hc) h hback
  · exact ⟨unsplit_of_drains h, drains_of_unsplit h⟩

/-- A full buffer of eight, with the tail at 3. -/
def fullAtThree : BipBuf .uint64 ℕ := ⟨3, 3, id, 8, true, by decide, by decide⟩

theorem fullAtThree_wf : fullAtThree.Wf := ⟨by decide, by decide, fun _ ↦ rfl⟩

/-- It is handed out in two pieces. -/
theorem run_reads_fullAtThree :
    Run.Steps directStep ReadsExactly fullAtThree [none, some 1, none] ∧ fullAtThree.Drains := by
  have hback : Run.Steps directStep GivesBack fullAtThree [none, some 1, none] :=
    ⟨trivial, ⟨⟨0, 3⟩, by decide, by decide⟩, trivial, trivial⟩
  have h := run_reads_iff fullAtThree_wf hback
  exact ⟨h.1.mpr (by decide), h.2.mpr (by decide)⟩

/-- One item of the first piece is given back, and the next call hands out a region that goes on far
behind the array. -/
theorem not_run_reads_of_backup :
    fullAtThree.Wf ∧ Run.Steps directStep GivesBack fullAtThree [some 1, none] ∧
      ¬Run.Steps directStep ReadsExactly fullAtThree [some 1, none] ∧
        (Run.run directStep fullAtThree [some 1, none]).2 = [some ⟨3, 5⟩,
          some ⟨7, 2 ^ 64 - 4⟩] := by
  refine ⟨fullAtThree_wf, ⟨⟨⟨3, 5⟩, by decide, by decide⟩, trivial, trivial⟩,
    fun hsteps ↦ ?_, by decide⟩
  have hpiece := (hsteps.2.1.piece (by decide)).2.1
  exact absurd hpiece (by decide)

end BipBuf

end Coypu
