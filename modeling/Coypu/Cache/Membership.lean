import Coypu.Cache.TagDelivery
import Coypu.Library.Run

/-!
# A set of tags

`TagSub` is a set of 32-bit numbers, in a vector of bits that grows when a number behind its end is
set. The new size is a 32-bit sum: for one of the last sixteen numbers it wraps around, the vector
becomes shorter instead of longer, and the loop of `Set` goes on for ever.

In every run the set has the numbers that were set after they were last cleared (`LastSet`), and
every call returns, exactly if no such number is set while the vector is too short for it.
-/

set_option autoImplicit false

namespace Coypu

/-- The calls of a `TagSub`. -/
inductive SubOp where
  | set (tagid : UInt32)
  | clear (tagid : UInt32)
  | clearAll
  | isSet (tagid : UInt32)
deriving DecidableEq

/-! ## The other functions of the class -/

namespace TagSub

variable (s : TagSub)

def clear (tagid : UInt32) : TagSub :=
  if tagid.toNat < s.size then { s with tags := Function.update s.tags tagid.toNat false } else s

/-- `ClearAll`, which leaves a vector without bits. -/
def clearAll : TagSub := { s with size := 0 }

def getMaxTag : ℕ := s.size

/-- What `IsSet` returns. -/
def answer : SubOp → Option Bool
  | .isSet tagid => some (s.isSet tagid)
  | .set _ | .clear _ | .clearAll => none

/-- A call. Only `Set` may not return. -/
def call : SubOp → Option TagSub
  | .set tagid => s.set tagid
  | .clear tagid => some (s.clear tagid)
  | .clearAll => some s.clearAll
  | .isSet _ => some s

variable {s} {s' : TagSub} {tagid t : UInt32}

/-! ## When `Set` returns -/

/-- The vector has a bit for the number, or gets it. -/
def HasRoom (s : TagSub) (tagid : UInt32) : Prop :=
  tagid.toNat < s.getMaxTag ∨ tagid.toNat < 2 ^ 32 - 16

instance (s : TagSub) (tagid : UInt32) : Decidable (s.HasRoom tagid) :=
  inferInstanceAs (Decidable (_ ∨ _))

theorem toNat_add_sixteen (tagid : UInt32) :
    (tagid + 16).toNat = if tagid.toNat < 2 ^ 32 - 16 then tagid.toNat + 16
      else tagid.toNat + 16 - 2 ^ 32 := by
  have hlt := tagid.toNat_lt
  have hsum : (tagid + 16).toNat = (tagid.toNat + 16) % 2 ^ 32 := UInt32.toNat_add tagid 16
  rw [hsum]
  split_ifs <;> omega

theorem grow_of_not_hasRoom (h : ¬ s.HasRoom tagid) (fuel : ℕ) : s.grow tagid fuel = none := by
  induction fuel generalizing s with
  | zero => rfl
  | succ fuel ih =>
    obtain ⟨hsize, hlarge⟩ := not_or.mp h
    have hshort : s.size ≤ tagid.toNat := Nat.le_of_not_lt hsize
    rw [grow, if_pos hshort]
    apply ih
    rintro (hlt | hlt)
    · have hlt' : tagid.toNat < (tagid + 16).toNat := hlt
      have hbound := tagid.toNat_lt
      rw [toNat_add_sixteen, if_neg hlarge] at hlt'
      omega
    · exact hlarge hlt

theorem set_isSome_iff : (s.set tagid).isSome = true ↔ s.HasRoom tagid := by
  constructor
  · intro hsome
    by_contra hroom
    rw [set, grow_of_not_hasRoom hroom] at hsome
    exact absurd hsome (by simp)
  · intro hroom
    rw [set, Option.isSome_map, grow]
    split_ifs with hsize
    · have hlarge : tagid.toNat < 2 ^ 32 - 16 := hroom.resolve_left (Nat.not_lt.mpr hsize)
      have hlt : ¬ (s.resize (tagid + 16).toNat).size ≤ tagid.toNat := by
        have hgrown : (s.resize (tagid + 16).toNat).size = tagid.toNat + 16 := by
          rw [resize, toNat_add_sixteen, if_pos hlarge]
        omega
      rw [grow, if_neg hlt]
      rfl
    · rfl

/-! ## What the calls do to the members -/

theorem isSet_new (t : UInt32) : new.isSet t = false := ite_self false

theorem isSet_clear : (s.clear tagid).isSet t = true ↔ t ≠ tagid ∧ s.isSet t = true := by
  by_cases ht : t = tagid
  · subst ht
    rw [clear, isSet_eq]
    split_ifs with hsize <;> simp [hsize]
  · have hne : t.toNat ≠ tagid.toNat := fun heq ↦ ht (UInt32.toNat_inj.mp heq)
    rw [clear, isSet_eq, isSet_eq]
    split_ifs <;> simp [ht, Function.update_of_ne hne]

theorem isSet_clearAll : s.clearAll.isSet t = false := by simp [isSet, clearAll]

end TagSub

/-! ## Runs -/

/-- The number was set, and not cleared since. -/
def LastSet (ops : List SubOp) (t : UInt32) : Prop :=
  ∃ before after, ops = before ++ .set t :: after ∧ .clear t ∉ after ∧ .clearAll ∉ after

theorem not_lastSet_nil (t : UInt32) : ¬ LastSet [] t := by
  rintro ⟨before, after, heq, -⟩
  exact absurd heq (by simp)

theorem lastSet_concat {ops : List SubOp} {op : SubOp} {t : UInt32} :
    LastSet (ops ++ [op]) t ↔
      op = .set t ∨ (op ≠ .clear t ∧ op ≠ .clearAll ∧ LastSet ops t) := by
  constructor
  · rintro ⟨before, after, heq, hclear, hall⟩
    rcases List.eq_nil_or_concat after with rfl | ⟨after, last, rfl⟩
    · have hlast := (List.append_inj' heq rfl).2
      exact Or.inl (List.singleton_inj.mp hlast)
    · rw [List.concat_eq_append] at heq hclear hall
      rw [← List.cons_append, ← List.append_assoc] at heq
      obtain ⟨rfl, hlast⟩ := List.append_inj' heq rfl
      obtain rfl := List.singleton_inj.mp hlast
      simp only [List.mem_append, List.mem_singleton, not_or] at hclear hall
      exact Or.inr ⟨Ne.symm hclear.2, Ne.symm hall.2, before, after, rfl, hclear.1, hall.1⟩
  · rintro (rfl | ⟨hclear, hall, before, after, rfl, hclear', hall'⟩)
    · exact ⟨ops, [], rfl, List.not_mem_nil, List.not_mem_nil⟩
    · refine ⟨before, after ++ [op], by simp, ?_, ?_⟩
      · simp [hclear', Ne.symm hclear]
      · simp [hall', Ne.symm hall]

/-- A set of tags, if every call so far returned, and the calls. -/
structure SubTrace where
  sub : Option TagSub
  past : List SubOp

namespace SubTrace

def new : SubTrace := ⟨some TagSub.new, []⟩

def step (s : SubTrace) (op : SubOp) : SubTrace × Option Bool :=
  (⟨s.sub.bind (·.call op), s.past ++ [op]⟩, s.sub.bind (·.answer op))

/-- The call returns, and the members behind it are the numbers that were set and not cleared since:
`IsSet` says so, and a `Set` changes the answer for no other number. -/
def IsSetOfTags (s : SubTrace) (op : SubOp) : Prop :=
  ∃ sub, (s.step op).1.sub = some sub ∧
    (∀ t, sub.isSet t = true ↔ LastSet (s.step op).1.past t) ∧
    (∀ t, op = .isSet t → ∃ b, (s.step op).2 = some b ∧ (b = true ↔ LastSet s.past t)) ∧
    ∀ tagid, op = .set tagid →
      ∃ sub₀, s.sub = some sub₀ ∧ ∀ t, t ≠ tagid → sub.isSet t = sub₀.isSet t

/-- The condition on a call: a number is set that is not one of the last sixteen, or the vector has
a bit for it. -/
def Fits (s : SubTrace) : SubOp → Prop
  | .set tagid => ∀ sub ∈ s.sub, sub.HasRoom tagid
  | .clear _ | .clearAll | .isSet _ => True

instance (s : SubTrace) (op : SubOp) : Decidable (s.Fits op) :=
  match op with
  | .set tagid => inferInstanceAs (Decidable (∀ sub ∈ s.sub, sub.HasRoom tagid))
  | .clear _ | .clearAll | .isSet _ => .isTrue trivial

/-- What holds between calls that returned. -/
def Inv (s : SubTrace) : Prop :=
  ∃ sub, s.sub = some sub ∧ ∀ t, sub.isSet t = true ↔ LastSet s.past t

variable {s : SubTrace}

theorem inv_new : new.Inv :=
  ⟨TagSub.new, rfl, fun t ↦
    iff_of_false (by rw [TagSub.isSet_new]; exact Bool.false_ne_true) (not_lastSet_nil t)⟩

theorem isSet_call {sub sub' : TagSub} {op : SubOp}
    (hsub : ∀ t, sub.isSet t = true ↔ LastSet s.past t) (hcall : sub.call op = some sub')
    (t : UInt32) :
    sub'.isSet t = true ↔ LastSet (s.past ++ [op]) t := by
  rw [lastSet_concat, ← hsub]
  cases op with
  | set tagid =>
    rw [TagSub.isSet_set hcall, SubOp.set.injEq, eq_comm (a := t)]
    simp
  | clear tagid =>
    obtain rfl := Option.some.inj hcall
    rw [TagSub.isSet_clear, ne_comm (a := t)]
    simp
  | clearAll =>
    obtain rfl := Option.some.inj hcall
    simp [TagSub.isSet_clearAll]
  | isSet tagid =>
    obtain rfl := Option.some.inj hcall
    simp

theorem call_isSome_iff {sub : TagSub} {op : SubOp} (hsub : s.sub = some sub) :
    (sub.call op).isSome = true ↔ s.Fits op := by
  cases op with
  | set tagid =>
    have hfits : s.Fits (.set tagid) ↔ sub.HasRoom tagid := by simp [Fits, hsub]
    rw [hfits]
    exact TagSub.set_isSome_iff
  | clear tagid | clearAll | isSet tagid => exact ⟨fun _ ↦ trivial, fun _ ↦ rfl⟩

theorem sub_step {sub : TagSub} (hsub : s.sub = some sub) (op : SubOp) :
    (s.step op).1.sub = sub.call op := by
  simp only [step, hsub, Option.bind_some]

theorem Inv.step (h : s.Inv) {op : SubOp} (hfits : s.Fits op) : (s.step op).1.Inv := by
  obtain ⟨sub, hsub, hmembers⟩ := h
  obtain ⟨sub', hcall⟩ := Option.isSome_iff_exists.mp ((call_isSome_iff hsub).mpr hfits)
  exact ⟨sub', (sub_step hsub op).trans hcall, isSet_call hmembers hcall⟩

theorem isSetOfTags_iff (h : s.Inv) (op : SubOp) : s.IsSetOfTags op ↔ s.Fits op := by
  obtain ⟨sub, hsub, hmembers⟩ := h
  constructor
  · rintro ⟨sub', hsub', -⟩
    rw [sub_step hsub] at hsub'
    exact (call_isSome_iff hsub).mp (Option.isSome_iff_exists.mpr ⟨sub', hsub'⟩)
  · intro hfits
    obtain ⟨sub', hcall⟩ := Option.isSome_iff_exists.mp ((call_isSome_iff hsub).mpr hfits)
    refine ⟨sub', (sub_step hsub op).trans hcall, isSet_call hmembers hcall, ?_, ?_⟩
    · rintro t rfl
      refine ⟨sub.isSet t, ?_, hmembers t⟩
      simp only [step, hsub, Option.bind_some, TagSub.answer]
    · rintro tagid rfl
      refine ⟨sub, hsub, fun t ht ↦ ?_⟩
      rw [Bool.eq_iff_iff, TagSub.isSet_set hcall]
      simp [ht]

/-- **When a `TagSub` is a set.** In a run all calls return, and the set has the numbers that were
set and not cleared since, exactly if each number that is set is not one of the last sixteen, or has
a bit already. -/
theorem run_isSetOfTags_iff (ops : List SubOp) :
    Run.Steps step IsSetOfTags new ops ↔ Run.Steps step Fits new ops :=
  Run.steps_iff_of_invariant (P := Inv) (fun _ _ h hfits ↦ h.step hfits)
    (fun _ op h ↦ isSetOfTags_iff h op) inv_new

/-- The largest number: its sum with sixteen is fifteen. -/
theorem not_isSetOfTags_of_last :
    ¬ ∀ ops, Run.Steps step IsSetOfTags new ops := by
  intro h
  have hfits := (isSetOfTags_iff inv_new _).mp (h [.set (2 ^ 32 - 1)]).1
  exact absurd hfits (by decide)

end SubTrace

end Coypu
