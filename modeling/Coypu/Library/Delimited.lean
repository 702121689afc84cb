import Mathlib.Algebra.Order.Ring.Int
import Mathlib.Data.List.Basic

/-!
# Delimited records

A format in which each record begins with a header of a fixed size, which gives the length of what
follows (`Format`). Where a record begins depends on the headers before it only (`start`), so it is
not changed by what is appended (`start_append`). No record is the beginning of another, so that
what begins a sequence of records splits into those that are complete and an incomplete one in one
way (`eq_take_count`).
-/

set_option autoImplicit false

namespace Delimited

/-- The size of a header, and the length that a header gives. -/
structure Format (α : Type*) where
  headerSize : ℕ
  length : List α → ℕ

namespace Format

variable {α : Type*} (F : Format α) (bytes : List α)

/-- The header at an offset. -/
def header (o : ℕ) : List α := (bytes.drop o).take F.headerSize

/-- Where a record begins, behind those before it. -/
def start : ℕ → ℕ
  | 0 => 0
  | k + 1 => start k + F.headerSize + F.length (F.header bytes (start k))

variable {F} {bytes}

theorem start_succ (k : ℕ) :
    F.start bytes (k + 1) = F.start bytes k + F.headerSize + F.length
      (F.header bytes (F.start bytes k)) :=
  rfl

theorem mul_le_start (k : ℕ) : k * F.headerSize ≤ F.start bytes k := by
  induction k with
  | zero => exact Nat.le_of_eq (Nat.zero_mul _)
  | succ k ih =>
    rw [Nat.add_one_mul, start_succ]
    omega

theorem header_append {o : ℕ} (h : o + F.headerSize ≤ bytes.length) (more : List α) :
    F.header (bytes ++ more) o = F.header bytes o := by
  rw [header, header, List.drop_append_of_le_length (by omega),
    List.take_append_of_le_length (by rw [List.length_drop]; omega)]

/-- **What is appended moves no record.** -/
theorem start_append {k : ℕ} (h : F.start bytes k ≤ bytes.length) (more : List α) :
    F.start (bytes ++ more) k = F.start bytes k := by
  induction k with
  | zero => rfl
  | succ k ih =>
    rw [start_succ] at h
    rw [start_succ, start_succ, ih (by omega), header_append (by omega)]

/-! ## Records -/

/-- A header, and as many items as it gives. -/
structure IsRecord (F : Format α) (r : List α) : Prop where
  header_le : F.headerSize ≤ r.length
  length_eq : r.length = F.headerSize + F.length (r.take F.headerSize)

/-- The first record is there to its end. -/
def Complete (F : Format α) (l : List α) : Prop :=
  F.headerSize ≤ l.length ∧ F.headerSize + F.length (l.take F.headerSize) ≤ l.length

instance (F : Format α) : DecidablePred F.Complete := fun _ ↦ inferInstanceAs (Decidable (_ ∧ _))

/-- How many of the records end within the first `n` items. -/
def count : List (List α) → ℕ → ℕ
  | [], _ => 0
  | r :: rs, n => if r.length ≤ n then count rs (n - r.length) + 1 else 0

variable {r s l k : List α} {rs done : List (List α)}

theorem IsRecord.complete_append (h : F.IsRecord r) (k : List α) : F.Complete (r ++ k) := by
  have hle := h.header_le
  have hlen := h.length_eq
  refine ⟨by rw [List.length_append]; omega, ?_⟩
  rw [List.take_append_of_le_length hle, List.length_append]
  omega

theorem IsRecord.eq_of_prefix (hr : F.IsRecord r) (hs : F.IsRecord s) (h : r ++ l <+: s ++ k) :
    r = s ∧ l <+: k := by
  obtain ⟨t, ht⟩ := h
  have hheader : r.take F.headerSize = s.take F.headerSize := by
    have htake := congrArg (List.take F.headerSize) ht
    rwa [List.append_assoc, List.take_append_of_le_length hr.header_le,
      List.take_append_of_le_length hs.header_le] at htake
  have hlen : r.length = s.length := by rw [hr.length_eq, hs.length_eq, hheader]
  rw [List.append_assoc] at ht
  obtain ⟨hrs, hlk⟩ := List.append_inj ht hlen
  exact ⟨hrs, t, hlk⟩

theorem Complete.exists_record (h : F.Complete l) (hrs : ∀ r ∈ rs, F.IsRecord r)
    (hpos : 0 < F.headerSize) (hl : l <+: rs.flatten) :
    ∃ r rs' k, rs = r :: rs' ∧ l = r ++ k ∧ k <+: rs'.flatten := by
  obtain ⟨hheader, hlen⟩ := h
  cases rs with
  | nil =>
    have hnil := List.prefix_nil.mp hl
    rw [hnil] at hheader
    exact absurd hheader (Nat.not_le.mpr hpos)
  | cons r rs =>
    have hr := hrs r List.mem_cons_self
    have htake : l.take F.headerSize = r.take F.headerSize := by
      obtain ⟨t, ht⟩ := hl
      have htake := congrArg (List.take F.headerSize) ht
      rwa [List.flatten_cons, List.take_append_of_le_length hheader,
        List.take_append_of_le_length hr.header_le] at htake
    rw [htake, ← hr.length_eq] at hlen
    have hpre : r <+: l :=
      List.prefix_of_prefix_length_le (List.prefix_append r rs.flatten) hl hlen
    obtain ⟨k, rfl⟩ := hpre
    exact ⟨r, rs, k, rfl, rfl, (List.prefix_append_right_inj r).mp hl⟩

theorem prefix_drop (hdone : ∀ r ∈ done, F.IsRecord r) (hrs : ∀ r ∈ rs, F.IsRecord r)
    (hpos : 0 < F.headerSize) (h : done.flatten ++ l <+: rs.flatten) :
    done <+: rs ∧ l <+: (rs.drop done.length).flatten := by
  induction done generalizing rs with
  | nil => exact ⟨List.nil_prefix, h⟩
  | cons d done ih =>
    have hd := hdone d List.mem_cons_self
    cases rs with
    | nil =>
      have hlen := h.length_le
      have hle := hd.header_le
      simp only [List.flatten_cons, List.length_append, List.flatten_nil, List.length_nil] at hlen
      omega
    | cons r rs =>
      rw [List.flatten_cons, List.flatten_cons, List.append_assoc] at h
      obtain ⟨rfl, hrest⟩ := hd.eq_of_prefix (hrs r List.mem_cons_self) h
      obtain ⟨hpre, hdrop⟩ := ih (fun r hr ↦ hdone r (List.mem_cons_of_mem _ hr))
        (fun r hr ↦ hrs r (List.mem_cons_of_mem _ hr)) hrest
      exact ⟨List.cons_prefix_cons.mpr ⟨rfl, hpre⟩, hdrop⟩

theorem count_append_flatten (done rs : List (List α)) (n : ℕ) :
    count (done ++ rs) (done.flatten.length + n) = done.length + count rs n := by
  induction done with
  | nil => rw [List.flatten_nil, List.length_nil, Nat.zero_add, List.nil_append, List.length_nil,
    Nat.zero_add]
  | cons d done ih =>
    rw [List.cons_append, count, List.flatten_cons, List.length_append, Nat.add_assoc,
      if_pos (Nat.le_add_right _ _), Nat.add_sub_cancel_left, ih, List.length_cons]
    omega

/-- **The records before an incomplete one** are those that end within what is there. -/
theorem eq_take_count (hdone : ∀ r ∈ done, F.IsRecord r) (hrs : ∀ r ∈ rs, F.IsRecord r)
    (hpos : 0 < F.headerSize) (h : done.flatten ++ l <+: rs.flatten) (hl : ¬F.Complete l) :
    done = rs.take (count rs (done.flatten ++ l).length) := by
  obtain ⟨⟨rest, rfl⟩, hrest⟩ := prefix_drop hdone hrs hpos h
  rw [List.drop_left] at hrest
  have hzero : count rest l.length = 0 := by
    cases rest with
    | nil => rfl
    | cons r rest =>
      rw [count, if_neg fun hlen ↦ ?_]
      obtain ⟨k, rfl⟩ : r <+: l :=
        List.prefix_of_prefix_length_le (List.prefix_append r rest.flatten) hrest hlen
      exact hl ((hrs r (by simp)).complete_append k)
  rw [List.length_append, count_append_flatten, hzero, Nat.add_zero, List.take_left]

end Format

end Delimited
