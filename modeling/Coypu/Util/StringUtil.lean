import Coypu.Library.Components
import Mathlib.Data.List.DropRight

/-!
# Strings

The functions of `StringUtil`, on strings of bytes. `std::getline` gives no line where nothing is
left of the string, so that a delimiter at the end adds no empty part.
-/

set_option autoImplicit false

namespace Coypu

namespace StringUtil

/-- The loop of `Split`. `item` is what was read of a part. -/
def splitFrom (delim : UInt8) : List UInt8 → List UInt8 → List (List UInt8)
  | item, [] => if item = [] then [] else [item]
  | item, c :: s =>
    if c = delim then item :: splitFrom delim [] s else splitFrom delim (item ++ [c]) s

def split (s : List UInt8) (delim : UInt8) : List (List UInt8) := splitFrom delim [] s

/-- `std::isspace` in the locale of a program that sets none. -/
def isSpace (c : UInt8) : Bool := c = 0x20 || (0x09 ≤ c && c ≤ 0x0D)

def lTrim (s : List UInt8) : List UInt8 := s.dropWhile isSpace

def rTrim (s : List UInt8) : List UInt8 := s.rdropWhile isSpace

def trim (s : List UInt8) : List UInt8 := rTrim (lTrim s)

/-! ## `Split` -/

open Components

variable {d : UInt8} {s item : List UInt8}

theorem splitFrom_eq_nil_iff : splitFrom d item s = [] ↔ item = [] ∧ s = [] := by
  induction s generalizing item with
  | nil => simp [splitFrom]
  | cons c s ih =>
    rw [splitFrom]
    split_ifs
    · simp
    · simp [ih]

theorem split_eq_nil_iff : split s d = [] ↔ s = [] := by
  rw [split, splitFrom_eq_nil_iff, and_iff_right rfl]

theorem not_mem_of_mem_splitFrom (hitem : d ∉ item) {part : List UInt8}
    (h : part ∈ splitFrom d item s) : d ∉ part := by
  induction s generalizing item with
  | nil =>
    rw [splitFrom] at h
    split_ifs at h
    · exact absurd h List.not_mem_nil
    · rwa [List.mem_singleton.mp h]
  | cons c s ih =>
    rw [splitFrom] at h
    split_ifs at h with hc
    · rcases List.mem_cons.mp h with rfl | h
      · exact hitem
      · exact ih List.not_mem_nil h
    · refine ih (fun hmem ↦ ?_) h
      rcases List.mem_append.mp hmem with hmem | hmem
      · exact hitem hmem
      · exact hc (List.mem_singleton.mp hmem).symm

theorem not_mem_of_mem_split {part : List UInt8} (h : part ∈ split s d) : d ∉ part :=
  not_mem_of_mem_splitFrom List.not_mem_nil h

theorem exists_mem_splitFrom_iff {b : UInt8} (hb : b ≠ d) :
    (∃ part ∈ splitFrom d item s, b ∈ part) ↔ b ∈ item ∨ b ∈ s := by
  induction s generalizing item with
  | nil =>
    rw [splitFrom]
    split_ifs with hnil <;> simp [hnil]
  | cons c s ih =>
    rw [splitFrom]
    split_ifs with hc
    · simp [ih, hc, hb]
    · simp [ih, or_assoc]

theorem exists_mem_split_iff {b : UInt8} (hb : b ≠ d) :
    (∃ part ∈ split s d, b ∈ part) ↔ b ∈ s := by
  rw [split, exists_mem_splitFrom_iff hb]
  simp

theorem nonempty_splitFrom (hitem : d ∉ item) :
    nonempty (splitFrom d item s) = names d (item ++ s) := by
  induction s generalizing item with
  | nil =>
    rw [List.append_nil, names_of_not_mem hitem, splitFrom]
    split_ifs with hnil
    · rw [hnil]
      rfl
    · rfl
  | cons c s ih =>
    rw [splitFrom]
    split_ifs with hc
    · subst hc
      have hsplit : nonempty (item :: splitFrom c [] s)
          = nonempty [item] ++ nonempty (splitFrom c [] s) := nonempty_append [item] _
      rw [hsplit, ih List.not_mem_nil, names_append_cons, names_of_not_mem hitem, List.nil_append]
    · have hitem' : d ∉ item ++ [c] := by
        rw [List.mem_append, List.mem_singleton, not_or]
        exact ⟨hitem, Ne.symm hc⟩
      rw [ih hitem', List.append_assoc, List.singleton_append]

theorem nonempty_split (s : List UInt8) (d : UInt8) : nonempty (split s d) = names d s :=
  nonempty_splitFrom List.not_mem_nil

/-- The parts and their delimiters are not longer than the string and one more. -/
theorem sum_splitFrom_le (d : UInt8) (item s : List UInt8) :
    ((splitFrom d item s).map fun part ↦ part.length + 1).sum ≤ item.length + s.length + 1 := by
  induction s generalizing item with
  | nil =>
    rw [splitFrom]
    split_ifs <;> simp
  | cons c s ih =>
    rw [splitFrom]
    split_ifs with hc
    · have hrest := ih []
      rw [List.length_nil, Nat.zero_add] at hrest
      rw [List.map_cons, List.sum_cons, List.length_cons]
      omega
    · have hrest := ih (item ++ [c])
      rw [List.length_append, List.length_singleton] at hrest
      rw [List.length_cons]
      omega

/-- The last part is empty where two delimiters end the string, or one is all of it. -/
theorem getLast?_splitFrom :
    (splitFrom d item s).getLast? = some [] ↔ (item = [] ∧ s = [d]) ∨ [d, d] <:+ s := by
  induction s generalizing item with
  | nil =>
    rw [splitFrom]
    split_ifs with hnil <;> simp [hnil]
  | cons c s ih =>
    rw [splitFrom]
    by_cases hc : c = d
    · subst hc
      rw [if_pos rfl]
      by_cases hs : s = []
      · subst hs
        simp [splitFrom, List.suffix_cons_iff]
      · have hne : splitFrom c [] s ≠ [] := fun heq ↦ hs (splitFrom_eq_nil_iff.mp heq).2
        rw [List.getLast?_cons, List.getLast?_eq_some_getLast hne, Option.getD_some,
          ← List.getLast?_eq_some_getLast hne, ih, List.suffix_cons_iff]
        simp [hs, eq_comm]
    · rw [if_neg hc, ih, List.suffix_cons_iff]
      have hne : [d, d] ≠ c :: s := fun heq ↦ hc (List.cons.inj heq).1.symm
      simp [hc, hne]

/-! ## `Trim` -/

theorem mem_lTrim_iff {b : UInt8} (hb : isSpace b = false) : b ∈ lTrim s ↔ b ∈ s := by
  induction s with
  | nil => exact Iff.rfl
  | cons c s ih =>
    rw [lTrim, List.dropWhile_cons]
    split_ifs with hc
    · have hne : b ≠ c := fun heq ↦ by rw [heq, hc] at hb; exact absurd hb (by decide)
      rw [← lTrim, ih, List.mem_cons, or_iff_right hne]
    · exact Iff.rfl

theorem mem_trim_iff {b : UInt8} (hb : isSpace b = false) : b ∈ trim s ↔ b ∈ s := by
  rw [trim, rTrim, List.rdropWhile, List.mem_reverse]
  exact (mem_lTrim_iff hb).trans (List.mem_reverse.trans (mem_lTrim_iff hb))

end StringUtil

end Coypu
