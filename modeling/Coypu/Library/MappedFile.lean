import Coypu.Library.Memory
import Mathlib.Tactic.SplitIfs

/-!
# Mapped files

A file that is read and written through shared mappings. Bytes behind its end count as zeros: a
larger size adds zeros, and what is written through a mapping behind the end does not reach the
file. A mapping can be accessed up to the end of the memory page in which the file ends. An access
behind it faults.

Anonymous memory is a file whose size grows with each mapping.
-/

set_option autoImplicit false

open FlatMemory

@[ext]
structure MappedFile where
  data : ℕ → UInt8
  size : ℕ
  zero_of_le : ∀ i, size ≤ i → data i = 0

namespace MappedFile

variable (f : MappedFile)

def empty : MappedFile := ⟨fun _ ↦ 0, 0, fun _ _ ↦ rfl⟩

def ofList (l : List UInt8) : MappedFile where
  data i := l.getD i 0
  size := l.length
  zero_of_le _ h := List.getD_eq_default _ _ h

/-- Give the file a size. -/
def truncate (n : ℕ) : MappedFile where
  data i := if i < n then f.data i else 0
  size := n
  zero_of_le _ h := if_neg (Nat.not_lt_of_le h)

/-- Write through a mapping. -/
def write (start : ℕ) (l : List UInt8) : MappedFile where
  data i := if i < f.size then store f.data start l i else 0
  size := f.size
  zero_of_le _ h := if_neg (Nat.not_lt_of_le h)

/-- Zeros for a run of bytes, which the file has afterwards. -/
def zeroed (start len : ℕ) : MappedFile where
  data i := if start ≤ i ∧ i < start + len then 0 else f.data i
  size := max f.size (start + len)
  zero_of_le i h := by
    split_ifs
    · rfl
    · exact f.zero_of_le i (Nat.le_trans (Nat.le_max_left _ _) h)

/-- The end of the memory page in which the file ends. -/
def extent (page : ℕ) : ℕ := (f.size + (page - 1)) / page * page

/-- Read through a mapping, or fault. -/
def read (page start len : ℕ) : Option (List UInt8) :=
  if len = 0 ∨ start + len ≤ f.extent page then some (load f.data start len) else none

variable {f}

@[simp] theorem truncate_size (n : ℕ) : (f.truncate n).size = n := rfl

@[simp] theorem write_size (start : ℕ) (l : List UInt8) : (f.write start l).size = f.size := rfl

@[simp] theorem zeroed_size (start len : ℕ) :
    (f.zeroed start len).size = max f.size (start + len) := rfl

theorem truncate_data_of_lt {n i : ℕ} (h : i < n) : (f.truncate n).data i = f.data i := if_pos h

theorem truncate_data {n : ℕ} (h : f.size ≤ n) : (f.truncate n).data = f.data := by
  funext i
  by_cases hi : i < n
  · exact if_pos hi
  · rw [f.zero_of_le i (by omega)]
    exact if_neg hi

theorem zeroed_data {start len : ℕ} (h : f.size ≤ start) : (f.zeroed start len).data = f.data := by
  funext i
  by_cases hi : start ≤ i ∧ i < start + len
  · rw [f.zero_of_le i (by omega)]
    exact if_pos hi
  · exact if_neg hi

theorem write_data {start : ℕ} {l : List UInt8} (h : start + l.length ≤ f.size) :
    (f.write start l).data = store f.data start l := by
  funext i
  by_cases hi : i < f.size
  · exact if_pos hi
  · rw [store_of_le (by omega), f.zero_of_le i (by omega)]
    exact if_neg hi

theorem write_data_of_lt {start i : ℕ} (l : List UInt8) (h : i < start) :
    (f.write start l).data i = f.data i := by
  by_cases hi : i < f.size
  · rw [← store_of_lt (m := f.data) l h]
    exact if_pos hi
  · rw [f.zero_of_le i (by omega)]
    exact if_neg hi

@[simp] theorem write_data_nil (start : ℕ) : (f.write start []).data = f.data := by
  funext i
  by_cases hi : i < f.size
  · have hstore : (f.write start []).data i = store f.data start [] i := if_pos hi
    rw [hstore, store_nil]
  · rw [f.zero_of_le i (by omega)]
    exact if_neg hi

theorem write_append (start : ℕ) (l k : List UInt8) :
    f.write start (l ++ k) = (f.write start l).write (start + l.length) k := by
  refine MappedFile.ext (funext fun i ↦ ?_) rfl
  by_cases hi : i < f.size
  · have hfirst : (f.write start l).data i = store f.data start l i := if_pos hi
    have hboth : (f.write start (l ++ k)).data i = store f.data start (l ++ k) i := if_pos hi
    have hsecond : ((f.write start l).write (start + l.length) k).data i
        = store (f.write start l).data (start + l.length) k i := if_pos hi
    rw [hboth, hsecond, store_append, store_congr hfirst]
  · exact (if_neg hi).trans (if_neg hi).symm

theorem write_load {start n : ℕ} {l : List UInt8} (h : start + l.length ≤ f.size)
    (hn : n = l.length) : (f.write start l).write start (load f.data start n) = f := by
  refine MappedFile.ext ?_ rfl
  rw [write_data (by rwa [length_load, hn]), write_data h]
  funext i
  rcases Nat.lt_or_ge i start with hlt | hge
  · rw [store_of_lt _ hlt, store_of_lt _ hlt]
  obtain ⟨k, rfl⟩ := Nat.exists_eq_add_of_le hge
  by_cases hk : k < n
  · rw [store_add (by rwa [length_load]), getElem_load]
  · rw [store_of_le (by rw [length_load]; omega), store_of_le (by omega)]

theorem size_le_extent {page : ℕ} (h : 0 < page) : f.size ≤ f.extent page := by
  have hlt := Nat.lt_mul_div_succ (f.size + (page - 1)) h
  rw [Nat.mul_add_one, Nat.mul_comm] at hlt
  rw [extent]
  omega

theorem read_of_le_extent {page start len : ℕ} (h : start + len ≤ f.extent page) :
    f.read page start len = some (load f.data start len) :=
  if_pos (Or.inr h)

theorem read_eq {page start len : ℕ} (hpage : 0 < page) (h : start + len ≤ f.size) :
    f.read page start len = some (load f.data start len) :=
  read_of_le_extent (Nat.le_trans h (size_le_extent hpage))

theorem read_one (page i : ℕ) :
    f.read page i 1 = if i < f.extent page then some [f.data i] else none := by
  rw [read, load_succ, load_zero]
  exact if_congr (by omega) rfl rfl

theorem eq_of_read {page start len : ℕ} {l : List UInt8} (h : f.read page start len = some l) :
    l = load f.data start len := by
  unfold read at h
  split_ifs at h
  exact (Option.some.inj h).symm

theorem le_extent_of_read {page start len : ℕ} {l : List UInt8}
    (h : f.read page start len = some l) : len = 0 ∨ start + len ≤ f.extent page := by
  unfold read at h
  split_ifs at h with hread
  exact hread

end MappedFile
