import Coypu.Library.Bytes
import Mathlib.Tactic.SplitIfs

/-!
# Records with their length in front

A file of byte strings, each behind its length as eight bytes, the least significant first. There is
no count: the file ends where a length is zero, or with its last record. So a record must not be
empty, and there must be no bytes behind the last one or at least those of a length.
-/

set_option autoImplicit false

namespace Records

/-- A length as the eight bytes of a word. -/
def lengthBytes (n : ℕ) : List UInt8 := (Bytes.encode 8 n).reverse

/-- The length that eight bytes stand for. -/
def lengthOf (l : List UInt8) : ℕ := Bytes.decode l.reverse

/-- A record. -/
def encode (l : List UInt8) : List UInt8 := lengthBytes l.length ++ l

/-- The records of a file. -/
def encodeAll (ls : List (List UInt8)) : List UInt8 := ls.flatMap encode

/-- The records at the beginning of a byte string and how long they are together, if each has at
most `max` bytes. -/
def parse (max : ℕ) : ℕ → List UInt8 → Option (List (List UInt8) × ℕ)
  | 0, _ => none
  | fuel + 1, bytes =>
    if bytes = [] then some ([], 0)
    else if bytes.length < 8 then none
    else
      let len := lengthOf (bytes.take 8)
      if len = 0 then some ([], 0)
      else if max < len ∨ bytes.length < 8 + len then none
      else (parse max fuel (bytes.drop (8 + len))).map fun r ↦
        ((bytes.drop 8).take len :: r.1, 8 + len + r.2)

variable {l k : List UInt8} {ls : List (List UInt8)}

@[simp] theorem length_lengthBytes (n : ℕ) : (lengthBytes n).length = 8 := by
  rw [lengthBytes, List.length_reverse, Bytes.length_encode]

@[simp] theorem length_encode (l : List UInt8) : (encode l).length = 8 + l.length := by
  rw [encode, List.length_append, length_lengthBytes]

theorem lengthOf_lengthBytes {n : ℕ} (h : n < 256 ^ 8) : lengthOf (lengthBytes n) = n := by
  rw [lengthOf, lengthBytes, List.reverse_reverse, Bytes.decode_encode h]

theorem lengthOf_zeros : lengthOf (List.replicate 8 0) = 0 := by decide

theorem encodeAll_concat (ls : List (List UInt8)) (l : List UInt8) :
    encodeAll (ls ++ [l]) = encodeAll ls ++ encode l := by
  rw [encodeAll, encodeAll, List.flatMap_append, List.flatMap_singleton]

theorem length_le_length_encodeAll (ls : List (List UInt8)) :
    ls.length ≤ (encodeAll ls).length := by
  induction ls with
  | nil => exact Nat.le_refl 0
  | cons l ls ih =>
    rw [encodeAll, List.flatMap_cons, ← encodeAll, List.length_append, length_encode,
      List.length_cons]
    omega

theorem length_encodeAll_le {n : ℕ} (h : ∀ l ∈ ls, l.length ≤ n) :
    (encodeAll ls).length ≤ ls.length * (8 + n) := by
  induction ls with
  | nil => exact Nat.zero_le _
  | cons l ls ih =>
    have hl := h l List.mem_cons_self
    have hls := ih fun l hl ↦ h l (List.mem_cons_of_mem _ hl)
    rw [encodeAll, List.flatMap_cons, ← encodeAll, List.length_append, length_encode,
      List.length_cons, Nat.add_one_mul]
    omega

theorem parse_encode {max fuel : ℕ} (hpos : l ≠ []) (hmax : l.length ≤ max)
    (hword : max < 256 ^ 8) :
    parse max (fuel + 1) (encode l ++ k)
      = (parse max fuel k).map fun r ↦ (l :: r.1, 8 + l.length + r.2) := by
  have hlen := List.length_pos_iff.mpr hpos
  have htotal : (encode l ++ k).length = 8 + l.length + k.length := by
    rw [List.length_append, length_encode]
  have hfirst : (encode l ++ k).take 8 = lengthBytes l.length := by
    rw [encode, List.append_assoc, List.take_left' (length_lengthBytes _)]
  have hrest : (encode l ++ k).drop 8 = l ++ k := by
    rw [encode, List.append_assoc, List.drop_left' (length_lengthBytes _)]
  have hdrop : (encode l ++ k).drop (8 + l.length) = k := List.drop_left' (length_encode l)
  have hne : encode l ++ k ≠ [] := by
    rw [← List.length_pos_iff]
    omega
  rw [parse, if_neg hne, if_neg (by omega)]
  simp only [hfirst, lengthOf_lengthBytes (Nat.lt_of_le_of_lt hmax hword)]
  rw [if_neg (by omega), if_neg (by omega), hdrop, hrest, List.take_left]

/-- **A file of records and zeros is parsed** if no record is empty and the zeros are none or enough
for a length. -/
theorem parse_encodeAll {max fuel n : ℕ} (hne : ∀ l ∈ ls, l ≠ []) (hmax : ∀ l ∈ ls, l.length ≤ max)
    (hword : max < 256 ^ 8) (hn : n = 0 ∨ 8 ≤ n) (hfuel : ls.length < fuel) :
    parse max fuel (encodeAll ls ++ List.replicate n 0) = some (ls, (encodeAll ls).length) := by
  induction ls generalizing fuel with
  | nil =>
    obtain ⟨fuel, rfl⟩ := Nat.exists_eq_add_one_of_ne_zero (Nat.ne_of_gt hfuel)
    rw [encodeAll, List.flatMap_nil, List.nil_append, parse]
    rcases hn with rfl | hn
    · rfl
    · rw [if_neg (by simp; omega), if_neg (by simpa using hn), List.take_replicate,
        Nat.min_eq_left hn]
      simp only [lengthOf_zeros, if_true]
      rfl
  | cons l ls ih =>
    obtain ⟨fuel, rfl⟩ := Nat.exists_eq_add_one_of_ne_zero (Nat.ne_of_gt (Nat.zero_lt_of_lt hfuel))
    have hrest := @ih fuel (fun l hl ↦ hne l (List.mem_cons_of_mem _ hl))
      (fun l hl ↦ hmax l (List.mem_cons_of_mem _ hl)) (Nat.lt_of_succ_lt_succ hfuel)
    have hcons : encodeAll (l :: ls) = encode l ++ encodeAll ls := List.flatMap_cons
    rw [hcons, List.append_assoc,
      parse_encode (hne l List.mem_cons_self) (hmax l List.mem_cons_self)
      hword, hrest, Option.map_some, List.length_append, length_encode]

end Records
