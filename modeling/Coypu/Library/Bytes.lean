import Mathlib.Algebra.Order.Ring.Int
import Mathlib.Data.List.GetD
import Mathlib.Data.List.Induction

/-!
# Byte strings

Numbers in network byte order at a fixed width, and the masking of a byte string with a repeated
key. Both are their own inverses in the sense a codec needs: decoding undoes encoding, and two keys
that mask alike agree where they were used.
-/

namespace Bytes

/-! ## Network byte order -/

/-- The last `n` bytes of `x`, the most significant first. -/
def encode : ℕ → ℕ → List UInt8
  | 0, _ => []
  | n + 1, x => encode n (x / 256) ++ [UInt8.ofNat (x % 256)]

/-- The number a byte string stands for, the most significant byte first. -/
def decode (l : List UInt8) : ℕ := l.foldl (fun x b ↦ x * 256 + b.toNat) 0

@[simp] theorem length_encode (n x : ℕ) : (encode n x).length = n := by
  induction n generalizing x with
  | zero => rfl
  | succ n ih => rw [encode, List.length_append, ih, List.length_singleton]

theorem decode_append_singleton (l : List UInt8) (b : UInt8) :
    decode (l ++ [b]) = decode l * 256 + b.toNat := by
  rw [decode, List.foldl_append, List.foldl_cons, List.foldl_nil, ← decode]

theorem decode_encode {n x : ℕ} (h : x < 256 ^ n) : decode (encode n x) = x := by
  induction n generalizing x with
  | zero =>
    have hx : x = 0 := by omega
    rw [hx]
    rfl
  | succ n ih =>
    have hdiv : x / 256 < 256 ^ n := by
      rw [Nat.pow_succ] at h
      exact Nat.div_lt_of_lt_mul (by omega)
    rw [encode, decode_append_singleton, ih hdiv, UInt8.toNat_ofNat']
    omega

theorem encode_decode (l : List UInt8) : encode l.length (decode l) = l := by
  induction l using List.reverseRecOn with
  | nil => rfl
  | append_singleton l b ih =>
    have hb : b.toNat < 256 := b.toNat_lt
    have hdiv : (decode l * 256 + b.toNat) / 256 = decode l := by omega
    have hmod : (decode l * 256 + b.toNat) % 256 = b.toNat := by omega
    rw [List.length_append, List.length_singleton, encode, decode_append_singleton, hdiv, hmod, ih,
      UInt8.ofNat_toNat]

theorem decode_lt (l : List UInt8) : decode l < 256 ^ l.length := by
  induction l using List.reverseRecOn with
  | nil => decide
  | append_singleton l b ih =>
    have hb : b.toNat < 256 := b.toNat_lt
    rw [decode_append_singleton, List.length_append, List.length_singleton, Nat.pow_succ]
    omega

/-! ## Masking -/

/-- The bytes of `l`, each combined with a byte of the key; the first one is used at `phase`. -/
def xorMask (key : List UInt8) (phase : ℕ) (l : List UInt8) : List UInt8 :=
  l.mapIdx fun i b ↦ b ^^^ key.getD ((phase + i) % key.length) 0

@[simp] theorem length_xorMask (key : List UInt8) (phase : ℕ) (l : List UInt8) :
    (xorMask key phase l).length = l.length := by simp [xorMask]

theorem getElem_xorMask (key : List UInt8) (phase : ℕ) {l : List UInt8} {i : ℕ} (h : i < l.length)
    (h' : i < (xorMask key phase l).length) :
    (xorMask key phase l)[i] = l[i] ^^^ key.getD ((phase + i) % key.length) 0 := by
  simp only [xorMask, List.getElem_mapIdx]

theorem xorMask_append (key : List UInt8) (phase : ℕ) (l k : List UInt8) :
    xorMask key phase (l ++ k) = xorMask key phase l ++ xorMask key (phase + l.length) k := by
  rw [xorMask, List.mapIdx_append]
  simp only [xorMask]
  congr 2
  funext i b
  rw [Nat.add_assoc, Nat.add_comm l.length i]

theorem xorMask_xorMask (key : List UInt8) (phase : ℕ) (l : List UInt8) :
    xorMask key phase (xorMask key phase l) = l := by
  refine List.ext_getElem (by simp) fun i h₁ h₂ ↦ ?_
  simp only [xorMask, List.getElem_mapIdx]
  rw [UInt8.xor_assoc, UInt8.xor_self, UInt8.xor_zero]

/-- Keys of one length that undo each other agree, if there are as many bytes to mask. -/
theorem eq_of_xorMask {key key' l : List UInt8} (hlen : key.length = key'.length)
    (hl : key.length ≤ l.length) (h : xorMask key' 0 (xorMask key 0 l) = l) : key = key' := by
  refine List.ext_getElem hlen fun i h₁ h₂ ↦ ?_
  have hi : i < (xorMask key' 0 (xorMask key 0 l)).length := by
    simp only [length_xorMask]
    omega
  have hget := List.getElem_of_eq h hi
  simp only [xorMask, List.getElem_mapIdx, Nat.zero_add, Nat.mod_eq_of_lt h₁, Nat.mod_eq_of_lt h₂,
    List.getD_eq_getElem _ _ h₁, List.getD_eq_getElem _ _ h₂] at hget
  rw [UInt8.xor_assoc] at hget
  exact UInt8.xor_eq_zero_iff.mp (by simpa [← UInt8.xor_assoc] using congrArg (l[i] ^^^ ·) hget)

end Bytes
