import Mathlib.Algebra.Order.Ring.Int
import Mathlib.Data.List.Basic

/-!
# Transport callbacks

What `readv` and `writev` may do when they are handed a vector of regions of given lengths. A reader
fills a prefix of the regions and returns the number of bytes, or fails; a writer takes a prefix and
returns its length, or fails. Either may stop anywhere, including at zero, and both return an `int`.
The bounds are fields, so that every value of these types is a callback that keeps its contract.
-/

namespace Transport

/-- What a read callback did. -/
inductive IoResult (α : Type*) where
  | error (code : ℤ)
  | data (l : List α)

namespace IoResult

variable {α : Type*}

/-- The `int` returned to the caller. -/
def ret : IoResult α → ℤ
  | error code => code
  | data l => l.length

/-- What was delivered. -/
def bytes : IoResult α → List α
  | error _ => []
  | data l => l

end IoResult

/-- A read callback: it sees the lengths of the regions offered to it. -/
structure Reader (α : Type*) where
  run : List ℕ → IoResult α
  error_neg : ∀ lens code, run lens = .error code → code < 0
  length_le : ∀ lens l, run lens = .data l → l.length ≤ lens.sum
  length_lt : ∀ lens l, run lens = .data l → l.length < 2 ^ 31

/-- A write callback: it returns how many of the offered items it took. -/
structure Writer where
  run : List ℕ → ℤ
  run_le : ∀ lens, run lens ≤ (lens.sum : ℕ)
  run_lt : ∀ lens, run lens < 2 ^ 31

namespace Reader

variable {α : Type*} (cb : Reader α) (lens : List ℕ)

theorem length_bytes_le : (cb.run lens).bytes.length ≤ lens.sum := by
  cases h : cb.run lens with
  | error code => simp [IoResult.bytes]
  | data l => exact cb.length_le lens l h

theorem length_bytes_lt : (cb.run lens).bytes.length < 2 ^ 31 := by
  cases h : cb.run lens with
  | error code => simp [IoResult.bytes]
  | data l => exact cb.length_lt lens l h

/-- Either nothing was delivered, or the returned value is the positive number of items. -/
theorem ret_cases :
    ((cb.run lens).ret ≤ 0 ∧ (cb.run lens).bytes = []) ∨
      (0 < (cb.run lens).ret ∧ (cb.run lens).ret = ((cb.run lens).bytes.length : ℕ)) := by
  cases h : cb.run lens with
  | error code =>
    left
    have hneg := cb.error_neg lens code h
    exact ⟨by rw [IoResult.ret]; omega, rfl⟩
  | data l =>
    cases l with
    | nil => exact Or.inl ⟨Int.le_refl 0, rfl⟩
    | cons a l => exact Or.inr ⟨by simp [IoResult.ret], rfl⟩

/-- Delivers as much of `l` as fits into the offered regions. -/
def ofList (l : List α) (h : l.length < 2 ^ 31) : Reader α where
  run lens := .data (l.take lens.sum)
  error_neg := by simp
  length_le lens k hk := by
    obtain rfl : l.take lens.sum = k := by simpa using hk
    rw [List.length_take]
    omega
  length_lt lens k hk := by
    obtain rfl : l.take lens.sum = k := by simpa using hk
    rw [List.length_take]
    omega

theorem run_ofList {l : List α} (h : l.length < 2 ^ 31) {lens : List ℕ}
    (hle : l.length ≤ lens.sum) : (ofList l h).run lens = .data l := by
  simp only [ofList, List.take_of_length_le hle]

end Reader

/-- Takes at most `n` of the offered items. -/
def Writer.atMost (n : ℕ) (h : n < 2 ^ 31) : Writer where
  run lens := min n lens.sum
  run_le lens := by omega
  run_lt lens := by omega

end Transport
