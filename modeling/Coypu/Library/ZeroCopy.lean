import Mathlib.Algebra.Order.Ring.Int
import Mathlib.Data.List.Basic
import Mathlib.Tactic.SplitIfs

/-!
# Streams that hand out their memory

A reader of such a stream is given a piece of memory, gives back what it does not need of it, or
skips ahead (`Source`). What it does next may depend on all that it has seen (`Program`).

A source feeds a program from a byte string (`Feeds`) if it hands out the bytes in order. The last
piece may go on behind the bytes that the program is meant to see, but none begins there: the source
is at its end then. That a program takes some bytes (`Takes`) means that it does so from every
source that feeds it.
-/

set_option autoImplicit false

namespace ZeroCopy

/-- A stream with states `σ`. A call that does not return gives `none`. -/
structure Source (σ : Type) where
  next : σ → Option (Option (List UInt8) × σ)
  backUp : ℕ → σ → Option σ
  skip : ℕ → σ → Option (Bool × σ)

/-- A program that reads a stream. -/
inductive Program (α : Type) where
  | pure (a : α)
  | next (k : Option (List UInt8) → Program α)
  | backUp (n : ℕ) (k : Program α)
  | skip (n : ℕ) (k : Bool → Program α)

variable {σ α β : Type}

/-- The result of a program, and the stream as it leaves it. -/
def Program.run (S : Source σ) : Program α → σ → Option (α × σ)
  | .pure a, s => some (a, s)
  | .next k, s => (S.next s).bind fun r ↦ (k r.1).run S r.2
  | .backUp n k, s => (S.backUp n s).bind fun s' ↦ k.run S s'
  | .skip n k, s => (S.skip n s).bind fun r ↦ (k r.1).run S r.2

/-- The next piece that is not empty, as long as it is among the first `rounds` ones. -/
def Source.nextNonEmpty (S : Source σ) : ℕ → σ → Option (Option (List UInt8) × σ)
  | 0, _ => none
  | rounds + 1, s => (S.next s).bind fun r ↦
    if r.1 = some [] then S.nextNonEmpty rounds r.2 else some r

/-- A source that is asked again where a piece is empty. -/
def Source.nonEmpty (rounds : ℕ) (S : Source σ) : Source σ :=
  { S with next := S.nextNonEmpty rounds }

/-- The source hands out the bytes of `data`, of which the program is meant to see the first `len`.
A state is at a position, behind a number of bytes that can be given back. -/
structure Feeds (S : Source σ) (data : List UInt8) (len : ℕ) (at' : σ → ℕ → ℕ → Prop) : Prop where
  next : ∀ ⦃s pos back⦄, at' s pos back → pos < len → ∃ n s', 0 < n ∧ pos + n ≤ data.length ∧
    S.next s = some (some ((data.drop pos).take n), s') ∧ at' s' (pos + n) n
  finish : ∀ ⦃s pos back⦄, at' s pos back → pos = len →
    ∃ s', S.next s = some (none, s') ∧ at' s' pos 0
  backUp : ∀ ⦃s pos back n⦄, at' s pos back → n ≤ back → n ≤ pos ∧
    ∃ s', S.backUp n s = some s' ∧ at' s' (pos - n) 0
  skip : ∀ ⦃s pos back n⦄, at' s pos back → pos + n ≤ len →
    ∃ s', S.skip n s = some (true, s') ∧ at' s' (pos + n) 0

/-- From every source that feeds it with `l`, the program ends behind `l` with a result. -/
def Program.Takes (p : Program α) (l : List UInt8) (result : α → Prop) : Prop :=
  ∀ ⦃σ : Type⦄ ⦃S : Source σ⦄ ⦃data : List UInt8⦄ ⦃len : ℕ⦄ ⦃at' : σ → ℕ → ℕ → Prop⦄,
    Feeds S data len at' → ∀ ⦃s pos back⦄, at' s pos back → pos + l.length ≤ len →
      (data.drop pos).take l.length = l →
        ∃ a s' back', p.run S s = some (a, s') ∧ result a ∧ at' s' (pos + l.length) back'

/-- From every source that feeds it with `l`, the program has a result. Where it ends is left
open. -/
def Program.Sees (p : Program α) (l : List UInt8) (result : α → Prop) : Prop :=
  ∀ ⦃σ : Type⦄ ⦃S : Source σ⦄ ⦃data : List UInt8⦄ ⦃len : ℕ⦄ ⦃at' : σ → ℕ → ℕ → Prop⦄,
    Feeds S data len at' → ∀ ⦃s pos back⦄, at' s pos back → pos + l.length ≤ len →
      (data.drop pos).take l.length = l → ∃ a s', p.run S s = some (a, s') ∧ result a

/-- A source that has to hand out its bytes in order only: it is asked to skip some of them behind a
piece, and what is given back is not asked for again. -/
structure Serves (S : Source σ) (data : List UInt8) (len : ℕ) (at' : σ → ℕ → ℕ → Prop)
    (done' : σ → ℕ → Prop) : Prop where
  next : ∀ ⦃s pos back⦄, at' s pos back → pos < len → ∃ n s', 0 < n ∧ pos + n ≤ data.length ∧
    S.next s = some (some ((data.drop pos).take n), s') ∧ at' s' (pos + n) n
  finish : ∀ ⦃s pos back⦄, at' s pos back → pos = len →
    ∃ s', S.next s = some (none, s') ∧ at' s' pos 0
  backUp : ∀ ⦃s pos back n⦄, at' s pos back → n ≤ back → n ≤ pos ∧
    ∃ s', S.backUp n s = some s' ∧ done' s' (pos - n)
  skip : ∀ ⦃s pos back n⦄, at' s pos back → 0 < pos → 0 < n → pos + n ≤ len →
    ∃ s', S.skip n s = some (true, s') ∧ at' s' (pos + n) 0

/-- From every source that serves it with `l`, the program ends behind `l` with a result. Such a
program asks for a piece first, and gives back at its end. -/
def Program.Consumes (p : Program α) (l : List UInt8) (result : α → Prop) : Prop :=
  ∀ ⦃σ : Type⦄ ⦃S : Source σ⦄ ⦃data : List UInt8⦄ ⦃len : ℕ⦄ ⦃at' : σ → ℕ → ℕ → Prop⦄
    ⦃done' : σ → ℕ → Prop⦄, Serves S data len at' done' →
      ∀ ⦃s pos back⦄, at' s pos back → pos + l.length ≤ len → (data.drop pos).take l.length = l →
        ∃ a s', p.run S s = some (a, s') ∧ result a ∧
          (done' s' (pos + l.length) ∨ ∃ back', at' s' (pos + l.length) back')

theorem Feeds.serves {S : Source σ} {data : List UInt8} {len : ℕ} {at' : σ → ℕ → ℕ → Prop}
    (h : Feeds S data len at') : Serves S data len at' fun s pos ↦ at' s pos 0 where
  next := h.next
  finish := h.finish
  backUp := h.backUp
  skip _ _ _ _ hs _ _ hn := h.skip hs hn

theorem Program.Consumes.takes {p : Program α} {l : List UInt8} {result : α → Prop}
    (h : p.Consumes l result) : p.Takes l result := by
  intro σ S data len at' hfeeds s pos back hs hlen hl
  obtain ⟨a, s', hrun, ha, hs'⟩ := h hfeeds.serves hs hlen hl
  rcases hs' with hs' | ⟨back', hs'⟩
  · exact ⟨a, s', 0, hrun, ha, hs'⟩
  · exact ⟨a, s', back', hrun, ha, hs'⟩

/-- A result that is computed from another. -/
def Program.map (f : α → β) : Program α → Program β
  | .pure a => .pure (f a)
  | .next k => .next fun r ↦ (k r).map f
  | .backUp n k => .backUp n (k.map f)
  | .skip n k => .skip n fun r ↦ (k r).map f

theorem Program.run_map (S : Source σ) (f : α → β) (p : Program α) (s : σ) :
    (p.map f).run S s = (p.run S s).map fun r ↦ (f r.1, r.2) := by
  induction p generalizing s with
  | pure a => rfl
  | next k ih =>
    rw [map, run, run]
    cases S.next s with
    | none => rfl
    | some r => exact ih r.1 r.2
  | backUp n k ih =>
    rw [map, run, run]
    cases S.backUp n s with
    | none => rfl
    | some s' => exact ih s'
  | skip n k ih =>
    rw [map, run, run]
    cases S.skip n s with
    | none => rfl
    | some r => exact ih r.1 r.2

theorem Program.Consumes.map {p : Program α} {l : List UInt8} {result : α → Prop}
    {result' : β → Prop} (h : p.Consumes l result) {f : α → β}
    (hf : ∀ a, result a → result' (f a)) : (p.map f).Consumes l result' := by
  intro σ S data len at' done' hserves s pos back hs hlen hl
  obtain ⟨a, s', hrun, ha, hs'⟩ := h hserves hs hlen hl
  exact ⟨f a, s', by rw [run_map, hrun]; rfl, hf a ha, hs'⟩

/-- Reads `n` bytes behind those that were read, piece by piece. A piece has at least one byte, or
the stream is at its end. -/
def takeLoop : ℕ → ℕ → List UInt8 → Program (List UInt8)
  | 0, _, acc => .pure acc
  | fuel + 1, n, acc =>
    if n = 0 then .pure acc
    else .next fun r ↦
      match r with
      | none => .pure acc
      | some piece =>
        if n ≤ piece.length then .backUp (piece.length - n) (.pure (acc ++ piece.take n))
        else takeLoop fuel (n - piece.length) (acc ++ piece)

/-- Reads `n` bytes. -/
def take (n : ℕ) : Program (List UInt8) := takeLoop n n []

theorem consumes_takeLoop {fuel : ℕ} {l : List UInt8} (acc : List UInt8) (hfuel : l.length ≤ fuel) :
    (takeLoop fuel l.length acc).Consumes l (· = acc ++ l) := by
  induction fuel generalizing l acc with
  | zero =>
    intro σ S data len at' done' hserves s pos back hs _ _
    obtain rfl : l = [] := List.length_eq_zero_iff.mp (Nat.le_zero.mp hfuel)
    exact ⟨acc, s, rfl, (List.append_nil acc).symm, Or.inr ⟨back, hs⟩⟩
  | succ fuel ih =>
    intro σ S data len at' done' hserves s pos back hs hlen hl
    rw [takeLoop]
    by_cases hzero : l.length = 0
    · obtain rfl : l = [] := List.length_eq_zero_iff.mp hzero
      exact ⟨acc, s, rfl, (List.append_nil acc).symm, Or.inr ⟨back, hs⟩⟩
    rw [if_neg hzero, Program.run]
    obtain ⟨n, s', hpos, hdata, hnext, hs'⟩ := hserves.next hs (by omega)
    have hpiece : ((data.drop pos).take n).length = n := by
      rw [List.length_take, List.length_drop]
      omega
    rw [hnext, Option.bind_some]
    simp only [hpiece]
    by_cases hlast : l.length ≤ n
    · -- the rest of the last piece is given back
      obtain ⟨-, s'', hback, hs''⟩ := hserves.backUp (n := n - l.length) hs' (Nat.sub_le _ _)
      rw [if_pos hlast, Program.run, hback, Option.bind_some, List.take_take, Nat.min_eq_left hlast,
        hl]
      have hend : pos + n - (n - l.length) = pos + l.length := by omega
      rw [hend] at hs''
      exact ⟨_, s'', rfl, rfl, Or.inl hs''⟩
    · rw [if_neg hlast]
      have hsplit : l = (data.drop pos).take n ++ l.drop n := by
        conv_lhs => rw [← List.take_append_drop n l]
        rw [← hl, List.take_take, Nat.min_eq_left (Nat.le_of_not_le hlast)]
      have hrest : (l.drop n).length = l.length - n := List.length_drop
      have hdrop : (data.drop (pos + n)).take (l.drop n).length = l.drop n := by
        conv_rhs => rw [← hl]
        rw [← List.drop_drop, hrest, List.drop_take]
      obtain ⟨a, s'', hrun, ha, hs''⟩ := @ih (l.drop n)
        (acc ++ (data.drop pos).take n) (by omega) _ _ _ _ _ _ hserves _ _ _ hs' (by omega) hdrop
      have hend : pos + n + (l.drop n).length = pos + l.length := by omega
      rw [hend] at hs''
      rw [hrest] at hrun
      refine ⟨a, s'', hrun, ?_, hs''⟩
      rw [ha, List.append_assoc, ← hsplit]

theorem consumes_take (l : List UInt8) : (take l.length).Consumes l (· = l) := by
  have h := consumes_takeLoop [] (Nat.le_refl l.length)
  rwa [List.nil_append] at h

end ZeroCopy
