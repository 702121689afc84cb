import Mathlib.Algebra.Order.Ring.Int
import Mathlib.Data.List.Basic

/-!
# Incremental parsers

A parser takes items from the beginning of what there is as soon as it sees enough of them, and
waits otherwise (`Parser`). Where it takes some, items behind them do not matter. So what it finds
in a sequence, and where it stands behind it, does not depend on the pieces in which the sequence
arrives (`Drains.append`, `Drains.unique`).
-/

set_option autoImplicit false

namespace Incremental

/-- What a step gives: the next state, how many items it takes, and what it finds in them. -/
structure Move (σ ε : Type*) where
  state : σ
  taken : ℕ
  found : Option ε

/-- A parser with states `σ` that finds values of `ε`. No step is a step that waits. -/
structure Parser (σ α ε : Type*) where
  step : σ → List α → Option (Move σ ε)
  taken_le : ∀ {s : σ} {l : List α} {m : Move σ ε}, step s l = some m → m.taken ≤ l.length
  step_append : ∀ {s : σ} {l : List α} {m : Move σ ε}, step s l = some m →
    ∀ k, step s (l ++ k) = some m

variable {σ α ε : Type*} (P : Parser σ α ε)

/-- From `s` the parser goes through `l` as far as it gets: it finds `es`, and waits in `s'` at
`l'`. -/
inductive Drains : σ → List α → List ε → σ → List α → Prop where
  | wait {s : σ} {l : List α} (h : P.step s l = none) : Drains s l [] s l
  | next {s s' : σ} {l l' : List α} {m : Move σ ε} {es : List ε} (h : P.step s l = some m)
    (hrest : Drains m.state (l.drop m.taken) es s' l') : Drains s l (m.found.toList ++ es) s' l'

/-- The same as a function, for a number of steps. -/
def Parser.drain : ℕ → σ → List α → List ε × σ × List α
  | 0, s, l => ([], s, l)
  | fuel + 1, s, l =>
    match P.step s l with
    | none => ([], s, l)
    | some m =>
      (m.found.toList ++ (drain fuel m.state (l.drop m.taken)).1,
        (drain fuel m.state (l.drop m.taken)).2)

variable {P} {s s₁ s₂ : σ} {l l₁ l₂ k : List α} {es es₁ es₂ : List ε}

namespace Drains

theorem waits (h : Drains P s l es s₁ l₁) : P.step s₁ l₁ = none := by
  induction h with
  | wait h => exact h
  | next _ _ ih => exact ih

theorem suffix (h : Drains P s l es s₁ l₁) : l₁ <:+ l := by
  induction h with
  | wait => exact List.suffix_refl _
  | next _ _ ih => exact ih.trans (List.drop_suffix _ _)

/-- What each step keeps, given what it finds, holds where the parser waits. -/
theorem invariant {I : σ → Prop} {Q : ε → Prop}
    (hstep : ∀ s l m, I s → P.step s l = some m → (∀ e ∈ m.found, Q e) → I m.state)
    (h : Drains P s l es s₁ l₁) (hes : ∀ e ∈ es, Q e) (hs : I s) : I s₁ := by
  induction h with
  | wait => exact hs
  | next hnext _ ih =>
    refine ih (fun e he ↦ hes e (List.mem_append_right _ he)) (hstep _ _ _ hs hnext fun e he ↦ ?_)
    exact hes e (List.mem_append_left _ (Option.mem_toList.mpr he))

/-- A parser gets to one place. -/
theorem unique (h₁ : Drains P s l es₁ s₁ l₁) (h₂ : Drains P s l es₂ s₂ l₂) :
    es₁ = es₂ ∧ s₁ = s₂ ∧ l₁ = l₂ := by
  induction h₁ generalizing es₂ with
  | wait h =>
    cases h₂ with
    | wait => exact ⟨rfl, rfl, rfl⟩
    | next h' => exact absurd (h.symm.trans h') (by simp)
  | next h _ ih =>
    cases h₂ with
    | wait h' => exact absurd (h.symm.trans h') (by simp)
    | next h' hrest =>
      obtain rfl := Option.some.inj (h.symm.trans h')
      obtain ⟨rfl, hstate, hleft⟩ := ih hrest
      exact ⟨rfl, hstate, hleft⟩

theorem iff_of_step {m : Move σ ε} (h : P.step s l = some m) :
    Drains P s l es s₁ l₁ ↔ ∃ es', es = m.found.toList ++ es' ∧
      Drains P m.state (l.drop m.taken) es' s₁ l₁ := by
  constructor
  · intro hdrains
    cases hdrains with
    | wait hwait => exact absurd (hwait.symm.trans h) (by simp)
    | next h' hrest =>
      obtain rfl := Option.some.inj (h.symm.trans h')
      exact ⟨_, rfl, hrest⟩
  · rintro ⟨es', rfl, hrest⟩
    exact .next h hrest

/-- **What arrives later** is gone through from where the parser waits. -/
theorem append (h : Drains P s l es₁ s₁ l₁) (h' : Drains P s₁ (l₁ ++ k) es₂ s₂ l₂) :
    Drains P s (l ++ k) (es₁ ++ es₂) s₂ l₂ := by
  induction h with
  | wait => exact h'
  | next hstep _ ih =>
    rw [List.append_assoc]
    refine .next (P.step_append hstep k) ?_
    rw [List.drop_append_of_le_length (P.taken_le hstep)]
    exact ih h'

/-- And the other way round: what arrives first comes first. -/
theorem split (h : Drains P s l es₁ s₁ l₁) (h' : Drains P s (l ++ k) es s₂ l₂) :
    ∃ es₂, es = es₁ ++ es₂ ∧ Drains P s₁ (l₁ ++ k) es₂ s₂ l₂ := by
  induction h generalizing es with
  | wait => exact ⟨es, rfl, h'⟩
  | next hstep _ ih =>
    cases h' with
    | wait hwait => exact absurd (hwait.symm.trans (P.step_append hstep k)) (by simp)
    | next hstep' hrest =>
      obtain rfl := Option.some.inj ((P.step_append hstep k).symm.trans hstep')
      rw [List.drop_append_of_le_length (P.taken_le hstep)] at hrest
      obtain ⟨es₂, rfl, hrest'⟩ := ih hrest
      exact ⟨es₂, by rw [List.append_assoc], hrest'⟩

end Drains

theorem Parser.drains_drain (μ : σ → ℕ)
    (hμ : ∀ {s : σ} {l : List α} {m : Move σ ε}, P.step s l = some m → μ m.state < μ s + m.taken)
    {fuel : ℕ} (hfuel : μ s + l.length < fuel) :
    Drains P s l (P.drain fuel s l).1 (P.drain fuel s l).2.1 (P.drain fuel s l).2.2 := by
  induction fuel generalizing s l with
  | zero => exact absurd hfuel (Nat.not_lt_zero _)
  | succ fuel ih =>
    rw [drain]
    cases hstep : P.step s l with
    | none => exact .wait hstep
    | some m =>
      have hdecreases := hμ hstep
      have htaken := P.taken_le hstep
      exact .next hstep (ih (by rw [List.length_drop]; omega))

end Incremental
