import Mathlib.Algebra.Order.Ring.Int
import Mathlib.Data.List.Basic

/-!
# Runs of a deterministic system

A system takes an input in each step, moves to a new state and gives a response. `run` folds the
steps over a list of inputs. The two rules carry facts about one step to whole runs: an invariant
that each step keeps holds in every state reached, and a relation that each step keeps makes two
systems answer alike. Both have a side condition `ok` on a step, which a run may have to meet in
each state it passes through.
-/

namespace Run

variable {σ τ ι ρ : Type*} {step : σ → ι → σ × ρ} {step' : τ → ι → τ × ρ}

/-- The final state and the responses of a run. -/
def run (step : σ → ι → σ × ρ) : σ → List ι → σ × List ρ
  | s, [] => (s, [])
  | s, i :: is => ((run step (step s i).1 is).1, (step s i).2 :: (run step (step s i).1 is).2)

/-- Every step of the run meets `ok` in the state it starts from. -/
def Steps (step : σ → ι → σ × ρ) (ok : σ → ι → Prop) : σ → List ι → Prop
  | _, [] => True
  | s, i :: is => ok s i ∧ Steps step ok (step s i).1 is

/-- Every state of the run, the first one included, satisfies `P`. -/
def Throughout (step : σ → ι → σ × ρ) (P : σ → Prop) : σ → List ι → Prop
  | s, [] => P s
  | s, i :: is => P s ∧ Throughout step P (step s i).1 is

@[simp] theorem run_nil (s : σ) : run step s [] = (s, []) := rfl

@[simp] theorem run_cons (s : σ) (i : ι) (is : List ι) :
    run step s (i :: is)
      = ((run step (step s i).1 is).1, (step s i).2 :: (run step (step s i).1 is).2) := rfl

@[simp] theorem steps_nil {ok : σ → ι → Prop} (s : σ) : Steps step ok s [] := trivial

@[simp] theorem steps_cons {ok : σ → ι → Prop} {s : σ} {i : ι} {is : List ι} :
    Steps step ok s (i :: is) ↔ ok s i ∧ Steps step ok (step s i).1 is := Iff.rfl

@[simp] theorem throughout_cons {P : σ → Prop} {s : σ} {i : ι} {is : List ι} :
    Throughout step P s (i :: is) ↔ P s ∧ Throughout step P (step s i).1 is := Iff.rfl

instance decidableSteps {ok : σ → ι → Prop} [∀ s i, Decidable (ok s i)] :
    (s : σ) → (is : List ι) → Decidable (Steps step ok s is)
  | _, [] => .isTrue trivial
  | s, i :: is => @instDecidableAnd _ _ _ (decidableSteps (step s i).1 is)

theorem steps_true (s : σ) (is : List ι) : Steps step (fun _ _ ↦ True) s is := by
  induction is generalizing s with
  | nil => trivial
  | cons i is ih => exact ⟨trivial, ih _⟩

theorem steps_and {ok ok' : σ → ι → Prop} {s : σ} {is : List ι} :
    Steps step (fun s i ↦ ok s i ∧ ok' s i) s is ↔ Steps step ok s is ∧ Steps step ok' s is := by
  induction is generalizing s with
  | nil => simp
  | cons i is ih =>
    rw [steps_cons, steps_cons, steps_cons, ih, and_and_and_comm]

theorem steps_concat {ok : σ → ι → Prop} {s : σ} {is : List ι} {i : ι} :
    Steps step ok s (is ++ [i]) ↔ Steps step ok s is ∧ ok (run step s is).1 i := by
  induction is generalizing s with
  | nil => simp
  | cons j is ih => rw [List.cons_append, steps_cons, ih, steps_cons, run_cons, and_assoc]

theorem run_concat {s : σ} {is : List ι} {i : ι} :
    (run step s (is ++ [i])).1 = (step (run step s is).1 i).1 := by
  induction is generalizing s with
  | nil => rfl
  | cons j is ih => rw [List.cons_append, run_cons, ih, run_cons]

theorem run_concat_snd {s : σ} {is : List ι} {i : ι} :
    (run step s (is ++ [i])).2 = (run step s is).2 ++ [(step (run step s is).1 i).2] := by
  induction is generalizing s with
  | nil => rfl
  | cons j is ih => rw [List.cons_append, run_cons, ih, run_cons, List.cons_append]

theorem Throughout.first {P : σ → Prop} {s : σ} {is : List ι} (h : Throughout step P s is) :
    P s := by
  cases is with
  | nil => exact h
  | cons i is => exact h.1

theorem Throughout.last {P : σ → Prop} {s : σ} {is : List ι} (h : Throughout step P s is) :
    P (run step s is).1 := by
  induction is generalizing s with
  | nil => exact h
  | cons i is ih => exact ih h.2

theorem Throughout.mono {P Q : σ → Prop} (hPQ : ∀ s, P s → Q s) {s : σ} {is : List ι}
    (h : Throughout step P s is) : Throughout step Q s is := by
  induction is generalizing s with
  | nil => exact hPQ s h
  | cons i is ih => exact ⟨hPQ s h.1, ih h.2⟩

/-- **The invariant rule.** -/
theorem Throughout.of_step {P : σ → Prop} {ok : σ → ι → Prop}
    (hstep : ∀ s i, P s → ok s i → P (step s i).1) {s : σ} {is : List ι} (hs : P s)
    (hok : Steps step ok s is) : Throughout step P s is := by
  induction is generalizing s with
  | nil => exact hs
  | cons i is ih => exact ⟨hs, ih (hstep s i hs hok.1) hok.2⟩

/-- A property holds throughout a run if each step leaves a state that has it. -/
theorem throughout_iff_steps {P : σ → Prop} {s : σ} {is : List ι} (hs : P s) :
    Throughout step P s is ↔ Steps step (fun s i ↦ P (step s i).1) s is := by
  induction is generalizing s with
  | nil => exact ⟨fun _ ↦ trivial, fun _ ↦ hs⟩
  | cons i is ih =>
    constructor
    · rintro ⟨-, hrest⟩
      exact ⟨hrest.first, (ih hrest.first).mp hrest⟩
    · rintro ⟨hnext, hrest⟩
      exact ⟨hs, (ih hnext).mpr hrest⟩

theorem Steps.of_invariant {P : σ → Prop} {ok Q : σ → ι → Prop}
    (hstep : ∀ s i, P s → ok s i → P (step s i).1) (hQ : ∀ s i, P s → ok s i → Q s i) {s : σ}
    {is : List ι} (hs : P s) (hok : Steps step ok s is) : Steps step Q s is := by
  induction is generalizing s with
  | nil => trivial
  | cons i is ih => exact ⟨hQ s i hs hok.1, ih (hstep s i hs hok.1) hok.2⟩

/-- Where an invariant makes a property of a step equivalent to a condition on it, and the condition
keeps the invariant, the two hold of the same runs. -/
theorem steps_iff_of_invariant {P : σ → Prop} {ok Q : σ → ι → Prop}
    (hstep : ∀ s i, P s → ok s i → P (step s i).1) (hiff : ∀ s i, P s → (Q s i ↔ ok s i)) {s : σ}
    {is : List ι} (hs : P s) : Steps step Q s is ↔ Steps step ok s is := by
  induction is generalizing s with
  | nil => exact Iff.rfl
  | cons i is ih =>
    rw [steps_cons, steps_cons, hiff s i hs]
    exact and_congr_right fun hok ↦ ih (hstep s i hs hok)

/-- Properties of a step that an invariant makes equivalent hold of the same runs. -/
theorem steps_congr_of_invariant {P : σ → Prop} {ok Q Q' : σ → ι → Prop}
    (hstep : ∀ s i, P s → ok s i → P (step s i).1)
    (hiff : ∀ s i, P s → ok s i → (Q s i ↔ Q' s i)) {s : σ} {is : List ι} (hs : P s)
    (hok : Steps step ok s is) : Steps step Q s is ↔ Steps step Q' s is := by
  induction is generalizing s with
  | nil => exact Iff.rfl
  | cons i is ih =>
    rw [steps_cons, steps_cons, hiff s i hs hok.1, ih (hstep s i hs hok.1) hok.2]

/-- The same in runs that meet `ok`, where steps that meet both conditions keep the invariant. -/
theorem steps_iff_of_steps {P : σ → Prop} {ok Q Q' : σ → ι → Prop}
    (hstep : ∀ s i, P s → ok s i → Q' s i → P (step s i).1)
    (hiff : ∀ s i, P s → ok s i → (Q s i ↔ Q' s i)) {s : σ} {is : List ι} (hs : P s)
    (hok : Steps step ok s is) : Steps step Q s is ↔ Steps step Q' s is := by
  have hboth : Steps step (fun s i ↦ ok s i ∧ Q s i) s is ↔
      Steps step (fun s i ↦ ok s i ∧ Q' s i) s is :=
    steps_iff_of_invariant (fun s i hs hboth ↦ hstep s i hs hboth.1 hboth.2)
      (fun s i hs ↦ and_congr_right fun hok ↦ hiff s i hs hok) hs
  rwa [steps_and, steps_and, and_iff_right hok, and_iff_right hok] at hboth

/-- **The simulation rule.** -/
theorem run_simulation {R : σ → τ → Prop} {ok : σ → ι → Prop}
    (hstep : ∀ s t i, R s t → ok s i →
      R (step s i).1 (step' t i).1 ∧ (step s i).2 = (step' t i).2)
    {s : σ} {t : τ} {is : List ι} (hR : R s t) (hok : Steps step ok s is) :
    R (run step s is).1 (run step' t is).1 ∧ (run step s is).2 = (run step' t is).2 := by
  induction is generalizing s t with
  | nil => exact ⟨hR, rfl⟩
  | cons i is ih =>
    obtain ⟨hR', hout⟩ := hstep s t i hR hok.1
    obtain ⟨hfinal, houts⟩ := ih hR' hok.2
    exact ⟨hfinal, by rw [run_cons, run_cons, hout, houts]⟩

/-- **The simulation rule in an environment.** What the environment answers to the second system in
a step is found in the first. -/
theorem exists_run_simulation {ε : Type*} {step' : τ → ε × ι → τ × ρ} {R : σ → τ → Prop}
    {ok : σ → ι → Prop} (env : σ → ε)
    (hstep : ∀ s t i, R s t → ok s i →
      R (step s i).1 (step' t (env s, i)).1 ∧ (step' t (env s, i)).2 = (step s i).2)
    {s : σ} {t : τ} {is : List ι} (hR : R s t) (hok : Steps step ok s is) :
    ∃ answers : List ε, answers.length = is.length ∧
      R (run step s is).1 (run step' t (answers.zip is)).1 ∧
        (run step' t (answers.zip is)).2 = (run step s is).2 := by
  induction is generalizing s t with
  | nil => exact ⟨[], rfl, hR, rfl⟩
  | cons i is ih =>
    obtain ⟨hR', hout⟩ := hstep s t i hR hok.1
    obtain ⟨answers, hlen, hfinal, houts⟩ := ih hR' hok.2
    refine ⟨env s :: answers, congrArg Nat.succ hlen, hfinal, ?_⟩
    rw [List.zip_cons_cons, run_cons, run_cons, hout, houts]

/-- What a simulation says about the steps of the second system holds along a run. -/
theorem Steps.of_simulation {R : σ → τ → Prop} {ok : σ → ι → Prop} {Q : τ → ι → Prop}
    (hstep : ∀ s t i, R s t → ok s i → R (step s i).1 (step' t i).1 ∧ Q t i)
    {s : σ} {t : τ} {is : List ι} (hR : R s t) (hok : Steps step ok s is) : Steps step' Q t is := by
  induction is generalizing s t with
  | nil => trivial
  | cons i is ih =>
    obtain ⟨hR', hQ⟩ := hstep s t i hR hok.1
    exact ⟨hQ, ih hR' hok.2⟩

/-- **The conservation rule.** If no step loses, invents or reorders items, neither does a run. -/
theorem run_conserves {β : Type*} {P : σ → Prop} {ok : σ → ι → Prop} {content : σ → List β}
    {taken given : ρ → List β}
    (hstep : ∀ s i, P s → ok s i → P (step s i).1 ∧
      content s ++ taken (step s i).2 = given (step s i).2 ++ content (step s i).1)
    {s : σ} {is : List ι} (hs : P s) (hok : Steps step ok s is) :
    content s ++ (run step s is).2.flatMap taken
      = (run step s is).2.flatMap given ++ content (run step s is).1 := by
  induction is generalizing s with
  | nil => simp
  | cons i is ih =>
    obtain ⟨hs', hone⟩ := hstep s i hs hok.1
    rw [run_cons, List.flatMap_cons, List.flatMap_cons, ← List.append_assoc, hone,
      List.append_assoc, ih hs' hok.2, List.append_assoc]

/-- **The potential rule.** If each step pays for what it costs, so does a run. -/
theorem run_potential {P : σ → Prop} {ok : σ → ι → Prop} {cost : ρ → ℕ} {φ : σ → ℕ}
    (hstep : ∀ s i, P s → ok s i →
      P (step s i).1 ∧ cost (step s i).2 + φ (step s i).1 ≤ φ s)
    {s : σ} {is : List ι} (hs : P s) (hok : Steps step ok s is) :
    ((run step s is).2.map cost).sum + φ (run step s is).1 ≤ φ s := by
  induction is generalizing s with
  | nil => exact Nat.le_of_eq (Nat.zero_add _)
  | cons i is ih =>
    obtain ⟨hs', hone⟩ := hstep s i hs hok.1
    have hrest := ih hs' hok.2
    calc
      ((run step s (i :: is)).2.map cost).sum + φ (run step s (i :: is)).1
          = cost (step s i).2 + (((run step (step s i).1 is).2.map cost).sum
            + φ (run step (step s i).1 is).1) := Nat.add_assoc ..
      _ ≤ cost (step s i).2 + φ (step s i).1 := Nat.add_le_add_left hrest _
      _ ≤ φ s := hone

end Run
