import Mathlib.Algebra.Order.Ring.Int
import Mathlib.Data.List.Destutter
import Mathlib.Data.List.Infix

/-!
# Components of a path

A path is a list in which a separator stands between names. Several separators stand for one, so
what a path means are its parts that are not empty, and its ancestors are the prefixes of these
parts.

A path that is built part by part names, from step to step, the same thing as before if an empty
part is added, and the next one if a name is added. Without the repetitions these are all prefixes
in their order (`destutter'_walk`).
-/

namespace Components

variable {α : Type*} {d : α} {l k : List α} {ps acc : List (List α)}

/-- The parts that are not empty. -/
def nonempty (ps : List (List α)) : List (List α) := ps.filter (· ≠ [])

@[simp] theorem nonempty_nil : nonempty ([] : List (List α)) = [] := rfl

@[simp] theorem nonempty_nil_cons : nonempty ([] :: ps) = nonempty ps := rfl

theorem nonempty_cons (h : l ≠ []) : nonempty (l :: ps) = l :: nonempty ps := by
  simp [nonempty, h]

theorem nonempty_append (ps qs : List (List α)) :
    nonempty (ps ++ qs) = nonempty ps ++ nonempty qs := List.filter_append ..

/-- The last part may be left out before or after the empty ones, if it is not one of them. -/
theorem nonempty_dropLast_iff (h : ps ≠ []) :
    nonempty ps.dropLast = (nonempty ps).dropLast ↔ (ps.getLast? = some [] → nonempty ps = []) := by
  obtain ⟨init, last, rfl⟩ := (List.eq_nil_or_concat ps).resolve_left h
  rw [List.concat_eq_append, List.dropLast_concat, nonempty_append, List.getLast?_concat]
  by_cases hlast : last = []
  · subst hlast
    rw [nonempty_nil_cons, nonempty_nil, List.append_nil]
    constructor
    · intro heq _
      have hlen := congrArg List.length heq
      rw [List.length_dropLast] at hlen
      exact List.length_eq_zero_iff.mp (by omega)
    · intro hnil
      rw [hnil rfl]
      rfl
  · rw [nonempty_cons hlast, nonempty_nil, List.dropLast_concat]
    simp [hlast]

variable [DecidableEq α]

/-- The names in a path. -/
def names (d : α) (l : List α) : List (List α) := nonempty (l.splitOn d)

theorem names_append_cons (d : α) (l k : List α) :
    names d (l ++ d :: k) = names d l ++ names d k := by
  rw [names, List.splitOn_append_cons_self, nonempty_append, names, names]

theorem names_of_not_mem (h : d ∉ l) : names d l = nonempty [l] := by
  rw [names, List.splitOn_eq_singleton h]

/-! ## Prefixes -/

/-- The prefixes of a list that are not empty, from the shortest on. -/
def prefixes {β : Type*} (l : List β) : List (List β) := l.inits.tail

@[simp] theorem prefixes_nil {β : Type*} : prefixes ([] : List β) = [] := rfl

theorem prefixes_cons {β : Type*} (a : β) (l : List β) :
    prefixes (a :: l) = [a] :: (prefixes l).map (a :: ·) := by
  cases l with
  | nil => rfl
  | cons b l => simp [prefixes]

theorem prefixes_concat {β : Type*} (l : List β) (a : β) :
    prefixes (l ++ [a]) = prefixes l ++ [l ++ [a]] := by
  cases l with
  | nil => rfl
  | cons b l => simp [prefixes, List.inits_append]

theorem dropLast_prefixes {β : Type*} (l : List β) :
    (prefixes l).dropLast = prefixes l.dropLast := by
  rcases List.eq_nil_or_concat l with rfl | ⟨l, a, rfl⟩
  · rfl
  · rw [List.concat_eq_append, prefixes_concat, List.dropLast_concat, List.dropLast_concat]

theorem prefixes_inj {β : Type*} {l k : List β} : prefixes l = prefixes k ↔ l = k := by
  refine ⟨fun h ↦ ?_, congrArg prefixes⟩
  rcases List.eq_nil_or_concat l with rfl | ⟨l, a, rfl⟩
  · rcases List.eq_nil_or_concat k with rfl | ⟨k, b, rfl⟩
    · rfl
    · rw [List.concat_eq_append, prefixes_concat] at h
      exact absurd h (by simp)
  · rcases List.eq_nil_or_concat k with rfl | ⟨k, b, rfl⟩
    · rw [List.concat_eq_append, prefixes_concat] at h
      exact absurd h (by simp)
    · rw [List.concat_eq_append, List.concat_eq_append, prefixes_concat, prefixes_concat] at h
      rw [List.concat_eq_append, List.concat_eq_append]
      exact List.singleton_inj.mp (List.append_inj' h rfl).2

/-! ## Walks -/

/-- The names after each part that is added to `acc`. -/
def walk : List (List α) → List (List α) → List (List (List α))
  | _, [] => []
  | acc, p :: ps => (acc ++ nonempty [p]) :: walk (acc ++ nonempty [p]) ps

theorem destutter'_walk (acc ps : List (List α)) :
    (walk acc ps).destutter' (· ≠ ·) acc
      = acc :: (prefixes (nonempty ps)).map (acc ++ ·) := by
  induction ps generalizing acc with
  | nil => rfl
  | cons p ps ih =>
    rw [walk]
    by_cases hp : p = []
    · subst hp
      rw [nonempty_nil_cons, nonempty_nil, List.append_nil, nonempty_nil_cons,
        List.destutter'_cons_neg _ (not_not_intro rfl), ih]
    · have hne : acc ≠ acc ++ [p] := fun heq ↦ by simp at heq
      rw [nonempty_cons hp, nonempty_nil, nonempty_cons hp, List.destutter'_cons_pos _ hne, ih,
        prefixes_cons, List.map_cons, List.map_map]
      simp

end Components
