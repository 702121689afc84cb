import Mathlib.Algebra.Order.Ring.Int
import Mathlib.Data.List.GetD

/-!
# Flat memory

Cells addressed from a base pointer, as a total function on offsets. Nothing stops an access from
leaving the array the pointer belongs to; that is what makes an out-of-range access visible, as a
`Region` that is not inside the array.

`load` and `store` are `memcpy` out of and into the cells, `gather` and `scatter` are the same for a
vector of regions (an `iovec` array), and the lemmas say how each splits at a boundary.
-/

namespace FlatMemory

variable {α : Type*} {m : ℕ → α}

/-- The `len` cells from `start` on. -/
def load (m : ℕ → α) (start len : ℕ) : List α :=
  (List.range len).map fun i ↦ m (start + i)

/-- The cells after storing `l` from `start` on. -/
def store (m : ℕ → α) (start : ℕ) (l : List α) : ℕ → α := fun i ↦
  if start ≤ i then l.getD (i - start) (m i) else m i

/-- A run of cells: a pointer into the array and a length. -/
structure Region where
  start : ℕ
  len : ℕ
deriving DecidableEq, Repr

/-- The region lies inside an array of `cap` cells. -/
def Region.Inside (cap : ℕ) (r : Region) : Prop := r.start + r.len ≤ cap

instance (cap : ℕ) (r : Region) : Decidable (r.Inside cap) :=
  inferInstanceAs (Decidable (r.start + r.len ≤ cap))

/-- The cells of a vector of regions, in order. -/
def gather (m : ℕ → α) (v : List Region) : List α :=
  v.flatMap fun r ↦ load m r.start r.len

/-- Fill a prefix of a vector of regions with `l`, each region before the next. -/
def scatter (m : ℕ → α) : List Region → List α → ℕ → α
  | [], _ => m
  | r :: v, l => scatter (store m r.start (l.take r.len)) v (l.drop r.len)

/-! ## Reading -/

@[simp] theorem length_load (m : ℕ → α) (s n : ℕ) : (load m s n).length = n := by simp [load]

@[simp] theorem load_zero (m : ℕ → α) (s : ℕ) : load m s 0 = [] := rfl

@[simp] theorem getElem_load (m : ℕ → α) (s n i : ℕ) (h : i < (load m s n).length) :
    (load m s n)[i] = m (s + i) := by
  simp [load]

theorem load_succ (m : ℕ → α) (s n : ℕ) : load m s (n + 1) = m s :: load m (s + 1) n := by
  refine List.ext_getElem (by simp) fun i h₁ h₂ ↦ ?_
  cases i with
  | zero => simp
  | succ i => simp [Nat.add_assoc, Nat.add_comm 1 i]

theorem load_add (m : ℕ → α) (s a b : ℕ) : load m s (a + b) = load m s a ++ load m (s + a) b := by
  induction a generalizing s with
  | zero => simp
  | succ a ih =>
    rw [show a + 1 + b = (a + b) + 1 from by omega, load_succ, ih, load_succ, List.cons_append,
      show s + 1 + a = s + (a + 1) from by omega]

theorem load_getD (l : List α) (d : α) : load (fun i ↦ l.getD i d) 0 l.length = l := by
  refine List.ext_getElem (by simp) fun i _ h₂ ↦ ?_
  rw [getElem_load, Nat.zero_add, List.getD_eq_getElem _ _ h₂]

theorem take_load (m : ℕ → α) {s n k : ℕ} (h : k ≤ n) : (load m s n).take k = load m s k := by
  obtain ⟨d, rfl⟩ := Nat.exists_eq_add_of_le h
  rw [load_add, List.take_left' (length_load m s k)]

theorem drop_load (m : ℕ → α) {s n k : ℕ} (h : k ≤ n) :
    (load m s n).drop k = load m (s + k) (n - k) := by
  obtain ⟨d, rfl⟩ := Nat.exists_eq_add_of_le h
  rw [load_add, List.drop_left' (length_load m s k), Nat.add_sub_cancel_left]

theorem load_congr {m m' : ℕ → α} {s n : ℕ} (h : ∀ i, s ≤ i → i < s + n → m i = m' i) :
    load m s n = load m' s n := by
  refine List.ext_getElem (by simp) fun i h₁ _ ↦ ?_
  rw [length_load] at h₁
  rw [getElem_load, getElem_load]
  exact h _ (by omega) (by omega)

/-! ## Writing -/

theorem store_of_lt {s i : ℕ} (l : List α) (h : i < s) : store m s l i = m i := by
  rw [store, if_neg (by omega)]

theorem store_of_le {s i : ℕ} {l : List α} (h : s + l.length ≤ i) : store m s l i = m i := by
  rw [store, if_pos (by omega), List.getD_eq_default _ _ (by omega)]

@[simp] theorem store_add {s i : ℕ} {l : List α} (h : i < l.length) :
    store m s l (s + i) = l[i] := by
  rw [store, if_pos (by omega), Nat.add_sub_cancel_left, List.getD_eq_getElem _ _ h]

@[simp] theorem store_nil (m : ℕ → α) (s : ℕ) : store m s [] = m := by
  funext i
  simp [store]

theorem store_congr {m m' : ℕ → α} {s i : ℕ} {l : List α} (h : m i = m' i) :
    store m s l i = store m' s l i := by
  rw [store, store, h]

theorem load_store_self (m : ℕ → α) (s : ℕ) (l : List α) : load (store m s l) s l.length = l := by
  refine List.ext_getElem (by simp) fun i _ h₂ ↦ ?_
  rw [getElem_load, store_add h₂]

theorem store_load (m : ℕ → α) (s n : ℕ) : store m s (load m s n) = m := by
  funext i
  rcases Nat.lt_or_ge i s with hlt | hge
  · exact store_of_lt _ hlt
  · obtain ⟨j, rfl⟩ := Nat.exists_eq_add_of_le hge
    rcases Nat.lt_or_ge j n with hj | hj
    · rw [store_add (by rwa [length_load]), getElem_load]
    · exact store_of_le (by rw [length_load]; omega)

theorem load_store_of_disjoint {s n t : ℕ} {l : List α} (h : s + n ≤ t ∨ t + l.length ≤ s) :
    load (store m t l) s n = load m s n := by
  refine load_congr fun i h₁ h₂ ↦ ?_
  rcases h with h | h
  · exact store_of_lt _ (by omega)
  · exact store_of_le (by omega)

theorem store_append (m : ℕ → α) (s : ℕ) (l k : List α) :
    store m s (l ++ k) = store (store m s l) (s + l.length) k := by
  funext i
  rcases Nat.lt_or_ge i (s + l.length) with hlt | hge
  · rw [store_of_lt k hlt]
    rcases Nat.lt_or_ge i s with hi | hi
    · rw [store_of_lt _ hi, store_of_lt _ hi]
    · obtain ⟨j, rfl⟩ := Nat.exists_eq_add_of_le hi
      rw [store_add (l := l) (by omega), store_add (by rw [List.length_append]; omega),
        List.getElem_append_left (by omega)]
  · obtain ⟨j, rfl⟩ := Nat.exists_eq_add_of_le hge
    rcases Nat.lt_or_ge j k.length with hj | hj
    · rw [store_add hj, Nat.add_assoc, store_add (by rw [List.length_append]; omega),
        List.getElem_append_right (by omega)]
      simp only [Nat.add_sub_cancel_left]
    · rw [store_of_le (l := k) (by omega), store_of_le (l := l) (by omega),
        store_of_le (by rw [List.length_append]; omega)]

/-! ## Vectors of regions -/

@[simp] theorem gather_nil (m : ℕ → α) : gather m [] = [] := rfl

@[simp] theorem gather_cons (m : ℕ → α) (r : Region) (v : List Region) :
    gather m (r :: v) = load m r.start r.len ++ gather m v := rfl

@[simp] theorem scatter_nil (m : ℕ → α) (v : List Region) : scatter m v [] = m := by
  induction v with
  | nil => rfl
  | cons r v ih => rw [scatter, List.take_nil, List.drop_nil, store_nil, ih]

theorem scatter_singleton (m : ℕ → α) {r : Region} {l : List α} (h : l.length ≤ r.len) :
    scatter m [r] l = store m r.start l := by
  rw [scatter, scatter, List.take_of_length_le h]

theorem scatter_pair (m : ℕ → α) (r r' : Region) {l : List α} (h : l.length ≤ r.len + r'.len) :
    scatter m [r, r'] l = store (store m r.start (l.take r.len)) r'.start (l.drop r.len) := by
  rw [scatter, scatter_singleton _ (by simp; omega)]

/-! ## Regions without a gap -/

/-- The regions of a vector follow each other from `s` on. -/
inductive Tiles : ℕ → List Region → Prop where
  | nil (s : ℕ) : Tiles s []
  | cons {s len : ℕ} {v : List Region} (h : Tiles (s + len) v) : Tiles s (⟨s, len⟩ :: v)

theorem Tiles.gather {s : ℕ} {v : List Region} (h : Tiles s v) (m : ℕ → α) :
    gather m v = load m s (v.map Region.len).sum := by
  induction h with
  | nil s => rfl
  | cons _ ih => rw [gather_cons, ih, List.map_cons, List.sum_cons, load_add]

theorem Tiles.inside {s cap : ℕ} {v : List Region} (h : Tiles s v)
    (hcap : s + (v.map Region.len).sum ≤ cap) : ∀ r ∈ v, r.Inside cap := by
  induction h with
  | nil s => simp
  | cons _ ih =>
    simp only [List.map_cons, List.sum_cons] at hcap
    intro r hr
    rcases List.mem_cons.mp hr with rfl | hr
    · simp only [Region.Inside]
      omega
    · exact ih (by omega) r hr

end FlatMemory
