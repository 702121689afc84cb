import Coypu.Util.StringUtil

/-!
# The directories of a path

`FileUtil::Mkdir` makes the directories in which a file lies. It splits the path and puts it
together again part by part, with a slash in front of every part but those at the beginning: of a
path that begins with a slash the first part is empty, and the next one still stands at the
beginning, so that the slash is lost. The last part is left out as the name of the file, and this is
the empty one behind the last of two slashes.

These are the only cases in which the directories that are made are not the ancestors of the path
(`makes_iff`).
-/

set_option autoImplicit false

namespace Coypu

open Components StringUtil

namespace FileUtil

def slash : UInt8 := 0x2F

/-- `PATH_MAX`. -/
def pathMax : ℕ := 4096

/-- A call of `::mkdir`. -/
structure MkdirCall where
  path : List UInt8
  mode : ℕ
deriving DecidableEq

/-- The loop of `Mkdir`: the calls from a part on. The buffer has `path` up to its first zero, and
the next text goes to `offset`. `snprintf` leaves out what does not fit; there is no result if its
text would go behind the buffer. -/
def mkdirLoop (mode : ℕ) : ℕ → List UInt8 → List (List UInt8) → Option (List MkdirCall)
  | _, _, [] => some []
  | offset, path, s :: paths =>
    if pathMax < offset then none
    else
      let text := if offset = 0 then s else slash :: s
      let path' := path.take offset ++ text.take (pathMax - offset - 1)
      (mkdirLoop mode (offset + text.length) path' paths).map (⟨path', mode⟩ :: ·)

/-- `Mkdir`, which returns `0`. There is no result if it takes the last part from no parts. -/
def mkdir (dir : List UInt8) (mode : ℕ) (ignoreLast : Bool) : Option (List MkdirCall) :=
  let paths := split dir slash
  if ignoreLast && paths.isEmpty then none
  else mkdirLoop mode 0 [] (if ignoreLast then paths.dropLast else paths)

/-! ## Locations -/

/-- Where a path leads: the names to go through, from the root or from the current directory. -/
structure Location where
  absolute : Bool
  names : List (List UInt8)
deriving DecidableEq

/-- A path begins with a slash. -/
def isAbsolute (path : List UInt8) : Bool := path.head? = some slash

/-- The location of a path. The empty path has none. -/
def location (path : List UInt8) : Option Location :=
  if path = [] then none else some ⟨isAbsolute path, names slash path⟩

/-- The locations on the way to a path, the outermost first, and the last of them the one of the
path itself. The root, which is there, is not one of them. -/
def wayTo (path : List UInt8) : List Location :=
  (prefixes (names slash path)).map (⟨isAbsolute path, ·⟩)

/-- The directories to be made: the ancestors of the path, and the path itself if it is not left
out. -/
def ancestors (path : List UInt8) (ignoreLast : Bool) : List Location :=
  if ignoreLast then (wayTo path).dropLast else wayTo path

/-- The calls go through the directories to be made, in their order and nowhere else. A call for the
location of the one before, with one more slash, does not count. -/
def Makes (path : List UInt8) (ignoreLast : Bool) : Prop :=
  ∀ mode, ∃ calls, mkdir path mode ignoreLast = some calls ∧
    (∀ call ∈ calls, call.mode = mode) ∧
    (calls.filterMap fun call ↦ location call.path).destutter (· ≠ ·) = ancestors path ignoreLast

/-- The condition: a path that begins with a slash has no name, or one that is left out, and where
the last part is left out, the path is not empty and does not end in two slashes behind a name. -/
def KeepsPrefixes (path : List UInt8) : Bool → Prop
  | true => path ≠ [] ∧ (names slash path ≠ [] → ¬ [slash, slash] <:+ path) ∧
      (isAbsolute path = true → (names slash path).length ≤ 1)
  | false => isAbsolute path = true → names slash path = []

instance (path : List UInt8) (ignoreLast : Bool) : Decidable (KeepsPrefixes path ignoreLast) :=
  match ignoreLast with
  | true => inferInstanceAs (Decidable (_ ∧ _ ∧ _))
  | false => inferInstanceAs (Decidable (_ → _))

/-! ## The loop -/

variable {mode : ℕ} {path s : List UInt8} {paths : List (List UInt8)}

/-- The text that is put behind a path. -/
def joined (path s : List UInt8) : List UInt8 := if path = [] then s else path ++ slash :: s

/-- The paths of the calls, where everything fits. -/
def joins : List UInt8 → List (List UInt8) → List (List UInt8)
  | _, [] => []
  | path, s :: paths => joined path s :: joins (joined path s) paths

theorem mkdirLoop_eq (path : List UInt8) (h : path.length + (paths.map fun s ↦ s.length + 1).sum
      + (if path = [] then 0 else 1) ≤ pathMax) :
    mkdirLoop mode path.length path paths = some ((joins path paths).map (⟨·, mode⟩)) := by
  induction paths generalizing path with
  | nil => rfl
  | cons s paths ih =>
    rw [List.map_cons, List.sum_cons] at h
    have hoffset : ¬ pathMax < path.length := by omega
    -- nothing is cut off, and what follows fits
    obtain ⟨hpath, hlength, hrest⟩ : path.take path.length
        ++ (if path.length = 0 then s else slash :: s).take (pathMax - path.length - 1)
          = joined path s ∧
        path.length + (if path.length = 0 then s else slash :: s).length
          = (joined path s).length ∧
        (joined path s).length + (paths.map fun s ↦ s.length + 1).sum
          + (if joined path s = [] then 0 else 1) ≤ pathMax := by
      by_cases hnil : path = []
      · subst hnil
        have hfits : s.length ≤ pathMax - 1 := by
          simp only [List.length_nil, if_true] at h
          omega
        refine ⟨?_, ?_, ?_⟩
        · simp [joined, hfits]
        · simp [joined]
        · simp only [joined, if_true, List.length_nil] at h ⊢
          split_ifs <;> omega
      · have hpos := List.length_pos_of_ne_nil hnil
        rw [if_neg hnil] at h
        rw [if_neg (by omega), joined, if_neg hnil]
        refine ⟨?_, ?_, ?_⟩
        · rw [List.take_length, List.take_of_length_le]
          rw [List.length_cons]
          omega
        · rw [List.length_append]
        · rw [if_neg (by simp), List.length_append, List.length_cons]
          omega
    rw [mkdirLoop, if_neg hoffset]
    simp only [hpath, hlength]
    rw [ih (joined path s) hrest]
    rfl

/-! ## Where the calls go -/

theorem names_joined (hs : slash ∉ s) (hpath : path ≠ []) :
    names slash (joined path s) = names slash path ++ nonempty [s] := by
  rw [joined, if_neg hpath, names_append_cons, names_of_not_mem hs]

theorem isAbsolute_of_not_mem (hs : slash ∉ s) : isAbsolute s = false := by
  rw [isAbsolute, decide_eq_false_iff_not]
  exact fun h ↦ hs (List.mem_of_mem_head? h)

theorem locations_joins (hpath : path ≠ []) (habs : isAbsolute path = false)
    (hslash : ∀ s ∈ paths, slash ∉ s) :
    (joins path paths).filterMap location
      = (walk (names slash path) paths).map (⟨false, ·⟩) := by
  induction paths generalizing path with
  | nil => rfl
  | cons s paths ih =>
    obtain ⟨hs, hslash⟩ := List.forall_mem_cons.mp hslash
    have hne : joined path s ≠ [] := by simp [joined, hpath]
    have habs' : isAbsolute (joined path s) = false := by
      rw [isAbsolute, joined, if_neg hpath, List.head?_append_of_ne_nil _ hpath]
      exact habs
    have hfirst : location (joined path s)
        = some ⟨false, names slash path ++ nonempty [s]⟩ := by
      rw [location, if_neg hne, habs', names_joined hs hpath]
    rw [joins, List.filterMap_cons_some hfirst, ih hne habs' hslash, walk, names_joined hs hpath,
      List.map_cons]

/-- From the beginning they are the prefixes of the names, from the current directory. The first
parts may be empty. -/
theorem destutter_joins (hslash : ∀ s ∈ paths, slash ∉ s) :
    ((joins [] paths).filterMap location).destutter (· ≠ ·)
      = (prefixes (nonempty paths)).map (⟨false, ·⟩) := by
  induction paths with
  | nil => rfl
  | cons s paths ih =>
    obtain ⟨hs, hrest⟩ := List.forall_mem_cons.mp hslash
    have hfirst : joined [] s = s := if_pos rfl
    by_cases hnil : s = []
    · subst hnil
      rw [joins, hfirst, List.filterMap_cons_none (by simp [location]), nonempty_nil_cons]
      exact ih hrest
    · have habs := isAbsolute_of_not_mem hs
      have hnames : names slash s = [s] := by
        rw [names_of_not_mem hs, nonempty_cons hnil, nonempty_nil]
      have hloc : location s = some ⟨false, [s]⟩ := by
        rw [location, if_neg hnil, habs, hnames]
      have hinj : Function.Injective (Location.mk false) := fun a b heq ↦ (Location.mk.inj heq).2
      rw [joins, hfirst, List.filterMap_cons_some hloc, locations_joins hnil habs hrest, hnames,
        ← List.map_cons (f := Location.mk false), ← List.map_destutter_ne _ hinj,
        List.destutter_cons', destutter'_walk, nonempty_cons hnil, prefixes_cons]
      rfl

theorem mkdir_eq (hlen : path.length < pathMax) (ignoreLast : Bool) (mode : ℕ) :
    mkdir path mode ignoreLast = if ignoreLast ∧ path = [] then none
      else some ((joins [] (if ignoreLast then (split path slash).dropLast
        else split path slash)).map (⟨·, mode⟩)) := by
  have hempty : (ignoreLast && (split path slash).isEmpty) = decide (ignoreLast ∧ path = []) := by
    rw [Bool.eq_iff_iff]
    simp [split_eq_nil_iff]
  have hsum : ((split path slash).map fun part ↦ part.length + 1).sum ≤ path.length + 1 := by
    have hle := sum_splitFrom_le slash [] path
    rwa [List.length_nil, Nat.zero_add] at hle
  have hsum' : ((split path slash).dropLast.map fun part ↦ part.length + 1).sum
      ≤ ((split path slash).map fun part ↦ part.length + 1).sum := by
    rcases List.eq_nil_or_concat (split path slash) with hnil | ⟨parts, part, hparts⟩
    · rw [hnil]
      exact Nat.le_refl _
    · simp [hparts]
  rw [mkdir]
  simp only [hempty, decide_eq_true_eq]
  refine if_congr Iff.rfl rfl (mkdirLoop_eq [] ?_)
  rw [if_pos rfl, List.length_nil]
  split_ifs <;> omega

/-- Locations on two ways are the same if the names are, and there are none if only one of the ways
begins at the root. -/
theorem map_prefixes_eq_iff {ns ms : List (List UInt8)} {absolute : Bool} :
    (prefixes ns).map (Location.mk false) = (prefixes ms).map (Location.mk absolute) ↔
      ns = ms ∧ (absolute = true → ms = []) := by
  have hnames {b : Bool} {l : List (List (List UInt8))} :
      (l.map (Location.mk b)).map Location.names = l := by simp [Function.comp_def]
  constructor
  · intro heq
    have hsame := congrArg (List.map Location.names) heq
    rw [hnames, hnames, prefixes_inj] at hsame
    refine ⟨hsame, ?_⟩
    rintro rfl
    subst hsame
    cases ns with
    | nil => rfl
    | cons n ns =>
      rw [prefixes_cons, List.map_cons, List.map_cons] at heq
      exact absurd (Location.mk.inj (List.cons.inj heq).1).1 Bool.false_ne_true
  · rintro ⟨rfl, habs⟩
    cases absolute with
    | false => rfl
    | true => rw [habs rfl, prefixes_nil, List.map_nil, List.map_nil]

/-- **The directories that `Mkdir` makes.** They are the ancestors of the path exactly if the slash
at its beginning is not needed, and the last part is the name of the file. -/
theorem makes_iff (hlen : path.length < pathMax) (ignoreLast : Bool) :
    Makes path ignoreLast ↔ KeepsPrefixes path ignoreLast := by
  have hslash : ∀ s ∈ split path slash, slash ∉ s := fun s ↦ not_mem_of_mem_split
  cases ignoreLast with
  | false =>
    have hmakes : Makes path false ↔
        (prefixes (names slash path)).map (Location.mk false) = wayTo path := by
      simp [Makes, mkdir_eq hlen, ancestors, List.filterMap_map, destutter_joins hslash,
        nonempty_split]
    rw [hmakes, wayTo, map_prefixes_eq_iff, KeepsPrefixes]
    simp
  | true =>
    by_cases hnil : path = []
    · refine iff_of_false (fun hmakes ↦ ?_) fun hkeeps ↦ hkeeps.1 hnil
      obtain ⟨calls, hcalls, -⟩ := hmakes 0
      rw [mkdir_eq hlen, if_pos ⟨rfl, hnil⟩] at hcalls
      exact absurd hcalls (by simp)
    have hparts : split path slash ≠ [] := split_eq_nil_iff.not.mpr hnil
    have hmakes : Makes path true ↔
        (prefixes (nonempty (split path slash).dropLast)).map (Location.mk false)
          = (prefixes (names slash path).dropLast).map (Location.mk (isAbsolute path)) := by
      rw [← dropLast_prefixes, List.map_dropLast]
      simp [Makes, mkdir_eq hlen, hnil, ancestors, wayTo, List.filterMap_map,
        destutter_joins fun s hs ↦ hslash s (List.mem_of_mem_dropLast hs)]
    -- a slash alone has an empty part, too, but no name
    have hlast : (nonempty (split path slash).dropLast = (names slash path).dropLast ↔
        (names slash path ≠ [] → ¬ [slash, slash] <:+ path)) := by
      rw [← nonempty_split, nonempty_dropLast_iff hparts, split, getLast?_splitFrom, ← split,
        nonempty_split]
      constructor
      · intro h hne hsuffix
        exact hne (h (Or.inr hsuffix))
      · rintro h (⟨-, rfl⟩ | hsuffix)
        · rfl
        · by_contra hne
          exact h hne hsuffix
    have hone : (names slash path).dropLast = [] ↔ (names slash path).length ≤ 1 := by
      rw [← List.length_eq_zero_iff, List.length_dropLast]
      omega
    rw [hmakes, map_prefixes_eq_iff, hlast, hone, KeepsPrefixes]
    simp [hnil]

/-- A relative path with a doubled slash. -/
theorem makes_doubled : Makes [97, 47, 47, 98, 47, 99] true :=
  (makes_iff (by decide) true).mpr (by decide)

/-- The directory of the file `/a/b` is made as `a`. -/
theorem not_makes_of_absolute :
    ¬ ∀ path : List UInt8, path.length < pathMax → Makes path true := by
  intro h
  obtain ⟨calls, hcalls, -, hmade⟩ := h [47, 97, 47, 98] (by decide) 0
  obtain rfl := Option.some.inj hcalls
  exact absurd hmade (by decide)

end FileUtil

end Coypu
