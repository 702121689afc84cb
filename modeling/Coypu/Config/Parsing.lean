import Coypu.Config.CoypuConfig

/-!
# Configurations of documents

A document is a tree of scalars, sequences and mappings. Its events describe it from left to right,
and `Parse` builds a configuration from them which the tree can be compared with: a sequence has its
children in order, and a mapping has, for each key, what stands behind its first occurrence.

What is built is the tree with each scalar cut at its first zero (`Yaml.cut`). This is the tree
itself as far as a configuration shows it, exactly if no key has a zero and no scalar that is kept
(`Yaml.Clean`).
-/

set_option autoImplicit false

namespace Coypu

/-! ## Documents -/

/-- A tree with scalar keys. -/
inductive Yaml where
  | scalar (value : List UInt8)
  | seq (ts : List Yaml)
  | map (ps : List (List UInt8 × Yaml))

namespace Yaml

/-- The induction over trees. -/
theorem induction {P : Yaml → Prop} (scalar : ∀ value, P (scalar value))
    (seq : ∀ ts, (∀ t ∈ ts, P t) → P (seq ts)) (map : ∀ ps, (∀ p ∈ ps, P p.2) → P (map ps)) :
    ∀ t, P t
  | .scalar value => scalar value
  | .seq ts => seq ts fun t _ ↦ induction scalar seq map t
  | .map ps => map ps fun ⟨_, t⟩ _ ↦ induction scalar seq map t
termination_by t => sizeOf t
decreasing_by
  · have hlt := List.sizeOf_lt_of_mem ‹t ∈ ts›
    rw [Yaml.seq.sizeOf_spec]
    omega
  · have hlt := List.sizeOf_lt_of_mem ‹(_, t) ∈ ps›
    rw [Prod.mk.sizeOf_spec] at hlt
    rw [Yaml.map.sizeOf_spec]
    omega

mutual

/-- The events of a tree. -/
def events : Yaml → List YamlEvent
  | scalar value => [.scalar value]
  | seq ts => .sequenceStart :: (eventsSeq ts ++ [.sequenceEnd])
  | map ps => .mappingStart :: (eventsMap ps ++ [.mappingEnd])

def eventsSeq : List Yaml → List YamlEvent
  | [] => []
  | t :: ts => events t ++ eventsSeq ts

def eventsMap : List (List UInt8 × Yaml) → List YamlEvent
  | [] => []
  | (key, t) :: ps => .scalar key :: (events t ++ eventsMap ps)

end

mutual

/-- The tree with its scalars cut at the first zero. -/
def cut : Yaml → Yaml
  | scalar value => scalar (Head.cStr value)
  | seq ts => seq (cutSeq ts)
  | map ps => map (cutMap ps)

def cutSeq : List Yaml → List Yaml
  | [] => []
  | t :: ts => cut t :: cutSeq ts

def cutMap : List (List UInt8 × Yaml) → List (List UInt8 × Yaml)
  | [] => []
  | (key, t) :: ps => (Head.cStr key, cut t) :: cutMap ps

end

/-- The stream with one document. -/
def stream (t : Yaml) : List (Option YamlEvent) :=
  (.streamStart :: .documentStart :: (t.events ++ [.documentEnd, .streamEnd])).map some

end Yaml

/-! ## What a configuration shows -/

namespace CoypuConfig

variable {heap heap' : ℕ → CoypuConfig} {R R' : ℕ → Prop} {a : ℕ} {t : Yaml}

/-- The configuration at an address is the tree. All its objects are in the region `R`. -/
inductive Represents (heap : ℕ → CoypuConfig) (R : ℕ → Prop) : ℕ → Yaml → Prop
  | scalar {a : ℕ} {value : List UInt8} : R a → (heap a).type = .scalar →
      (heap a).value = value → Represents heap R a (.scalar value)
  | seq {a : ℕ} {ts : List Yaml} : R a → (heap a).type = .sequence →
      (heap a).seqs.length = ts.length →
      (∀ b t, (b, t) ∈ (heap a).seqs.zip ts → Represents heap R b t) →
      Represents heap R a (.seq ts)
  | map {a : ℕ} {ps : List (List UInt8 × Yaml)} : R a → (heap a).type = .map →
      (∀ key, ((heap a).getConfig key).isSome = (ps.lookup key).isSome) →
      (∀ key b t, (heap a).getConfig key = some b → ps.lookup key = some t →
        Represents heap R b t) →
      Represents heap R a (.map ps)

theorem Represents.congr (h : Represents heap R a t) (hheap : ∀ b, R b → heap' b = heap b)
    (hR : ∀ b, R b → R' b) : Represents heap' R' a t := by
  induction h with
  | scalar ha htype hvalue =>
    exact .scalar (hR _ ha) (by rw [hheap _ ha, htype]) (by rw [hheap _ ha, hvalue])
  | seq ha htype hlen _ ih =>
    refine .seq (hR _ ha) (by rw [hheap _ ha, htype]) (by rw [hheap _ ha, hlen])
      fun b t hmem ↦ ih b t ?_
    rwa [hheap _ ha] at hmem
  | map ha htype hkeys _ ih =>
    refine .map (hR _ ha) (by rw [hheap _ ha, htype]) (fun key ↦ by rw [hheap _ ha, hkeys])
      fun key b t hb ht ↦ ih key b t ?_ ht
    rwa [hheap _ ha] at hb

/-! ## `Add` -/

/-- A map or sequence that takes the next object for a value. -/
def Accepts (config : CoypuConfig) : Prop :=
  config.type = .sequence ∨ config.type = .map ∧ config.isValue = true

/-- What becomes of it. -/
def attach (config : CoypuConfig) (item : ℕ) : CoypuConfig :=
  if config.type = .map then
    { config with maps := insert config.maps config.lastKey item, isValue := false }
  else { config with seqs := config.seqs ++ [item] }

theorem add_of_accepts {config : CoypuConfig} (h : config.Accepts) (newItem : CoypuConfig)
    (item : ℕ) : config.add newItem item = some (config.attach item) := by
  rcases h with htype | ⟨htype, hvalue⟩
  · simp only [add, attach, htype, reduceCtorEq, if_false]
  · simp only [add, attach, htype, hvalue, if_true]

theorem lookup_insert (maps : List (List UInt8 × ℕ)) (key : List UInt8) (item : ℕ)
    (key' : List UInt8) : (insert maps key item).lookup key' =
      if key' = key then some ((maps.lookup key).getD item) else maps.lookup key' := by
  rw [insert]
  cases hlookup : maps.lookup key with
  | none =>
    simp only [List.lookup_append]
    split_ifs with heq
    · rw [heq, hlookup, List.lookup_cons_self]
      rfl
    · rw [List.lookup_cons, beq_eq_false_iff_ne.mpr heq]
      exact Option.or_none
  | some item' =>
    split_ifs with heq
    · rw [heq]
      exact hlookup
    · rfl

end CoypuConfig

namespace ConfigParser

open CoypuConfig

variable {s s' : ConfigParser}

/-- A new object was put into the current one. -/
structure Added (s s' : ConfigParser) (newItem : CoypuConfig) : Prop where
  size_eq : s'.size = s.size + 1
  attached : s'.heap s.curConfig = (s.heap s.curConfig).attach s.size
  new_eq : s'.heap s.size = newItem
  frame : ∀ a < s.size, a ≠ s.curConfig → s'.heap a = s.heap a

theorem exists_added (hcur : s.curConfig < s.size) (h : (s.heap s.curConfig).Accepts)
    (newItem : CoypuConfig) :
    ∃ s', s.addNew newItem = some s' ∧ s'.curConfig = s.curConfig ∧ s'.configStack = s.configStack ∧
      s.Added s' newItem := by
  have hne : s.size ≠ s.curConfig := by omega
  refine ⟨{ s with
    heap := Function.update (Function.update s.heap s.size newItem) s.curConfig
      ((s.heap s.curConfig).attach s.size)
    size := s.size + 1 }, ?_, rfl, rfl, rfl, Function.update_self .., ?_, fun a hlt ha ↦ ?_⟩
  · rw [addNew, add_of_accepts h, Option.map_some]
  · exact (Function.update_of_ne hne ..).trans (Function.update_self ..)
  · exact (Function.update_of_ne ha ..).trans (Function.update_of_ne (by omega) ..)

theorem exists_pushed (hcur : s.curConfig < s.size) (h : (s.heap s.curConfig).Accepts)
    (type : CoypuConfigType) :
    ∃ s', s.push type = some s' ∧ s'.curConfig = s.size ∧
      s'.configStack = s.curConfig :: s.configStack ∧ s.Added s' (ofType type) := by
  obtain ⟨s', hadd, -, -, hadded⟩ := exists_added hcur h (ofType type)
  refine ⟨{ s' with curConfig := s.size, configStack := s.curConfig :: s.configStack }, ?_, rfl,
    rfl, hadded.size_eq, hadded.attached, hadded.new_eq, hadded.frame⟩
  rw [push, hadd, Option.map_some]

/-! ## The events of a tree -/

/-- The tree was built on new addresses, and put into the current object, which is the current one
again. -/
structure Builds (s s' : ConfigParser) (t : Yaml) : Prop where
  curConfig_eq : s'.curConfig = s.curConfig
  configStack_eq : s'.configStack = s.configStack
  size_lt : s.size < s'.size
  attached : s'.heap s.curConfig = (s.heap s.curConfig).attach s.size
  frame : ∀ a < s.size, a ≠ s.curConfig → s'.heap a = s.heap a
  represents : Represents s'.heap (fun a ↦ s.size ≤ a ∧ a < s'.size) s.size t.cut

/-- Wherever an object is accepted, the events of the tree build it. -/
def Buildable (t : Yaml) : Prop :=
  ∀ s : ConfigParser, s.curConfig < s.size → (s.heap s.curConfig).Accepts →
    ∃ s', t.events.foldlM step s = some s' ∧ s.Builds s' t

theorem buildable_scalar (value : List UInt8) : Buildable (.scalar value) := by
  intro s hcur haccepts
  obtain ⟨s', hadd, hcur', hstack, hadded⟩ :=
    exists_added hcur haccepts (ofValue (Head.cStr value))
  have hsize := hadded.size_eq
  refine ⟨s', ?_, hcur', hstack, by omega, hadded.attached, hadded.frame, ?_⟩
  · rw [Yaml.events, List.foldlM_cons, step, hadd]
    rfl
  · rw [Yaml.cut]
    exact .scalar ⟨Nat.le_refl _, by omega⟩ (congrArg type hadded.new_eq)
      (congrArg CoypuConfig.value hadded.new_eq)

/-! ### Sequences -/

/-- The trees were built on new addresses, and put into the current object in order. -/
structure BuildsSeq (s s' : ConfigParser) (ts : List Yaml) (bs : List ℕ) : Prop where
  curConfig_eq : s'.curConfig = s.curConfig
  configStack_eq : s'.configStack = s.configStack
  size_le : s.size ≤ s'.size
  current : s'.heap s.curConfig
    = { s.heap s.curConfig with seqs := (s.heap s.curConfig).seqs ++ bs }
  frame : ∀ a < s.size, a ≠ s.curConfig → s'.heap a = s.heap a
  length_eq : bs.length = ts.length
  represents : ∀ b t, (b, t) ∈ bs.zip (Yaml.cutSeq ts) →
    Represents s'.heap (fun a ↦ s.size ≤ a ∧ a < s'.size) b t

theorem exists_buildsSeq {ts : List Yaml} (hts : ∀ t ∈ ts, Buildable t)
    (hcur : s.curConfig < s.size) (htype : (s.heap s.curConfig).type = .sequence) :
    ∃ s' bs, (Yaml.eventsSeq ts).foldlM step s = some s' ∧ s.BuildsSeq s' ts bs := by
  induction ts generalizing s with
  | nil =>
    refine ⟨s, [], rfl, rfl, rfl, Nat.le_refl _, ?_, fun _ _ _ ↦ rfl, rfl, fun b t hmem ↦ ?_⟩
    · rw [List.append_nil]
    · exact absurd hmem List.not_mem_nil
  | cons t ts ih =>
    obtain ⟨s₁, hfirst, h₁⟩ := hts t (List.mem_cons_self ..) s hcur (Or.inl htype)
    have hattached : s₁.heap s.curConfig
        = { s.heap s.curConfig with seqs := (s.heap s.curConfig).seqs ++ [s.size] } := by
      rw [h₁.attached, attach, if_neg (by simp [htype])]
    have hsize := h₁.size_lt
    have hcur₁ : s₁.curConfig < s₁.size := by
      rw [h₁.curConfig_eq]
      omega
    have htype₁ : (s₁.heap s₁.curConfig).type = .sequence := by
      rw [h₁.curConfig_eq, hattached]
      exact htype
    obtain ⟨s₂, bs, hrest, h₂⟩ := ih (fun t ht ↦ hts t (List.mem_cons_of_mem _ ht)) hcur₁ htype₁
    have hsize₂ := h₂.size_le
    have hcurrent := h₂.current
    rw [h₁.curConfig_eq, hattached] at hcurrent
    -- what the first tree left is not touched by the others, and lies apart from the sequence
    have hkept : ∀ a, s.size ≤ a ∧ a < s₁.size → s₂.heap a = s₁.heap a := fun a ha ↦
      h₂.frame a ha.2 (by rw [h₁.curConfig_eq]; omega)
    refine ⟨s₂, s.size :: bs, ?_, ?_⟩
    · rw [Yaml.eventsSeq, List.foldlM_append, hfirst]
      exact hrest
    · refine ⟨h₂.curConfig_eq.trans h₁.curConfig_eq, h₂.configStack_eq.trans h₁.configStack_eq,
        by omega, ?_, fun a hlt ha ↦ ?_, congrArg (· + 1) h₂.length_eq, fun b t' hmem ↦ ?_⟩
      · simpa using hcurrent
      · rw [h₂.frame a (by omega) (by rwa [h₁.curConfig_eq]), h₁.frame a hlt ha]
      · rw [Yaml.cutSeq, List.zip_cons_cons, List.mem_cons] at hmem
        rcases hmem with heq | hmem
        · obtain ⟨rfl, rfl⟩ := Prod.mk.inj heq
          exact h₁.represents.congr hkept fun a ha ↦ ⟨ha.1, by omega⟩
        · exact (h₂.represents b t' hmem).congr (fun _ _ ↦ rfl) fun a ha ↦ ⟨by omega, ha.2⟩

theorem length_cutSeq (ts : List Yaml) : (Yaml.cutSeq ts).length = ts.length := by
  induction ts with
  | nil => rfl
  | cons t ts ih => rw [Yaml.cutSeq, List.length_cons, ih, List.length_cons]

/-- The events of a container, from those of what is in it. -/
theorem foldlM_container {s₁ s₂ : ConfigParser} {first last : YamlEvent} {es : List YamlEvent}
    (hfirst : s.step first = some s₁) (hes : es.foldlM step s₁ = some s₂)
    (hlast : s₂.step last = some s') : (first :: (es ++ [last])).foldlM step s = some s' := by
  rw [List.foldlM_cons, hfirst, Option.bind_eq_bind, Option.bind_some, List.foldlM_append, hes,
    Option.bind_eq_bind, Option.bind_some, List.foldlM_cons, hlast]
  rfl

theorem pop_of_configStack {s₂ : ConfigParser} (h : s₂.configStack = s.curConfig :: s.configStack) :
    s₂.pop = some { s₂ with curConfig := s.curConfig, configStack := s.configStack } := by
  rw [pop, h]

theorem Builds.of_pushed {s₁ s₂ : ConfigParser} {newItem : CoypuConfig} {t : Yaml}
    (hcur : s.curConfig < s.size) (hadded : s.Added s₁ newItem) (hcur₁ : s₁.curConfig = s.size)
    (hsize : s₁.size ≤ s₂.size) (hframe : ∀ a < s₁.size, a ≠ s₁.curConfig → s₂.heap a = s₁.heap a)
    (hrep : Represents s₂.heap (fun a ↦ s.size ≤ a ∧ a < s₂.size) s.size t.cut) :
    s.Builds { s₂ with curConfig := s.curConfig, configStack := s.configStack } t := by
  have hnew := hadded.size_eq
  refine ⟨rfl, rfl, by simp only; omega, ?_, fun a hlt ha ↦ ?_, hrep⟩
  · exact (hframe s.curConfig (by omega) (by omega)).trans hadded.attached
  · exact (hframe a (by omega) (by omega)).trans (hadded.frame a hlt ha)

theorem buildable_seq {ts : List Yaml} (hts : ∀ t ∈ ts, Buildable t) : Buildable (.seq ts) := by
  intro s hcur haccepts
  obtain ⟨s₁, hpush, hcur₁, hstack₁, hadded⟩ := exists_pushed hcur haccepts .sequence
  have hsize₁ := hadded.size_eq
  have hnew : s₁.heap s₁.curConfig = ofType .sequence := by rw [hcur₁, hadded.new_eq]
  obtain ⟨s₂, bs, hitems, h₂⟩ := exists_buildsSeq hts (s := s₁) (by omega) (by rw [hnew]; rfl)
  have hsize₂ := h₂.size_le
  have hcurrent := h₂.current
  rw [hnew, hcur₁] at hcurrent
  refine ⟨{ s₂ with curConfig := s.curConfig, configStack := s.configStack }, ?_,
    Builds.of_pushed hcur hadded hcur₁ h₂.size_le h₂.frame ?_⟩
  · rw [Yaml.events]
    exact foldlM_container hpush hitems
      (pop_of_configStack (h₂.configStack_eq.trans hstack₁))
  · rw [Yaml.cut]
    refine .seq ⟨Nat.le_refl _, by omega⟩ (congrArg type hcurrent) ?_ fun b t hmem ↦ ?_
    · rw [hcurrent, length_cutSeq, ← h₂.length_eq]
      rfl
    · rw [hcurrent] at hmem
      exact (h₂.represents b t hmem).congr (fun _ _ ↦ rfl) fun a ha ↦ ⟨by omega, ha.2⟩

/-! ### Mappings -/

/-- The pairs were built on new addresses, and put into the current object, which keeps the values
that it had. -/
structure BuildsMap (s s' : ConfigParser) (ps : List (List UInt8 × Yaml))
    (maps : List (List UInt8 × ℕ)) : Prop where
  curConfig_eq : s'.curConfig = s.curConfig
  configStack_eq : s'.configStack = s.configStack
  size_le : s.size ≤ s'.size
  type_eq : (s'.heap s.curConfig).type = .map
  maps_eq : (s'.heap s.curConfig).maps = maps
  frame : ∀ a < s.size, a ≠ s.curConfig → s'.heap a = s.heap a
  kept : ∀ key b, (s.heap s.curConfig).maps.lookup key = some b → maps.lookup key = some b
  isSome_eq : ∀ key, (s.heap s.curConfig).maps.lookup key = none →
    (maps.lookup key).isSome = ((Yaml.cutMap ps).lookup key).isSome
  represents : ∀ key b t, (s.heap s.curConfig).maps.lookup key = none →
    maps.lookup key = some b → (Yaml.cutMap ps).lookup key = some t →
      Represents s'.heap (fun a ↦ s.size ≤ a ∧ a < s'.size) b t

theorem exists_key (htype : (s.heap s.curConfig).type = .map)
    (hvalue : (s.heap s.curConfig).isValue = false) (key : List UInt8) :
    ∃ s', s.step (.scalar key) = some s' ∧ s'.curConfig = s.curConfig ∧
      s'.configStack = s.configStack ∧ s'.size = s.size + 1 ∧
      s'.heap s.curConfig
        = { s.heap s.curConfig with lastKey := Head.cStr key, isValue := true } ∧
      ∀ a < s.size, a ≠ s.curConfig → s'.heap a = s.heap a := by
  have hadd : (s.heap s.curConfig).add (ofValue (Head.cStr key)) s.size
      = some { s.heap s.curConfig with lastKey := Head.cStr key, isValue := true } := by
    simp only [add, htype, hvalue, ofValue, Bool.false_eq_true, if_false, if_true]
  refine ⟨{ s with
    heap := Function.update (Function.update s.heap s.size (ofValue (Head.cStr key))) s.curConfig
      { s.heap s.curConfig with lastKey := Head.cStr key, isValue := true }
    size := s.size + 1 }, ?_, rfl, rfl, rfl, Function.update_self .., fun a hlt ha ↦ ?_⟩
  · rw [step, addNew, hadd, Option.map_some]
  · exact (Function.update_of_ne ha ..).trans (Function.update_of_ne (by omega) ..)

/-- A pair was built on new addresses, its value from the address `b` on, and put into the current
object. -/
structure BuildsPair (s s' : ConfigParser) (key : List UInt8) (t : Yaml) (b : ℕ) : Prop where
  curConfig_eq : s'.curConfig = s.curConfig
  configStack_eq : s'.configStack = s.configStack
  size_le : s.size ≤ b
  size_lt : b < s'.size
  current : s'.heap s.curConfig = { s.heap s.curConfig with
    maps := insert (s.heap s.curConfig).maps (Head.cStr key) b
    lastKey := Head.cStr key
    isValue := false }
  frame : ∀ a < s.size, a ≠ s.curConfig → s'.heap a = s.heap a
  represents : Represents s'.heap (fun a ↦ b ≤ a ∧ a < s'.size) b t.cut

theorem exists_buildsPair {t : Yaml} (ht : Buildable t) (hcur : s.curConfig < s.size)
    (htype : (s.heap s.curConfig).type = .map) (hvalue : (s.heap s.curConfig).isValue = false)
    (key : List UInt8) :
    ∃ s' b, (.scalar key :: t.events).foldlM step s = some s' ∧ s.BuildsPair s' key t b := by
  obtain ⟨s₁, hkey, hcur₁, hstack₁, hsize₁, hmap₁, hframe₁⟩ := exists_key htype hvalue key
  have haccepts : (s₁.heap s₁.curConfig).Accepts := by
    rw [hcur₁, hmap₁]
    exact Or.inr ⟨htype, rfl⟩
  obtain ⟨s₂, hevents, h₂⟩ := ht s₁ (by omega) haccepts
  refine ⟨s₂, s₁.size, ?_, h₂.curConfig_eq.trans hcur₁, h₂.configStack_eq.trans hstack₁, by omega,
    h₂.size_lt, ?_, fun a hlt ha ↦ ?_, h₂.represents⟩
  · rw [List.foldlM_cons, hkey]
    exact hevents
  · have hattached := h₂.attached
    rwa [hcur₁, hmap₁, attach, if_pos htype] at hattached
  · rw [h₂.frame a (by omega) (by rwa [hcur₁]), hframe₁ a hlt ha]

theorem BuildsPair.cons {s₁ s₂ : ConfigParser} {key : List UInt8} {t : Yaml} {b : ℕ}
    {ps : List (List UInt8 × Yaml)} {maps : List (List UInt8 × ℕ)} (hcur : s.curConfig < s.size)
    (h₁ : s.BuildsPair s₁ key t b) (h₂ : s₁.BuildsMap s₂ ps maps) :
    s.BuildsMap s₂ ((key, t) :: ps) maps := by
  have hb := h₁.size_le
  have hsize₁ := h₁.size_lt
  have hsize₂ := h₂.size_le
  obtain ⟨hcur₂, hstack₂, -, htype₂, hmaps₂, hframe₂, hkept₂, hsome₂, hrep₂⟩ := h₂
  rw [h₁.curConfig_eq] at hcur₂ htype₂ hmaps₂ hframe₂
  rw [h₁.curConfig_eq, h₁.current] at hkept₂ hsome₂ hrep₂
  have hlookup := lookup_insert (s.heap s.curConfig).maps (Head.cStr key) b
  have hfirst (hnone : (s.heap s.curConfig).maps.lookup (Head.cStr key) = none) :
      maps.lookup (Head.cStr key) = some b := by
    refine hkept₂ _ b ?_
    rw [hlookup, if_pos rfl, hnone, Option.getD_none]
  have hother {key' : List UInt8} (hne : key' ≠ Head.cStr key) :
      (insert (s.heap s.curConfig).maps (Head.cStr key) b).lookup key'
        = (s.heap s.curConfig).maps.lookup key' := by
    rw [hlookup, if_neg hne]
  refine ⟨hcur₂, hstack₂.trans h₁.configStack_eq, by omega, htype₂, hmaps₂, fun a hlt ha ↦ ?_,
    fun key' b' hb' ↦ hkept₂ key' b' ?_, fun key' hnone ↦ ?_, fun key' b' t' hnone hb' ht' ↦ ?_⟩
  · rw [hframe₂ a (by omega) ha, h₁.frame a hlt ha]
  · rw [hlookup]
    split_ifs with heq
    · rw [← heq, hb', Option.getD_some]
    · exact hb'
  · rw [Yaml.cutMap, List.lookup_cons]
    by_cases heq : key' = Head.cStr key
    · subst heq
      rw [hfirst hnone, beq_self_eq_true]
      rfl
    · rw [beq_eq_false_iff_ne.mpr heq]
      exact hsome₂ key' ((hother heq).trans hnone)
  · rw [Yaml.cutMap, List.lookup_cons] at ht'
    by_cases heq : key' = Head.cStr key
    · subst heq
      rw [beq_self_eq_true] at ht'
      obtain rfl : b = b' := Option.some.inj ((hfirst hnone).symm.trans hb')
      obtain rfl : t.cut = t' := Option.some.inj ht'
      -- what the first value left is not touched by the others, and lies apart from the map
      exact h₁.represents.congr (fun a ha ↦ hframe₂ a ha.2 (by omega))
        fun a ha ↦ ⟨by omega, by omega⟩
    · rw [beq_eq_false_iff_ne.mpr heq] at ht'
      exact (hrep₂ key' b' t' ((hother heq).trans hnone) hb' ht').congr (fun _ _ ↦ rfl)
        fun a ha ↦ ⟨by omega, ha.2⟩

theorem exists_buildsMap {ps : List (List UInt8 × Yaml)} (hps : ∀ p ∈ ps, Buildable p.2)
    (hcur : s.curConfig < s.size) (htype : (s.heap s.curConfig).type = .map)
    (hvalue : (s.heap s.curConfig).isValue = false) :
    ∃ s' maps, (Yaml.eventsMap ps).foldlM step s = some s' ∧ s.BuildsMap s' ps maps := by
  induction ps generalizing s with
  | nil =>
    exact ⟨s, _, rfl, rfl, rfl, Nat.le_refl _, htype, rfl, fun _ _ _ ↦ rfl, fun _ _ h ↦ h,
      fun key hnone ↦ by rw [hnone]; rfl, fun key b t hnone hb ↦ by
        rw [hnone] at hb
        exact absurd hb (by simp)⟩
  | cons p ps ih =>
    obtain ⟨key, t⟩ := p
    obtain ⟨s₁, b, hpair, h₁⟩ :=
      exists_buildsPair (hps (key, t) (List.mem_cons_self ..)) hcur htype hvalue key
    have hb := h₁.size_le
    have hsize₁ := h₁.size_lt
    have hcur₁ := h₁.curConfig_eq
    obtain ⟨s₂, maps, hrest, h₂⟩ := ih (s := s₁) (fun p hp ↦ hps p (List.mem_cons_of_mem _ hp))
      (by omega) (by rw [hcur₁, h₁.current]; exact htype) (by rw [hcur₁, h₁.current])
    refine ⟨s₂, maps, ?_, h₁.cons hcur h₂⟩
    rw [Yaml.eventsMap, ← List.cons_append, List.foldlM_append, hpair]
    exact hrest

theorem buildable_map {ps : List (List UInt8 × Yaml)} (hps : ∀ p ∈ ps, Buildable p.2) :
    Buildable (.map ps) := by
  intro s hcur haccepts
  obtain ⟨s₁, hpush, hcur₁, hstack₁, hadded⟩ := exists_pushed hcur haccepts .map
  have hsize₁ := hadded.size_eq
  have hnew : s₁.heap s₁.curConfig = ofType .map := by rw [hcur₁, hadded.new_eq]
  obtain ⟨s₂, maps, hpairs, h₂⟩ := exists_buildsMap hps (s := s₁) (by omega) (by rw [hnew]; rfl)
    (by rw [hnew]; rfl)
  have hsize₂ := h₂.size_le
  refine ⟨{ s₂ with curConfig := s.curConfig, configStack := s.configStack }, ?_,
    Builds.of_pushed hcur hadded hcur₁ h₂.size_le h₂.frame ?_⟩
  · rw [Yaml.events]
    exact foldlM_container hpush hpairs
      (pop_of_configStack (h₂.configStack_eq.trans hstack₁))
  · have htype := h₂.type_eq
    have hmaps := h₂.maps_eq
    have hkeys := h₂.isSome_eq
    have hrep := h₂.represents
    rw [hcur₁] at htype hmaps
    have hempty : ∀ key, (s₁.heap s₁.curConfig).maps.lookup key = none := fun key ↦ by
      rw [hnew]
      rfl
    rw [Yaml.cut]
    refine .map ⟨Nat.le_refl _, by omega⟩ htype (fun key ↦ ?_) fun key b t hb ht ↦ ?_
    · rw [getConfig, hmaps]
      exact hkeys key (hempty key)
    · rw [getConfig, hmaps] at hb
      exact (hrep key b t (hempty key) hb ht).congr (fun _ _ ↦ rfl) fun a ha ↦ ⟨by omega, ha.2⟩

/-- **The events of any tree build it**, with its scalars cut. -/
theorem buildable (t : Yaml) : Buildable t := by
  induction t using Yaml.induction with
  | scalar value => exact buildable_scalar value
  | seq ts ih => exact buildable_seq ih
  | map ps ih => exact buildable_map ih

end ConfigParser

/-! ## Trees that are kept -/

namespace Yaml

/-- No scalar of the tree has a zero, but for those behind a key that occurred before. -/
inductive Clean : Yaml → Prop
  | scalar {value : List UInt8} : 0 ∉ value → Clean (.scalar value)
  | seq {ts : List Yaml} : (∀ t ∈ ts, Clean t) → Clean (.seq ts)
  | map {ps : List (List UInt8 × Yaml)} : (∀ p ∈ ps, 0 ∉ p.1) →
      (∀ key t, ps.lookup key = some t → Clean t) → Clean (.map ps)

theorem cutSeq_eq (ts : List Yaml) : cutSeq ts = ts.map cut := by
  induction ts with
  | nil => rfl
  | cons t ts ih => rw [cutSeq, ih, List.map_cons]

theorem zero_not_mem_cutMap {ps : List (List UInt8 × Yaml)} {p : List UInt8 × Yaml}
    (h : p ∈ cutMap ps) : 0 ∉ p.1 := by
  induction ps with
  | nil => exact absurd h List.not_mem_nil
  | cons q ps ih =>
    rcases List.mem_cons.mp h with rfl | h
    · exact Head.zero_not_mem_cStr q.1
    · exact ih h

theorem lookup_cutMap {ps : List (List UInt8 × Yaml)} (h : ∀ p ∈ ps, 0 ∉ p.1) (key : List UInt8) :
    (cutMap ps).lookup key = (ps.lookup key).map cut := by
  induction ps with
  | nil => rfl
  | cons p ps ih =>
    obtain ⟨key', t⟩ := p
    rw [cutMap, List.lookup_cons, List.lookup_cons,
      Head.cStr_eq_self_iff.mpr (h (key', t) (List.mem_cons_self ..)),
      ih fun p hp ↦ h p (List.mem_cons_of_mem _ hp)]
    cases key == key' <;> rfl

theorem mem_of_lookup {ps : List (List UInt8 × Yaml)} {key : List UInt8} {t : Yaml}
    (h : ps.lookup key = some t) : (key, t) ∈ ps := by
  obtain ⟨l₁, l₂, rfl, -⟩ := List.lookup_eq_some_iff.mp h
  exact List.mem_append_right _ (List.mem_cons_self ..)

end Yaml

namespace CoypuConfig

open Yaml

variable {heap : ℕ → CoypuConfig} {R : ℕ → Prop}

theorem represents_scalar_iff {a : ℕ} {value : List UInt8}
    (h : Represents heap R a (Yaml.scalar value).cut) :
    Represents heap R a (.scalar value) ↔ (Yaml.scalar value).Clean := by
  rw [cut] at h
  cases h with
  | scalar ha htype hvalue =>
    constructor
    · rintro (⟨-, -, hvalue'⟩ | - | -)
      exact .scalar (Head.cStr_eq_self_iff.mp (hvalue.symm.trans hvalue'))
    · rintro (hzero | - | -)
      exact .scalar ha htype (hvalue.trans (Head.cStr_eq_self_iff.mpr hzero))

theorem represents_seq_iff {a : ℕ} {ts : List Yaml}
    (ih : ∀ t ∈ ts, ∀ b, Represents heap R b t.cut → (Represents heap R b t ↔ t.Clean))
    (h : Represents heap R a (Yaml.seq ts).cut) :
    Represents heap R a (.seq ts) ↔ (Yaml.seq ts).Clean := by
  rw [cut, cutSeq_eq] at h
  cases h with
  | seq ha htype hlen hitems =>
    rw [List.length_map] at hlen
    have hcut : ∀ b t, (b, t) ∈ (heap a).seqs.zip ts → Represents heap R b t.cut :=
      fun b t hmem ↦ hitems b t.cut (by
        rw [List.zip_map_right]
        exact List.mem_map_of_mem hmem)
    constructor
    · rintro (- | ⟨-, -, -, hitems'⟩ | -)
      refine .seq fun t ht ↦ ?_
      have hzip : ((heap a).seqs.zip ts).map Prod.snd = ts := List.map_snd_zip hlen.ge
      rw [← hzip] at ht
      obtain ⟨⟨b, t⟩, hmem, rfl⟩ := List.mem_map.mp ht
      exact (ih t (List.of_mem_zip hmem).2 b (hcut b t hmem)).mp (hitems' b t hmem)
    · rintro (- | hts | -)
      refine .seq ha htype hlen fun b t hmem ↦ ?_
      have ht := (List.of_mem_zip hmem).2
      exact (ih t ht b (hcut b t hmem)).mpr (hts t ht)

theorem represents_map_iff {a : ℕ} {ps : List (List UInt8 × Yaml)}
    (ih : ∀ p ∈ ps, ∀ b, Represents heap R b p.2.cut → (Represents heap R b p.2 ↔ p.2.Clean))
    (h : Represents heap R a (Yaml.map ps).cut) :
    Represents heap R a (.map ps) ↔ (Yaml.map ps).Clean := by
  rw [cut] at h
  cases h with
  | map ha htype hkeys hvalues =>
    have hcut (hzero : ∀ p ∈ ps, 0 ∉ p.1) {key : List UInt8} {b : ℕ} {t : Yaml}
        (hb : (heap a).getConfig key = some b) (ht : ps.lookup key = some t) :
        Represents heap R b t.cut :=
      hvalues key b t.cut hb (by rw [lookup_cutMap hzero, ht]; rfl)
    constructor
    · rintro (- | - | ⟨-, -, hkeys', hvalues'⟩)
      have hzero : ∀ p ∈ ps, 0 ∉ p.1 := fun p hp ↦ by
        have hfound : (ps.lookup p.1).isSome = true :=
          List.lookup_isSome_iff.mpr ⟨p, hp, beq_self_eq_true _⟩
        rw [← hkeys' p.1, hkeys p.1] at hfound
        obtain ⟨q, hq, heq⟩ := List.lookup_isSome_iff.mp hfound
        rw [beq_iff_eq.mp heq]
        exact zero_not_mem_cutMap hq
      refine .map hzero fun key t ht ↦ ?_
      obtain ⟨b, hb⟩ : ∃ b, (heap a).getConfig key = some b :=
        Option.isSome_iff_exists.mp (by rw [hkeys' key, ht]; rfl)
      exact (ih (key, t) (mem_of_lookup ht) b (hcut hzero hb ht)).mp (hvalues' key b t hb ht)
    · rintro (- | - | ⟨hzero, hclean⟩)
      refine .map ha htype (fun key ↦ ?_) fun key b t hb ht ↦ ?_
      · rw [hkeys, lookup_cutMap hzero, Option.isSome_map]
      · exact (ih (key, t) (mem_of_lookup ht) b (hcut hzero hb ht)).mpr (hclean key t ht)

/-- A configuration of the tree that is cut is one of the tree exactly if the tree is clean. -/
theorem represents_iff_clean {t : Yaml} {a : ℕ} (h : Represents heap R a t.cut) :
    Represents heap R a t ↔ t.Clean := by
  induction t using Yaml.induction generalizing a with
  | scalar value => exact represents_scalar_iff h
  | seq ts ih => exact represents_seq_iff (fun t ht b hb ↦ ih t ht hb) h
  | map ps ih => exact represents_map_iff (fun p hp b hb ↦ ih p hp hb) h

/-! ## `Parse` -/

theorem loop_cons {s : ConfigParser} {e : YamlEvent} (h : e ≠ .streamEnd)
    (events : List (Option YamlEvent)) :
    s.loop (some e :: events) = (s.step e).bind fun s' ↦ s'.loop events := by
  cases e with
  | streamEnd => exact absurd rfl h
  | _ => rfl

theorem loop_append {es : List YamlEvent} (h : .streamEnd ∉ es) (s : ConfigParser)
    (events : List (Option YamlEvent)) :
    s.loop (es.map some ++ events)
      = (es.foldlM ConfigParser.step s).bind fun s' ↦ s'.loop events := by
  induction es generalizing s with
  | nil => rfl
  | cons e es ih =>
    rw [List.mem_cons, not_or] at h
    rw [List.map_cons, List.cons_append, loop_cons (Ne.symm h.1), List.foldlM_cons,
      Option.bind_eq_bind, Option.bind_assoc]
    exact congrArg _ (funext fun s' ↦ ih h.2 s')

theorem streamEnd_not_mem_events (t : Yaml) : .streamEnd ∉ t.events := by
  induction t using Yaml.induction with
  | scalar value => simp [events]
  | seq ts ih =>
    have hitems : .streamEnd ∉ eventsSeq ts := by
      induction ts with
      | nil => exact List.not_mem_nil
      | cons t ts ihts =>
        rw [eventsSeq, List.mem_append, not_or]
        exact ⟨ih t (List.mem_cons_self ..), ihts fun t ht ↦ ih t (List.mem_cons_of_mem _ ht)⟩
    simpa [events] using hitems
  | map ps ih =>
    have hpairs : .streamEnd ∉ eventsMap ps := by
      induction ps with
      | nil => exact List.not_mem_nil
      | cons p ps ihps =>
        obtain ⟨key, t⟩ := p
        rw [eventsMap, List.mem_cons, List.mem_append, not_or, not_or]
        exact ⟨by simp, ih (key, t) (List.mem_cons_self ..),
          ihps fun p hp ↦ ih p (List.mem_cons_of_mem _ hp)⟩
    simpa [events] using hpairs

theorem exists_start :
    ∃ s, start = some s ∧ s.curConfig = rootConfig ∧ s.configStack = [] ∧ rootConfig < s.size ∧
      s.heap rootConfig = { ofType .map with lastKey := rootKey, isValue := true } :=
  ⟨_, rfl, rfl, rfl, by decide, rfl⟩

/-- The document is parsed, and what is stored for it is the document. -/
def Rebuilds (t : Yaml) : Prop :=
  ∃ s, parse (some t.stream) = some (some s) ∧ s.configStack = [] ∧
    ∃ a, (s.heap rootConfig).getConfig rootKey = some a ∧ Represents s.heap (· < s.size) a t

theorem exists_parsed (t : Yaml) :
    ∃ s a, parse (some t.stream) = some (some s) ∧ s.configStack = [] ∧
      (s.heap rootConfig).getConfig rootKey = some a ∧ Represents s.heap (· < s.size) a t.cut := by
  obtain ⟨s₀, hstart, hcur, hstack, hsize, hroot⟩ := exists_start
  have haccepts : (s₀.heap s₀.curConfig).Accepts := by
    rw [hcur, hroot]
    exact Or.inr ⟨rfl, rfl⟩
  obtain ⟨s, hevents, hbuilds⟩ := ConfigParser.buildable t s₀ (hcur ▸ hsize) haccepts
  refine ⟨s, s₀.size, ?_, hbuilds.configStack_eq.trans hstack, ?_,
    hbuilds.represents.congr (fun _ _ ↦ rfl) fun a ha ↦ ha.2⟩
  · have hloop := loop_append (streamEnd_not_mem_events t) s₀
      [some .documentEnd, some .streamEnd]
    rw [hevents, Option.bind_some] at hloop
    rw [parse, hstart, Option.bind_some, stream, List.map_cons, List.map_cons, List.map_append,
      loop_cons (by simp), ConfigParser.step, Option.bind_some, loop_cons (by simp),
      ConfigParser.step, Option.bind_some]
    exact hloop
  · have hattached := hbuilds.attached
    rw [hcur, hroot] at hattached
    rw [hattached]
    rfl

/-- **`Parse` rebuilds the documents without zeros**: those that have none in a key, nor in a scalar
that is kept. -/
theorem rebuilds_iff (t : Yaml) : Rebuilds t ↔ t.Clean := by
  obtain ⟨s, a, hparse, hstack, hroot, hrep⟩ := exists_parsed t
  constructor
  · rintro ⟨s', hparse', -, a', hroot', hrep'⟩
    obtain rfl : s = s' := Option.some.inj (Option.some.inj (hparse.symm.trans hparse'))
    obtain rfl : a = a' := Option.some.inj (hroot.symm.trans hroot')
    exact (represents_iff_clean hrep).mp hrep'
  · intro hclean
    exact ⟨s, hparse, hstack, a, hroot, (represents_iff_clean hrep).mpr hclean⟩

/-- The document `"a\0b"` comes out as `a`. -/
theorem not_rebuilds_of_zero : ¬∀ t, Rebuilds t := by
  intro h
  obtain ⟨s, hparse, -, a, hroot, hrep⟩ := h (.scalar [0x61, 0, 0x62])
  obtain rfl := Option.some.inj (Option.some.inj hparse)
  obtain rfl : 2 = a := Option.some.inj hroot
  rcases hrep with ⟨-, -, hvalue⟩ | - | -
  exact absurd hvalue (by decide)

end CoypuConfig

end Coypu
