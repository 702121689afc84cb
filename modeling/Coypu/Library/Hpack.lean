import Mathlib.Algebra.BigOperators.Group.List.Basic
import Mathlib.Algebra.Order.Ring.Int

/-!
# Header compression

The decoder of RFC 7541. A header block is a sequence of representations, which refer to a table of
the fields that were decoded before. The table has a size, and drops its oldest entries for new ones
(`Table`).

What a block stands for goes by the table that it finds. Two tables give the same fields exactly if
all that the block refers to is alike in both (`Alike`, `decode_eq_iff`).

How a representation is written is a parameter (`Coding`). `rfc7541` is that of the RFC, with its
Huffman code as a parameter.
-/

set_option autoImplicit false

namespace Hpack

/-! ## Tables -/

/-- A field: its name and its value. -/
abbrev Entry := List UInt8 × List UInt8

/-- The size of an entry. -/
def entrySize (e : Entry) : ℕ := e.1.length + e.2.length + 32

/-- The newest entries, as many of them as there is room for. -/
def fit : ℕ → List Entry → List Entry
  | _, [] => []
  | room, e :: es => if entrySize e ≤ room then e :: fit (room - entrySize e) es else []

theorem sum_fit_le (room : ℕ) (es : List Entry) : ((fit room es).map entrySize).sum ≤ room := by
  induction es generalizing room with
  | nil => exact Nat.zero_le _
  | cons e es ih =>
    rw [fit]
    split_ifs with h
    · have hrest := ih (room - entrySize e)
      rw [List.map_cons, List.sum_cons]
      omega
    · exact Nat.zero_le _

/-- A dynamic table, the newest entry first. -/
structure Table where
  entries : List Entry
  maxSize : ℕ
  size_le : (entries.map entrySize).sum ≤ maxSize

namespace Table

def empty (maxSize : ℕ) : Table := ⟨[], maxSize, Nat.zero_le _⟩

/-- Old entries are dropped for a new one. One that is too large for the table leaves it empty. -/
def insert (t : Table) (e : Entry) : Table :=
  ⟨fit t.maxSize (e :: t.entries), t.maxSize, sum_fit_le _ _⟩

def resize (t : Table) (maxSize : ℕ) : Table := ⟨fit maxSize t.entries, maxSize, sum_fit_le _ _⟩

end Table

/-! ## Representations -/

/-- What a block consists of. A name is an index or a literal. -/
inductive Representation where
  | indexed (index : ℕ)
  | literal (indexing : Bool) (name : ℕ ⊕ List UInt8) (value : List UInt8)
  | sizeUpdate (maxSize : ℕ)
deriving DecidableEq

/-- How a representation is written, from its first byte on, the static table, and the largest size
of a dynamic one. -/
structure Coding where
  parse : UInt8 → List UInt8 → Option (Representation × List UInt8)
  parse_suffix : ∀ {b bs rest r}, parse b bs = some (r, rest) → rest <:+ bs
  static : List Entry
  limit : ℕ

namespace Coding

variable (coding : Coding) (t : Table)

/-- The entry of an index. The static table is in front of the dynamic one. -/
def lookup (index : ℕ) : Option Entry :=
  if index = 0 then none else (coding.static ++ t.entries)[index - 1]?

/-- The name of a literal. -/
def nameOf : ℕ ⊕ List UInt8 → Option (List UInt8)
  | .inl index => (coding.lookup t index).map Prod.fst
  | .inr name => some name

/-- The table behind a representation, and the field that it stands for. `none` is an error. -/
def apply : Representation → Option (Table × Option Entry)
  | .indexed index => (coding.lookup t index).map fun e ↦ (t, some e)
  | .literal indexing name value => (coding.nameOf t name).map fun n ↦
      (if indexing then t.insert (n, value) else t, some (n, value))
  | .sizeUpdate maxSize => if maxSize ≤ coding.limit then some (t.resize maxSize, none) else none

/-- The table behind some representations, and their fields up to an error. `none` is an error in
the block. -/
def decode : Table → List (Option Representation) → Table × List Entry
  | t, some r :: rs =>
    match coding.apply t r with
    | none => (t, [])
    | some q => ((decode q.1 rs).1, q.2.toList ++ (decode q.1 rs).2)
  | t, _ => (t, [])

/-! ## What a block refers to -/

/-- What a representation refers to is alike in two tables: the entry of an index, or a name. -/
def Resolves (s t : Table) : Representation → Prop
  | .indexed index => coding.lookup s index = coding.lookup t index
  | .literal _ name _ => coding.nameOf s name = coding.nameOf t name
  | .sizeUpdate _ => True

instance (s t : Table) : DecidablePred (coding.Resolves s t)
  | .indexed _ => inferInstanceAs (Decidable (_ = _))
  | .literal _ _ _ => inferInstanceAs (Decidable (_ = _))
  | .sizeUpdate _ => .isTrue trivial

/-- What a block refers to is alike in two tables, each as it is behind the representations
before. -/
def Alike : Table → Table → List (Option Representation) → Prop
  | s, t, some r :: rs =>
    coding.Resolves s t r ∧ ∀ p ∈ coding.apply s r, ∀ q ∈ coding.apply t r, Alike p.1 q.1 rs
  | _, _, _ => True

instance decidableAlike : (s t : Table) → (rs : List (Option Representation)) →
    Decidable (coding.Alike s t rs)
  | s, t, some r :: rs =>
    have : ∀ p q : Table × Option Entry, Decidable (coding.Alike p.1 q.1 rs) :=
      fun p q ↦ decidableAlike p.1 q.1 rs
    inferInstanceAs (Decidable (coding.Resolves s t r ∧
      ∀ p ∈ coding.apply s r, ∀ q ∈ coding.apply t r, _))
  | _, _, [] => .isTrue trivial
  | _, _, none :: _ => .isTrue trivial

variable {coding} {s t : Table}

theorem decode_of_none {r : Representation} {rs : List (Option Representation)}
    (h : coding.apply t r = none) : coding.decode t (some r :: rs) = (t, []) := by
  rw [decode, h]

theorem decode_of_some {r : Representation} {rs : List (Option Representation)} {u : Table}
    {e : Option Entry} (h : coding.apply t r = some (u, e)) :
    coding.decode t (some r :: rs) =
      ((coding.decode u rs).1, e.toList ++ (coding.decode u rs).2) := by
  rw [decode, h]

theorem alike_of_none {r : Representation} {rs : List (Option Representation)}
    (h : coding.apply s r = none) : coding.Alike s t (some r :: rs) ↔ coding.Resolves s t r := by
  rw [Alike, h]
  exact and_iff_left fun p hp ↦ absurd hp (by simp)

theorem alike_of_some {r : Representation} {rs : List (Option Representation)}
    {p q : Table × Option Entry} (hs : coding.apply s r = some p) (ht : coding.apply t r = some q) :
    coding.Alike s t (some r :: rs) ↔ coding.Resolves s t r ∧ coding.Alike p.1 q.1 rs := by
  rw [Alike, hs, ht]
  simp

variable (coding s t) in
theorem apply_field {r : Representation} (h : ∀ maxSize, r ≠ .sizeUpdate maxSize) :
    (coding.Resolves s t r ↔ (coding.apply s r).map Prod.snd = (coding.apply t r).map Prod.snd) ∧
      ∀ q ∈ coding.apply s r, ∃ e, q.2 = some e := by
  cases r with
  | indexed index =>
    refine ⟨?_, fun q hq ↦ ?_⟩
    · rw [Resolves, apply, apply, Option.map_map, Option.map_map]
      cases coding.lookup s index <;> cases coding.lookup t index <;> simp
    · obtain ⟨e, -, rfl⟩ := Option.map_eq_some_iff.mp hq
      exact ⟨e, rfl⟩
  | literal indexing name value =>
    refine ⟨?_, fun q hq ↦ ?_⟩
    · rw [Resolves, apply, apply, Option.map_map, Option.map_map]
      cases coding.nameOf s name <;> cases coding.nameOf t name <;> simp
    · obtain ⟨n, -, rfl⟩ := Option.map_eq_some_iff.mp hq
      exact ⟨(n, value), rfl⟩
  | sizeUpdate maxSize => exact absurd rfl (h maxSize)

/-- **Two tables give the same fields** exactly if what the block refers to is alike in both. -/
theorem decode_eq_iff {rs : List (Option Representation)} :
    (coding.decode s rs).2 = (coding.decode t rs).2 ↔ coding.Alike s t rs := by
  induction rs generalizing s t with
  | nil => exact iff_of_true rfl trivial
  | cons o rs ih =>
    cases o with
    | none => exact iff_of_true rfl trivial
    | some r =>
      by_cases hupdate : ∃ maxSize, r = .sizeUpdate maxSize
      · obtain ⟨maxSize, rfl⟩ := hupdate
        by_cases hlimit : maxSize ≤ coding.limit
        · have happly (u : Table) : coding.apply u (.sizeUpdate maxSize)
            = some (u.resize maxSize, none) :=
            if_pos hlimit
          rw [decode_of_some (happly s), decode_of_some (happly t),
            alike_of_some (happly s) (happly t)]
          exact ih.trans (and_iff_right trivial).symm
        · have happly (u : Table) : coding.apply u (.sizeUpdate maxSize) = none := if_neg hlimit
          rw [decode_of_none (happly s), decode_of_none (happly t), alike_of_none (happly s)]
          exact iff_of_true rfl trivial
      · have hfield : ∀ maxSize, r ≠ .sizeUpdate maxSize := fun maxSize hr ↦ hupdate ⟨maxSize, hr⟩
        obtain ⟨hresolves, hs⟩ := coding.apply_field s t hfield
        obtain ⟨-, ht⟩ := coding.apply_field t s hfield
        -- the first field tells the two apart, or both tables go on behind it
        cases hsr : coding.apply s r with
        | none =>
          rw [decode_of_none hsr, alike_of_none hsr, hresolves, hsr]
          cases htr : coding.apply t r with
          | none =>
            rw [decode_of_none htr]
            exact iff_of_true rfl rfl
          | some q =>
            obtain ⟨e, he⟩ := ht q htr
            rw [decode_of_some htr, he]
            exact iff_of_false (by simp) (by simp)
        | some p =>
          obtain ⟨e, he⟩ := hs p hsr
          cases htr : coding.apply t r with
          | none =>
            rw [decode_of_some hsr, decode_of_none htr, Alike, hresolves, hsr, htr, he]
            exact iff_of_false (by simp) (by simp)
          | some q =>
            obtain ⟨e', he'⟩ := ht q htr
            rw [decode_of_some hsr, decode_of_some htr, alike_of_some hsr htr, hresolves, hsr, htr,
              ← ih, he, he']
            simp [he, he']

/-! ## Blocks -/

variable (coding) in
/-- The representations of a block. `none` is an error. -/
def representations : ℕ → List UInt8 → List (Option Representation)
  | _, [] => []
  | 0, _ :: _ => [none]
  | fuel + 1, b :: bs =>
    match coding.parse b bs with
    | none => [none]
    | some (r, rest) => some r :: representations fuel rest

variable (coding) in
/-- The table behind a block, and its fields. -/
def decodeBlock (t : Table) (block : List UInt8) : Table × List Entry :=
  coding.decode t (coding.representations block.length block)

variable (coding) in
/-- The next field of a block and what is behind it, or that there is none. `none` is an error. -/
def next : ℕ → Table → List UInt8 → Table × Option (List UInt8 × Option Entry)
  | _, t, [] => (t, some ([], none))
  | 0, t, _ :: _ => (t, none)
  | fuel + 1, t, b :: bs =>
    match coding.parse b bs with
    | none => (t, none)
    | some (r, rest) =>
      match coding.apply t r with
      | none => (t, none)
      | some (u, some e) => (u, some (rest, some e))
      | some (u, none) => next fuel u rest

theorem representations_of_le {fuel : ℕ} {block : List UInt8} (h : block.length ≤ fuel) :
    coding.representations fuel block = coding.representations block.length block := by
  suffices hle : ∀ n, block.length ≤ n → n ≤ fuel →
      coding.representations fuel block = coding.representations n block from hle _
        (Nat.le_refl _) h
  induction fuel generalizing block with
  | zero =>
    intro n _ hn
    rw [Nat.le_zero.mp hn]
  | succ fuel ih =>
    intro n hblock hn
    cases block with
    | nil => cases n <;> rfl
    | cons b bs =>
      obtain ⟨m, rfl⟩ := Nat.exists_eq_add_one_of_ne_zero
        (Nat.ne_of_gt (Nat.lt_of_lt_of_le (Nat.succ_pos _) hblock))
      rw [representations, representations]
      cases hparse : coding.parse b bs with
      | none => rfl
      | some q =>
        have hle := (coding.parse_suffix hparse).length_le
        rw [List.length_cons] at h hblock
        have hrest : coding.representations fuel q.2 = coding.representations m q.2 :=
          ih (by omega) m (by omega) (by omega)
        exact congrArg (some q.1 :: ·) hrest

theorem decodeBlock_of_parse_none {b : UInt8} {bs : List UInt8} (h : coding.parse b bs = none) :
    coding.decodeBlock t (b :: bs) = (t, []) := by
  rw [decodeBlock, List.length_cons, representations, h]
  rfl

theorem decodeBlock_of_parse {b : UInt8} {bs rest : List UInt8} {r : Representation}
    (h : coding.parse b bs = some (r, rest)) :
    coding.decodeBlock t (b :: bs) = coding.decode t
      (some r :: coding.representations rest.length rest) := by
  rw [decodeBlock, List.length_cons, representations, h]
  simp only
  rw [representations_of_le (coding.parse_suffix h).length_le]

theorem next_of_parse {fuel : ℕ} {b : UInt8} {bs rest : List UInt8} {r : Representation}
    (h : coding.parse b bs = some (r, rest)) :
    coding.next (fuel + 1) t (b :: bs) = match coding.apply t r with
      | none => (t, none)
      | some (u, some e) => (u, some (rest, some e))
      | some (u, none) => coding.next fuel u rest := by
  rw [next, h]

variable (coding t) in
/-- **A block is decoded field by field.** -/
theorem next_cases {fuel : ℕ} {block : List UInt8} (h : block.length ≤ fuel) :
    ((coding.next fuel t block).2 = none ∧
      coding.decodeBlock t block = ((coding.next fuel t block).1, [])) ∨
      ((coding.next fuel t block).2 = some ([], none) ∧
        coding.decodeBlock t block = ((coding.next fuel t block).1, [])) ∨
      ∃ rest e, (coding.next fuel t block).2 = some (rest, some e) ∧ rest <:+ block.tail ∧
        block ≠ [] ∧
        coding.decodeBlock t block = ((coding.decodeBlock (coding.next fuel t block).1 rest).1,
          e :: (coding.decodeBlock (coding.next fuel t block).1 rest).2) := by
  induction fuel generalizing t block with
  | zero =>
    obtain rfl := List.eq_nil_of_length_eq_zero (Nat.le_zero.mp h)
    exact Or.inr (Or.inl ⟨rfl, rfl⟩)
  | succ fuel ih =>
    cases block with
    | nil => exact Or.inr (Or.inl ⟨rfl, rfl⟩)
    | cons b bs =>
      cases hparse : coding.parse b bs with
      | none =>
        rw [next, hparse]
        exact Or.inl ⟨rfl, decodeBlock_of_parse_none hparse⟩
      | some q =>
        obtain ⟨r, rest⟩ := q
        have hsuffix := coding.parse_suffix hparse
        rw [decodeBlock_of_parse hparse, next_of_parse hparse]
        cases happly : coding.apply t r with
        | none =>
          exact Or.inl ⟨rfl, decode_of_none happly⟩
        | some p =>
          obtain ⟨u, e⟩ := p
          cases e with
          | some e =>
            exact Or.inr (Or.inr ⟨rest, e, rfl, hsuffix, List.cons_ne_nil _ _,
              decode_of_some happly⟩)
          | none =>
            -- a size update stands for no field
            rw [decode_of_some happly]
            have hle := Nat.le_trans hsuffix.length_le (Nat.le_of_succ_le_succ h)
            rcases ih u hle with hnone | hend | ⟨rest', e, hnext, hsuffix', -, hrest⟩
            · exact Or.inl hnone
            · exact Or.inr (Or.inl hend)
            · have htail := hsuffix'.trans ((List.tail_suffix rest).trans hsuffix)
              exact Or.inr (Or.inr ⟨rest', e, hnext, htail, List.cons_ne_nil _ _, hrest⟩)

end Coding

/-! ## RFC 7541 -/

/-- The bytes of an integer behind the first one, and the weight of the next. -/
def continued : ℕ → List UInt8 → Option (ℕ × List UInt8)
  | _, [] => none
  | weight, b :: bs =>
    if b < 128 then some (b.toNat * weight, bs)
    else (continued (weight * 128) bs).map fun q ↦ ((b.toNat - 128) * weight + q.1, q.2)

/-- An integer that begins in the last `bits` bits of a byte. -/
def integer (bits : ℕ) (b : UInt8) (bs : List UInt8) : Option (ℕ × List UInt8) :=
  let v := b.toNat % 2 ^ bits
  if v < 2 ^ bits - 1 then some (v, bs) else (continued 1 bs).map fun q ↦ (v + q.1, q.2)

/-- A string: its length, and whether it has Huffman codes. -/
def octets (huffman : List UInt8 → Option (List UInt8)) : List UInt8 →
    Option (List UInt8 × List UInt8)
  | [] => none
  | b :: bs => (integer 7 b bs).bind fun q ↦
    if q.1 ≤ q.2.length then
      (if b < 128 then some (q.2.take q.1) else huffman (q.2.take q.1)).map fun l ↦
        (l, q.2.drop q.1)
    else none

/-- A literal behind its index, which is zero where the name is a string. -/
def literal (huffman : List UInt8 → Option (List UInt8)) (indexing : Bool) (index : ℕ)
    (bs : List UInt8) : Option (Representation × List UInt8) :=
  if index = 0 then
    (octets huffman bs).bind fun n ↦ (octets huffman n.2).map fun v ↦
  (.literal indexing (.inr n.1) v.1, v.2)
  else (octets huffman bs).map fun v ↦ (.literal indexing (.inl index) v.1, v.2)

/-- A representation, by the first bits. -/
def representation (huffman : List UInt8 → Option (List UInt8)) (b : UInt8) (bs : List UInt8) :
    Option (Representation × List UInt8) :=
  if 128 ≤ b then (integer 7 b bs).map fun q ↦ (.indexed q.1, q.2)
  else if 64 ≤ b then (integer 6 b bs).bind fun q ↦ literal huffman true q.1 q.2
  else if 32 ≤ b then (integer 5 b bs).map fun q ↦ (.sizeUpdate q.1, q.2)
  else (integer 4 b bs).bind fun q ↦ literal huffman false q.1 q.2

theorem continued_suffix {weight n : ℕ} {bs rest : List UInt8}
    (h : continued weight bs = some (n, rest)) : rest <:+ bs := by
  induction bs generalizing weight n with
  | nil => exact absurd h (by simp [continued])
  | cons b bs ih =>
    rw [continued] at h
    split_ifs at h
    · obtain ⟨-, rfl⟩ := Prod.mk.inj (Option.some.inj h)
      exact List.suffix_cons b bs
    · obtain ⟨q, hq, heq⟩ := Option.map_eq_some_iff.mp h
      obtain ⟨-, rfl⟩ := Prod.mk.inj heq
      exact (ih hq).trans (List.suffix_cons b bs)

theorem integer_suffix {bits n : ℕ} {b : UInt8} {bs rest : List UInt8}
    (h : integer bits b bs = some (n, rest)) : rest <:+ bs := by
  rw [integer] at h
  split_ifs at h
  · obtain ⟨-, rfl⟩ := Prod.mk.inj (Option.some.inj h)
    exact List.suffix_rfl
  · obtain ⟨q, hq, heq⟩ := Option.map_eq_some_iff.mp h
    obtain ⟨-, rfl⟩ := Prod.mk.inj heq
    exact continued_suffix hq

variable {huffman : List UInt8 → Option (List UInt8)}

theorem octets_suffix {bs l rest : List UInt8} (h : octets huffman bs = some (l, rest)) :
    rest <:+ bs := by
  cases bs with
  | nil => exact absurd h (by simp [octets])
  | cons b bs =>
    obtain ⟨q, hq, heq⟩ := Option.bind_eq_some_iff.mp h
    split_ifs at heq
    all_goals
      obtain ⟨_, -, hl⟩ := Option.map_eq_some_iff.mp heq
      obtain ⟨-, rfl⟩ := Prod.mk.inj hl
      exact (List.drop_suffix _ _).trans ((integer_suffix hq).trans (List.suffix_cons b bs))

theorem literal_suffix {indexing : Bool} {index : ℕ} {bs rest : List UInt8} {r : Representation}
    (h : literal huffman indexing index bs = some (r, rest)) : rest <:+ bs := by
  rw [literal] at h
  split_ifs at h
  · obtain ⟨n, hn, heq⟩ := Option.bind_eq_some_iff.mp h
    obtain ⟨v, hv, heq⟩ := Option.map_eq_some_iff.mp heq
    obtain ⟨-, rfl⟩ := Prod.mk.inj heq
    exact (octets_suffix hv).trans (octets_suffix hn)
  · obtain ⟨v, hv, heq⟩ := Option.map_eq_some_iff.mp h
    obtain ⟨-, rfl⟩ := Prod.mk.inj heq
    exact octets_suffix hv

theorem representation_suffix {b : UInt8} {bs rest : List UInt8} {r : Representation}
    (h : representation huffman b bs = some (r, rest)) : rest <:+ bs := by
  rw [representation] at h
  split_ifs at h
  · obtain ⟨q, hq, heq⟩ := Option.map_eq_some_iff.mp h
    obtain ⟨-, rfl⟩ := Prod.mk.inj heq
    exact integer_suffix hq
  · obtain ⟨q, hq, heq⟩ := Option.bind_eq_some_iff.mp h
    exact (literal_suffix heq).trans (integer_suffix hq)
  · obtain ⟨q, hq, heq⟩ := Option.map_eq_some_iff.mp h
    obtain ⟨-, rfl⟩ := Prod.mk.inj heq
    exact integer_suffix hq
  · obtain ⟨q, hq, heq⟩ := Option.bind_eq_some_iff.mp h
    exact (literal_suffix heq).trans (integer_suffix hq)

/-- The static table. -/
def staticTable : List Entry :=
  ([(":authority", ""), (":method", "GET"), (":method", "POST"), (":path", "/"),
    (":path", "/index.html"),
    (":scheme", "http"), (":scheme", "https"), (":status", "200"), (":status", "204"),
    (":status", "206"),
    (":status", "304"), (":status", "400"), (":status", "404"), (":status", "500"),
    ("accept-charset", ""),
    ("accept-encoding", "gzip, deflate"), ("accept-language", ""), ("accept-ranges", ""),
    ("accept", ""),
    ("access-control-allow-origin", ""), ("age", ""), ("allow", ""), ("authorization", ""),
    ("cache-control", ""),
    ("content-disposition", ""), ("content-encoding", ""), ("content-language", ""),
    ("content-length", ""),
    ("content-location", ""), ("content-range", ""), ("content-type", ""), ("cookie", ""),
    ("date", ""),
    ("etag", ""), ("expect", ""), ("expires", ""), ("from", ""), ("host", ""), ("if-match", ""),
    ("if-modified-since", ""), ("if-none-match", ""), ("if-range", ""), ("if-unmodified-since", ""),
    ("last-modified", ""), ("link", ""), ("location", ""), ("max-forwards", ""),
    ("proxy-authenticate", ""),
    ("proxy-authorization", ""), ("range", ""), ("referer", ""), ("refresh", ""),
    ("retry-after", ""),
    ("server", ""), ("set-cookie", ""), ("strict-transport-security", ""),
    ("transfer-encoding", ""),
    ("user-agent", ""), ("vary", ""), ("via", ""),
    ("www-authenticate", "")] : List (String × String)).map
    fun e ↦ (e.1.toList.map Char.toUInt8, e.2.toList.map Char.toUInt8)

/-- The coding of RFC 7541, with a Huffman code and a limit for the size of the table. -/
def rfc7541 (huffman : List UInt8 → Option (List UInt8)) (limit : ℕ) : Coding :=
  ⟨representation huffman, representation_suffix, staticTable, limit⟩

/-- Two requests of one connection. The second one refers to the authority of the first. -/
example :
    let coding := rfc7541 (fun _ ↦ none) 4096
    let authority := "www.example.com".toList.map Char.toUInt8
    let first := coding.decodeBlock (.empty 4096) ([0x82, 0x86, 0x84, 0x41, 0x0f] ++ authority)
    (first.2 ++ (coding.decodeBlock first.1 [0x82, 0x86, 0x84, 0xbe]).2).map Prod.snd =
      ["GET", "http", "/", "www.example.com", "GET", "http", "/", "www.example.com"].map
        fun value ↦ value.toList.map Char.toUInt8 := by decide +kernel

end Hpack
