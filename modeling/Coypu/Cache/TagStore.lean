import Coypu.Library.Records
import Coypu.Store.FlatLog

/-!
# The tag dictionary

`TagStore` gives each tag the next number and keeps the tags in the log of a file: each with its
length in front, no count, and zeros behind the last one. `Restore` reads the log from the
beginning, up to a length that is zero, and sets the position of the writer there.
-/

set_option autoImplicit false

namespace Coypu

/-- A tag is a string of bytes. -/
abbrev Tag := List UInt8

structure TagStore where
  tagBuf : PagedLog (LRUCache 1) 1
  nextId : ℕ
  tags : List Tag
  tagToId : List (Tag × ℕ)

namespace TagStore

def maxTagLen : ℕ := 128

/-- The constructor, which opens the log behind the last byte of the file. -/
def new (file : MappedFile) : TagStore :=
  ⟨PagedLog.ofFile 1 PagedLog.systemPage PagedLog.systemPage_pos file, 0, [], []⟩

variable (s : TagStore)

/-- `insert`, which keeps a tag that is there. -/
def insert (m : List (Tag × ℕ)) (tag : Tag) (id : ℕ) : List (Tag × ℕ) :=
  if (m.find? (·.1 = tag)).isSome then m else m ++ [(tag, id)]

/-- What `Restore` and `Append` do with a tag that is in the log. -/
def add (tag : Tag) : TagStore :=
  { s with
    nextId := CInt.toUnsigned 32 (s.nextId + 1 : ℕ)
    tags := s.tags ++ [tag]
    tagToId := insert s.tagToId tag s.nextId }

/-- The loop of `Restore` from an offset on: whether it ends well, and where. -/
def restoreLoop : ℕ → ℕ → TagStore → Option ((Bool × ℕ) × TagStore)
  | 0, _, _ => none
  | fuel + 1, off, s =>
    if s.tagBuf.available ≤ off then some ((true, off), s)
    else if s.tagBuf.available - off < 8 then some ((false, off), s)
    else
      match s.tagBuf.pop off 8 with
      | none => none
      | some (none, buf) => some ((false, off), { s with tagBuf := buf })
      | some (some l, buf) =>
        let len := Records.lengthOf l
        if len = 0 then some ((true, off), { s with tagBuf := buf })
        else if maxTagLen < len then some ((false, off + 8), { s with tagBuf := buf })
        else
          match buf.pop (off + 8) len with
          | none => none
          | some (none, buf) => some ((false, off + 8), { s with tagBuf := buf })
          | some (some tag, buf) =>
            restoreLoop fuel (off + 8 + len) ({ s with tagBuf := buf }.add tag)

/-- `Restore`: its result, and the offset that it sets. A round goes on by nine bytes at least. -/
def restore : Option ((Bool × ℕ) × TagStore) :=
  (s.restoreLoop (s.tagBuf.available + 1) 0).map fun r ↦
    let p := r.2.tagBuf.setPosition r.1.2
    if r.1.1 then ((p.1, r.1.2), { r.2 with tagBuf := p.2 }) else r

def findTag (tag : Tag) : Option ℕ := (s.tagToId.find? (·.1 = tag)).map Prod.snd

def getTag (id : ℕ) : Tag := s.tags.getD id []

def getTagCount : ℕ := s.nextId

/-- `Append`: the number of the tag, if it is taken. -/
def append (tag : Tag) : Option ℕ × TagStore :=
  if maxTagLen < tag.length then (none, s)
  else
    let r := s.tagBuf.push (Records.lengthBytes tag.length)
    if r.1 ≠ 0 then (none, { s with tagBuf := r.2 })
    else
      let r' := r.2.push tag
      if r'.1 ≠ 0 then (none, { s with tagBuf := r'.2 })
      else (some s.nextId, { s with tagBuf := r'.2 }.add tag)

def getOrCreateTag (tag : Tag) : Option ℕ × TagStore :=
  match s.findTag tag with
  | some id => (some id, s)
  | none => s.append tag

variable {s}

/-! ## Tags and their places -/

section

variable {l : List Tag} {tag : Tag} {id : ℕ}

theorem find?_zipIdx_eq_none (h : tag ∉ l) : (l.zipIdx.find? (·.1 = tag)) = none := by
  rw [List.find?_eq_none]
  rintro ⟨t, i⟩ hmem
  rw [List.mem_zipIdx_iff_getElem?] at hmem
  have hne : t ≠ tag := fun heq ↦ h (heq ▸ List.mem_of_getElem? hmem)
  simpa using hne

/-- Where each tag has its place as its number, these are the numbers that are found. -/
theorem findTag_eq_some_iff (hids : s.tagToId = l.zipIdx) (hl : l.Nodup) :
    s.findTag tag = some id ↔ l[id]? = some tag := by
  rw [findTag, hids]
  constructor
  · intro hfind
    obtain ⟨⟨t, i⟩, hp, rfl⟩ := Option.map_eq_some_iff.mp hfind
    have hkey := List.find?_some hp
    rw [decide_eq_true_iff] at hkey
    obtain rfl : t = tag := hkey
    exact List.mem_zipIdx_iff_getElem?.mp (List.mem_of_find?_eq_some hp)
  · intro hget
    cases hfind : l.zipIdx.find? (·.1 = tag) with
    | none =>
      rw [List.find?_eq_none] at hfind
      exact absurd (decide_eq_true rfl) (hfind (tag, id) (List.mem_zipIdx_iff_getElem?.mpr hget))
    | some p =>
      obtain ⟨t, i⟩ := p
      have hkey := List.find?_some hfind
      rw [decide_eq_true_iff] at hkey
      obtain rfl : t = tag := hkey
      have hget' := List.mem_zipIdx_iff_getElem?.mp (List.mem_of_find?_eq_some hfind)
      obtain ⟨hi, -⟩ := List.getElem?_eq_some_iff.mp hget'
      have hsame := (List.getElem?_inj hi hl).mp (hget'.trans hget.symm)
      rw [Option.map_some, hsame]

theorem findTag_eq_none (hids : s.tagToId = l.zipIdx) (htag : tag ∉ l) : s.findTag tag = none := by
  rw [findTag, hids, find?_zipIdx_eq_none htag, Option.map_none]

end

/-! ## `Restore` parses the file -/

open PagedLog

variable {t : FlatLog}

theorem fits_pop {pageSize start size : ℕ} (hpage : 0 < pageSize)
    (hfile : t.bytes.length < 2 ^ 32 * pageSize) (hrange : start + size ≤ t.bytes.length) :
    t.Fits pageSize (.pop start size) := by
  have hlast : t.lastPage pageSize = t.bytes.length / pageSize :=
    CInt.toUnsigned_natCast ((Nat.div_lt_iff_lt_mul hpage).mpr hfile)
  refine ⟨by omega, ?_, ?_⟩
  · rw [hlast]
    exact Nat.div_le_div_right (by omega)
  · rw [hlast, Nat.add_one_mul]
    have hlt := Nat.lt_div_mul_add hpage (a := t.bytes.length)
    omega

/-- A store that has read tags from its log. -/
def addAll (s : TagStore) (tags : List Tag) : TagStore := tags.foldl add s

theorem tags_addAll (s : TagStore) (tags : List Tag) : (s.addAll tags).tags = s.tags ++ tags := by
  induction tags generalizing s with
  | nil => exact (List.append_nil _).symm
  | cons tag tags ih => exact (ih (s.add tag)).trans (List.append_assoc _ _ _)

theorem addAll_tagBuf (s : TagStore) (buf : PagedLog (LRUCache 1) 1) (tags : List Tag) :
    { s with tagBuf := buf }.addAll tags = { s.addAll tags with tagBuf := buf } := by
  induction tags generalizing s with
  | nil => rfl
  | cons tag tags ih => exact ih (s.add tag)

/-- The loop only adds tags, whatever the file holds. The induction is on the rounds. -/
theorem exists_addAll_of_restoreLoop {fuel off : ℕ} {r : Bool × ℕ} {s' : TagStore}
    (h : s.restoreLoop fuel off = some (r, s')) :
    ∃ tags buf, s' = { s.addAll tags with tagBuf := buf } := by
  induction fuel generalizing s off with
  | zero => exact absurd h.symm (Option.some_ne_none _)
  | succ fuel ih =>
    rw [restoreLoop] at h
    have hnone (buf : PagedLog (LRUCache 1) 1) (heq : s' = { s with tagBuf := buf }) :
        ∃ tags buf, s' = { s.addAll tags with tagBuf := buf } := ⟨[], buf, heq⟩
    split_ifs at h with hend hshort
    · exact hnone s.tagBuf (Prod.mk.inj (Option.some.inj h)).2.symm
    · exact hnone s.tagBuf (Prod.mk.inj (Option.some.inj h)).2.symm
    cases hpop : s.tagBuf.pop off 8 with
    | none =>
      rw [hpop] at h
      exact absurd h.symm (Option.some_ne_none _)
    | some p =>
      obtain ⟨l, buf⟩ := p
      rw [hpop] at h
      cases l with
      | none => exact hnone buf (Prod.mk.inj (Option.some.inj h)).2.symm
      | some l =>
        simp only at h
        split_ifs at h with hzero hlong
        · exact hnone buf (Prod.mk.inj (Option.some.inj h)).2.symm
        · exact hnone buf (Prod.mk.inj (Option.some.inj h)).2.symm
        cases hpop' : buf.pop (off + 8) (Records.lengthOf l) with
        | none =>
          rw [hpop'] at h
          exact absurd h.symm (Option.some_ne_none _)
        | some p' =>
          obtain ⟨tag, buf'⟩ := p'
          rw [hpop'] at h
          cases tag with
          | none => exact hnone buf' (Prod.mk.inj (Option.some.inj h)).2.symm
          | some tag =>
            obtain ⟨tags, buf'', heq⟩ := ih h
            refine ⟨tag :: tags, buf'', ?_⟩
            rw [heq]
            exact congrArg (fun s : TagStore ↦ { s with tagBuf := buf'' })
              (addAll_tagBuf (s.add tag) buf' tags)

theorem exists_addAll_of_restore {r : Bool × ℕ} {s' : TagStore} (h : s.restore = some (r, s')) :
    ∃ tags buf, s' = { s.addAll tags with tagBuf := buf } := by
  rw [restore] at h
  obtain ⟨⟨r₁, s₁⟩, hloop, heq⟩ := Option.map_eq_some_iff.mp h
  obtain ⟨tags, buf, rfl⟩ := exists_addAll_of_restoreLoop hloop
  simp only at heq
  split_ifs at heq
  · exact ⟨tags, _, (Prod.mk.inj heq).2.symm⟩
  · exact ⟨tags, _, (Prod.mk.inj heq).2.symm⟩

/-- What the file parses to is restored. The induction is on the rounds. -/
theorem restoreLoop_of_parse {fuel off n : ℕ} {tags : List Tag} (h : Flat s.tagBuf t)
    (hfile : t.bytes.length < 2 ^ 32 * s.tagBuf.pageSize)
    (hparse : Records.parse maxTagLen fuel (t.bytes.drop off) = some (tags, n)) :
    ∃ c, c.Sound s.tagBuf.pageSize ∧ s.restoreLoop fuel off
      = some ((true, off + n), { s.addAll tags with tagBuf := { s.tagBuf with cache := c } }) := by
  induction fuel generalizing s off n tags with
  | zero => exact absurd hparse (by simp [Records.parse])
  | succ fuel ih =>
    have hlength := h.length_eq
    rw [Records.parse] at hparse
    rw [restoreLoop]
    by_cases hend : t.bytes.length ≤ off
    · rw [if_pos (List.drop_eq_nil_of_le hend)] at hparse
      obtain ⟨rfl, rfl⟩ := Prod.mk.inj (Option.some.inj hparse)
      rw [if_pos (by rwa [hlength])]
      exact ⟨s.tagBuf.cache, h.sound, rfl⟩
    rw [if_neg (by rwa [List.drop_eq_nil_iff]), List.length_drop] at hparse
    by_cases hshort : t.bytes.length - off < 8
    · rw [if_pos hshort] at hparse
      exact absurd hparse (by simp)
    obtain ⟨c, hc, hpop⟩ := h.pop (by omega : off + 8 ≤ _)
      (fits_pop s.tagBuf.pageSize_pos hfile (by omega))
    rw [if_neg hshort] at hparse
    rw [if_neg (by rwa [hlength]), if_neg (by rwa [hlength]), hpop]
    simp only at hparse ⊢
    obtain ⟨len, hlen⟩ : ∃ len, len = Records.lengthOf ((t.bytes.drop off).take 8) := ⟨_, rfl⟩
    rw [← hlen] at hparse ⊢
    -- a length of zero is what lies behind the last tag
    by_cases hzero : len = 0
    · rw [if_pos hzero] at hparse ⊢
      obtain ⟨rfl, rfl⟩ := Prod.mk.inj (Option.some.inj hparse)
      exact ⟨c, hc, rfl⟩
    rw [if_neg hzero] at hparse ⊢
    by_cases hlong : maxTagLen < len ∨ t.bytes.length - off < 8 + len
    · rw [if_pos hlong] at hparse
      exact absurd hparse (by simp)
    obtain ⟨c', hc', hpop'⟩ := (h.of_cache hc).pop (by omega : off + 8 + len ≤ _)
      (fits_pop s.tagBuf.pageSize_pos hfile (by omega))
    rw [if_neg hlong] at hparse
    rw [if_neg (fun hlt ↦ hlong (Or.inl hlt)), hpop']
    obtain ⟨⟨tags', n'⟩, hrest, heq⟩ := Option.map_eq_some_iff.mp hparse
    obtain ⟨rfl, rfl⟩ := Prod.mk.inj heq
    rw [List.drop_drop, ← Nat.add_assoc] at hrest
    obtain ⟨c'', hc'', hloop⟩ := ih (s := { s.add ((t.bytes.drop (off + 8)).take len) with
      tagBuf := { s.tagBuf with cache := c' } }) (h.of_cache hc') hfile hrest
    refine ⟨c'', hc'', ?_⟩
    rw [addAll_tagBuf] at hloop
    simp only [List.drop_drop]
    have hend : off + 8 + len + n' = off + (8 + len + n') := by omega
    rw [hend] at hloop
    exact hloop

end TagStore

end Coypu
