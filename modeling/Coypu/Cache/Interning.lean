import Coypu.Cache.TagStore
import Coypu.Library.Run
import Coypu.Store.FailedAppends
import Coypu.Store.PagedAppends
import Mathlib.Data.List.Nodup

/-!
# Numbers for tags

A tag gets a number when it is first asked for and keeps it. Its record is written to the file in
two steps, each of which can fail, and only then the number is taken.

The numbers are those of the places in the list of the tags that got one, in every run, exactly if
no tag is added to `2³²` others and no page that is written to could not be mapped: the next number
is a 32-bit integer, and the tag would get the number `0` of the first one; and such a page is
written to all the same.
-/

set_option autoImplicit false

namespace Coypu

/-- What fails when a record is written: in the `Push` of the length, and in that of the tag. -/
structure RecordFaults where
  length : ℕ → Option Faulty.Fault
  tag : ℕ → Option Faulty.Fault

/-! ## The functions of the class, while writes fail -/

namespace FaultyTags

section

variable (failed : LRUCache 1 → ℕ → LRUCache 1) (failing : RecordFaults) (s : TagStore)
  (tag : Tag)

/-- The `Push` of the length and that of the tag, which is not made if the first one is refused.
There is no result if the process ends in one of them. -/
def write : Option (ℤ × PagedLog (LRUCache 1) 1) :=
  (FaultyLog.push failed failing.length (Records.lengthBytes tag.length) s.tagBuf).bind fun r ↦
    if r.1 ≠ 0 then some r else FaultyLog.push failed failing.tag tag r.2

def append : Option (Option ℕ × TagStore) :=
  if TagStore.maxTagLen < tag.length then some (none, s)
  else
    (write failed failing s tag).map fun r ↦
      let s := { s with tagBuf := r.2 }
      if r.1 ≠ 0 then (none, s) else (some s.nextId, s.add tag)

def getOrCreateTag : Option (Option ℕ × TagStore) :=
  match s.findTag tag with
  | some id => some (some id, s)
  | none => append failed failing s tag

/-- The tag is not too long, and its record is written. -/
def Taken : Prop :=
  tag.length ≤ TagStore.maxTagLen ∧ (write failed failing s tag).map Prod.fst = some 0

/-- The process does not end in the writes. -/
def Survives : Prop := tag.length ≤ TagStore.maxTagLen → write failed failing s tag ≠ none

instance : Decidable (Taken failed failing s tag) := inferInstanceAs (Decidable (_ ∧ _))

/-- What fails when the pages of a record are allocated, page by page: first those that the eight
bytes of the length need. -/
def recordFault : ℕ → Option Faulty.Fault :=
  Faulty.followed s.tagBuf.writeBuf 8 failing.length failing.tag

/-- Each page that the record needs is allocated. -/
def Allocated : Prop :=
  ∀ k, Faulty.room s.tagBuf.writeBuf + k * s.tagBuf.pageSize < 8 + tag.length →
    Faulty.Allocates s.tagBuf.writeBuf k (recordFault failing s k)

/-- Of the pages that the record needs, the first that is not allocated is none that cannot be
mapped. -/
def Mapped : Prop :=
  ∀ k, Faulty.room s.tagBuf.writeBuf + k * s.tagBuf.pageSize < 8 + tag.length →
    (∀ j < k, Faulty.Allocates s.tagBuf.writeBuf j (recordFault failing s j)) →
      ¬ Faulty.MapFails s.tagBuf.writeBuf k (recordFault failing s k)

end

variable {g : LRUCache 1 → ℕ → LRUCache 1} {failing : RecordFaults} {s : TagStore} {tag : Tag}

/-- A tag that is taken gets the next number. Where it is not, only the log is another, unless the
process ends. -/
theorem append_cases (g : LRUCache 1 → ℕ → LRUCache 1) (failing : RecordFaults) (s : TagStore)
    (tag : Tag) :
    (Taken g failing s tag ∧ ∃ buf, append g failing s tag
      = some (some s.nextId, { s with tagBuf := buf }.add tag)) ∨
    (¬ Taken g failing s tag ∧ Survives g failing s tag ∧
      ∃ buf, append g failing s tag = some (none, { s with tagBuf := buf })) ∨
    (¬ Survives g failing s tag ∧ append g failing s tag = none) := by
  rw [append, Taken, Survives]
  by_cases hlen : TagStore.maxTagLen < tag.length
  · rw [if_pos hlen]
    exact Or.inr (Or.inl ⟨fun h ↦ Nat.not_lt.mpr h.1 hlen,
      fun h ↦ absurd hlen (Nat.not_lt.mpr h), s.tagBuf, rfl⟩)
  rw [if_neg hlen]
  have hle := Nat.not_lt.mp hlen
  cases hwrite : write g failing s tag with
  | none => exact Or.inr (Or.inr ⟨fun h ↦ h hle rfl, rfl⟩)
  | some r =>
    by_cases hret : r.1 = 0
    · refine Or.inl ⟨⟨hle, congrArg some hret⟩, r.2, ?_⟩
      simp only [Option.map_some, hret, ne_eq, not_true_eq_false, if_false]
    · refine Or.inr (Or.inl ⟨fun h ↦ hret (Option.some.inj h.2),
        fun _ ↦ Option.some_ne_none r, r.2, ?_⟩)
      simp only [Option.map_some, ne_eq, hret, not_false_eq_true, if_true]

theorem Taken.survives (h : Taken g failing s tag) : Survives g failing s tag := by
  intro _ hnone
  have hwrite := h.2
  rw [hnone] at hwrite
  exact absurd hwrite.symm (Option.some_ne_none 0)

/-- A tag that is taken is appended as by the store whose writes do not fail. -/
theorem append_of_taken (h : Taken g failing s tag) :
    append g failing s tag = some (s.append tag) := by
  obtain ⟨hlen, hret⟩ := h
  obtain ⟨⟨ret, buf⟩, hwrite, rfl⟩ := Option.map_eq_some_iff.mp hret
  have hboth := hwrite
  rw [write] at hboth
  obtain ⟨⟨ret₁, buf₁⟩, hfirst, hrest⟩ := Option.bind_eq_some_iff.mp hboth
  simp only at hrest
  split_ifs at hrest with hret₁
  · exact absurd (Prod.mk.inj (Option.some.inj hrest)).1 hret₁
  · obtain rfl := not_not.mp hret₁
    rw [append, TagStore.append, hwrite, FaultyLog.push_of_ret hfirst]
    simp only [FaultyLog.push_of_ret hrest, Option.map_some, ne_eq, not_true_eq_false, if_false]
    rw [if_neg (Nat.not_lt.mpr hlen), if_neg (Nat.not_lt.mpr hlen)]

/-! ### The pages of a record -/

/-- **The writes of a record** end as one `Push` of all its bytes. -/
theorem write_ends (h : Faulty.Placed s.tagBuf.writeBuf) (g : LRUCache 1 → ℕ → LRUCache 1)
    (failing : RecordFaults) (tag : Tag) :
    Faulty.PushEnds (recordFault failing s) (8 + tag.length) s.tagBuf.writeBuf
      ((write g failing s tag).map fun r ↦ (r.1, (r.2.writeBuf, r.2.cache))) := by
  have hfirst := Faulty.push_spec (f := ReadCache.addPage) (g := g)
    (s := (s.tagBuf.writeBuf, s.tagBuf.cache)) h failing.length (Records.lengthBytes tag.length)
  rw [Records.length_lengthBytes, ← FaultyLog.map_push] at hfirst
  rw [write]
  cases hpush : FaultyLog.push g failing.length (Records.lengthBytes tag.length) s.tagBuf with
  | none =>
    rw [hpush] at hfirst
    exact hfirst.followed_of_not_written (Option.some_ne_none 0).symm (Nat.le_add_right _ _)
  | some r =>
    rw [hpush, Option.map_some] at hfirst
    rw [Option.bind_some]
    by_cases hret : r.1 = 0
    · rw [if_neg (not_not_intro hret), FaultyLog.map_push]
      rw [hret] at hfirst
      exact hfirst.followed_of_written h (Faulty.push_spec hfirst.placed failing.tag tag)
    · rw [if_pos hret, Option.map_some]
      exact hfirst.followed_of_not_written (fun heq ↦ hret (Option.some.inj heq))
        (Nat.le_add_right _ _)

/-- A file may end behind the largest offset. Then no record is written. -/
theorem write_of_atLimit (h : Faulty.AtLimit s.tagBuf.writeBuf) :
    write g failing s tag = some (-1, s.tagBuf) := by
  have hlength : Records.lengthBytes tag.length ≠ [] :=
    List.ne_nil_of_length_pos (by rw [Records.length_lengthBytes]; decide)
  have hpush : FaultyLog.push g failing.length (Records.lengthBytes tag.length) s.tagBuf
      = some (-1, s.tagBuf) := by
    rw [FaultyLog.push, Faulty.AtLimit.push_eq (s := (s.tagBuf.writeBuf, s.tagBuf.cache)) h _
      hlength]
    rfl
  rw [write, hpush]
  rfl

/-- The writer of the tags, as the file is: it has a place, or is behind the largest offset. -/
def Ready (s : TagStore) : Prop :=
  Faulty.Placed s.tagBuf.writeBuf ∨ Faulty.AtLimit s.tagBuf.writeBuf

theorem Ready.taken_iff (h : Ready s) :
    Taken g failing s tag ↔ tag.length ≤ TagStore.maxTagLen ∧ Allocated failing s tag := by
  refine and_congr_right fun _ ↦ ?_
  rcases h with h | h
  · have hends := (write_ends h g failing tag).succeeds_iff
    rwa [Option.map_map] at hends
  · rw [write_of_atLimit h]
    refine iff_of_false (by simp) fun hall ↦ h.not_allocates 0 _ (hall 0 ?_)
    rw [Faulty.room, if_pos h.full]
    omega

theorem Ready.survives_iff (h : Ready s) :
    Survives g failing s tag ↔ (tag.length ≤ TagStore.maxTagLen → Mapped failing s tag) := by
  refine imp_congr_right fun _ ↦ ?_
  rcases h with h | h
  · have hends := (write_ends h g failing tag).eq_none_iff
    rw [Option.map_eq_none_iff] at hends
    rw [ne_eq, hends]
    constructor
    · exact fun hno k hlt hbefore hmap ↦ hno ⟨k, hlt, hmap, hbefore⟩
    · rintro hmapped ⟨k, hlt, hmap, hbefore⟩
      exact hmapped k hlt hbefore hmap
  · rw [write_of_atLimit h]
    refine iff_of_true (Option.some_ne_none _) fun k _ _ hmap ↦ ?_
    rw [Faulty.MapFails, h.fault_eq] at hmap
    cases hmap

theorem Ready.of_getOrCreateTag (h : Ready s) {r : Option ℕ × TagStore}
    (hr : getOrCreateTag g failing s tag = some r) : Ready r.2 := by
  rw [getOrCreateTag] at hr
  split at hr
  · obtain rfl := Option.some.inj hr
    exact h
  rw [append] at hr
  split_ifs at hr
  · obtain rfl := Option.some.inj hr
    exact h
  obtain ⟨q, hq, rfl⟩ := Option.map_eq_some_iff.mp hr
  have hready : Ready { s with tagBuf := q.2 } := by
    rcases h with h | h
    · have hends := write_ends h g failing tag
      rw [hq, Option.map_some] at hends
      exact Or.inl hends.placed
    · obtain rfl := Option.some.inj ((write_of_atLimit h).symm.trans hq)
      exact Or.inr h
  split_ifs
  · exact hready
  · exact hready

/-! ### Writes that succeed -/

/-- Nothing fails. -/
def noFaults : RecordFaults := ⟨fun _ ↦ none, fun _ ↦ none⟩

/-- The next byte goes into a page, and there are as many offsets behind it. -/
def RoomFor (n : ℕ) (log : PagedLog (LRUCache 1) 1) : Prop :=
  Faulty.Placed log.writeBuf ∧ log.writeBuf.tell + n + log.pageSize < 2 ^ 63

theorem RoomFor.push {n k : ℕ} {log : PagedLog (LRUCache 1) 1} {l : List UInt8}
    (h : RoomFor (n + k) log) (hl : l.length ≤ k) :
    ∃ log', FaultyLog.push g (fun _ ↦ none) l log = some (0, log') ∧ RoomFor n log' := by
  obtain ⟨hplaced, hroom⟩ := h
  have hspec := Faulty.push_spec (f := ReadCache.addPage) (g := g) (s := (log.writeBuf, log.cache))
    hplaced (fun _ ↦ none) l
  -- a page can only end behind the largest offset
  have hall (k' : ℕ) (hlt : Faulty.room log.writeBuf + k' * log.writeBuf.pageSize < l.length) :
      Faulty.Allocates log.writeBuf k' none := by
    apply Faulty.allocates_of_lt
    have hend := hplaced.tell_add_room
    rw [PagedLog.pageSize] at hroom
    rw [Nat.succ_mul]
    omega
  rw [FaultyLog.push]
  cases hpush : Faulty.push ReadCache.addPage g (fun _ ↦ none) l (log.writeBuf, log.cache) with
  | none =>
    rw [hpush] at hspec
    cases hspec with
    | ended k' lt map => exact absurd (hall k' lt) map.not_allocates
  | some r =>
    obtain ⟨ret, r⟩ := r
    rw [hpush] at hspec
    cases hspec with
    | refused _ _ _ k' _ lt fails => exact absurd (hall k' lt) fails
    | written placed ext tell_eq all =>
      have hsize : r.1.pageSize = log.pageSize := by
        have hfailing : FaultyLog.push g (fun _ ↦ none) l log
            = some (0, { log.update r with available := log.available + l.length }) := by
          rw [FaultyLog.push, hpush]
          rfl
        have heq := (PagedLog.push_of_not_readOnly hplaced.writable l).2.2
        rwa [FaultyLog.push_of_ret hfailing] at heq
      refine ⟨_, rfl, placed, ?_⟩
      rw [PagedLog.pageSize, hsize]
      simp only at tell_eq ⊢
      omega

/-- A record that is written without faults. -/
theorem taken_of_roomFor {n : ℕ} (h : RoomFor (n + 136) s.tagBuf)
    (hlen : tag.length ≤ TagStore.maxTagLen) :
    ∃ buf, write g noFaults s tag = some (0, buf) ∧ RoomFor n buf := by
  rw [TagStore.maxTagLen] at hlen
  obtain ⟨buf₁, hfirst, hroom⟩ := RoomFor.push (g := g) (n := n + 128) (k := 8)
    (l := Records.lengthBytes tag.length) h (Nat.le_of_eq (Records.length_lengthBytes _))
  obtain ⟨buf₂, hsecond, hroom'⟩ := hroom.push (g := g) hlen
  refine ⟨buf₂, ?_, hroom'⟩
  rw [write, noFaults, hfirst]
  exact hsecond

end FaultyTags

/-! ## Runs -/

/-- The calls of a `TagStore`. -/
inductive InternOp where
  | getOrCreateTag (tag : Tag) (failing : RecordFaults)
  | findTag (tag : Tag)
  | getTag (id : ℕ)

/-- What a call returns: a number if there is one, or a tag. -/
inductive InternAnswer where
  | id (id : Option ℕ)
  | tag (tag : Tag)

/-- A store, and the tags that got a number, in their order. -/
structure Interning where
  store : TagStore
  given : List Tag

namespace Interning

def new (file : MappedFile) : Interning := ⟨TagStore.new file, []⟩

/-- A store that restored its file, as `main` has it, whatever `Restore` returned. There is none if
the process ends in it. -/
def restored (file : MappedFile) : Option Interning :=
  (TagStore.new file).restore.map fun r ↦ ⟨r.2, r.2.tags⟩

variable (g : LRUCache 1 → ℕ → LRUCache 1) (s : Interning)

local instance lawfulBEq_tag : LawfulBEq Tag := inferInstance

/-- A call. There is no answer if the process ends in it. -/
def step : InternOp → Interning × Option InternAnswer
  | .getOrCreateTag tag failing =>
    match FaultyTags.getOrCreateTag g failing s.store tag with
    | none => (s, none)
    | some r =>
      (⟨r.2, if r.1.isSome ∧ tag ∉ s.given then s.given ++ [tag] else s.given⟩, some (.id r.1))
  | .findTag tag => (s, some (.id (s.store.findTag tag)))
  | .getTag id => (s, some (.tag (s.store.getTag id)))

/-- There is an answer, and behind the call the numbers found are the places of the tags, and each
gives its tag. A tag that is asked for gets its number, and a new one the next. It may be refused,
if it is too long or not written, and then nothing is another but the file. -/
structure Interns (op : InternOp) : Prop where
  answers : (step g s op).2 ≠ none
  findTag_iff : ∀ tag id, (step g s op).1.store.findTag tag = some id ↔
    (step g s op).1.given[id]? = some tag
  getTag_eq : ∀ id tag, (step g s op).1.given[id]? = some tag →
    (step g s op).1.store.getTag id = tag
  created : ∀ tag failing id, op = .getOrCreateTag tag failing →
    (step g s op).2 = some (.id (some id)) →
      (tag ∈ s.given → s.given[id]? = some tag) ∧ (tag ∉ s.given → id = s.given.length)
  refused : ∀ tag failing, op = .getOrCreateTag tag failing → (step g s op).2 = some (.id none) →
    tag ∉ s.given ∧ ¬ FaultyTags.Taken g failing s.store tag ∧ (step g s op).1.given = s.given ∧
      (∀ t, (step g s op).1.store.findTag t = s.store.findTag t) ∧
      (∀ id, (step g s op).1.store.getTag id = s.store.getTag id) ∧
      (step g s op).1.store.getTagCount = s.store.getTagCount

/-- A tag that is new does not end the process, and if it is taken, it is not added to `2³²`
others. -/
def Proceeds : InternOp → Prop
  | .getOrCreateTag tag failing => tag ∉ s.given → FaultyTags.Survives g failing s.store tag ∧
      (FaultyTags.Taken g failing s.store tag → s.given.length < 2 ^ 32)
  | .findTag _ | .getTag _ => True

/-- The condition on a call: of the pages that the record of a new tag needs, the first that is not
allocated is none that cannot be mapped, and if all are allocated, there are not `2³²` tags. -/
def HasNumber : InternOp → Prop
  | .getOrCreateTag tag failing => tag ∉ s.given → tag.length ≤ TagStore.maxTagLen →
      FaultyTags.Mapped failing s.store tag ∧
        (FaultyTags.Allocated failing s.store tag → s.given.length < 2 ^ 32)
  | .findTag _ | .getTag _ => True

/-- What holds between the calls. -/
structure Inv (s : Interning) : Prop where
  tags_eq : s.store.tags = s.given
  tagToId_eq : s.store.tagToId = s.given.zipIdx
  nextId_eq : s.store.nextId = s.given.length % 2 ^ 32
  nodup : s.given.Nodup
  length_le : s.given.length ≤ 2 ^ 32

theorem inv_new (file : MappedFile) : (new file).Inv :=
  ⟨rfl, rfl, rfl, List.nodup_nil, Nat.zero_le _⟩

variable {g s} {tag : Tag} {failing : RecordFaults} {id : ℕ}

namespace Inv

theorem findTag_iff (h : s.Inv) : s.store.findTag tag = some id ↔ s.given[id]? = some tag :=
  TagStore.findTag_eq_some_iff h.tagToId_eq h.nodup

theorem getTag_eq (h : s.Inv) (hget : s.given[id]? = some tag) : s.store.getTag id = tag := by
  rw [TagStore.getTag, h.tags_eq, List.getD_eq_getElem?_getD, hget, Option.getD_some]

theorem getOrCreateTag_of_mem (h : s.Inv) (htag : tag ∈ s.given) (failing : RecordFaults) :
    ∃ id, s.given[id]? = some tag ∧
      step g s (.getOrCreateTag tag failing) = (s, some (.id (some id))) := by
  obtain ⟨id, hid⟩ := List.mem_iff_getElem?.mp htag
  refine ⟨id, hid, ?_⟩
  simp only [step, FaultyTags.getOrCreateTag, h.findTag_iff.mpr hid]
  rw [if_neg (fun hnew ↦ hnew.2 htag)]

theorem getOrCreateTag_of_not_mem (h : s.Inv) (htag : tag ∉ s.given) (failing : RecordFaults) :
    (FaultyTags.Taken g failing s.store tag ∧ ∃ buf,
      step g s (.getOrCreateTag tag failing)
        = (⟨{ s.store with tagBuf := buf }.add tag, s.given ++ [tag]⟩,
          some (.id (some s.store.nextId)))) ∨
    (¬ FaultyTags.Taken g failing s.store tag ∧ FaultyTags.Survives g failing s.store tag ∧ ∃ buf,
      step g s (.getOrCreateTag tag failing)
        = (⟨{ s.store with tagBuf := buf }, s.given⟩, some (.id none))) ∨
    (¬ FaultyTags.Survives g failing s.store tag ∧
      step g s (.getOrCreateTag tag failing) = (s, none)) := by
  simp only [step, FaultyTags.getOrCreateTag, TagStore.findTag_eq_none h.tagToId_eq htag]
  rcases FaultyTags.append_cases g failing s.store tag with
    ⟨htaken, buf, happend⟩ | ⟨hnot, hmapped, buf, happend⟩ | ⟨hnot, happend⟩
  · refine Or.inl ⟨htaken, buf, ?_⟩
    simp only [happend, Option.isSome_some, true_and, htag, not_false_eq_true, if_true]
  · refine Or.inr (Or.inl ⟨hnot, hmapped, buf, ?_⟩)
    simp only [happend, Option.isSome_none, Bool.false_eq_true, false_and, if_false]
  · refine Or.inr (Or.inr ⟨hnot, ?_⟩)
    simp only [happend]

theorem add (h : s.Inv) (htag : tag ∉ s.given) (hlt : s.given.length < 2 ^ 32)
    (buf : PagedLog (LRUCache 1) 1) :
    (⟨{ s.store with tagBuf := buf }.add tag, s.given ++ [tag]⟩ : Interning).Inv := by
  have hnext : s.store.nextId = s.given.length := by
    rw [h.nextId_eq, Nat.mod_eq_of_lt hlt]
  refine ⟨?_, ?_, ?_, ?_, ?_⟩
  · rw [TagStore.add, h.tags_eq]
  · rw [TagStore.add, TagStore.insert, h.tagToId_eq, TagStore.find?_zipIdx_eq_none htag,
      if_neg (by simp), List.zipIdx_append, hnext]
    simp
  · rw [TagStore.add, CInt.toUnsigned_natCast_eq_mod, hnext, List.length_append,
      List.length_singleton]
  · exact List.nodup_append.mpr ⟨h.nodup, by simp,
      fun a ha b hb ↦ by rw [List.mem_singleton.mp hb]; exact fun heq ↦ htag (heq ▸ ha)⟩
  · rwa [List.length_append, List.length_singleton]

theorem addAll (h : s.Inv) {l : List Tag} (hnodup : (s.given ++ l).Nodup)
    (hle : (s.given ++ l).length ≤ 2 ^ 32) :
    (⟨s.store.addAll l, s.given ++ l⟩ : Interning).Inv := by
  induction l generalizing s with
  | nil => rwa [List.append_nil]
  | cons tag l ih =>
    have hcons : s.given ++ tag :: l = s.given ++ [tag] ++ l := by simp
    rw [hcons] at hnodup hle ⊢
    have htag : tag ∉ s.given := fun hmem ↦
      (List.nodup_append.mp (List.nodup_append.mp hnodup).1).2.2 tag hmem tag
        (List.mem_singleton_self tag) rfl
    have hlt : s.given.length < 2 ^ 32 := by
      rw [List.length_append, List.length_append, List.length_singleton] at hle
      omega
    exact ih (h.add htag hlt s.store.tagBuf) hnodup hle

theorem of_tagBuf (h : s.Inv) (buf : PagedLog (LRUCache 1) 1) :
    (⟨{ s.store with tagBuf := buf }, s.given⟩ : Interning).Inv :=
  ⟨h.tags_eq, h.tagToId_eq, h.nextId_eq, h.nodup, h.length_le⟩

/-- The store that `main` begins with, over a file with the records of different tags. -/
theorem of_restored {file : MappedFile} (h : restored file = some s) (hnodup : s.given.Nodup)
    (hle : s.given.length ≤ 2 ^ 32) : s.Inv := by
  obtain ⟨⟨r, store⟩, hrestore, rfl⟩ := Option.map_eq_some_iff.mp h
  obtain ⟨tags, buf, rfl⟩ := TagStore.exists_addAll_of_restore hrestore
  have htags : ((TagStore.new file).addAll tags).tags = tags :=
    (TagStore.tags_addAll _ tags).trans (List.nil_append tags)
  have hinv (l : List Tag) (hl : l = tags) :
      (⟨{ (TagStore.new file).addAll tags with tagBuf := buf }, l⟩ : Interning).Inv := by
    rw [hl]
    rw [htags] at hnodup hle
    exact ((inv_new file).addAll (l := tags) hnodup hle).of_tagBuf buf
  exact hinv _ htags

theorem step (h : s.Inv) {op : InternOp} (hok : Proceeds g s op) : (step g s op).1.Inv := by
  cases op with
  | findTag tag | getTag id => exact h
  | getOrCreateTag tag failing =>
    by_cases htag : tag ∈ s.given
    · obtain ⟨id, -, hstep⟩ := h.getOrCreateTag_of_mem (g := g) htag failing
      rwa [hstep]
    · rcases h.getOrCreateTag_of_not_mem (g := g) htag failing with
        ⟨htaken, buf, hstep⟩ | ⟨-, -, buf, hstep⟩ | ⟨hnot, -⟩
      · rw [hstep]
        exact h.add htag ((hok htag).2 htaken) buf
      · rw [hstep]
        exact h.of_tagBuf buf
      · exact absurd (hok htag).1 hnot

end Inv

/-- A tag that is added to `2³²` others gets the number `0`. -/
theorem not_interns_of_full (h : s.Inv) (htag : tag ∉ s.given)
    (htaken : FaultyTags.Taken g failing s.store tag) (hfull : s.given.length = 2 ^ 32) :
    ¬ Interns g s (.getOrCreateTag tag failing) := by
  intro hinterns
  rcases h.getOrCreateTag_of_not_mem (g := g) htag failing with
    ⟨-, buf, hstep⟩ | ⟨hnot, -⟩ | ⟨hnot, -⟩
  · have hid := (hinterns.created tag failing _ rfl (by rw [hstep])).2 htag
    rw [h.nextId_eq, hfull] at hid
    exact absurd hid (by decide)
  · exact hnot htaken
  · exact hnot htaken.survives

/-- A call that answers with a number. -/
theorem Inv.interns_of_some (hinv : (Interning.step g s (.getOrCreateTag tag failing)).1.Inv)
    (hid : (Interning.step g s (.getOrCreateTag tag failing)).2 = some (.id (some id)))
    (hold : tag ∈ s.given → s.given[id]? = some tag)
    (hnew : tag ∉ s.given → id = s.given.length) :
    Interns g s (.getOrCreateTag tag failing) := by
  refine ⟨?_, fun tag id ↦ hinv.findTag_iff, fun id tag ↦ hinv.getTag_eq, ?_, ?_⟩
  · rw [hid]
    exact Option.some_ne_none _
  · rintro tag' failing' id' heq hanswer
    obtain ⟨rfl, rfl⟩ := InternOp.getOrCreateTag.inj heq
    rw [hid] at hanswer
    obtain rfl := Option.some.inj (InternAnswer.id.inj (Option.some.inj hanswer))
    exact ⟨hold, hnew⟩
  · rintro tag' failing' - hanswer
    rw [hid] at hanswer
    exact absurd (InternAnswer.id.inj (Option.some.inj hanswer)) (Option.some_ne_none id)

/-- A call that is refused, and leaves another file at most. -/
theorem Inv.interns_of_none (hinv : (Interning.step g s (.getOrCreateTag tag failing)).1.Inv)
    {buf : PagedLog (LRUCache 1) 1} (htag : tag ∉ s.given)
    (hnot : ¬ FaultyTags.Taken g failing s.store tag)
    (hstep : Interning.step g s (.getOrCreateTag tag failing)
      = (⟨{ s.store with tagBuf := buf }, s.given⟩, some (.id none))) :
    Interns g s (.getOrCreateTag tag failing) := by
  refine ⟨?_, fun tag id ↦ hinv.findTag_iff, fun id tag ↦ hinv.getTag_eq, ?_, ?_⟩
  · rw [hstep]
    exact Option.some_ne_none _
  · rintro tag' failing' id' - hanswer
    rw [hstep] at hanswer
    exact absurd (InternAnswer.id.inj (Option.some.inj hanswer)).symm (Option.some_ne_none id')
  · rintro tag' failing' heq -
    obtain ⟨rfl, rfl⟩ := InternOp.getOrCreateTag.inj heq
    rw [hstep]
    exact ⟨htag, hnot, rfl, fun _ ↦ rfl, fun _ ↦ rfl, rfl⟩

/-- **One call.** -/
theorem interns_iff (h : s.Inv) (op : InternOp) : Interns g s op ↔ Proceeds g s op := by
  constructor
  · intro hinterns
    cases op with
    | findTag tag | getTag id => trivial
    | getOrCreateTag tag failing =>
      refine fun htag ↦ ⟨?_, fun htaken ↦ ?_⟩
      · by_contra hnot
        rcases h.getOrCreateTag_of_not_mem (g := g) htag failing with
          ⟨htaken, -⟩ | ⟨-, hmapped, -⟩ | ⟨-, hstep⟩
        · exact hnot htaken.survives
        · exact hnot hmapped
        · exact hinterns.answers (by rw [hstep])
      · refine Nat.lt_of_le_of_ne h.length_le fun hfull ↦ ?_
        exact not_interns_of_full h htag htaken hfull hinterns
  · intro hok
    have hinv := h.step hok
    cases op with
    | findTag tag | getTag id =>
      exact ⟨Option.some_ne_none _, fun tag id ↦ hinv.findTag_iff, fun id tag ↦ hinv.getTag_eq,
        fun _ _ _ heq ↦ InternOp.noConfusion heq, fun _ _ heq ↦ InternOp.noConfusion heq⟩
    | getOrCreateTag tag failing =>
      by_cases htag : tag ∈ s.given
      · obtain ⟨id, hid, hstep⟩ := h.getOrCreateTag_of_mem (g := g) htag failing
        exact hinv.interns_of_some (by rw [hstep]) (fun _ ↦ hid) fun hnew ↦ absurd htag hnew
      · rcases h.getOrCreateTag_of_not_mem (g := g) htag failing with
          ⟨htaken, buf, hstep⟩ | ⟨hnot, -, buf, hstep⟩ | ⟨hnot, -⟩
        · have hnext : s.store.nextId = s.given.length := by
            rw [h.nextId_eq, Nat.mod_eq_of_lt ((hok htag).2 htaken)]
          exact hinv.interns_of_some (by rw [hstep]) (fun hmem ↦ absurd hmem htag) fun _ ↦ hnext
        · exact hinv.interns_of_none htag hnot hstep
        · exact absurd (hok htag).1 hnot

theorem steps_interns_iff (h : s.Inv) (ops : List InternOp) :
    Run.Steps (step g) (Interns g) s ops ↔ Run.Steps (step g) (Proceeds g) s ops :=
  Run.steps_iff_of_invariant (P := Inv) (fun _ _ h hok ↦ h.step hok)
    (fun _ op h ↦ interns_iff h op) h

theorem hasNumber_iff (h : FaultyTags.Ready s.store) (op : InternOp) :
    HasNumber s op ↔ Proceeds g s op := by
  cases op with
  | findTag tag | getTag id => exact Iff.rfl
  | getOrCreateTag tag failing =>
    refine imp_congr_right fun _ ↦ ?_
    rw [h.survives_iff, h.taken_iff]
    constructor
    · exact fun hok ↦ ⟨fun hlen ↦ (hok hlen).1, fun hall ↦ (hok hall.1).2 hall.2⟩
    · exact fun hok hlen ↦ ⟨hok.1 hlen, fun hall ↦ hok.2 ⟨hlen, hall⟩⟩

theorem ready_new (file : MappedFile) : FaultyTags.Ready (new file).store := by
  by_cases hsize : file.size < 2 ^ 63
  · exact Or.inl (FaultyLog.inPlace_new PagedLog.systemPage_pos hsize false file _).placed
  · exact Or.inr ⟨rfl, rfl, rfl, Nat.not_lt.mp hsize⟩

theorem ready_step (h : FaultyTags.Ready s.store) (op : InternOp) :
    FaultyTags.Ready (step g s op).1.store := by
  cases op with
  | findTag tag | getTag id => exact h
  | getOrCreateTag tag failing =>
    rw [step]
    split
    · exact h
    · next hr => exact h.of_getOrCreateTag hr

/-- **When interning is a bijection.** In a run from a store without tags every tag that gets a
number gets the next one and keeps it, exactly if no tag is added to `2³²` others and none needs a
page that cannot be mapped. -/
theorem run_interns_iff (g : LRUCache 1 → ℕ → LRUCache 1) (file : MappedFile)
    (ops : List InternOp) :
    Run.Steps (step g) (Interns g) (new file) ops ↔
      Run.Steps (step g) HasNumber (new file) ops :=
  Run.steps_iff_of_invariant (P := fun s ↦ s.Inv ∧ FaultyTags.Ready s.store)
    (fun _ op h hok ↦ ⟨h.1.step ((hasNumber_iff h.2 op).mp hok), ready_step h.2 op⟩)
    (fun _ op h ↦ (interns_iff h.1 op).trans (hasNumber_iff h.2 op).symm)
    ⟨inv_new file, ready_new file⟩

/-! ## A number that is given twice -/

/-- Where `n` tags are created one behind the other, and each has a number, there are at most `2³²`.
The induction is on the tags. -/
theorem length_le_of_proceeds {l : List Tag} (h : s.Inv)
    (hroom : FaultyTags.RoomFor (136 * l.length) s.store.tagBuf)
    (hlen : ∀ tag ∈ l, tag.length ≤ TagStore.maxTagLen) (hnodup : (s.given ++ l).Nodup)
    (hok : Run.Steps (step g) (Proceeds g) s
      (l.map fun tag ↦ .getOrCreateTag tag FaultyTags.noFaults)) :
    (s.given ++ l).length ≤ 2 ^ 32 := by
  induction l generalizing s with
  | nil =>
    rw [List.append_nil]
    exact h.length_le
  | cons tag l ih =>
    have htag : tag ∉ s.given := fun hmem ↦
      (List.nodup_append.mp hnodup).2.2 tag hmem tag List.mem_cons_self rfl
    rw [List.length_cons, Nat.mul_succ] at hroom
    obtain ⟨buf, hwrite, hroom'⟩ := FaultyTags.taken_of_roomFor (g := g) hroom
      (hlen tag List.mem_cons_self)
    obtain ⟨hfirst, hrest⟩ := hok
    have hinv := h.step hfirst
    have hstep : Interning.step g s (.getOrCreateTag tag FaultyTags.noFaults)
        = (⟨{ s.store with tagBuf := buf }.add tag, s.given ++ [tag]⟩,
          some (.id (some s.store.nextId))) := by
      simp only [Interning.step, FaultyTags.getOrCreateTag,
        TagStore.findTag_eq_none h.tagToId_eq htag, FaultyTags.append, hwrite,
        if_neg (Nat.not_lt.mpr (hlen tag List.mem_cons_self)), Option.map_some, ne_eq,
        not_true_eq_false, if_false, Option.isSome_some, true_and, htag, not_false_eq_true, if_true]
    rw [hstep] at hrest hinv
    have hcons : s.given ++ tag :: l = s.given ++ [tag] ++ l := by simp
    rw [hcons] at hnodup ⊢
    exact ih hinv hroom' (fun t ht ↦ hlen t (List.mem_cons_of_mem _ ht)) hnodup hrest

/-- `n` calls with different tags of five bytes. -/
def manyTags (n : ℕ) : List InternOp :=
  ((List.range n).map (Bytes.encode 5)).map fun tag ↦ .getOrCreateTag tag FaultyTags.noFaults

theorem le_of_interns_manyTags {n : ℕ} (hn : n < 2 ^ 40)
    (h : Run.Steps (step g) (Interns g) (new MappedFile.empty) (manyTags n)) : n ≤ 2 ^ 32 := by
  have hok := (steps_interns_iff (inv_new MappedFile.empty) _).mp h
  have hroom : FaultyTags.RoomFor (136 * ((List.range n).map (Bytes.encode 5)).length)
      (new MappedFile.empty).store.tagBuf := by
    have hplace : FaultyLog.InPlace (new MappedFile.empty).store.tagBuf :=
      FaultyLog.inPlace_new (by decide) (by decide) false MappedFile.empty _
    refine ⟨hplace.placed, ?_⟩
    rw [List.length_map, List.length_range]
    have htell : (new MappedFile.empty).store.tagBuf.writeBuf.tell = 0 := rfl
    have hpage : (new MappedFile.empty).store.tagBuf.pageSize = 4096 := rfl
    omega
  have hnodup : ((new MappedFile.empty).given ++ (List.range n).map (Bytes.encode 5)).Nodup := by
    refine List.Nodup.map_on (fun i hi j hj heq ↦ ?_) List.nodup_range
    rw [List.mem_range] at hi hj
    rw [← Bytes.decode_encode (n := 5) (x := i) (by omega), heq,
      Bytes.decode_encode (n := 5) (by omega)]
  have hle := length_le_of_proceeds (inv_new _) hroom (fun tag htag ↦ ?_) hnodup hok
  · simpa [new] using hle
  · obtain ⟨i, -, rfl⟩ := List.mem_map.mp htag
    rw [Bytes.length_encode]
    decide

/-- `2³² + 1` tags: the last one gets the number of the first. -/
theorem not_interns_of_manyTags :
    ¬ ∀ ops, Run.Steps (step fun c _ ↦ c) (Interns fun c _ ↦ c) (new MappedFile.empty) ops := by
  intro h
  exact absurd (le_of_interns_manyTags (by decide) (h (manyTags (2 ^ 32 + 1)))) (by decide)

end Interning

end Coypu
