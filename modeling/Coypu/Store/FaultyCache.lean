import Coypu.Library.CInt
import Coypu.Library.Recency
import Coypu.Library.Run
import Coypu.Library.Transport
import Coypu.Store.ReadCache
import Mathlib.Tactic.SplitIfs

/-!
# A page cache whose pages can fail

`LRUCache` with its slots as they are: each has the number that it is looked up by and a
`LogReadPageBuf`, which maps a page if it does not have it yet. The environment says what each call
of `MMapRead` answers, the null pointer, the one that `mmap` returns if it fails, or a page. `Map`
looks for the first and takes the second for a page.

The slots are in the order in which their pages were last asked for with success, whatever failed in
between. So the pages that one `Writev` goes through, as many as there are slots at most, are all
mapped when its callback runs.
-/

set_option autoImplicit false

namespace Coypu

open Transport

/-! ## Slots -/

/-- What `MMapRead` answers. -/
inductive MapAnswer where
  | null
  | mapFailed
  | mapped
deriving DecidableEq, Repr

/-- A pointer from `MMapRead`. Pages are told apart by the calls that mapped them. -/
inductive PagePtr where
  | null
  | mapFailed
  | page (call : ℕ)
deriving DecidableEq, Repr

/-- The pointer that a call returns. -/
def MapAnswer.ptr (call : ℕ) : MapAnswer → PagePtr
  | .null => .null
  | .mapFailed => .mapFailed
  | .mapped => .page call

/-- A slot: the number of its page, and `_dataPage`, which is a pointer and an offset. -/
structure PageSlot where
  key : ℕ
  first : PagePtr
  second : ℕ
deriving DecidableEq, Repr

namespace PageSlot

/-- A slot that is allocated. Its offset is `UINT64_MAX`. -/
def new (key : ℕ) : PageSlot := ⟨key, .null, 2 ^ 64 - 1⟩

/-- `Map`, with the number of calls of `MMapRead` before and after. -/
def map (answers : ℕ → MapAnswer) (calls : ℕ) (slot : PageSlot) (offset : ℕ) :
    ℤ × PageSlot × ℕ :=
  if slot.second = offset then (0, slot, calls)
  else
    let first := (answers calls).ptr calls
    (if first = .null then -3 else 0, { slot with first := first, second := offset }, calls + 1)

/-- The slot maps the page at an offset. -/
def Maps (slot : PageSlot) (offset : ℕ) : Prop :=
  slot.second = offset ∧ ∃ call, slot.first = .page call

end PageSlot

/-! ## The cache -/

/-- The slots, that used last first, and the number of calls of `MMapRead` so far. -/
structure FaultyCache (cacheSize : ℕ) where
  pageSize : ℕ
  slots : List PageSlot
  calls : ℕ

namespace FaultyCache

variable {cacheSize : ℕ} (answers : ℕ → MapAnswer) (c : FaultyCache cacheSize)

def new (cacheSize pageSize : ℕ) : FaultyCache cacheSize := ⟨pageSize, [], 0⟩

def pageIndex (offset : UInt64) : ℕ := CInt.toUnsigned 32 (offset.toNat / c.pageSize : ℕ)

/-- There is no other slot to take: the last one is used again. -/
def isFull : Bool := c.slots.length = cacheSize

/-- The slot for a page that has none, before it is mapped. -/
def slotFor (key : ℕ) : PageSlot :=
  if c.isFull then { c.slots.getLastD (.new key) with key := key } else .new key

/-- The slots that are left for the others. -/
def others : List PageSlot := if c.isFull then c.slots.dropLast else c.slots

/-- `FindPage`: the slot that is found, or none if the result is -1. -/
def findPage (offset : UInt64) : Option PageSlot × FaultyCache cacheSize :=
  let key := c.pageIndex offset
  match c.slots.find? fun slot ↦ slot.key = key with
  | some slot => (some slot, { c with slots := slot :: c.slots.eraseP fun slot ↦ slot.key = key })
  | none =>
    let r := (c.slotFor key).map answers c.calls (key * c.pageSize)
    if r.1 = 0 then (some r.2.1, { c with slots := r.2.1 :: c.others, calls := r.2.2 })
    else (none, { c with slots := c.others, calls := r.2.2 })

/-- An entry of the I/O vector. Its base is in the page of a slot, which is kept as it is when the
base is taken. -/
structure Segment where
  slot : PageSlot
  pageOffset : ℕ
  len : ℕ

/-- The loop of `LogRWStream::Writev` for the pages from `i` to `maxPage`, with a number of entries
left, `queued` bytes being covered. It ends in `none` if a page is not found. -/
def writevLoop (maxPage start size : ℕ) :
    ℕ → ℕ → ℕ → FaultyCache cacheSize → Option (List Segment) × FaultyCache cacheSize
  | 0, _, _, c => (some [], c)
  | entries + 1, i, queued, c =>
    if queued < size ∧ i ≤ maxPage then
      let pageOffset := CInt.toUnsigned 64 (start + queued : ℕ) % c.pageSize
      let r := c.findPage answers (UInt64.ofNat (i * c.pageSize))
      match r.1 with
      | none => (none, r.2)
      | some slot =>
        let len := min (size - queued) (c.pageSize - pageOffset)
        let q := writevLoop maxPage start size entries (CInt.toUnsigned 32 (i + 1 : ℕ))
          (queued + len) r.2
        (q.1.map fun v ↦ ⟨slot, pageOffset, len⟩ :: v, q.2)
    else (some [], c)

/-- `LogRWStream::Writev` of a log with a number of bytes: its result, the entries with which the
callback runs, if it does, and the cache then. -/
def writev (available start size : UInt64) (cb : Writer) :
    ℤ × Option (List Segment) × FaultyCache cacheSize :=
  let r := writevLoop answers (c.pageIndex available) start.toNat
    (min size.toNat (CInt.toUnsigned 64 (cacheSize * c.pageSize : ℕ))) cacheSize
    (c.pageIndex start) 0 c
  match r.1 with
  | none => (-2, none, r.2)
  | some v => (cb.run (v.map Segment.len), some v, r.2)

/-! ## Look-ups -/

/-- The numbers of the pages that have a slot. -/
def keys : List ℕ := c.slots.map PageSlot.key

variable {answers c} {offset : UInt64}

theorem isFull_iff : c.isFull = true ↔ c.slots.length = cacheSize := decide_eq_true_iff

theorem others_isPrefix : c.others <+: c.slots := by
  rw [others]
  split_ifs
  · exact List.dropLast_prefix _
  · exact List.prefix_refl _

theorem length_others_lt (hsize : 0 < cacheSize) (h : c.slots.length ≤ cacheSize) :
    c.others.length < cacheSize := by
  rw [others]
  split_ifs with hfull
  · rw [List.length_dropLast, isFull_iff.mp hfull]
    omega
  · rw [isFull_iff] at hfull
    exact Nat.lt_of_le_of_ne h hfull

theorem pageIndex_lt (c : FaultyCache cacheSize) (offset : UInt64) : c.pageIndex offset < 2 ^ 32 :=
  CInt.toUnsigned_lt 32 _

theorem slotFor_key (c : FaultyCache cacheSize) (key : ℕ) : (c.slotFor key).key = key := by
  rw [slotFor]
  split_ifs <;> rfl

theorem map_key (answers : ℕ → MapAnswer) (slot : PageSlot) (calls offset : ℕ) :
    (slot.map answers calls offset).2.1.key = slot.key := by
  rw [PageSlot.map]
  split_ifs <;> rfl

variable (answers c offset) in
/-- **What a look-up does.** The slot of the page goes to the front; or there is none, and a slot is
mapped and goes to the front of the others, or is not mapped and lost. -/
theorem findPage_cases :
    (∃ slot, c.slots.find? (fun slot ↦ slot.key = c.pageIndex offset) = some slot ∧
      c.findPage answers offset = (some slot, { c with
        slots := slot :: c.slots.eraseP fun slot ↦ slot.key = c.pageIndex offset })) ∨
    (c.pageIndex offset ∉ c.keys ∧ ∃ r slot calls, slot.key = c.pageIndex offset ∧
      (c.slotFor (c.pageIndex offset)).map answers c.calls (c.pageIndex offset * c.pageSize)
        = (r, slot, calls) ∧
      c.findPage answers offset = if r = 0
        then (some slot, { c with slots := slot :: c.others, calls := calls })
        else (none, { c with slots := c.others, calls := calls })) := by
  cases hfind : c.slots.find? fun slot ↦ slot.key = c.pageIndex offset with
  | some slot =>
    refine Or.inl ⟨slot, rfl, ?_⟩
    rw [findPage]
    simp only [hfind]
  | none =>
    obtain ⟨r, slot, calls, hmap⟩ : ∃ r slot calls, (c.slotFor (c.pageIndex offset)).map answers
      c.calls (c.pageIndex offset * c.pageSize) = (r, slot, calls) := ⟨_, _, _, rfl⟩
    refine Or.inr ⟨?_, r, slot, calls, ?_, hmap, ?_⟩
    · rw [keys, List.mem_map]
      rintro ⟨slot, hslot, hkey⟩
      exact List.find?_eq_none.mp hfind slot hslot (decide_eq_true hkey)
    · have hkey := map_key answers (c.slotFor (c.pageIndex offset)) c.calls
        (c.pageIndex offset * c.pageSize)
      rwa [hmap, slotFor_key] at hkey
    · rw [findPage]
      simp only [hfind, hmap]

theorem mem_keys {slot : PageSlot} (h : slot ∈ c.slots) : slot.key ∈ c.keys :=
  List.mem_map_of_mem h

theorem eq_of_key_eq (h : c.keys.Nodup) {slot slot' : PageSlot} (hslot : slot ∈ c.slots)
    (hslot' : slot' ∈ c.slots) (hkey : slot.key = slot'.key) : slot = slot' :=
  List.inj_on_of_nodup_map h hslot hslot' hkey

section Hit

variable {slot : PageSlot} {l : List PageSlot} {key : ℕ}

theorem key_of_find (h : l.find? (fun slot ↦ slot.key = key) = some slot) :
    slot ∈ l ∧ slot.key = key :=
  ⟨List.mem_of_find?_eq_some h, by simpa using List.find?_some h⟩

theorem map_key_touch (h : slot.key = key) :
    (slot :: l.eraseP fun slot ↦ slot.key = key).map PageSlot.key
      = Recency.touch key (l.map PageSlot.key) := by
  have hcomp : ((fun k ↦ k == key) ∘ PageSlot.key : PageSlot → Bool)
      = fun slot ↦ decide (slot.key = key) := by
    funext slot
    exact beq_eq_decide _ _
  rw [List.map_cons, h, Recency.touch, List.erase_eq_eraseP', List.eraseP_map, hcomp]

theorem mem_of_mem_hit (hnodup : (l.map PageSlot.key).Nodup) (hslot : slot ∈ l)
    (hkey : slot.key = key) {slot' : PageSlot} (h : slot' ∈ l) :
    slot' ∈ slot :: l.eraseP fun slot ↦ slot.key = key := by
  by_cases hkey' : slot'.key = key
  · obtain rfl : slot' = slot :=
      List.inj_on_of_nodup_map hnodup h hslot (hkey'.trans hkey.symm)
    exact List.mem_cons_self
  · exact List.mem_cons_of_mem _ ((List.mem_eraseP_of_neg (by simpa using hkey')).mpr h)

end Hit

theorem nodup_findPage (h : c.keys.Nodup) : (c.findPage answers offset).2.keys.Nodup := by
  have hothers : (c.others.map PageSlot.key).Nodup :=
    (others_isPrefix.map PageSlot.key).sublist.nodup h
  rcases findPage_cases answers c offset with ⟨slot, hfind, heq⟩ |
    ⟨hmiss, r, slot, calls, hkey, -, heq⟩
  · rw [heq, keys, map_key_touch (key_of_find hfind).2]
    exact Recency.nodup_touch h
  · rw [heq]
    split_ifs
    · refine List.nodup_cons.mpr ⟨fun hmem ↦ hmiss ?_, hothers⟩
      rw [← hkey]
      exact (others_isPrefix.map PageSlot.key).subset hmem
    · exact hothers

/-! ## Pages that stay -/

section Pinned

variable {recent rest : List PageSlot} {slot : PageSlot}

/-- The slots asked for last stay in front of the others, as long as there is one slot more. -/
theorem findPage_recent (hnodup : c.keys.Nodup) (hslots : c.slots = recent ++ rest)
    (hlen : recent.length < cacheSize) (h : (c.findPage answers offset).1 = some slot) :
    ∃ recent' rest', (c.findPage answers offset).2.slots = recent' ++ rest' ∧
      recent'.length ≤ recent.length + 1 ∧ slot ∈ recent' ∧ ∀ x ∈ recent, x ∈ recent' := by
  rcases findPage_cases answers c offset with ⟨found, hfind, heq⟩ |
    ⟨hmiss, r, found, calls, hkey, -, heq⟩
  · obtain rfl : found = slot := by
      rw [heq] at h
      exact Option.some.inj h
    obtain ⟨hmem, hkey⟩ := key_of_find hfind
    rw [hslots] at hmem
    have hrecent : (recent.map PageSlot.key).Nodup := by
      rw [keys, hslots, List.map_append] at hnodup
      exact hnodup.of_append_left
    rw [heq, hslots]
    by_cases hin : found ∈ recent
    · -- a recent slot goes to the front of them
      refine ⟨_, rest, by rw [List.eraseP_append_left (by simpa using hkey) _ hin,
        ← List.cons_append], ?_, List.mem_cons_self, fun x ↦ mem_of_mem_hit hrecent hin hkey⟩
      exact Nat.succ_le_succ (List.eraseP_sublist.length_le)
    · have hother (x : PageSlot) (hx : x ∈ recent) : ¬decide (x.key = c.pageIndex offset)
        = true := by
        intro hdec
        obtain rfl : x = found := eq_of_key_eq hnodup (hslots ▸ List.mem_append_left _ hx)
          (hslots ▸ hmem) ((of_decide_eq_true hdec).trans hkey.symm)
        exact hin hx
      exact ⟨found :: recent, rest.eraseP _,
        by rw [List.eraseP_append_right _ hother, List.cons_append], Nat.le_refl _,
        List.mem_cons_self, fun x ↦ List.mem_cons_of_mem _⟩
  · -- the slot that is taken, if one is, is not a recent one
    obtain ⟨rest', hothers⟩ : ∃ rest', c.others = recent ++ rest' := by
      rw [others, hslots]
      split_ifs with hfull
      · have hrest : rest ≠ [] := by
          rintro rfl
          rw [isFull_iff, hslots, List.append_nil] at hfull
          omega
        exact ⟨rest.dropLast, List.dropLast_append_of_ne_nil hrest⟩
      · exact ⟨rest, rfl⟩
    rw [heq] at h ⊢
    split_ifs at h ⊢ with hr
    · obtain rfl : found = slot := Option.some.inj h
      exact ⟨found :: recent, rest', by rw [hothers, List.cons_append], Nat.le_refl _,
        List.mem_cons_self, fun x ↦ List.mem_cons_of_mem _⟩

theorem pinned_of_done {v : List Segment} {c' : FaultyCache cacheSize}
    (hslots : c.slots = recent ++ rest)
    (h : ((some [], c) : Option (List Segment) × FaultyCache cacheSize) = (some v, c')) :
    (∀ seg ∈ v, seg.slot ∈ c'.slots) ∧ ∀ x ∈ recent, x ∈ c'.slots := by
  obtain ⟨hnil, rfl⟩ := Prod.mk.inj h
  rw [← Option.some.inj hnil]
  exact ⟨by simp, fun x hx ↦ hslots ▸ List.mem_append_left _ hx⟩

/-- The pages that the loop goes through are mapped when it ends. What it carries is that the slots
asked for so far stay in front, and there are as many entries left as there are others to take. -/
theorem writevLoop_pinned {maxPage start size entries i queued : ℕ} {v : List Segment}
    {c' : FaultyCache cacheSize} (hnodup : c.keys.Nodup) (hslots : c.slots = recent ++ rest)
    (hlen : recent.length + entries ≤ cacheSize)
    (h : writevLoop answers maxPage start size entries i queued c = (some v, c')) :
    (∀ seg ∈ v, seg.slot ∈ c'.slots) ∧ ∀ x ∈ recent, x ∈ c'.slots := by
  induction entries generalizing i queued c v recent rest with
  | zero => exact pinned_of_done hslots h
  | succ entries ih =>
    rw [writevLoop] at h
    split_ifs at h with hmore
    · simp only at h
      split at h
      · exact absurd (congrArg Prod.fst h) (by simp)
      · rename_i slot hfound
        obtain ⟨recent', rest', hslots', hlen', hslot, hrecent⟩ :=
          findPage_recent hnodup hslots (by omega) hfound
        obtain ⟨hv, hc'⟩ := Prod.mk.inj h
        obtain ⟨w, hw, rfl⟩ := Option.map_eq_some_iff.mp hv
        obtain ⟨hsegs, hkept⟩ := ih (nodup_findPage hnodup) hslots' (by omega)
          (Prod.ext hw hc')
        refine ⟨fun seg hseg ↦ ?_, fun x hx ↦ hkept x (hrecent x hx)⟩
        rcases List.mem_cons.mp hseg with rfl | hseg
        · exact hkept _ hslot
        · exact hsegs seg hseg
    · exact pinned_of_done hslots h

end Pinned

/-! ## Runs -/

/-- The cache, and the pages of the requests that succeeded, the last one first. -/
structure Requests (cacheSize : ℕ) where
  cache : FaultyCache cacheSize
  history : List ℕ

/-- A request for the page that holds an offset. -/
def step (answers : ℕ → MapAnswer) (s : Requests cacheSize) (offset : UInt64) :
    Requests cacheSize × Option PageSlot :=
  let r := s.cache.findPage answers offset
  (⟨r.2, if r.1.isSome then offset.toNat / s.cache.pageSize :: s.history else s.history⟩, r.1)

/-- There are no more slots than the cache may have, each maps the page with its number, and they
are in the order in which their pages were last asked for with success. -/
structure LRU (s : Requests cacheSize) : Prop where
  length_le : s.cache.slots.length ≤ cacheSize
  nodup : s.cache.keys.Nodup
  maps : ∀ slot ∈ s.cache.slots, slot.Maps (slot.key * s.cache.pageSize)
  key_lt : ∀ slot ∈ s.cache.slots, slot.key < 2 ^ 32
  ordered : s.cache.keys <+: Recency.order s.history

/-- A request leaves the cache in order. If it succeeds, its slot maps the page, and if not, no slot
has it; and only the slot used least recently, when there is no other to take, is lost or used
again. -/
structure Serves (answers : ℕ → MapAnswer) (s : Requests cacheSize) (offset : UInt64) : Prop where
  lru : LRU (step answers s offset).1
  found : ∀ slot, (step answers s offset).2 = some slot →
    slot ∈ (step answers s offset).1.cache.slots ∧
      slot.key = offset.toNat / s.cache.pageSize ∧
      slot.Maps (offset.toNat / s.cache.pageSize * s.cache.pageSize)
  failed : (step answers s offset).2 = none → ∀ slot ∈ (step answers s offset).1.cache.slots,
    slot.key ≠ offset.toNat / s.cache.pageSize
  kept : ∀ slot ∈ s.cache.slots, slot ∈ (step answers s offset).1.cache.slots ∨
    (s.cache.slots.length = cacheSize ∧ s.cache.slots.getLast? = some slot)

/-- The page has a slot and its number fits in 32 bits; or it has none, `Map` calls `MMapRead`, as
it does not for a new slot and the page at `UINT64_MAX`, and the answer is the null pointer, or a
page whose number fits in 32 bits. -/
def Fits (answers : ℕ → MapAnswer) (s : Requests cacheSize) (offset : UInt64) : Prop :=
  let page := offset.toNat / s.cache.pageSize
  let index := s.cache.pageIndex offset
  if index ∈ s.cache.keys then page < 2 ^ 32
  else ¬(s.cache.isFull = false ∧ index * s.cache.pageSize = 2 ^ 64 - 1) ∧
    (answers s.cache.calls = .null ∨ (answers s.cache.calls = .mapped ∧ page < 2 ^ 32))

instance (answers : ℕ → MapAnswer) (s : Requests cacheSize) (offset : UInt64) :
    Decidable (Fits answers s offset) :=
  inferInstanceAs (Decidable (ite _ _ _))

section Step

variable {s : Requests cacheSize} {slot : PageSlot} {cache : FaultyCache cacheSize} {key : ℕ}

theorem step_of_some (h : s.cache.findPage answers offset = (some slot, cache)) :
    step answers s offset = (⟨cache, offset.toNat / s.cache.pageSize :: s.history⟩, some slot) := by
  rw [step, h]
  rfl

theorem step_of_none (h : s.cache.findPage answers offset = (none, cache)) :
    step answers s offset = (⟨cache, s.history⟩, none) := by
  rw [step, h]
  rfl

theorem pageIndex_eq (h : offset.toNat / c.pageSize < 2 ^ 32) :
    c.pageIndex offset = offset.toNat / c.pageSize :=
  CInt.toUnsigned_natCast h

namespace LRU

theorem others (h : LRU s) (calls : ℕ) :
    LRU (⟨{ s.cache with slots := s.cache.others, calls := calls }, s.history⟩ :
      Requests cacheSize) where
  length_le := Nat.le_trans others_isPrefix.length_le h.length_le
  nodup := (others_isPrefix.map PageSlot.key).sublist.nodup h.nodup
  maps slot hslot := h.maps slot (others_isPrefix.subset hslot)
  key_lt slot hslot := h.key_lt slot (others_isPrefix.subset hslot)
  ordered := (others_isPrefix.map PageSlot.key).trans h.ordered

theorem hit (h : LRU s) (hslot : slot ∈ s.cache.slots) (hkey : slot.key = key) :
    LRU (⟨{ s.cache with slots := slot :: s.cache.slots.eraseP fun slot ↦ slot.key = key },
      key :: s.history⟩ : Requests cacheSize) where
  length_le := by
    have hlen := congrArg List.length (map_key_touch (l := s.cache.slots) hkey)
    rw [List.length_map, Recency.length_touch_of_mem (hkey ▸ mem_keys hslot), List.length_map]
      at hlen
    exact Nat.le_trans (Nat.le_of_eq hlen) h.length_le
  nodup := by
    rw [keys, map_key_touch hkey]
    exact Recency.nodup_touch h.nodup
  maps slot' hslot' := by
    rcases List.mem_cons.mp hslot' with rfl | hslot'
    · exact h.maps _ hslot
    · exact h.maps _ (List.mem_of_mem_eraseP hslot')
  key_lt slot' hslot' := by
    rcases List.mem_cons.mp hslot' with rfl | hslot'
    · exact h.key_lt _ hslot
    · exact h.key_lt _ (List.mem_of_mem_eraseP hslot')
  ordered := by
    rw [keys, map_key_touch hkey]
    exact Recency.touch_isPrefix h.ordered

theorem mapped (h : LRU s) (hsize : 0 < cacheSize) (hmiss : slot.key ∉ s.cache.keys)
    (hmaps : slot.Maps (slot.key * s.cache.pageSize)) (hlt : slot.key < 2 ^ 32) (calls : ℕ) :
    LRU (⟨{ s.cache with slots := slot :: s.cache.others, calls := calls },
      slot.key :: s.history⟩ : Requests cacheSize) := by
  have hothers := h.others calls
  have hnot : slot.key ∉ s.cache.others.map PageSlot.key := fun hmem ↦
    hmiss ((others_isPrefix.map PageSlot.key).subset hmem)
  have hkeys : (slot :: s.cache.others).map PageSlot.key
      = Recency.touch slot.key (s.cache.others.map PageSlot.key) := by
    rw [Recency.touch_of_not_mem hnot, List.map_cons]
  refine ⟨length_others_lt hsize h.length_le, List.nodup_cons.mpr ⟨hnot, hothers.nodup⟩, ?_, ?_, ?_⟩
  · intro slot' hslot'
    rcases List.mem_cons.mp hslot' with rfl | hslot'
    · exact hmaps
    · exact hothers.maps _ hslot'
  · intro slot' hslot'
    rcases List.mem_cons.mp hslot' with rfl | hslot'
    · exact hlt
    · exact hothers.key_lt _ hslot'
  · rw [keys, hkeys]
    exact Recency.touch_isPrefix hothers.ordered

/-- A slot that is taken has another page, and one that is new has none: `MMapRead` is called. -/
theorem map_slotFor (h : LRU s) (hsize : 0 < cacheSize) (hpage : 0 < s.cache.pageSize)
    (hmiss : key ∉ s.cache.keys)
    (hnew : ¬(s.cache.isFull = false ∧ key * s.cache.pageSize = 2 ^ 64 - 1)) (calls : ℕ) :
    (s.cache.slotFor key).map answers calls (key * s.cache.pageSize)
      = (if (answers calls).ptr calls = .null then -3 else 0,
          ⟨key, (answers calls).ptr calls, key * s.cache.pageSize⟩, calls + 1) := by
  have hne : (s.cache.slotFor key).second ≠ key * s.cache.pageSize := by
    rw [slotFor]
    split_ifs with hfull
    · have hslots : s.cache.slots ≠ [] := by
        rintro hnil
        rw [isFull_iff, hnil, List.length_nil] at hfull
        omega
      have hlast := List.getLast_mem hslots
      rw [List.getLastD_eq_getLast?, List.getLast?_eq_some_getLast hslots, Option.getD_some,
        (h.maps _ hlast).1]
      intro heq
      exact hmiss (Nat.eq_of_mul_eq_mul_right hpage heq ▸ mem_keys hlast)
    · intro heq
      exact hnew ⟨by simpa using hfull, heq.symm⟩
  rw [PageSlot.map, if_neg hne]
  simp only [slotFor_key]

end LRU

theorem mem_others_or (hslot : slot ∈ s.cache.slots) :
    slot ∈ s.cache.others ∨
      (s.cache.slots.length = cacheSize ∧ s.cache.slots.getLast? = some slot) := by
  rw [FaultyCache.others]
  split_ifs with hfull
  · have hne := List.ne_nil_of_mem hslot
    rw [← List.dropLast_concat_getLast hne, List.mem_append, List.mem_singleton] at hslot
    rcases hslot with hslot | hslot
    · exact Or.inl hslot
    · exact Or.inr ⟨isFull_iff.mp hfull, by rw [List.getLast?_eq_some_getLast hne, hslot]⟩
  · exact Or.inl hslot

/-- The number of a page that is found is the one that was asked for, if it fits in 32 bits. -/
theorem lt_of_index_eq (h : s.cache.pageIndex offset = offset.toNat / s.cache.pageSize) :
    offset.toNat / s.cache.pageSize < 2 ^ 32 :=
  h ▸ s.cache.pageIndex_lt offset

theorem serves_of_hit (h : LRU s)
    (hfind : s.cache.slots.find? (fun slot ↦ slot.key = s.cache.pageIndex offset) = some slot)
    (heq : s.cache.findPage answers offset = (some slot, { s.cache with
      slots := slot :: s.cache.slots.eraseP fun slot ↦ slot.key = s.cache.pageIndex offset })) :
    Serves answers s offset ↔ offset.toNat / s.cache.pageSize < 2 ^ 32 := by
  obtain ⟨hslot, hkey⟩ := key_of_find hfind
  have hstep := step_of_some heq
  constructor
  · intro hserves
    obtain ⟨-, hpage, -⟩ := hserves.found slot (by rw [hstep])
    exact lt_of_index_eq (hkey.symm.trans hpage)
  · intro hlt
    have hindex := pageIndex_eq hlt
    rw [← hindex] at hstep
    refine ⟨?_, ?_, ?_, ?_⟩
    · rw [hstep]
      exact h.hit hslot hkey
    · rw [hstep, ← hindex]
      rintro slot' ⟨⟩
      refine ⟨List.mem_cons_self, hkey, ?_⟩
      rw [← hkey]
      exact h.maps _ hslot
    · rw [hstep]
      exact fun hnone ↦ absurd hnone (by simp)
    · rw [hstep]
      exact fun slot' hslot' ↦ Or.inl (mem_of_mem_hit h.nodup hslot hkey hslot')

theorem not_serves (heq : s.cache.findPage answers offset = (some slot, cache))
    (hfirst : ∀ call, slot.first ≠ .page call) : ¬Serves answers s offset := by
  intro hserves
  obtain ⟨-, -, -, call, hcall⟩ := hserves.found _ (by rw [step_of_some heq])
  exact hfirst call hcall

theorem findPage_of_new (answers : ℕ → MapAnswer) (hmiss : s.cache.pageIndex offset ∉ s.cache.keys)
    (hnew : s.cache.isFull = false ∧
      s.cache.pageIndex offset * s.cache.pageSize = 2 ^ 64 - 1) :
    ∃ cache, s.cache.findPage answers offset = (some (.new (s.cache.pageIndex offset)), cache) := by
  have hslot : s.cache.slotFor (s.cache.pageIndex offset) = .new (s.cache.pageIndex offset) := by
    rw [slotFor, if_neg (by simp [hnew.1])]
  rcases findPage_cases answers s.cache offset with ⟨slot, hfind, -⟩ |
    ⟨-, r, slot, calls, -, hmap, heq⟩
  · obtain ⟨hmem, hkey⟩ := key_of_find hfind
    exact absurd (hkey ▸ mem_keys hmem) hmiss
  · rw [hslot, PageSlot.map, if_pos (by rw [hnew.2]; rfl)] at hmap
    obtain ⟨rfl, rfl, -⟩ := hmap
    exact ⟨_, heq⟩

theorem serves_of_null (h : LRU s) (hmiss : s.cache.pageIndex offset ∉ s.cache.keys) {calls : ℕ}
    (heq : s.cache.findPage answers offset
      = (none, { s.cache with slots := s.cache.others, calls := calls })) :
    Serves answers s offset := by
  have hstep := step_of_none heq
  refine ⟨?_, ?_, ?_, ?_⟩
  · rw [hstep]
    exact h.others _
  · rw [hstep]
    exact fun slot hsome ↦ absurd hsome (by simp)
  · rw [hstep]
    intro _ slot hslot hkey
    have hmem := others_isPrefix.subset hslot
    have hlt := h.key_lt slot hmem
    rw [hkey] at hlt
    exact hmiss (pageIndex_eq hlt ▸ hkey ▸ mem_keys hmem)
  · rw [hstep]
    exact fun slot hslot ↦ mem_others_or hslot

theorem serves_of_mapped (h : LRU s) (hsize : 0 < cacheSize)
    (hmiss : s.cache.pageIndex offset ∉ s.cache.keys) {call calls : ℕ}
    (heq : s.cache.findPage answers offset = (some ⟨s.cache.pageIndex offset, .page call,
      s.cache.pageIndex offset * s.cache.pageSize⟩, { s.cache with
        slots := ⟨s.cache.pageIndex offset, .page call,
          s.cache.pageIndex offset * s.cache.pageSize⟩ :: s.cache.others
        calls := calls })) :
    Serves answers s offset ↔ offset.toNat / s.cache.pageSize < 2 ^ 32 := by
  have hstep := step_of_some heq
  constructor
  · intro hserves
    obtain ⟨-, hpage, -⟩ := hserves.found _ (by rw [hstep])
    exact lt_of_index_eq hpage
  · intro hlt
    have hindex := pageIndex_eq hlt
    rw [← hindex] at hstep
    refine ⟨?_, ?_, ?_, ?_⟩
    · rw [hstep]
      exact h.mapped hsize hmiss ⟨rfl, call, rfl⟩ (s.cache.pageIndex_lt offset) _
    · rw [hstep, ← hindex]
      rintro slot' ⟨⟩
      exact ⟨List.mem_cons_self, rfl, rfl, call, rfl⟩
    · rw [hstep]
      exact fun hnone ↦ absurd hnone (by simp)
    · rw [hstep]
      exact fun slot hslot ↦ (mem_others_or hslot).imp_left (List.mem_cons_of_mem _)

/-- **A request is served** exactly if it fits. -/
theorem serves_iff (h : LRU s) (hsize : 0 < cacheSize) (hpage : 0 < s.cache.pageSize) :
    Serves answers s offset ↔ Fits answers s offset := by
  rw [Fits]
  rcases findPage_cases answers s.cache offset with ⟨slot, hfind, heq⟩ |
    ⟨hmiss, r, slot, calls, hkey, hmap, heq⟩
  · obtain ⟨hslot, hkey⟩ := key_of_find hfind
    rw [if_pos (hkey ▸ mem_keys hslot)]
    exact serves_of_hit h hfind heq
  rw [if_neg hmiss]
  by_cases hnew : s.cache.isFull = false ∧ s.cache.pageIndex offset * s.cache.pageSize = 2 ^ 64 - 1
  · obtain ⟨cache, heq⟩ := findPage_of_new answers hmiss hnew
    exact iff_of_false (not_serves heq (by simp [PageSlot.new])) fun hfits ↦ hfits.1 hnew
  rw [and_iff_right hnew]
  rw [h.map_slotFor hsize hpage hmiss hnew] at hmap
  obtain ⟨rfl, rfl, rfl⟩ := hmap
  cases hanswer : answers s.cache.calls with
  | null =>
    rw [hanswer] at heq
    exact iff_of_true (serves_of_null h hmiss heq) (Or.inl rfl)
  | mapFailed =>
    rw [hanswer] at heq
    exact iff_of_false (not_serves heq (by simp [MapAnswer.ptr])) (by simp)
  | mapped =>
    rw [hanswer] at heq
    rw [serves_of_mapped h hsize hmiss heq]
    simp

end Step

@[simp] theorem findPage_pageSize : (c.findPage answers offset).2.pageSize = c.pageSize := by
  rcases findPage_cases answers c offset with ⟨slot, -, heq⟩ | ⟨-, r, slot, calls, -, -, heq⟩
  · rw [heq]
  · rw [heq]
    split_ifs <;> rfl

/-- A cache before the first request. -/
def start (cacheSize pageSize : ℕ) : Requests cacheSize := ⟨new cacheSize pageSize, []⟩

theorem lru_start (cacheSize pageSize : ℕ) : LRU (start cacheSize pageSize) :=
  ⟨Nat.zero_le _, List.nodup_nil, by simp [start, new], by simp [start, new], List.nil_prefix⟩

theorem nodup_run (answers : ℕ → MapAnswer) (pageSize : ℕ) (offsets : List UInt64) :
    (Run.run (step answers) (start cacheSize pageSize) offsets).1.cache.keys.Nodup :=
  (Run.Throughout.of_step (P := fun s : Requests cacheSize ↦ s.cache.keys.Nodup)
    (fun _ _ hs _ ↦ nodup_findPage hs) (lru_start cacheSize pageSize).nodup
    (Run.steps_true _ _)).last

theorem writev_pinned (hnodup : c.keys.Nodup) {available start size : UInt64} {cb : Writer} {r : ℤ}
    {v : List Segment} {c' : FaultyCache cacheSize}
    (h : c.writev answers available start size cb = (r, some v, c')) :
    ∀ seg ∈ v, seg.slot ∈ c'.slots := by
  rw [writev] at h
  split at h
  · exact absurd (congrArg (fun q ↦ q.2.1) h) (by simp)
  · rename_i w hw
    obtain ⟨-, h⟩ := Prod.mk.inj h
    obtain ⟨hv, hc'⟩ := Prod.mk.inj h
    obtain rfl := Option.some.inj hv
    have hslots : c.slots = [] ++ c.slots := (List.nil_append _).symm
    exact (writevLoop_pinned hnodup hslots (by rw [List.length_nil, Nat.zero_add])
      (Prod.ext hw hc')).1

/-- **The cache keeps its pages in the order of last use** and serves each request exactly if the
requests fit; and whatever was asked for before, the pages that a `Writev` goes through stay until
its callback runs. -/
theorem run_servesPages_iff {pageSize : ℕ} (hsize : 0 < cacheSize) (hpage : 0 < pageSize)
    (answers : ℕ → MapAnswer) (offsets : List UInt64) :
    (Run.Steps (step answers) (Serves answers) (start cacheSize pageSize) offsets ↔
      Run.Steps (step answers) (Fits answers) (start cacheSize pageSize) offsets) ∧
    ∀ (available first size : UInt64) (cb : Writer) (r : ℤ) (v : List Segment)
      (c : FaultyCache cacheSize),
      (Run.run (step answers) (start cacheSize pageSize) offsets).1.cache.writev answers available
        first size cb = (r, some v, c) → ∀ seg ∈ v, seg.slot ∈ c.slots := by
  constructor
  · refine Run.steps_iff_of_invariant
      (P := fun s : Requests cacheSize ↦ LRU s ∧ 0 < s.cache.pageSize) (fun s offset hs hfits ↦ ?_)
      (fun s offset hs ↦ serves_iff hs.1 hsize hs.2) ⟨lru_start cacheSize pageSize, hpage⟩
    refine ⟨((serves_iff hs.1 hsize hs.2).mpr hfits).lru, ?_⟩
    rw [step, findPage_pageSize]
    exact hs.2
  · intro available first size cb r v c h
    exact writev_pinned (nodup_run answers pageSize offsets) h

/-- Two slots: a page is found again, one cannot be mapped, and one takes the slot of another. -/
theorem run_serves_twoSlots :
    Run.Steps (step fun call ↦ if call = 2 then .null else .mapped)
      (Serves fun call ↦ if call = 2 then .null else .mapped) (start 2 4096)
      [0, 4096, 5, 8192, 8192, 12288] :=
  (run_servesPages_iff (by decide) (by decide) _ _).1.mpr (by decide +kernel)

/-- If `mmap` fails, the request succeeds all the same. -/
theorem not_serves_of_mapFailed :
    ¬∀ (cacheSize pageSize : ℕ) (answers : ℕ → MapAnswer) (offsets : List UInt64), 0 < cacheSize →
      0 < pageSize →
      Run.Steps (step answers) (Serves answers) (start cacheSize pageSize) offsets := by
  intro h
  obtain ⟨hserves, -⟩ := h 1 4096 (fun _ ↦ .mapFailed) [0] (by decide) (by decide)
  obtain ⟨-, -, -, call, hcall⟩ := hserves.found ⟨0, .mapFailed, 0⟩ rfl
  exact absurd hcall (by simp)

/-! ## The cache whose pages can all be mapped -/

/-- The cache as the log sees it. -/
def forget (c : FaultyCache cacheSize) : LRUCache cacheSize :=
  ⟨c.pageSize, c.slots.map fun slot ↦ ⟨slot.key, slot.second⟩⟩

/-- Where a page can be mapped, the look-up is that of `LRUCache`. -/
theorem findPage_forget {s : Requests cacheSize} (h : LRU s) (hsize : 0 < cacheSize)
    (hpage : 0 < s.cache.pageSize) (hfits : Fits answers s offset)
    (hmapped : answers s.cache.calls = .mapped) :
    (forget s.cache).findPage offset.toNat
      = ((s.cache.findPage answers offset).1.map PageSlot.second,
          forget (s.cache.findPage answers offset).2) := by
  have hcomp : ((fun page : CachedPage ↦ decide (page.key = s.cache.pageIndex offset)) ∘
      fun slot : PageSlot ↦ (⟨slot.key, slot.second⟩ : CachedPage))
        = fun slot ↦ decide (slot.key = s.cache.pageIndex offset) := rfl
  have hfind : (forget s.cache).slots.find? (fun page ↦ page.key = s.cache.pageIndex offset)
      = (s.cache.slots.find? fun slot ↦ slot.key = s.cache.pageIndex offset).map
        fun slot ↦ ⟨slot.key, slot.second⟩ := by
    rw [forget, List.find?_map, hcomp]
  have hindex : CInt.toUnsigned 32 (offset.toNat / (forget s.cache).pageSize : ℕ)
      = s.cache.pageIndex offset := rfl
  rw [LRUCache.findPage, hindex]
  simp only [hfind]
  rcases findPage_cases answers s.cache offset with ⟨slot, hslot, heq⟩ |
    ⟨hmiss, r, slot, calls, -, hmap, heq⟩
  · simp only [hslot, Option.map_some, heq, forget, List.map_cons, List.eraseP_map, hcomp]
  · have hnone : s.cache.slots.find? (fun slot ↦ slot.key = s.cache.pageIndex offset) = none := by
      rw [List.find?_eq_none]
      intro slot hslot hdec
      exact hmiss ((of_decide_eq_true hdec) ▸ mem_keys hslot)
    rw [Fits, if_neg hmiss] at hfits
    rw [h.map_slotFor hsize hpage hmiss hfits.1, hmapped] at hmap
    obtain ⟨rfl, rfl, rfl⟩ := hmap
    have hothers : (if (forget s.cache).slots.length = cacheSize then
        (forget s.cache).slots.dropLast else (forget s.cache).slots)
          = s.cache.others.map fun slot ↦ ⟨slot.key, slot.second⟩ := by
      simp only [forget, others, isFull_iff, List.length_map]
      split_ifs
      · exact List.map_dropLast.symm
      · rfl
    simp only [hnone, Option.map_none, heq, MapAnswer.ptr, hothers]
    rfl

end FaultyCache

end Coypu
