import Coypu.Cache.TagStore
import Coypu.Library.Run
import Coypu.Store.Resuming

/-!
# Tags and restarts

A process gives out tags and ends; the next one opens the same file and restores them. The
dictionary survives (`run_survives`) if at each restart no tag is empty, the last record does not
end within the last seven bytes of a page, and the process that ends, if it began with a restart
itself, went on in one page only.
-/

set_option autoImplicit false

namespace Coypu

open FlatMemory PagedLog

/-- What is asked of a dictionary. A restart opens the file again and restores. -/
inductive TagOp where
  | append (tag : Tag)
  | getOrCreateTag (tag : Tag)
  | restart

namespace TagStore

variable {s : TagStore} {l k : List Tag} {tag : Tag} {id : ℕ}

/-- The tags have the numbers that they were given, and no other tag has one. -/
def Knows (s : TagStore) (l : List Tag) : Prop :=
  s.getTagCount = l.length ∧ (∀ tag id, s.findTag tag = some id ↔ l[id]? = some tag) ∧
    ∀ id tag, l[id]? = some tag → s.getTag id = tag

/-- The members of a store that knows the tags of a list. -/
structure Assigns (s : TagStore) (l : List Tag) : Prop where
  tags_eq : s.tags = l
  tagToId_eq : s.tagToId = l.zipIdx
  nextId_eq : s.nextId = l.length

theorem Assigns.knows (h : s.Assigns l) (hl : l.Nodup) : s.Knows l := by
  refine ⟨h.nextId_eq, fun tag id ↦ findTag_eq_some_iff h.tagToId_eq hl, fun id tag hget ↦ ?_⟩
  rw [getTag, h.tags_eq, List.getD_eq_getElem?_getD, hget, Option.getD_some]

theorem Assigns.add (h : s.Assigns l) (htag : tag ∉ l) (hlt : l.length + 1 < 2 ^ 32) :
    (s.add tag).Assigns (l ++ [tag]) := by
  refine ⟨?_, ?_, ?_⟩
  · rw [TagStore.add, h.tags_eq]
  · rw [TagStore.add, insert, h.tagToId_eq, find?_zipIdx_eq_none htag, if_neg (by simp),
      List.zipIdx_append, h.nextId_eq]
    simp
  · rw [TagStore.add, h.nextId_eq, CInt.toUnsigned_natCast hlt, List.length_append,
      List.length_singleton]

theorem Assigns.addAll (h : s.Assigns l) (hl : (l ++ k).Nodup) (hlt : (l ++ k).length < 2 ^ 32) :
    (s.addAll k).Assigns (l ++ k) := by
  induction k generalizing s l with
  | nil => rwa [List.append_nil]
  | cons tag k ih =>
    have happend : l ++ tag :: k = l ++ [tag] ++ k := by simp
    rw [happend] at hl hlt ⊢
    have hnew : tag ∉ l := by
      have hdisj := (List.nodup_append.mp (List.nodup_append.mp hl).1).2.2
      exact fun hmem ↦ hdisj tag hmem tag List.mem_cons_self rfl
    refine ih (h.add hnew ?_) hl hlt
    rw [List.length_append, List.length_append, List.length_singleton] at hlt
    omega

theorem Assigns.of_tagBuf (h : s.Assigns l) (buf : PagedLog (LRUCache 1) 1) :
    { s with tagBuf := buf }.Assigns l := ⟨h.tags_eq, h.tagToId_eq, h.nextId_eq⟩

theorem assigns_new (file : MappedFile) : (new file).Assigns [] := ⟨rfl, rfl, rfl⟩

theorem append_of_le (hw : s.tagBuf.writeBuf.readOnly = false) (hlen : tag.length ≤ maxTagLen) :
    s.append tag = (some s.nextId, { s.add tag with
      tagBuf := ((s.tagBuf.push (Records.lengthBytes tag.length)).2.push tag).2 }) := by
  obtain ⟨hret, hw', -⟩ := s.tagBuf.push_of_not_readOnly hw (Records.lengthBytes tag.length)
  obtain ⟨hret', -⟩ := push_of_not_readOnly hw' tag
  rw [append, if_neg (Nat.not_lt_of_le hlen)]
  simp only [hret, hret', ne_eq, not_true_eq_false, if_false]
  rfl

theorem append_of_lt (hlen : maxTagLen < tag.length) : s.append tag = (none, s) := if_pos hlen

end TagStore

/-- A dictionary, the tags that were given out, and the end of the page in which its process went on
after a restart. -/
structure Tagging where
  store : TagStore
  issued : List Tag
  limit : Option ℕ

namespace Tagging

variable {s : Tagging}

/-- The first process, on an empty file. -/
def new : Tagging := ⟨TagStore.new MappedFile.empty, [], none⟩

/-- The next process, before it restores. -/
def reopened (s : Tagging) : TagStore := TagStore.new s.store.tagBuf.file

/-- Where the records of the tags end. -/
def recordsEnd (s : Tagging) : ℕ := (Records.encodeAll s.issued).length

/-- A request, and the number that it gives. -/
def step (s : Tagging) : TagOp → Tagging × Option ℕ
  | .append tag =>
    let r := s.store.append tag
    (⟨r.2, if r.1.isSome then s.issued ++ [tag] else s.issued, s.limit⟩, r.1)
  | .getOrCreateTag tag =>
    let r := s.store.getOrCreateTag tag
    (⟨r.2, if r.1.isSome ∧ tag ∉ s.issued then s.issued ++ [tag] else s.issued, s.limit⟩, r.1)
  | .restart =>
    match s.reopened.restore with
    | none => (s, none)
    | some (_, store) =>
      (⟨store, s.issued, some (s.recordsEnd / systemPage * systemPage + systemPage)⟩, none)

/-- A tag is appended once. -/
def Distinct (s : Tagging) : TagOp → Prop
  | .append tag => tag ∉ s.issued
  | _ => True

/-- New tags get the next number and others theirs, and a restart restores the numbers of all. -/
def Survives (s : Tagging) : TagOp → Prop
  | .append tag => ∀ id, (s.store.append tag).1 = some id → id = s.issued.length
  | .getOrCreateTag tag => ∀ id, (s.store.getOrCreateTag tag).1 = some id →
      (tag ∈ s.issued → s.issued[id]? = some tag) ∧ (tag ∉ s.issued → id = s.issued.length)
  | .restart => ∃ off store, s.reopened.restore = some ((true, off), store) ∧ store.Knows s.issued

/-- The process wrote no byte behind its limit. -/
def Within (s : Tagging) : Prop := ∀ e, s.limit = some e → s.recordsEnd ≤ e

instance decidableDistinct (s : Tagging) : (op : TagOp) → Decidable (s.Distinct op)
  | .append tag => inferInstanceAs (Decidable (tag ∉ s.issued))
  | .getOrCreateTag _ | .restart => .isTrue trivial

instance decidableWithin (s : Tagging) : Decidable s.Within :=
  match h : s.limit with
  | none => .isTrue fun e he ↦ by simp [h] at he
  | some e => decidable_of_iff (s.recordsEnd ≤ e)
      ⟨fun hle e' he ↦ Option.some.inj (h ▸ he) ▸ hle, fun hin ↦ hin e h⟩

/-- Numbers are below `2³²`. At a restart no tag is empty, the last record ends with its page or at
least eight bytes before, and the process wrote no byte behind its limit. -/
def Restorable (s : Tagging) : TagOp → Prop
  | .append _ | .getOrCreateTag _ => s.issued.length + 1 < 2 ^ 32
  | .restart => (∀ tag ∈ s.issued, tag ≠ []) ∧
      (s.recordsEnd % systemPage = 0 ∨ s.recordsEnd % systemPage + 8 ≤ systemPage) ∧ s.Within

instance decidableRestorable (s : Tagging) : (op : TagOp) → Decidable (s.Restorable op)
  | .append _ | .getOrCreateTag _ =>
    inferInstanceAs (Decidable (s.issued.length + 1 < 2 ^ 32))
  | .restart => inferInstanceAs (Decidable ((∀ tag ∈ s.issued, tag ≠ []) ∧
      (s.recordsEnd % systemPage = 0 ∨ s.recordsEnd % systemPage + 8 ≤ systemPage) ∧ s.Within))

/-- The file holds the records, the writer stands behind them, and zeros follow. -/
structure Stored (s : Tagging) : Prop where
  ready : s.store.tagBuf.Ready s.recordsEnd s.limit
  records_eq : load s.store.tagBuf.file.data 0 s.recordsEnd = Records.encodeAll s.issued
  zeros : ∀ i, s.recordsEnd ≤ i → s.store.tagBuf.file.data i = 0

/-- What holds in each state: the store knows the tags, and the file holds them if the process kept
to its limit. -/
structure Inv (s : Tagging) : Prop where
  assigns : s.store.Assigns s.issued
  nodup : s.issued.Nodup
  length_le : ∀ tag ∈ s.issued, tag.length ≤ TagStore.maxTagLen
  count_lt : s.issued.length < 2 ^ 32
  pageSize_eq : s.store.tagBuf.pageSize = systemPage
  readOnly_eq : s.store.tagBuf.writeBuf.readOnly = false
  stored : s.Within → s.Stored

theorem inv_new : Inv new := by
  refine ⟨TagStore.assigns_new _, List.nodup_nil, by simp [new], by decide, rfl, rfl, fun _ ↦ ?_⟩
  have hw : (PagedLog.ofFile 1 systemPage (by decide) MappedFile.empty).Writable :=
    writable_new (by decide) (Nat.dvd_zero _) false rfl _
  exact ⟨hw.ready rfl, rfl, fun i _ ↦ rfl⟩

/-! ## A new tag -/

theorem Stored.append (h : s.Stored) {tag : Tag} {store' : TagStore}
    (hbuf : store'.tagBuf = ((s.store.tagBuf.push (Records.lengthBytes tag.length)).2.push tag).2)
    (hin : (⟨store', s.issued ++ [tag], s.limit⟩ : Tagging).Within) :
    (⟨store', s.issued ++ [tag], s.limit⟩ : Tagging).Stored := by
  have hend : (⟨store', s.issued ++ [tag], s.limit⟩ : Tagging).recordsEnd
      = s.recordsEnd + (Records.encode tag).length := by
    rw [recordsEnd, Records.encodeAll_concat, List.length_append]
    rfl
  rw [Within, hend, Records.length_encode] at hin
  obtain ⟨-, hready, hdata⟩ := h.ready.push (l := Records.lengthBytes tag.length) fun e he ↦ by
    have hle := hin e he
    rw [Records.length_lengthBytes]
    omega
  rw [Records.length_lengthBytes] at hready
  obtain ⟨-, hready', hdata'⟩ := hready.push (l := tag) fun e he ↦ by
    have hle := hin e he
    omega
  have hfile : store'.tagBuf.file.data = FlatMemory.store s.store.tagBuf.file.data s.recordsEnd
      (Records.encode tag) := by
    rw [hbuf, hdata', hdata, Records.encode, store_append, Records.length_lengthBytes]
  refine ⟨?_, ?_, fun i hi ↦ ?_⟩
  · rw [hend, Records.length_encode, ← Nat.add_assoc]
    simp only [hbuf]
    exact hready'
  · have hself : load (FlatMemory.store s.store.tagBuf.file.data s.recordsEnd (Records.encode tag))
        s.recordsEnd (Records.encode tag).length = Records.encode tag := load_store_self _ _ _
    simp only [hend, hfile]
    rw [load_add, Nat.zero_add, hself,
      load_store_of_disjoint (Or.inl (Nat.le_of_eq (Nat.zero_add _))),
      h.records_eq, Records.encodeAll_concat]
  · rw [hend] at hi
    simp only [hfile]
    rw [store_of_le hi]
    exact h.zeros i (by omega)

theorem Inv.append (h : s.Inv) {tag : Tag} (htag : tag ∉ s.issued)
    (hcount : s.issued.length + 1 < 2 ^ 32) :
    ((s.store.append tag).1 = none ∧ (s.store.append tag).2 = s.store) ∨
      ((s.store.append tag).1 = some s.issued.length ∧
        (⟨(s.store.append tag).2, s.issued ++ [tag], s.limit⟩ : Tagging).Inv) := by
  by_cases hlen : TagStore.maxTagLen < tag.length
  · rw [TagStore.append_of_lt hlen]
    exact Or.inl ⟨rfl, rfl⟩
  rw [Nat.not_lt] at hlen
  rw [TagStore.append_of_le h.readOnly_eq hlen]
  obtain ⟨-, hw, hpage⟩ :=
    push_of_not_readOnly h.readOnly_eq (Records.lengthBytes tag.length)
  obtain ⟨-, hw', hpage'⟩ := push_of_not_readOnly hw tag
  refine Or.inr ⟨congrArg some h.assigns.nextId_eq, (h.assigns.add htag hcount).of_tagBuf _, ?_, ?_,
    ?_, ?_, hw', fun hin ↦ ?_⟩
  · exact List.nodup_append.mpr ⟨h.nodup, by simp,
      fun a ha b hb ↦ by rw [List.mem_singleton.mp hb]; exact fun heq ↦ htag (heq ▸ ha)⟩
  · intro t ht
    rcases List.mem_append.mp ht with ht | ht
    · exact h.length_le t ht
    · rwa [List.mem_singleton.mp ht]
  · rwa [List.length_append, List.length_singleton]
  · exact (hpage'.trans hpage).trans h.pageSize_eq
  · -- what ends within the limit now did so before
    have hbefore : s.Within := fun e he ↦ by
      have hle := hin e he
      rw [recordsEnd, Records.encodeAll_concat, List.length_append] at hle
      exact Nat.le_trans (Nat.le_add_right _ _) hle
    exact (h.stored hbefore).append rfl hin

/-! ## A restart -/

/-- The file as one array: the records and zeros. -/
theorem Stored.bytes_eq (h : s.Stored) : (FlatLog.ofFile s.store.tagBuf.file).bytes
    = Records.encodeAll s.issued
      ++ List.replicate (s.store.tagBuf.file.size - s.recordsEnd) 0 := by
  have hsize := h.ready.le_size
  have hsplit : s.store.tagBuf.file.size
      = s.recordsEnd + (s.store.tagBuf.file.size - s.recordsEnd) := by
    omega
  have hzeros : load s.store.tagBuf.file.data s.recordsEnd
      (s.store.tagBuf.file.size - s.recordsEnd)
        = List.replicate (s.store.tagBuf.file.size - s.recordsEnd) 0 := by
    refine List.ext_getElem (by simp) fun i h₁ h₂ ↦ ?_
    rw [getElem_load, List.getElem_replicate]
    exact h.zeros _ (Nat.le_add_right _ _)
  rw [FlatLog.ofFile]
  simp only
  nth_rewrite 1 [hsplit]
  rw [load_add, Nat.zero_add, h.records_eq, hzeros]

theorem Stored.gap (h : s.Stored) (hpage : s.store.tagBuf.pageSize = systemPage)
    (hgap : s.recordsEnd % systemPage = 0 ∨ s.recordsEnd % systemPage + 8 ≤ systemPage) :
    s.store.tagBuf.file.size - s.recordsEnd = 0 ∨ 8 ≤ s.store.tagBuf.file.size - s.recordsEnd := by
  have hle := h.ready.le_size
  obtain ⟨q, hq⟩ := h.ready.dvd
  rw [hpage, systemPage] at hq
  rw [systemPage] at hgap
  omega

/-- **A restart restores all tags.** -/
theorem Inv.restart (h : s.Inv) (hok : s.Restorable .restart) :
    ∃ store, s.reopened.restore = some ((true, s.recordsEnd), store) ∧
      (⟨store, s.issued, some (s.recordsEnd / systemPage * systemPage + systemPage)⟩ :
        Tagging).Inv := by
  obtain ⟨hne, hgap, hin⟩ := hok
  have hstored := h.stored hin
  have hready := hstored.ready
  have hdvd := hready.dvd
  have hle := hready.le_size
  have hsize := hready.size_le
  rw [h.pageSize_eq] at hdvd hsize
  have hflat : Flat s.reopened.tagBuf (FlatLog.ofFile s.store.tagBuf.file) :=
    flat_ofFile (by decide) hdvd
  -- pages have 32-bit numbers, since there are so few tags
  have hfile : (FlatLog.ofFile s.store.tagBuf.file).bytes.length
      < 2 ^ 32 * s.reopened.tagBuf.pageSize := by
    have hrecords := Records.length_encodeAll_le h.length_le
    have hcount := h.count_lt
    rw [FlatLog.ofFile, length_load]
    show s.store.tagBuf.file.size < 2 ^ 32 * systemPage
    rw [recordsEnd] at hsize
    rw [TagStore.maxTagLen] at hrecords
    rw [systemPage] at *
    omega
  have hparse : Records.parse TagStore.maxTagLen (s.reopened.tagBuf.available + 1)
      ((FlatLog.ofFile s.store.tagBuf.file).bytes.drop 0) = some (s.issued, s.recordsEnd) := by
    rw [List.drop_zero, hstored.bytes_eq]
    refine Records.parse_encodeAll hne h.length_le (by decide) (hstored.gap h.pageSize_eq hgap) ?_
    have hcount := Records.length_le_length_encodeAll s.issued
    exact Nat.lt_succ_of_le (Nat.le_trans hcount hle)
  obtain ⟨c, hc, hloop⟩ := TagStore.restoreLoop_of_parse hflat hfile hparse
  obtain ⟨hready', hdata⟩ := Ready.setPosition (s := { s.reopened.tagBuf with cache := c })
    (n := s.recordsEnd) rfl rfl hdvd hle hsize
  refine ⟨_, by rw [TagStore.restore, hloop, Option.map_some, if_pos rfl, Nat.zero_add]; rfl, ?_⟩
  have hassigns := (TagStore.assigns_new s.store.tagBuf.file).addAll (k := s.issued)
    (by simpa using h.nodup) (by simpa using h.count_lt)
  refine ⟨hassigns.of_tagBuf _, h.nodup, h.length_le, h.count_lt, rfl, rfl,
    fun _ ↦ ⟨hready', ?_, ?_⟩⟩
  · exact (congrArg (fun data ↦ load data 0 s.recordsEnd) hdata).trans hstored.records_eq
  · exact fun i hi ↦ (congrFun hdata i).trans (hstored.zeros i hi)

/-! ## Runs -/

theorem Inv.step (h : s.Inv) {op : TagOp} (hdistinct : s.Distinct op) (hok : s.Restorable op) :
    Inv (s.step op).1 ∧ s.Survives op := by
  cases op with
  | append tag =>
    rcases h.append hdistinct hok with ⟨hnone, hsame⟩ | ⟨hsome, hinv⟩
    · simp only [Tagging.step, Survives, hnone, hsame]
      exact ⟨h, fun id hid ↦ absurd hid (by simp)⟩
    · simp only [Tagging.step, Survives, hsome]
      exact ⟨hinv, fun id hid ↦ (Option.some.inj hid).symm⟩
  | getOrCreateTag tag =>
    by_cases htag : tag ∈ s.issued
    · obtain ⟨id, hid⟩ := List.mem_iff_getElem?.mp htag
      have hfind := (TagStore.findTag_eq_some_iff h.assigns.tagToId_eq h.nodup).mpr hid
      simp only [Tagging.step, Survives, TagStore.getOrCreateTag, hfind]
      rw [if_neg (fun hnew ↦ hnew.2 htag)]
      exact ⟨h, fun id' hid' ↦ ⟨fun _ ↦ Option.some.inj hid' ▸ hid, fun hnot ↦ absurd htag hnot⟩⟩
    · have hnone := TagStore.findTag_eq_none h.assigns.tagToId_eq htag
      simp only [Tagging.step, Survives, TagStore.getOrCreateTag, hnone]
      rcases h.append htag hok with ⟨hrefused, hsame⟩ | ⟨htaken, hinv⟩
      · simp only [hrefused, hsame]
        exact ⟨h, fun id hid ↦ absurd hid (by simp)⟩
      · simp only [htaken, Option.isSome_some, htag]
        exact ⟨hinv, fun id hid ↦ ⟨fun hmem ↦ hmem.elim, fun _ ↦ (Option.some.inj hid).symm⟩⟩
  | restart =>
    obtain ⟨store, hrestore, hinv⟩ := h.restart hok
    simp only [Tagging.step, Survives, hrestore]
    exact ⟨hinv, _, _, rfl, hinv.assigns.knows hinv.nodup⟩

/-- **The dictionary survives restarts** while each one is restorable. -/
theorem run_survives {ops : List TagOp} (hdistinct : Run.Steps step Distinct new ops)
    (hok : Run.Steps step Restorable new ops) : Run.Steps step Survives new ops :=
  Run.Steps.of_invariant (fun _ _ hs hok ↦ (Inv.step hs hok.1 hok.2).1)
    (fun _ _ hs hok ↦ (Inv.step hs hok.1 hok.2).2) inv_new (Run.steps_and.mpr ⟨hdistinct, hok⟩)

/-- The dictionary of two processes. -/
theorem run_survives_two : Run.Steps step Survives new [.append [65, 66], .getOrCreateTag [67],
    .restart, .getOrCreateTag [65, 66], .append [68], .restart] :=
  run_survives (by decide +kernel) (by decide +kernel)

/-- Thirty tags of 128 bytes and one of one byte, which end seven bytes before the page does. -/
def shortOfPage : List TagOp :=
  (List.range 30).map (fun i ↦ .append (List.replicate 128 (UInt8.ofNat i))) ++ [.append [255]]

/-- Behind the last of the tags `Restore` wants eight bytes, and fails. -/
theorem not_survives_of_shortOfPage :
    ¬∀ ops : List TagOp, Run.Steps step Distinct new ops → Run.Steps step Survives new ops := by
  intro h
  have hrun := h (shortOfPage ++ [.restart]) (by decide +kernel)
  obtain ⟨off, store, hrestore, -⟩ := (Run.steps_concat.mp hrun).2
  have hfails : (Run.run step new shortOfPage).1.reopened.restore.map (·.1.1) = some false := by
    decide +kernel
  rw [hrestore] at hfails
  exact absurd hfails (by simp)

end Tagging

end Coypu
