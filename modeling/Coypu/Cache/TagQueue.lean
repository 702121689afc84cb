import Coypu.Cache.TagStream

/-!
# The queue of tags

The log of a `TagOffsetStore` is the records one behind the other (`Holds`). A record lies within a
page, so a read of one gives it or fails, whatever its number is.
-/

set_option autoImplicit false

namespace Coypu

open FlatMemory

/-! ## Records -/

namespace TagType

@[simp] theorem length_toBytes (t : TagType) : t.toBytes.length = size := by simp [toBytes, size]

theorem ofBytes_toBytes (t : TagType) : ofBytes t.toBytes = t := by
  have hoffset : Bytes.decode (Bytes.encode 8 t.offset.toNat) = t.offset.toNat :=
    Bytes.decode_encode t.offset.toNat_lt
  have hlen : Bytes.decode (Bytes.encode 8 t.len.toNat) = t.len.toNat :=
    Bytes.decode_encode t.len.toNat_lt
  have hstream : Bytes.decode (Bytes.encode 8 t.streamId.toNat) = t.streamId.toNat :=
    Bytes.decode_encode t.streamId.toNat_lt
  have htag : Bytes.decode (Bytes.encode 4 t.tagId.toNat) = t.tagId.toNat :=
    Bytes.decode_encode t.tagId.toNat_lt
  have hfd : Bytes.decode (Bytes.encode 4 t.fd.toUInt32.toNat) = t.fd.toUInt32.toNat :=
    Bytes.decode_encode t.fd.toUInt32.toNat_lt
  simp [toBytes, ofBytes, List.drop_append, List.drop_eq_nil_of_le, hoffset, hlen, hstream, htag,
    hfd]

end TagType

/-! ## The queue -/

namespace TagOffsetStore

/-- The records in a file. -/
def records (file : MappedFile) : List TagType :=
  (List.range (file.size / TagType.size)).map fun k ↦ TagType.ofBytes
    (load file.data (TagType.size * k) TagType.size)

/-- The store with another cache. -/
def withCache (s : TagOffsetStore) (c : LRUCache 16) : TagOffsetStore :=
  ⟨{ s.stream with log := { s.stream.log with cache := c } }⟩

/-- The pages that are mapped are those of the file. -/
def Sound (s : TagOffsetStore) : Prop := LRUCache.Sound s.stream.log.pageSize s.stream.log.cache

/-- The log has the records, and the position is in front of one or at the end. -/
structure Holds (s : TagOffsetStore) (queued : List TagType) (next : ℕ) : Prop where
  pageSize_eq : s.stream.log.pageSize = PagedLog.systemPage
  total_eq : s.totalAvailable = TagType.size * queued.length
  total_lt : s.totalAvailable < 2 ^ 63
  offset_eq : s.stream.curOffset = TagType.size * next
  next_le : next ≤ queued.length
  exists_flat : ∃ t, PagedLog.Flat s.stream.log t ∧ ∀ k tag, queued[k]? = some tag →
    TagType.ofBytes ((t.bytes.drop (TagType.size * k)).take TagType.size) = tag

variable {s s' : TagOffsetStore} {queued : List TagType} {next : ℕ}

theorem Sound.pop (h : s.Sound) {offset size : ℕ}
    {q : Option (List UInt8) × PagedLog (LRUCache 16) 16}
    (hq : s.stream.log.pop offset size = some q) :
    ∃ c, q.2 = { s.stream.log with cache := c } ∧ LRUCache.Sound s.stream.log.pageSize c :=
  PagedLog.pop_induction (P := LRUCache.Sound s.stream.log.pageSize)
    (fun _ k _ hc ↦ hc.findPage (k * s.stream.log.pageSize)) h hq

theorem Sound.read (h : s.Sound) {offset : ℕ} {r : Option TagType}
    (hread : s.read offset = some (r, s')) :
    ∃ c, LRUCache.Sound s.stream.log.pageSize c ∧ s' = s.withCache c := by
  obtain ⟨q, hq, hr⟩ := Option.map_eq_some_iff.mp hread
  obtain ⟨c, heq, hc⟩ := h.pop hq
  have hs' : (⟨{ s.stream with log := q.2 }⟩ : TagOffsetStore) = s' := congrArg Prod.snd hr
  exact ⟨c, hc, by rw [← hs', heq]; rfl⟩

theorem Sound.readNext (h : s.Sound) {r : Option TagType} (hread : s.readNext = some (r, s')) :
    s'.Sound := by
  obtain ⟨p, hp, hr⟩ := Option.map_eq_some_iff.mp hread
  obtain ⟨q, hq, rfl⟩ := Option.map_eq_some_iff.mp hp
  obtain ⟨c, heq, hc⟩ := h.pop hq
  obtain rfl := congrArg Prod.snd hr
  simp only [Sound, heq]
  exact hc

theorem holds_new {file : MappedFile} (hfile : PagedLog.systemPage ∣ file.size)
    (hsize : file.size < 2 ^ 63) : (new file).Holds (records file) (records file).length := by
  have hlen : (records file).length = file.size / TagType.size := by simp [records]
  have hdvd : TagType.size ∣ file.size := Nat.dvd_trans (by decide) hfile
  refine ⟨rfl, ?_, hsize, ?_, Nat.le_refl _, _, PagedLog.flat_ofFile (by decide) hfile,
    fun k tag hk ↦ ?_⟩
  · rw [hlen, Nat.mul_div_cancel' hdvd]
    rfl
  · rw [hlen, Nat.mul_div_cancel' hdvd]
    rfl
  · obtain ⟨hlt, rfl⟩ := List.getElem?_eq_some_iff.mp hk
    have hend : TagType.size * k + TagType.size ≤ file.size := by
      rw [hlen] at hlt
      have hmul := Nat.mul_le_mul_left TagType.size hlt
      rwa [Nat.mul_div_cancel' hdvd] at hmul
    simp only [records, List.getElem_map, List.getElem_range, FlatLog.ofFile]
    rw [drop_load _ (by omega), Nat.zero_add, take_load _ (by omega)]

namespace Holds

theorem cache (h : s.Holds queued next) {c : LRUCache 16} (hc : c.Sound PagedLog.systemPage) :
    (s.withCache c).Holds queued next := by
  obtain ⟨t, hflat, hrecords⟩ := h.exists_flat
  exact ⟨h.pageSize_eq, h.total_eq, h.total_lt, h.offset_eq, h.next_le, t,
    hflat.of_cache (h.pageSize_eq ▸ hc), hrecords⟩

theorem isEmpty_iff (h : s.Holds queued next) : s.isEmpty = true ↔ next = queued.length := by
  have htotal := h.total_eq
  have hlt := h.total_lt
  have hle := h.next_le
  have hsub : (s.stream.log.available - s.stream.curOffset : ℤ)
      = (TagType.size * (queued.length - next) : ℕ) := by
    rw [totalAvailable] at htotal
    rw [htotal, h.offset_eq, Nat.mul_sub, Int.ofNat_sub (Nat.mul_le_mul_left _ hle)]
  rw [isEmpty, decide_eq_true_iff, PositionedLog.available, hsub, CInt.toUnsigned_natCast]
  · rw [TagType.size]
    omega
  · rw [htotal, TagType.size] at hlt
    rw [TagType.size]
    omega

theorem append (h : s.Holds queued next) (tag : TagType) :
    ((s.append tag).1 = true ∧ (s.append tag).2.Holds (queued ++ [tag]) next) ∨
      ((s.append tag).1 = false ∧ (s.append tag).2 = s) := by
  rw [TagOffsetStore.append]
  split_ifs with hfull
  · exact Or.inr ⟨rfl, rfl⟩
  · obtain ⟨t, hflat, hrecords⟩ := h.exists_flat
    obtain ⟨hflat', hret⟩ := hflat.push tag.toBytes
    have hlen : t.bytes.length = TagType.size * queued.length :=
      hflat.length_eq.symm.trans h.total_eq
    have htotal : (s.stream.push tag.toBytes).2.log.available
      = TagType.size * (queued.length + 1) := by
      have hlen' := hflat'.length_eq
      rw [FlatLog.append, List.length_append, TagType.length_toBytes, hlen] at hlen'
      exact hlen'
    have hroom : s.totalAvailable = TagType.size * queued.length := h.total_eq
    rw [TagType.size] at htotal hroom
    rw [PagedLog.systemPage] at hfull
    refine Or.inl ⟨decide_eq_true hret, ?_, ?_, ?_, h.offset_eq, ?_, _, hflat', fun k tag' hk ↦ ?_⟩
    · exact (s.stream.log.step_pageSize (.push tag.toBytes)).trans h.pageSize_eq
    · rw [List.length_append, List.length_singleton]
      exact htotal
    · rw [totalAvailable, htotal]
      omega
    · rw [List.length_append]
      exact Nat.le_trans h.next_le (Nat.le_add_right _ _)
    · rw [FlatLog.append]
      rcases Nat.lt_or_ge k queued.length with hlt | hge
      · have hend := Nat.mul_le_mul_left TagType.size hlt
        rw [Nat.mul_succ] at hend
        rw [List.getElem?_append_left hlt] at hk
        rw [List.drop_append_of_le_length (by omega), List.take_append_of_le_length
          (by rw [List.length_drop]; omega)]
        exact hrecords k tag' hk
      · obtain ⟨hlt, rfl⟩ := List.getElem?_eq_some_iff.mp hk
        obtain rfl : k = queued.length := by
          rw [List.length_append, List.length_singleton] at hlt
          omega
        rw [← hlen, List.drop_left, ← tag.length_toBytes, List.take_length, TagType.ofBytes_toBytes]
        simp

theorem sound (h : s.Holds queued next) : s.Sound := by
  obtain ⟨t, hflat, -⟩ := h.exists_flat
  exact hflat.sound

theorem pop (h : s.Holds queued next) {k : ℕ} {tag : TagType} (hk : queued[k]? = some tag) :
    ∃ r c, s.stream.log.pop (TagType.size * k) TagType.size
      = some (r, { s.stream.log with cache := c }) ∧
      c.Sound PagedLog.systemPage ∧ (r = none ∨ ∃ l, r = some l ∧ TagType.ofBytes l = tag) := by
  obtain ⟨t, hflat, hrecords⟩ := h.exists_flat
  have hlt := (List.getElem?_eq_some_iff.mp hk).1
  have hlen : t.bytes.length = TagType.size * queued.length := hflat.length_eq.symm.trans h.total_eq
  have hend := Nat.mul_le_mul_left TagType.size hlt
  rw [Nat.mul_succ] at hend
  have hpage : TagType.size * k % s.stream.log.pageSize + TagType.size ≤ s.stream.log.pageSize := by
    rw [h.pageSize_eq, PagedLog.systemPage, TagType.size]
    omega
  obtain ⟨r, c, hpop, hc, hr⟩ := hflat.pop_within (by decide) (by omega) hpage
  refine ⟨r, c, hpop, h.pageSize_eq ▸ hc, hr.imp_right fun hr ↦ ⟨_, hr, hrecords k tag hk⟩⟩

/-- In a queue in which the numbers of pages fit in 32 bits a read gives the record. -/
theorem pop_near (h : s.Holds queued next) (hnear : s.totalAvailable < 2 ^ 32 * PagedLog.systemPage)
    {k : ℕ} {tag : TagType} (hk : queued[k]? = some tag) :
    ∃ l c, s.stream.log.pop (TagType.size * k) TagType.size
      = some (some l, { s.stream.log with cache := c }) ∧
      c.Sound PagedLog.systemPage ∧ TagType.ofBytes l = tag := by
  obtain ⟨t, hflat, hrecords⟩ := h.exists_flat
  have hlt := (List.getElem?_eq_some_iff.mp hk).1
  have htotal := h.total_eq
  have hlen : t.bytes.length = s.totalAvailable := hflat.length_eq.symm
  have hend := Nat.mul_le_mul_left TagType.size hlt
  rw [Nat.mul_succ] at hend
  have hpage : t.lastPage PagedLog.systemPage = t.bytes.length / PagedLog.systemPage :=
    CInt.toUnsigned_natCast (by rw [hlen, Nat.div_lt_iff_lt_mul (by decide)]; exact hnear)
  have hfits : t.Fits s.stream.log.pageSize (.pop (TagType.size * k) TagType.size) := by
    rw [h.pageSize_eq, FlatLog.Fits, hpage]
    exact ⟨by omega, Nat.div_le_div_right (by omega),
      Nat.le_trans (by omega)
        (Nat.le_of_lt (Nat.lt_mul_of_div_lt (Nat.lt_succ_self _) (by decide)))⟩
  obtain ⟨c, hc, hpop⟩ := hflat.pop (by omega) hfits
  exact ⟨_, c, hpop, h.pageSize_eq ▸ hc, hrecords k tag hk⟩

/-- **A read of a record** gives it or fails. -/
theorem read_record (h : s.Holds queued next) {k : ℕ} {tag : TagType} (hk : queued[k]? = some tag) :
    ∃ r s', s.read (TagType.size * k) = some (r, s') ∧ s'.Holds queued next ∧
      (r = none ∨ r = some tag) := by
  obtain ⟨r, c, hpop, hc, hr⟩ := h.pop hk
  refine ⟨r.map TagType.ofBytes, s.withCache c, ?_, h.cache hc, ?_⟩
  · rw [TagOffsetStore.read, hpop]
    rfl
  · rcases hr with rfl | ⟨l, rfl, hl⟩
    · exact Or.inl rfl
    · exact Or.inr (congrArg some hl)

theorem readNext_near (h : s.Holds queued next)
    (hnear : s.totalAvailable < 2 ^ 32 * PagedLog.systemPage)
    {tag : TagType} (hk : queued[next]? = some tag) :
    ∃ s', s.readNext = some (some tag, s') ∧ s'.Holds queued (next + 1) := by
  obtain ⟨l, c, hpop, hc, hl⟩ := h.pop_near hnear hk
  have hcache := h.cache hc
  rw [TagOffsetStore.readNext, PositionedLog.pop, h.offset_eq, hpop]
  exact ⟨_, congrArg (fun tag ↦ some (some tag, _)) hl, { hcache with
    offset_eq := rfl
    next_le := (List.getElem?_eq_some_iff.mp hk).1 }⟩

theorem readNext (h : s.Holds queued next) {tag : TagType} (hk : queued[next]? = some tag) :
    ∃ r s', s.readNext = some (r, s') ∧ (r = none ∧ s'.Holds queued next ∨
      r = some tag ∧ s'.Holds queued (next + 1)) := by
  obtain ⟨r, c, hpop, hc, hr⟩ := h.pop hk
  have hcache := h.cache hc
  rw [TagOffsetStore.readNext, PositionedLog.pop, h.offset_eq, hpop]
  rcases hr with rfl | ⟨l, rfl, hl⟩
  · exact ⟨_, _, rfl, Or.inl ⟨rfl, { hcache with offset_eq := rfl }⟩⟩
  · exact ⟨_, _, rfl, Or.inr ⟨congrArg some hl, { hcache with
      offset_eq := rfl
      next_le := (List.getElem?_eq_some_iff.mp hk).1 }⟩⟩

end Holds

end TagOffsetStore

/-! ## The loop of `Read` -/

namespace TagStream

variable {asserts : Bool} {s : TagStream} {queued : List TagType} {next : ℕ}

/-- The descriptors that are woken for a record. -/
def wakes (s : TagStream) (t : TagType) : List ℕ :=
  if 0 < t.fd then [s.fd] else (s.tag2fd t.tagId).filter s.isStarted

/-- The loop takes records from the queue, in their order, and wakes descriptors for each. -/
theorem readLoop_holds {n : ℕ} {tag : TagType} {store store' : TagOffsetStore} {l : List Wake}
    (h : store.Holds queued next) (hloop : s.readLoop asserts n tag store = some (l, store')) :
    ∃ next', store'.Holds queued next' ∧ next ≤ next' ∧ next' ≤ next + n ∧
      l.filterMap Wake.record = (queued.drop next).take (next' - next) ∧
      ∀ w ∈ l, ∀ t, w.record = some t → w.fds = s.wakes t := by
  induction n generalizing tag store l next with
  | zero =>
    obtain ⟨rfl, rfl⟩ := Prod.ext_iff.mp (Option.some.inj hloop)
    exact ⟨next, h, Nat.le_refl _, Nat.le_add_right _ _, by simp, by simp⟩
  | succ n ih =>
    rw [readLoop] at hloop
    by_cases hempty : store.isEmpty = true
    · rw [if_pos hempty] at hloop
      obtain ⟨rfl, rfl⟩ := Prod.ext_iff.mp (Option.some.inj hloop)
      exact ⟨next, h, Nat.le_refl _, Nat.le_add_right _ _, by simp, by simp⟩
    · rw [if_neg hempty] at hloop
      have hlt : next < queued.length :=
        Nat.lt_of_le_of_ne h.next_le fun heq ↦ hempty (h.isEmpty_iff.mpr heq)
      have hget := List.getElem?_eq_getElem hlt
      obtain ⟨r, store₁, hread, hr⟩ := h.readNext hget
      rw [hread, Option.bind_some] at hloop
      simp only at hloop
      have hpassed : ¬(asserts = true ∧ r = none) := fun hfail ↦ by simp [hfail] at hloop
      rw [if_neg hpassed] at hloop
      -- a round gives a record of the list, and the rest is the loop behind it
      obtain ⟨l₁, hrest, rfl⟩ : ∃ l₁, s.readLoop asserts n (r.getD tag) store₁ = some (l₁, store') ∧
          l = ⟨r, s.wakes (r.getD tag)⟩ :: l₁ := by
        rw [wakes]
        split_ifs at hloop ⊢
        · obtain ⟨q, hq, heq⟩ := Option.map_eq_some_iff.mp hloop
          obtain ⟨rfl, rfl⟩ := Prod.ext_iff.mp heq
          exact ⟨_, hq, rfl⟩
        · obtain ⟨q, hq, heq⟩ := Option.map_eq_some_iff.mp hloop
          obtain ⟨rfl, rfl⟩ := Prod.ext_iff.mp heq
          exact ⟨_, hq, rfl⟩
      have hfds (hw : ∀ w ∈ l₁, ∀ t, w.record = some t → w.fds = s.wakes t) :
          ∀ w ∈ ⟨r, s.wakes (r.getD tag)⟩ :: l₁, ∀ t, w.record = some t → w.fds = s.wakes t := by
        intro w hmem t ht
        rcases List.mem_cons.mp hmem with rfl | hmem
        · obtain rfl : r = some t := ht
          rfl
        · exact hw w hmem t ht
      rcases hr with ⟨rfl, hstay⟩ | ⟨rfl, hnext⟩
      · obtain ⟨next', hholds, hle, hmost, hrecords, hw⟩ := ih hstay hrest
        exact ⟨next', hholds, hle, by omega, hrecords, hfds hw⟩
      · obtain ⟨next', hholds, hle, hmost, hrecords, hw⟩ := ih hnext hrest
        refine ⟨next', hholds, Nat.le_of_succ_le hle, by omega, ?_, hfds hw⟩
        have hcount : next' - next = next' - (next + 1) + 1 := by omega
        simp only [List.filterMap_cons, hrecords]
        rw [hcount, List.drop_eq_getElem_cons hlt, List.take_succ_cons]

end TagStream

end Coypu
