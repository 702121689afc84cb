import Coypu.Cache.TagDelivery
import Mathlib.Data.List.Infix

/-!
# Runs of a tag stream

What a descriptor got is tracked beside the system (`TagTrace`): the records that were queued, the
streams and the subscriptions, the record at which the descriptor was started, the records that it
passed, with whether they were for it, and the bytes that it accepted.
-/

set_option autoImplicit false

namespace Coypu

/-- A system, and what is known of a descriptor. -/
structure TagTrace where
  system : TagSystem
  queued : List TagType
  streams : List UInt64
  tags : List UInt32
  start : Option ℕ
  passed : List (TagType × Bool)
  accepted : List (UInt64 × ℕ)

namespace TagTrace

/-- A system over a file, which may have records. -/
def new (eventFd : ℕ) (file : MappedFile) : TagTrace :=
  ⟨TagSystem.new eventFd file, TagOffsetStore.records file, [], [], none, [], []⟩

variable (asserts : Bool) (fd : ℕ) (s : TagTrace)

/-- The number of the record at which the descriptor is. -/
def position (s : TagSystem) : ℕ := (s.stream.fds fd).elim 0 fun data ↦
    data.currentOffset / TagType.size

/-- A record is addressed to the descriptor or has a tag that it subscribed to, and its stream is
registered. -/
def wanted (t : TagType) : Bool :=
  (t.fd.toInt = fd || s.tags.contains t.tagId) && s.streams.contains t.streamId

/-- What a call that returned means. The queue may not take a record. -/
def observe (system : TagSystem) (a : TagAnswer) : TagStreamOp → TagTrace
  | .queue tag =>
    { s with
      system
      queued :=
        if (s.system.stream.offsetStore.append tag).1 then s.queued ++ [tag] else s.queued }
  | .registerStream streamId => { s with system, streams := streamId :: s.streams }
  | .subscribe fd' tag => { s with system, tags := if fd' = fd then tag :: s.tags else s.tags }
  | .start fd' tagOffset =>
    { s with
      system
      start :=
        if fd' = fd ∧ a.ret = 0 then some (CInt.toUnsigned 64 tagOffset / TagType.size)
        else s.start }
  | .streamWrite fd' _ =>
    if fd' = fd then
      let k := position fd s.system
      { s with
        system
        passed := s.passed ++ ((s.queued.drop k).take (position fd system - k)).map fun t ↦
          (t, s.wanted fd t)
        accepted := s.accepted ++ a.calls.flatMap StreamCall.accepted }
    else { s with system }
  | .register _ | .writeEvent | .readEvent => { s with system }

def step (op : TagStreamOp) : TagTrace × Option TagAnswer :=
  let r := s.system.step asserts op
  (r.2.elim { s with system := r.1 } fun a ↦ s.observe fd r.1 a op, r.2)

/-- The descriptor is started once, at the offset of a record, and only then written to. The
records from there on are persistent, and the callbacks take any number of bytes up to the number
asked for. -/
def Meets (s : TagTrace) : TagStreamOp → Prop
  | .start fd' tagOffset => fd' = fd → s.start = none ∧ (TagType.size : ℤ) ∣ tagOffset ∧
      ∀ t ∈ s.queued.drop (CInt.toUnsigned 64 tagOffset / TagType.size), t.isPersistent = true
  | .queue tag => s.start ≠ none → tag.isPersistent = true
  | .streamWrite fd' results => fd' = fd → s.start ≠ none ∧
      ∀ a ∈ (s.system.step asserts (.streamWrite fd' results)).2, ∀ c ∈ a.calls, c.Accepts
  | .register _ | .registerStream _ | .subscribe _ _ | .writeEvent | .readEvent => True

/-- Where a descriptor is that was started at record `k`: it accepted the ranges of the records
passed that are for it, and a first part of the range of the next one. -/
structure Exact (s : TagTrace) (k : ℕ) (data : FDData) : Prop where
  fds_eq : s.system.stream.fds fd = some data
  offset_eq : data.currentOffset = TagType.size * (k + s.passed.length)
  passed_prefix : s.passed.map Prod.fst <+: s.queued.drop k
  accepted_eq : s.accepted = delivered s.passed ++ firstPart s.queued
    (k + s.passed.length) data.written
  current : data.written ≠ 0 → ∃ t, s.queued[k + s.passed.length]? = some t ∧ data.currentTag = t ∧
    s.wanted fd t = true ∧ data.written < t.len.toNat

/-- The descriptor gets each record that is for it once, and no others. `StreamWrite` says that
nothing is left if all records are passed, and that there is more if it passed as many as it may, a
callback did not take all, or the descriptor is started behind the end of the queue. -/
def Delivers (s : TagTrace) (op : TagStreamOp) : Prop :=
  let s' := (s.step asserts fd op).1
  (∀ k, s'.start = some k → ∃ data, s'.Exact fd k data) ∧
    ∀ results a k, op = .streamWrite fd results → (s.step asserts fd op).2 = some a →
      s.start = some k → (∀ c ∈ a.calls, ∃ t ∈ s.queued.drop k, s.wanted fd t = true ∧ c.IsFor t) ∧
      (a.ret = 0 → s'.passed.map Prod.fst = s'.queued.drop k) ∧
      (a.ret = 1 → s.passed.length + TagStream.maxFDCount ≤ s'.passed.length ∨
        (∃ c ∈ a.calls, c.result < c.len) ∨ s'.queued.length < k + s'.passed.length)

/-- What holds between the calls. -/
structure Inv (s : TagTrace) : Prop where
  holds : ∃ next, s.system.stream.offsetStore.Holds s.queued next
  streams_iff : ∀ id, s.system.stream.streams id = true ↔ id ∈ s.streams
  tags_iff : ∀ data, s.system.stream.fds fd = some data → ∀ t, data.subs.isSet t = true ↔ t ∈ s.tags
  tags_nil : s.system.stream.fds fd = none → s.tags = []
  fresh : s.start = none → s.passed = [] ∧ s.accepted = [] ∧
    ∀ data, s.system.stream.fds fd = some data → data.written = 0
  exact : ∀ k, s.start = some k → (∃ data, s.Exact fd k data) ∧ ∀ t ∈ s.queued.drop k,
    t.isPersistent = true

variable {asserts fd s} {k : ℕ} {data : FDData} {t : TagType} {system : TagSystem}

/-! ## Frames -/

theorem getElem?_of_isPrefix {l l' : List TagType} (h : l <+: l') {i : ℕ} (hi : l[i]? = some t) :
    l'[i]? = some t := by
  obtain ⟨hlt, rfl⟩ := List.getElem?_eq_some_iff.mp hi
  exact List.prefix_iff_getElem?.mp h i hlt

theorem wants_eq (h : s.Inv fd) (hdata : s.system.stream.fds fd = some data) (t : TagType) :
    s.system.stream.wants fd data t = s.wanted fd t := by
  rw [Bool.eq_iff_iff]
  simp [TagStream.wants, wanted, h.tags_iff data hdata, h.streams_iff]

theorem Exact.grow {s' : TagTrace} (h : s.Exact fd k data) {data' : FDData}
    (hfds : s'.system.stream.fds fd = some data')
    (hoffset : data'.currentOffset = data.currentOffset)
    (hwritten : data'.written = data.written) (htag : data'.currentTag = data.currentTag)
    (hqueued : s.queued <+: s'.queued) (hpassed : s'.passed = s.passed)
    (haccepted : s'.accepted = s.accepted)
    (hwanted : ∀ t, s.wanted fd t = true → s'.wanted fd t = true) : s'.Exact fd k data' := by
  refine ⟨hfds, ?_, ?_, ?_, ?_⟩
  · rw [hpassed, hoffset]
    exact h.offset_eq
  · rw [hpassed]
    exact h.passed_prefix.trans (hqueued.drop k)
  · rw [haccepted, hpassed, hwritten, h.accepted_eq]
    by_cases hzero : data.written = 0
    · rw [hzero, firstPart, firstPart, List.take_zero, List.take_zero]
    · obtain ⟨t, ht, -⟩ := h.current hzero
      rw [firstPart_eq ht, firstPart_eq (getElem?_of_isPrefix hqueued ht)]
  · rw [hpassed, hwritten, htag]
    intro hzero
    obtain ⟨t, ht, heq, hwants, hlt⟩ := h.current hzero
    exact ⟨t, getElem?_of_isPrefix hqueued ht, heq, hwanted t hwants, hlt⟩

theorem Inv.frame (h : s.Inv fd) (hholds : ∃ next, system.stream.offsetStore.Holds s.queued next)
    (hstreams : system.stream.streams = s.system.stream.streams)
    (hfds : system.stream.fds fd = s.system.stream.fds fd) : Inv fd { s with system } := by
  refine ⟨hholds, ?_, ?_, ?_, ?_, fun k hk ↦ ?_⟩
  · simp only [hstreams]
    exact h.streams_iff
  · simp only [hfds]
    exact h.tags_iff
  · simp only [hfds]
    exact h.tags_nil
  · simp only [hfds]
    exact h.fresh
  · obtain ⟨⟨data, hexact⟩, hpersistent⟩ := h.exact k hk
    exact ⟨⟨data, hexact.grow (hfds.trans hexact.fds_eq) rfl rfl rfl (List.prefix_refl _) rfl rfl
      fun _ ↦ id⟩, hpersistent⟩

/-! ## Steps -/

theorem inv_new (fd eventFd : ℕ) {file : MappedFile} (hfile : PagedLog.systemPage ∣ file.size)
    (hsize : file.size < 2 ^ 63) : (new eventFd file).Inv fd where
  holds := ⟨_, TagOffsetStore.holds_new hfile hsize⟩
  streams_iff _ := by simp [new, TagSystem.new, TagStream.new]
  tags_iff _ hdata := absurd hdata (by simp [new, TagSystem.new, TagStream.new])
  tags_nil _ := rfl
  fresh _ := ⟨rfl, rfl, fun _ hdata ↦ absurd hdata (by simp [new, TagSystem.new, TagStream.new])⟩
  exact _ hk := absurd hk (by simp [new])

theorem Inv.register (h : s.Inv fd) (fd' : ℕ) : (s.step asserts fd (.register fd')).1.Inv fd := by
  simp only [step, TagSystem.step, TagSystem.ret, Option.elim_some, observe, TagStream.register]
  cases hdata : s.system.stream.fds fd' with
  | some data => exact h.frame h.holds rfl rfl
  | none =>
    by_cases hfd : fd' = fd
    · subst hfd
      have htags := h.tags_nil hdata
      refine ⟨h.holds, h.streams_iff, fun data hnew t ↦ ?_, fun _ ↦ htags, fun hstart ↦ ?_,
        fun k hk ↦ ?_⟩
      · simp only [TagStream.setData_fds, Option.some.injEq] at hnew
        simp [← hnew, htags, TagSub.new, TagSub.isSet]
      · obtain ⟨hpassed, haccepted, -⟩ := h.fresh hstart
        refine ⟨hpassed, haccepted, fun data hnew ↦ ?_⟩
        simp only [TagStream.setData_fds, Option.some.injEq] at hnew
        rw [← hnew]
      · obtain ⟨⟨data, hexact⟩, -⟩ := h.exact k hk
        exact absurd (hdata.symm.trans hexact.fds_eq) (by simp)
    · exact h.frame h.holds rfl (s.system.stream.setData_fds_of_ne hfd _)

theorem Inv.registerStream (h : s.Inv fd) (streamId : UInt64) :
    (s.step asserts fd (.registerStream streamId)).1.Inv fd := by
  -- a system with the stream, and everything else as it is
  have hnew (stream : TagStream) (hstore : stream.offsetStore = s.system.stream.offsetStore)
      (hfds : stream.fds fd = s.system.stream.fds fd)
      (hiff : ∀ id, stream.streams id = true ↔ id ∈ streamId :: s.streams) :
      Inv fd { s with system := { s.system with stream }, streams := streamId :: s.streams } := by
    refine ⟨?_, hiff, ?_, ?_, ?_, fun k hk ↦ ?_⟩
    · simp only [hstore]
      exact h.holds
    · simp only [hfds]
      exact h.tags_iff
    · simp only [hfds]
      exact h.tags_nil
    · simp only [hfds]
      exact h.fresh
    · obtain ⟨⟨data, hexact⟩, hpersistent⟩ := h.exact k hk
      refine ⟨⟨data, hexact.grow (hfds.trans hexact.fds_eq) rfl rfl rfl (List.prefix_refl _) rfl rfl
        fun t ht ↦ ?_⟩, hpersistent⟩
      simp only [wanted, Bool.and_eq_true, List.contains_cons, Bool.or_eq_true] at ht ⊢
      exact ⟨ht.1, Or.inr ht.2⟩
  simp only [step, TagSystem.step, TagStream.registerStream]
  by_cases hmax : streamId.toNat + 1 = 2 ^ 64
  · rw [if_pos hmax]
    exact h
  rw [if_neg hmax]
  cases hset : s.system.stream.streams streamId with
  | true =>
    refine hnew _ rfl rfl fun id ↦ ?_
    rw [List.mem_cons, ← h.streams_iff id]
    exact ⟨Or.inr, fun hid ↦ hid.elim (fun heq ↦ heq ▸ hset) fun hset ↦ hset⟩
  | false =>
    refine hnew _ rfl rfl fun id ↦ ?_
    rw [List.mem_cons, ← h.streams_iff id]
    simp only [Function.update_apply]
    split_ifs with hid <;> simp [hid]

theorem Inv.subscribe (h : s.Inv fd) (fd' : ℕ) (tag : UInt32) :
    (s.step asserts fd (.subscribe fd' tag)).1.Inv fd := by
  simp only [step, TagSystem.step]
  cases hcall : s.system.stream.subscribe fd' tag with
  | none => exact h
  | some stream =>
    obtain ⟨data, subs, hdata, hset, -, rfl⟩ := TagStream.subscribe_some hcall
    simp only [TagSystem.ret, Option.elim_some, observe]
    by_cases hfd : fd' = fd
    · subst hfd
      rw [if_pos rfl]
      refine ⟨h.holds, h.streams_iff, fun data' hnew t ↦ ?_, fun hnone ↦ ?_, fun hstart ↦ ?_,
        fun k hk ↦ ?_⟩
      · simp only [TagStream.setData_fds, Option.some.injEq] at hnew
        rw [← hnew, TagSub.isSet_set hset, h.tags_iff data hdata, List.mem_cons]
      · exact absurd hnone (by simp)
      · obtain ⟨hpassed, haccepted, hwritten⟩ := h.fresh hstart
        refine ⟨hpassed, haccepted, fun data' hnew ↦ ?_⟩
        simp only [TagStream.setData_fds, Option.some.injEq] at hnew
        rw [← hnew]
        exact hwritten data hdata
      · obtain ⟨⟨data', hexact⟩, hpersistent⟩ := h.exact k hk
        obtain rfl : data = data' := Option.some.inj (hdata.symm.trans hexact.fds_eq)
        refine ⟨⟨_, hexact.grow (s.system.stream.setData_fds fd' _) rfl rfl rfl
          (List.prefix_refl _) rfl rfl
          fun t ht ↦ ?_⟩, hpersistent⟩
        simp only [wanted, Bool.and_eq_true, List.contains_cons, Bool.or_eq_true] at ht ⊢
        exact ⟨ht.1.imp_right Or.inr, ht.2⟩
    · rw [if_neg hfd]
      exact h.frame h.holds rfl (s.system.stream.setData_fds_of_ne hfd _)

theorem Inv.start (h : s.Inv fd) {fd' : ℕ} {tagOffset : ℤ}
    (hok : s.Meets asserts fd (.start fd' tagOffset)) :
    (s.step asserts fd (.start fd' tagOffset)).1.Inv fd := by
  cases hdata : s.system.stream.fds fd' with
  | none =>
    have hcall : s.system.stream.start fd' tagOffset = (-1, s.system.stream) := by
      rw [TagStream.start, hdata]
    simp only [step, TagSystem.step, TagSystem.ret, Option.elim_some, observe, hcall, Int.reduceNeg,
      Int.reduceEq, and_false, if_false]
    exact h.frame h.holds rfl rfl
  | some data =>
    have hcall : s.system.stream.start fd' tagOffset = (0, s.system.stream.setData fd'
        { data with registered := true, currentOffset := CInt.toUnsigned 64 tagOffset }) := by
      rw [TagStream.start, hdata]
    simp only [step, TagSystem.step, TagSystem.ret, Option.elim_some, observe, hcall, and_true,
      if_true]
    by_cases hfd : fd' = fd
    · subst hfd
      obtain ⟨hstart, hdvd, hpersistent⟩ := hok rfl
      obtain ⟨hpassed, haccepted, hwritten⟩ := h.fresh hstart
      rw [if_pos rfl]
      refine ⟨h.holds, h.streams_iff, fun data' hnew t ↦ ?_, fun hnone ↦ ?_,
        fun hnone ↦ absurd hnone (by simp), fun k hk ↦ ?_⟩
      · simp only [TagSystem.setWrite_stream, TagStream.setData_fds, Option.some.injEq] at hnew
        rw [← hnew]
        exact h.tags_iff data hdata t
      · exact absurd hnone (by simp)
      · obtain rfl := Option.some.inj hk
        have hoffset : TagType.size ∣ CInt.toUnsigned 64 tagOffset := by
          rw [TagType.size] at hdvd ⊢
          rw [CInt.toUnsigned]
          omega
        refine ⟨⟨_, s.system.stream.setData_fds fd' _, ?_, ?_, ?_, fun hzero ↦ ?_⟩, hpersistent⟩
        · simp only [hpassed, List.length_nil, Nat.add_zero, Nat.mul_div_cancel' hoffset]
        · simp only [hpassed]
          exact List.nil_prefix
        · simp only [hpassed, haccepted, hwritten data hdata]
          rfl
        · exact absurd (hwritten data hdata) hzero
    · rw [if_neg hfd]
      exact h.frame h.holds rfl (s.system.stream.setData_fds_of_ne hfd _)

theorem Inv.queue (h : s.Inv fd) {tag : TagType} (hok : s.Meets asserts fd (.queue tag)) :
    (s.step asserts fd (.queue tag)).1.Inv fd := by
  simp only [step, TagSystem.step, TagSystem.ret, Option.elim_some, observe, TagStream.queue]
  obtain ⟨next, hholds⟩ := h.holds
  have happend := hholds.append tag
  generalize s.system.stream.offsetStore.append tag = r at happend ⊢
  rcases happend with ⟨hret, hholds'⟩ | ⟨hret, hstore⟩
  · rw [hret, if_pos rfl]
    refine ⟨⟨next, hholds'⟩, h.streams_iff, h.tags_iff, h.tags_nil, h.fresh, fun k hk ↦ ?_⟩
    obtain ⟨⟨data, hexact⟩, hpersistent⟩ := h.exact k hk
    refine ⟨⟨data, hexact.grow hexact.fds_eq rfl rfl rfl (List.prefix_append _ _) rfl rfl
      fun _ ↦ id⟩,
      fun t ht ↦ ?_⟩
    simp only [List.drop_append, List.mem_append] at ht
    rcases ht with ht | ht
    · exact hpersistent t ht
    · rw [List.mem_singleton.mp (List.mem_of_mem_drop ht)]
      have hstarted : s.start ≠ none := fun hnone ↦ absurd (hnone.symm.trans hk) (by simp)
      exact hok hstarted
  · rw [hret, hstore, if_neg (by simp)]
    exact h.frame h.holds rfl rfl

theorem Inv.writeEvent (h : s.Inv fd) : (s.step asserts fd .writeEvent).1.Inv fd := by
  have hstream : (s.system.writeEvent asserts).1.stream = s.system.stream := by
    rw [TagSystem.writeEvent]
    split_ifs <;> rfl
  have hinv : Inv fd { s with system := (s.system.writeEvent asserts).1 } := by
    refine h.frame ?_ ?_ ?_
    · rw [hstream]
      exact h.holds
    · rw [hstream]
    · rw [hstream]
  simp only [step, TagSystem.step]
  cases (s.system.writeEvent asserts).2 with
  | none => exact hinv
  | some a => exact hinv

theorem Inv.readEvent (h : s.Inv fd) : (s.step asserts fd .readEvent).1.Inv fd := by
  obtain ⟨next, hholds⟩ := h.holds
  have hinv : Inv fd { s with system := (s.system.readEvent asserts).1 } := by
    rw [TagSystem.readEvent]
    split_ifs
    · exact h
    · cases hread : s.system.stream.read asserts with
      | none => exact h
      | some r =>
        obtain ⟨q, hloop, rfl⟩ := Option.map_eq_some_iff.mp hread
        obtain ⟨next', hholds', -⟩ := TagStream.readLoop_holds hholds hloop
        exact h.frame ⟨next', hholds'⟩ rfl rfl
  simp only [step, TagSystem.step]
  cases (s.system.readEvent asserts).2 with
  | none => exact hinv
  | some a => exact hinv

theorem Inv.streamWrite_of_ne (h : s.Inv fd) {fd' : ℕ} (hfd : fd' ≠ fd) (results : ℕ → ℤ) :
    (s.step asserts fd (.streamWrite fd' results)).1.Inv fd := by
  simp only [step, TagSystem.step]
  cases hcall : s.system.stream.streamWrite asserts fd' results (TagStream.maxFDCount + 1) with
  | none => exact h
  | some r =>
    obtain ⟨data, hdata, hloop⟩ := Option.bind_eq_some_iff.mp hcall
    obtain ⟨next, hholds⟩ := h.holds
    have hext := TagStream.extends_streamWriteLoop hloop
    simp only [Option.elim_some, observe, if_neg hfd]
    exact h.frame ⟨next, hext.holds hholds⟩ rfl (s.system.stream.setData_fds_of_ne hfd _)

theorem Exact.reached (h : s.Inv fd) (hexact : s.Exact fd k data) :
    s.system.stream.Reached fd s.queued data (k + s.passed.length)
      ⟨data, s.system.stream.offsetStore, 0, []⟩ 0 where
  holds := h.holds
  subs_eq := rfl
  offset_eq := hexact.offset_eq
  count_eq := rfl
  le := Nat.zero_le _
  current hzero := by
    obtain ⟨t, ht, htag, hwants, hlt⟩ := hexact.current hzero
    exact ⟨t, ht, htag, (wants_eq h hexact.fds_eq t).trans hwants, hlt⟩
  bytes_eq := List.append_nil _
  isFor _ hc := absurd hc List.not_mem_nil

theorem Exact.passed_append (hexact : s.Exact fd k data) (n : ℕ) :
    s.passed.map Prod.fst ++ (s.queued.drop (k + s.passed.length)).take n <+: s.queued.drop k := by
  have hsplit := List.prefix_append_drop hexact.passed_prefix
  have hmore := (List.prefix_append_right_inj (s.passed.map Prod.fst)).mpr
    (List.take_prefix n (s.queued.drop (k + s.passed.length)))
  rw [List.length_map, List.drop_drop] at hsplit
  rwa [← hsplit] at hmore

theorem Exact.streamWrite (h : s.Inv fd) (system : TagSystem) (hexact : s.Exact fd k data)
    {w : TagWrite} {n : ℕ}
    (hreached : s.system.stream.Reached fd s.queued data (k + s.passed.length) w n)
    (hfds : system.stream.fds fd = some w.data) {l : List (TagType × Bool)}
    (hl : l = ((s.queued.drop (k + s.passed.length)).take n).map fun t ↦ (t, s.wanted fd t)) :
    Exact fd { s with
      system
      passed := s.passed ++ l
      accepted := s.accepted ++ w.calls.flatMap StreamCall.accepted } k w.data := by
  have hlen : l.length = n := by
    rw [hl, List.length_map, List.length_take, Nat.min_eq_left hreached.le]
  have hpassed : k + (s.passed ++ l).length = k + s.passed.length + n := by
    rw [List.length_append, hlen, Nat.add_assoc]
  have hseen : s.system.stream.seen fd data s.queued (k + s.passed.length) n = l := by
    rw [hl, TagStream.seen]
    exact List.map_congr_left fun t _ ↦ congrArg (Prod.mk t) (wants_eq h hexact.fds_eq t)
  refine ⟨hfds, ?_, ?_, ?_, fun hzero ↦ ?_⟩
  · simp only [hpassed]
    exact hreached.offset_eq
  · have hpre := hexact.passed_append n
    simp only [List.map_append, hl, List.map_map]
    convert hpre using 2
    exact List.map_id' _
  · have hbytes := hreached.bytes_eq
    rw [hseen] at hbytes
    simp only [hpassed]
    rw [hexact.accepted_eq, List.append_assoc, hbytes, delivered_append, List.append_assoc]
  · obtain ⟨t, ht, htag, hwants, hlt⟩ := hreached.current hzero
    simp only [hpassed]
    exact ⟨t, ht, htag, (wants_eq h hexact.fds_eq t).symm.trans hwants, hlt⟩

/-- **A call of `StreamWrite`** for the descriptor. -/
theorem Inv.streamWrite (h : s.Inv fd) (hk : s.start = some k) {results : ℕ → ℤ}
    (hok : s.Meets asserts fd (.streamWrite fd results)) :
    (s.step asserts fd (.streamWrite fd results)).1.Inv fd ∧ s.Delivers asserts fd
    (.streamWrite fd results) := by
  obtain ⟨⟨data, hexact⟩, hpersistent⟩ := h.exact k hk
  have haccepts := (hok rfl).2
  cases hcall : s.system.stream.streamWrite asserts fd results (TagStream.maxFDCount + 1) with
  | none =>
    have hstep : s.step asserts fd (.streamWrite fd results) = (s, none) := by
      simp only [step, TagSystem.step, hcall]
      rfl
    rw [Delivers, hstep]
    exact ⟨h, fun k' hk' ↦ (h.exact k' hk').1, fun _ _ _ _ hnone ↦ absurd hnone (by simp)⟩
  | some r =>
    obtain ⟨x, w⟩ := r
    have hloop := hcall
    obtain ⟨next, hholds⟩ := h.holds
    rw [TagStream.streamWrite, hexact.fds_eq, Option.bind_some, hholds.total_eq] at hloop
    simp only [TagSystem.step, hcall, Option.mem_def, Option.some.injEq, forall_eq'] at haccepts
    obtain ⟨n, hreached, hzero, hone⟩ := (hexact.reached h).streamWriteLoop
      (fun t ht ↦ hpersistent t (List.mem_of_mem_drop (by rwa [List.drop_drop]))) hloop haccepts
    have hfds : (s.system.stream.written fd w).fds fd = some w.data :=
      s.system.stream.setData_fds fd w.data
    -- the records passed are those between the two positions
    have hfirst : position fd s.system = k + s.passed.length := by
      rw [position, hexact.fds_eq, Option.elim_some, hexact.offset_eq,
        Nat.mul_div_cancel_left _ (by decide)]
    have hlast : position fd { s.system with stream := s.system.stream.written fd w }
        = k + s.passed.length + n := by
      rw [position, hfds, Option.elim_some, hreached.offset_eq,
        Nat.mul_div_cancel_left _ (by decide)]
    obtain ⟨l, hl⟩ : ∃ l, l = ((s.queued.drop (k + s.passed.length)).take n).map
        fun t ↦ (t, s.wanted fd t) := ⟨_, rfl⟩
    have hlen : l.length = n := by
      rw [hl, List.length_map, List.length_take, Nat.min_eq_left hreached.le]
    have hstep : s.step asserts fd (.streamWrite fd results) = (
        { s with
          system := { s.system with stream := s.system.stream.written fd w }
          passed := s.passed ++ l
          accepted := s.accepted ++ w.calls.flatMap StreamCall.accepted },
            some ⟨x, w.calls, []⟩) := by
      simp only [step, TagSystem.step, hcall, Option.elim_some, observe, if_true, hfirst, hlast, hl,
        Nat.add_sub_cancel_left]
    have hexact' :=
      hexact.streamWrite h { s.system with stream := s.system.stream.written fd w } hreached hfds hl
    rw [Delivers, hstep]
    refine ⟨⟨hreached.holds, h.streams_iff, fun data' hdata' t ↦ ?_, fun hnone ↦ ?_, fun hnone ↦ ?_,
      fun k' hk' ↦ ?_⟩, fun k' hk' ↦ ?_, fun results' a k' hop ha hk' ↦ ?_⟩
    · obtain rfl := Option.some.inj (hfds.symm.trans hdata')
      rw [hreached.subs_eq]
      exact h.tags_iff data hexact.fds_eq t
    · exact absurd (hfds.symm.trans hnone) (by simp)
    · exact absurd (hk.symm.trans hnone) (by simp)
    · obtain rfl := Option.some.inj (hk.symm.trans hk')
      exact ⟨⟨_, hexact'⟩, hpersistent⟩
    · obtain rfl := Option.some.inj (hk.symm.trans hk')
      exact ⟨_, hexact'⟩
    · obtain rfl := Option.some.inj (hk.symm.trans hk')
      obtain rfl := Option.some.inj ha
      refine ⟨fun c hc ↦ ?_, fun h0 ↦ ?_, fun h1 ↦ ?_⟩
      · obtain ⟨i, t, hi, ht, hwants, hfor⟩ := hreached.isFor c hc
        refine ⟨t, List.mem_of_getElem? (i := i - k) ?_,
          (wants_eq h hexact.fds_eq t).symm.trans hwants, hfor⟩
        rw [List.getElem?_drop, Nat.add_sub_cancel' (by omega), ht]
      · have hend := hzero h0
        refine hexact'.passed_prefix.eq_of_length ?_
        simp only [List.length_map, List.length_append, hlen, List.length_drop]
        omega
      · simp only [List.length_append, hlen]
        exact (hone h1).imp (by omega) (Or.imp_right (by omega))

theorem Inv.step (h : s.Inv fd) {op : TagStreamOp} (hok : s.Meets asserts fd op) :
    (s.step asserts fd op).1.Inv fd ∧ s.Delivers asserts fd op := by
  -- where the call is not one of `StreamWrite` for the descriptor, the invariant says all
  have hother (hinv : (s.step asserts fd op).1.Inv fd)
      (hop : ∀ results, op ≠ .streamWrite fd results) :
      (s.step asserts fd op).1.Inv fd ∧ s.Delivers asserts fd op :=
    ⟨hinv, fun k hk ↦ (hinv.exact k hk).1, fun results _ _ heq ↦ absurd heq (hop results)⟩
  cases op with
  | register fd' => exact hother (h.register fd') (by simp)
  | registerStream streamId => exact hother (h.registerStream streamId) (by simp)
  | start fd' tagOffset => exact hother (h.start hok) (by simp)
  | subscribe fd' tag => exact hother (h.subscribe fd' tag) (by simp)
  | queue tag => exact hother (h.queue hok) (by simp)
  | streamWrite fd' results =>
    by_cases hfd : fd' = fd
    · subst hfd
      obtain ⟨k, hk⟩ := Option.ne_none_iff_exists'.mp (hok rfl).1
      exact h.streamWrite hk hok
    · exact hother (h.streamWrite_of_ne hfd results) (by simp [hfd])
  | writeEvent => exact hother h.writeEvent (by simp)
  | readEvent => exact hother h.readEvent (by simp)

/-- **A descriptor gets each record that is for it exactly once**, in a run in which it is started
once at a record and the callbacks take any part of what they are asked for. -/
theorem run_deliversOnce (asserts : Bool) (fd eventFd : ℕ) {file : MappedFile}
    (hfile : PagedLog.systemPage ∣ file.size) (hsize : file.size < 2 ^ 63) (ops : List TagStreamOp)
    (hok : Run.Steps (step asserts fd) (Meets asserts fd) (new eventFd file) ops) :
    Run.Steps (step asserts fd) (Delivers asserts fd) (new eventFd file) ops :=
  Run.Steps.of_invariant (P := Inv fd) (fun _ _ hs hop ↦ (hs.step hop).1)
    (fun _ _ hs hop ↦ (hs.step hop).2)
    (inv_new fd eventFd hfile hsize) hok

/-- A record of a tag that is subscribed to, in two parts, and one that is skipped. -/
theorem run_deliversOnce_twoParts :
    Run.Steps (step true 5) (Delivers true 5) (new 3 MappedFile.empty)
      [.register 5, .registerStream 1, .subscribe 5 7, .start 5 0, .queue ⟨100, 10, 1, 7, -1, 1⟩,
        .queue ⟨110, 20, 1, 8, -1, 1⟩, .streamWrite 5 fun _ ↦ 4, .streamWrite 5 fun _ ↦ 6] := by
  refine run_deliversOnce true 5 3 (by decide) (by decide) _ ⟨trivial, trivial, trivial, fun _ ↦ ?_,
    fun _ ↦ rfl, fun _ ↦ rfl, fun _ ↦ ?_, fun _ ↦ ?_, trivial⟩
  · exact ⟨by decide +kernel, by decide, by decide +kernel⟩
  · exact ⟨by decide +kernel, by simp only [StreamCall.Accepts]; decide +kernel⟩
  · exact ⟨by decide +kernel, by simp only [StreamCall.Accepts]; decide +kernel⟩

end TagTrace

end Coypu
