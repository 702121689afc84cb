import Coypu.Cache.TagDelivery
import Coypu.Library.Run

/-!
# Waking the descriptors

The event descriptor of a `TagStream` hands records from `Queue` to `Read`: `Queue` asks for write
interest, `Write` turns it into a count, and `Read` takes the count back, goes through a batch of
records and asks for write interest again if there are more. So no record is forgotten
(`Inv.pending`).

For a record that names a descriptor `Read` wakes the event descriptor in its place; for the others
it wakes those that subscribed and are started. What was queued and consumed, the descriptors that
were started and the subscriptions are tracked beside the system (`TagWatch`).
-/

set_option autoImplicit false

namespace Coypu

/-! ## A batch -/

namespace TagStream

variable {asserts : Bool} {s : TagStream} {queued : List TagType} {next : ℕ}

variable (asserts s) in
theorem readLoop_isSome (n : ℕ) (tag : TagType) {store : TagOffsetStore}
    (h : store.Holds queued next) (hnear : store.totalAvailable < 2 ^ 32 * PagedLog.systemPage)
    (hbatch : ∀ t ∈ (queued.drop next).take n, 0 < t.fd ∨ t.tagId.toNat < s.tag2fdSize) :
    (s.readLoop asserts n tag store).isSome = true := by
  induction n generalizing tag store next with
  | zero => rfl
  | succ n ih =>
    rw [readLoop]
    by_cases hempty : store.isEmpty = true
    · rw [if_pos hempty]
      rfl
    · have hlt : next < queued.length :=
        Nat.lt_of_le_of_ne h.next_le fun heq ↦ hempty (h.isEmpty_iff.mpr heq)
      obtain ⟨store', hread, hnext⟩ := h.readNext_near hnear (List.getElem?_eq_getElem hlt)
      rw [List.drop_eq_getElem_cons hlt, List.take_succ_cons] at hbatch
      have hrest := ih queued[next] hnext (by rw [hnext.total_eq, ← h.total_eq]; exact hnear)
        fun t ht ↦ hbatch t (List.mem_cons_of_mem _ ht)
      have hfirst := hbatch queued[next] List.mem_cons_self
      rw [if_neg hempty, hread, Option.bind_some]
      simp only [reduceCtorEq, and_false, if_false, Option.getD_some]
      split_ifs with hfd hsize
      · rw [Option.isSome_map]
        exact hrest
      · exact absurd (hfirst.resolve_left hfd) (Nat.not_lt_of_le hsize)
      · rw [Option.isSome_map]
        exact hrest

theorem le_grown (size n : ℕ) : size ≤ grown size n := Nat.le_add_right _ _

theorem le_grown_right (size n : ℕ) : n ≤ grown size n := by
  rw [grown]
  omega

end TagStream

/-! ## Runs -/

/-- A system, and what is known of it from outside. -/
structure TagWatch where
  system : TagSystem
  queued : List TagType
  next : ℕ
  started : List ℕ
  subscribed : List (ℕ × UInt32)

namespace TagWatch

/-- A system over a file, whose records are not read again. -/
def new (eventFd : ℕ) (file : MappedFile) : TagWatch :=
  ⟨TagSystem.new eventFd file, TagOffsetStore.records file, (TagOffsetStore.records file).length,
    [], []⟩

variable (asserts : Bool) (s : TagWatch)

/-- The descriptors that a record is meant for: the one that it names, or those that are started and
subscribed to its tag. -/
def targets (t : TagType) : List ℕ :=
  if 0 < t.fd then [t.fd.toInt.toNat] else s.started.filter fun fd ↦ (fd, t.tagId) ∈ s.subscribed

/-- What a call that returned means. -/
def observe (system : TagSystem) (a : TagAnswer) : TagStreamOp → TagWatch
  | .queue tag =>
    { s with system, queued := if (s.system.stream.offsetStore.append tag).1 then s.queued ++
      [tag] else s.queued }
  | .start fd _ => { s with system, started := if a.ret = 0 then fd :: s.started else s.started }
  | .subscribe fd tag => { s with system, subscribed := (fd, tag) :: s.subscribed }
  | .readEvent => { s with system, next := s.next + (a.wakes.filterMap Wake.record).length }
  | .register _ | .registerStream _ | .streamWrite _ _ | .writeEvent => { s with system }

def step (op : TagStreamOp) : TagWatch × Option TagAnswer :=
  let r := s.system.step asserts op
  (r.2.elim { s with system := r.1 } fun a ↦ s.observe r.1 a op, r.2)

/-- The records that `Read` goes through name no descriptor but the event descriptor, and their tags
are not the largest number; and the queue is not so long that its pages have larger numbers than 32
bits hold. -/
def Meets (s : TagWatch) : TagStreamOp → Prop
  | .readEvent => s.system.stream.offsetStore.totalAvailable < 2 ^ 32 * PagedLog.systemPage ∧
      ∀ t ∈ (s.queued.drop s.next).take TagStream.maxRecordCount,
        (0 < t.fd → t.fd.toInt = s.system.stream.fd) ∧ (t.fd ≤ 0 → t.tagId.toNat + 1 < 2 ^ 32)
  | _ => True

/-- `Read` consumes records in their order, and wakes the targets of each. Where records are left
there is write interest, or the counter is up. -/
def Wakes (s : TagWatch) (op : TagStreamOp) : Prop :=
  let s' := (s.step asserts op).1
  (op = .readEvent → ∃ a, (s.step asserts op).2 = some a ∧
      a.wakes.filterMap Wake.record = (s.queued.drop s.next).take (s'.next - s.next) ∧
      ∀ w ∈ a.wakes, ∀ t, w.record = some t → ∀ fd ∈ s.targets t, fd ∈ w.fds) ∧
    (s'.next < s'.queued.length → s'.system.interest = true ∨ s'.system.counter ≠ 0)

/-- What holds between the calls. -/
structure Inv (s : TagWatch) : Prop where
  holds : s.system.stream.offsetStore.Holds s.queued s.next
  started_iff : ∀ fd, s.system.stream.isStarted fd = true ↔ fd ∈ s.started
  subscribed_iff : ∀ fd tag, fd ∈ s.system.stream.tag2fd tag ↔ (fd, tag) ∈ s.subscribed
  size_lt : ∀ t ∈ s.queued.drop s.next, t.tagId.toNat + 1 < 2 ^ 32 →
    t.tagId.toNat < s.system.stream.tag2fdSize
  pending : s.next < s.queued.length → s.system.interest = true ∨ s.system.counter ≠ 0
  closed : s.system.isOpen = false → s.system.counter ≠ 0

variable {asserts s} {fd : ℕ} {t : TagType} {system : TagSystem}

theorem inv_new (eventFd : ℕ) {file : MappedFile} (hfile : PagedLog.systemPage ∣ file.size)
    (hsize : file.size < 2 ^ 63) : (new eventFd file).Inv where
  holds := TagOffsetStore.holds_new hfile hsize
  started_iff _ := by simp [new, TagSystem.new, TagStream.new, TagStream.isStarted]
  subscribed_iff _ _ := by simp [new, TagSystem.new, TagStream.new]
  size_lt t ht := absurd ht (by simp [new])
  pending hlt := absurd hlt (Nat.lt_irrefl _)
  closed hclosed := absurd hclosed (by simp [new, TagSystem.new])

/-- What does not touch the queue, the subscriptions and the event descriptor. -/
theorem Inv.frame (h : s.Inv) {stream : TagStream}
    (hholds : stream.offsetStore.Holds s.queued s.next)
    (hstarted : ∀ fd, stream.isStarted fd = s.system.stream.isStarted fd)
    (htags : stream.tag2fd = s.system.stream.tag2fd)
    (hsize : stream.tag2fdSize = s.system.stream.tag2fdSize) :
    Inv { s with system := { s.system with stream } } where
  holds := hholds
  started_iff fd := by simp only [hstarted, h.started_iff]
  subscribed_iff fd tag := by simp only [htags, h.subscribed_iff]
  size_lt t ht hlt := by simpa only [hsize] using h.size_lt t ht hlt
  pending := h.pending
  closed := h.closed

theorem Inv.setWrite (h : s.Inv) (fds : List ℕ) :
    Inv { s with system := s.system.setWrite fds } where
  holds := h.holds
  started_iff := h.started_iff
  subscribed_iff := h.subscribed_iff
  size_lt := h.size_lt
  pending hlt := (h.pending hlt).imp_left fun hinterest ↦ by rw [TagSystem.setWrite, hinterest]; rfl
  closed := h.closed

/-! ## Steps -/

theorem isStarted_setData {s : TagStream} {data : FDData}
    (hregistered : data.registered = s.isStarted fd) (fd' : ℕ) :
    (s.setData fd data).isStarted fd' = s.isStarted fd' := by
  by_cases hfd : fd' = fd
  · subst hfd
    rw [TagStream.isStarted, TagStream.setData_fds, Option.any_some, hregistered]
  · rw [TagStream.isStarted, TagStream.setData_fds_of_ne _ (Ne.symm hfd), TagStream.isStarted]

theorem Inv.register (h : s.Inv) (fd : ℕ) : (s.step asserts (.register fd)).1.Inv := by
  simp only [step, TagSystem.step, TagSystem.ret, Option.elim_some, observe, TagStream.register]
  cases hdata : s.system.stream.fds fd with
  | some data => exact h.frame h.holds (fun _ ↦ rfl) rfl rfl
  | none =>
    refine h.frame h.holds (isStarted_setData ?_) rfl rfl
    rw [TagStream.isStarted, hdata, Option.any_none]

theorem Inv.registerStream (h : s.Inv) (streamId : UInt64) :
    (s.step asserts (.registerStream streamId)).1.Inv := by
  simp only [step, TagSystem.step, TagStream.registerStream]
  by_cases hmax : streamId.toNat + 1 = 2 ^ 64
  · rw [if_pos hmax]
    exact h
  · rw [if_neg hmax]
    cases s.system.stream.streams streamId with
    | true => exact h.frame h.holds (fun _ ↦ rfl) rfl rfl
    | false => exact h.frame h.holds (fun _ ↦ rfl) rfl rfl

theorem Inv.streamWrite (h : s.Inv) (fd : ℕ) (results : ℕ → ℤ) :
    (s.step asserts (.streamWrite fd results)).1.Inv := by
  simp only [step, TagSystem.step]
  cases hcall : s.system.stream.streamWrite asserts fd results (TagStream.maxFDCount + 1) with
  | none => exact h
  | some r =>
    obtain ⟨data, hdata, hloop⟩ := Option.bind_eq_some_iff.mp hcall
    have hext := TagStream.extends_streamWriteLoop hloop
    refine h.frame (hext.holds h.holds) (isStarted_setData ?_) rfl rfl
    rw [hext.registered_eq, TagStream.isStarted, hdata, Option.any_some]

theorem Inv.start (h : s.Inv) (fd : ℕ) (tagOffset : ℤ) :
    (s.step asserts (.start fd tagOffset)).1.Inv := by
  cases hdata : s.system.stream.fds fd with
  | none =>
    have hcall : s.system.stream.start fd tagOffset = (-1, s.system.stream) := by
      rw [TagStream.start, hdata]
    simp only [step, TagSystem.step, TagSystem.ret, Option.elim_some, observe, hcall, Int.reduceNeg,
      Int.reduceEq, if_false]
    exact h.setWrite []
  | some data =>
    obtain ⟨stream, hstream⟩ : ∃ stream, stream = s.system.stream.setData fd
        { data with registered := true, currentOffset := CInt.toUnsigned 64 tagOffset } := ⟨_, rfl⟩
    have hcall : s.system.stream.start fd tagOffset = (0, stream) := by
      rw [TagStream.start, hdata, hstream]
    simp only [step, TagSystem.step, TagSystem.ret, Option.elim_some, observe, hcall, if_true]
    have hinv : Inv { s with system := { s.system with stream }, started := fd :: s.started } := by
      rw [hstream]
      refine ⟨h.holds, fun fd' ↦ ?_, h.subscribed_iff, h.size_lt, h.pending, h.closed⟩
      rw [List.mem_cons, ← h.started_iff fd']
      by_cases hfd : fd' = fd
      · subst hfd
        simp [TagStream.isStarted]
      · simp only [TagStream.isStarted, TagStream.setData_fds_of_ne _ (Ne.symm hfd), hfd, false_or]
    exact hinv.setWrite [fd]

theorem Inv.subscribe (h : s.Inv) (fd : ℕ) (tag : UInt32) :
    (s.step asserts (.subscribe fd tag)).1.Inv := by
  simp only [step, TagSystem.step]
  cases hcall : s.system.stream.subscribe fd tag with
  | none => exact h
  | some stream =>
    obtain ⟨data, subs, hdata, -, -, rfl⟩ := TagStream.subscribe_some hcall
    simp only [TagSystem.ret, Option.elim_some, observe]
    refine ⟨h.holds, fun fd' ↦ ?_, fun fd' tag' ↦ ?_, fun t ht hlt ↦ ?_, h.pending, h.closed⟩
    · rw [← h.started_iff fd']
      have hregistered : ({ data with subs := subs } : FDData).registered
        = s.system.stream.isStarted fd := by
        rw [TagStream.isStarted, hdata, Option.any_some]
      have hsame := isStarted_setData hregistered fd'
      rw [← hsame]
      rfl
    · simp only [Function.update_apply, List.mem_cons, Prod.mk.injEq]
      split_ifs with htag hmem
      · subst htag
        rw [h.subscribed_iff fd' tag']
        refine ⟨Or.inr, fun hor ↦ hor.elim (fun heq ↦ ?_) id⟩
        rw [heq.1, ← h.subscribed_iff]
        exact hmem
      · subst htag
        rw [List.mem_orderedInsert, h.subscribed_iff fd' tag']
        simp
      · rw [h.subscribed_iff fd' tag']
        simp [htag]
    · exact Nat.lt_of_lt_of_le (h.size_lt t ht hlt) (TagStream.le_grown _ _)

theorem Inv.queue (h : s.Inv) (tag : TagType) : (s.step asserts (.queue tag)).1.Inv := by
  simp only [step, TagSystem.step, TagSystem.ret, Option.elim_some, observe, TagStream.queue]
  have happend := h.holds.append tag
  generalize s.system.stream.offsetStore.append tag = r at happend ⊢
  have hsize (t : TagType) (ht : t ∈ s.queued.drop s.next) (hlt : t.tagId.toNat + 1 < 2 ^ 32) :
      t.tagId.toNat < TagStream.grown s.system.stream.tag2fdSize (tag.tagId + 1).toNat :=
    Nat.lt_of_lt_of_le (h.size_lt t ht hlt) (TagStream.le_grown _ _)
  -- with the event manager there is interest now, without it the counter stays up
  have hpending :
    (s.system.interest || (s.system.isOpen && [s.system.stream.fd].contains s.system.stream.fd))
      = true ∨ s.system.counter ≠ 0 := by
    cases hopen : s.system.isOpen with
    | true => simp
    | false => exact Or.inr (h.closed hopen)
  rcases happend with ⟨hret, hholds⟩ | ⟨hret, hstore⟩
  · rw [hret, if_pos rfl]
    refine ⟨hholds, h.started_iff, h.subscribed_iff, fun t ht hlt ↦ ?_, fun _ ↦ hpending, h.closed⟩
    simp only [List.drop_append, List.mem_append] at ht
    rcases ht with ht | ht
    · exact hsize t ht hlt
    · obtain rfl := List.mem_singleton.mp (List.mem_of_mem_drop ht)
      have hnext : (t.tagId + 1).toNat = t.tagId.toNat + 1 := by
        rw [UInt32.toNat_add]
        exact Nat.mod_eq_of_lt hlt
      have hle := TagStream.le_grown_right s.system.stream.tag2fdSize (t.tagId + 1).toNat
      rw [hnext] at hle
      simp only [TagSystem.setWrite_stream, hnext]
      omega
  · rw [hret, hstore, if_neg (by simp)]
    exact ⟨h.holds, h.started_iff, h.subscribed_iff, hsize, fun _ ↦ hpending, h.closed⟩

theorem Inv.writeEvent (h : s.Inv) : (s.step asserts .writeEvent).1.Inv := by
  simp only [step, TagSystem.step, TagSystem.writeEvent]
  have htotal := h.holds.total_eq
  have hmax := h.holds.total_lt
  rw [TagType.size] at htotal
  split_ifs with hidle hroom
  · exact h
  · refine ⟨h.holds, h.started_iff, h.subscribed_iff, h.size_lt, fun hlt ↦ Or.inr ?_,
      fun hclosed ↦ ?_⟩
    · simp only [TagSystem.ret, Option.elim_some, observe] at hlt ⊢
      omega
    · exact absurd (Or.inl hclosed) hidle
  · exact h
  · refine ⟨h.holds, h.started_iff, h.subscribed_iff, h.size_lt, fun _ ↦ Or.inr ?_, fun _ ↦ ?_⟩
    · simp only [TagSystem.ret, Option.elim_some, observe]
      omega
    · simp only [TagSystem.ret, Option.elim_some, observe]
      omega

theorem Inv.targets_subset (h : s.Inv) (hfd : 0 < t.fd → t.fd.toInt = s.system.stream.fd) :
    ∀ fd ∈ s.targets t, fd ∈ s.system.stream.wakes t := by
  intro fd hmem
  rw [targets] at hmem
  rw [TagStream.wakes]
  split_ifs at hmem ⊢ with hpos
  · rw [hfd hpos, Int.toNat_natCast] at hmem
    exact hmem
  · rw [List.mem_filter, decide_eq_true_iff] at hmem
    rw [List.mem_filter]
    exact ⟨(h.subscribed_iff fd t.tagId).mpr hmem.2, (h.started_iff fd).mpr hmem.1⟩

/-- **The `Read` event.** -/
theorem Inv.readEvent (h : s.Inv) (hok : s.Meets .readEvent) :
    (s.step asserts .readEvent).1.Inv ∧ s.Wakes asserts .readEvent := by
  obtain ⟨hnear, hbatch⟩ := hok
  by_cases hidle : s.system.isOpen = false ∨ s.system.counter = 0
  · have hstep : s.step asserts .readEvent = (s, some ⟨0, [], []⟩) := by
      simp only [step, TagSystem.step, TagSystem.readEvent, if_pos hidle]
      rfl
    rw [Wakes, hstep]
    exact ⟨h, fun _ ↦ ⟨_, rfl, by simp, fun w hw ↦ absurd hw List.not_mem_nil⟩, h.pending⟩
  have hopen : s.system.isOpen = true := by
    rw [← Bool.not_eq_false]
    exact fun hclosed ↦ hidle (Or.inl hclosed)
  obtain ⟨⟨l, store⟩, hloop⟩ := Option.isSome_iff_exists.mp
    (TagStream.readLoop_isSome asserts s.system.stream
      TagStream.maxRecordCount TagType.new h.holds hnear fun t ht ↦ by
        rcases Int32.lt_or_le 0 t.fd with hpos | hneg
        · exact Or.inl hpos
        · exact Or.inr (h.size_lt t (List.mem_of_mem_take ht) ((hbatch t ht).2 hneg)))
  obtain ⟨next', hholds, hle, hmost, hrecords, hwakes⟩ := TagStream.readLoop_holds h.holds hloop
  -- `Read` took the records between the two positions
  have hcount : s.next + (l.filterMap Wake.record).length = next' := by
    have hend := hholds.next_le
    rw [hrecords, List.length_take, List.length_drop]
    omega
  obtain ⟨interest, hinterest⟩ : ∃ b, b = (({ s.system with
      stream := { s.system.stream with offsetStore := store }, counter :=
        0 }.setWrite (l.flatMap Wake.fds)).setWrite
        (if store.isEmpty then [] else [s.system.stream.fd])).interest := ⟨_, rfl⟩
  have hcall : s.system.readEvent asserts
      = (⟨{ s.system.stream with offsetStore := store }, 0, interest, true⟩, some ⟨0, [], l⟩) := by
    rw [TagSystem.readEvent, if_neg hidle]
    simp only [TagStream.read, hloop, Option.map_some, hinterest, TagSystem.setWrite, hopen]
  have hstep : s.step asserts .readEvent = ({ s with
      system := ⟨{ s.system.stream with offsetStore := store }, 0, interest, true⟩, next := next' },
      some ⟨0, [], l⟩) := by
    simp only [step, TagSystem.step, hcall, Option.elim_some, observe, hcount]
  have hpending : next' < s.queued.length → interest = true := by
    intro hlt
    have hmore : store.isEmpty = false := by
      rw [← Bool.not_eq_true, hholds.isEmpty_iff]
      exact Nat.ne_of_lt hlt
    simp [hinterest, TagSystem.setWrite, hmore, hopen]
  rw [Wakes, hstep]
  refine ⟨⟨hholds, h.started_iff, h.subscribed_iff, fun t ht hlt ↦ ?_,
    fun hlt ↦ Or.inl (hpending hlt),
    fun hclosed ↦ absurd hclosed (by simp)⟩, fun _ ↦ ⟨_, rfl, hrecords, fun w hw t ht ↦ ?_⟩,
    fun hlt ↦ Or.inl (hpending hlt)⟩
  · exact h.size_lt t (List.drop_subset_drop_left _ hle ht) hlt
  · rw [hwakes w hw t ht]
    refine h.targets_subset (hbatch t ?_).1
    have hmem : t ∈ l.filterMap Wake.record := List.mem_filterMap.mpr ⟨w, hw, ht⟩
    rw [hrecords] at hmem
    exact List.take_subset_take_left _ (by omega) hmem

theorem Inv.step (h : s.Inv) {op : TagStreamOp} (hok : s.Meets op) :
    (s.step asserts op).1.Inv ∧ s.Wakes asserts op := by
  -- only the `Read` event consumes records
  have hother (hinv : (s.step asserts op).1.Inv) (hop : op ≠ .readEvent) :
      (s.step asserts op).1.Inv ∧ s.Wakes asserts op :=
    ⟨hinv, fun heq ↦ absurd heq hop, hinv.pending⟩
  cases op with
  | register fd => exact hother (h.register fd) (by simp)
  | registerStream streamId => exact hother (h.registerStream streamId) (by simp)
  | start fd tagOffset => exact hother (h.start fd tagOffset) (by simp)
  | subscribe fd tag => exact hother (h.subscribe fd tag) (by simp)
  | queue tag => exact hother (h.queue tag) (by simp)
  | streamWrite fd results => exact hother (h.streamWrite fd results) (by simp)
  | writeEvent => exact hother h.writeEvent (by simp)
  | readEvent => exact h.readEvent hok

/-- **Every descriptor is woken** for the records that are meant for it, and no record is forgotten,
in a run in which no record that is consumed names a descriptor other than the event descriptor. -/
theorem run_wakes (asserts : Bool) (eventFd : ℕ) {file : MappedFile}
    (hfile : PagedLog.systemPage ∣ file.size) (hsize : file.size < 2 ^ 63) (ops : List TagStreamOp)
    (hok : Run.Steps (step asserts) Meets (new eventFd file) ops) :
    Run.Steps (step asserts) (Wakes asserts) (new eventFd file) ops :=
  Run.Steps.of_invariant (P := Inv) (fun _ _ hs hop ↦ (hs.step hop).1)
    (fun _ _ hs hop ↦ (hs.step hop).2)
    (inv_new eventFd hfile hsize) hok

/-- A record for those who subscribed to its tag. -/
theorem run_wakes_subscribed :
    Run.Steps (step true) (Wakes true) (new 3 MappedFile.empty)
      [.register 5, .start 5 0, .subscribe 5 7, .queue ⟨0, 10, 1, 7, -1, 1⟩, .writeEvent,
        .readEvent] :=
  run_wakes true 3 (by decide) (by decide) _
    ⟨trivial, trivial, trivial, trivial, trivial, ⟨by decide +kernel, by decide +kernel⟩, trivial⟩

/-- A record that names a descriptor: the event descriptor is woken in its place. -/
theorem not_wakes_of_fd :
    ¬Run.Steps (step true) (Wakes true) (new 3 MappedFile.empty)
      [.register 5, .start 5 0, .queue ⟨0, 10, 1, 7, 5, 1⟩, .writeEvent, .readEvent] := by
  rintro ⟨-, -, -, -, ⟨hread, -⟩, -⟩
  obtain ⟨a, ha, -, hwakes⟩ := hread rfl
  have hwoken : some a.wakes = some [⟨some ⟨0, 10, 1, 7, 5, 1⟩, [3]⟩] :=
    (congrArg (Option.map TagAnswer.wakes) ha).symm.trans (by decide +kernel)
  rw [Option.some.inj hwoken] at hwakes
  exact absurd (hwakes _ List.mem_cons_self _ rfl 5 (by decide +kernel)) (by decide)

end TagWatch

end Coypu
