import Coypu.Cache.TagDelivery
import Coypu.Library.Run
import Mathlib.Logic.Function.Iterate

/-!
# Playback of ephemeral records

`StreamWrite` goes over an ephemeral record that is older than the registration of its descriptor
without passing it, so that the next round reads the same record again: the call does not return.
Where it comes to no such record each round passes a record or is the last one (`returns_iff`).

The records that a call comes to are described by the queue and by what the callbacks return
(`Comes`), without the loop.
-/

set_option autoImplicit false

namespace Coypu

/-- What a read at an offset gives. -/
def TagOffsetStore.recordAt (s : TagOffsetStore) (offset : ℕ) : Option (Option TagType) :=
  (s.read offset).map Prod.fst

theorem TagOffsetStore.Sound.recordAt {s : TagOffsetStore} (h : s.Sound) {c : LRUCache 16}
    (hc : LRUCache.Sound s.stream.log.pageSize c) (offset : ℕ) :
    (s.withCache c).recordAt offset = s.recordAt offset := by
  have hpop := congrArg (Option.map (Option.map TagType.ofBytes))
    (PagedLog.pop_congr h hc offset TagType.size)
  rw [Option.map_map, Option.map_map] at hpop
  rw [TagOffsetStore.recordAt, TagOffsetStore.recordAt, TagOffsetStore.read, TagOffsetStore.read,
    Option.map_map, Option.map_map]
  exact hpop

namespace TagStream

/-- The offset of the next record. -/
def advance (offset : ℕ) : ℕ := CInt.toUnsigned 64 (offset + TagType.size : ℕ)

variable (asserts : Bool) (s : TagStream) (fd : ℕ) (results : ℕ → ℤ) (data : FDData)

/-- A record is read at an offset, when `n` records are passed. -/
def Reads (n offset : ℕ) : Prop :=
  n < maxFDCount ∧ offset < s.offsetStore.totalAvailable ∧ (n = 0 → data.written = 0)

/-- A call passes `n` records and calls callbacks `c` times, and is at an offset then. -/
inductive Comes : ℕ → ℕ → ℕ → Prop
  | first : Comes 0 0 data.currentOffset
  | resumed (hmore : data.currentOffset < s.offsetStore.totalAvailable)
      (hwritten : data.written ≠ 0) (hresult : 0 ≤ results 0)
      (hall : CInt.toUnsigned 64 (data.written + results 0) = data.currentTag.len.toNat) :
      Comes 1 1 (advance data.currentOffset)
  | delivered {n c offset : ℕ} {t : TagType} (hcomes : Comes n c offset)
      (hreads : s.Reads data n offset) (ht : s.offsetStore.recordAt offset = some (some t))
      (hnew : isOld data t = false) (hwants : s.wants fd data t = true)
      (hall : t.len.toNat ≤ results c) : Comes (n + 1) (c + 1) (advance offset)
  | skipped {n c offset : ℕ} {t : TagType} (hcomes : Comes n c offset)
      (hreads : s.Reads data n offset) (ht : s.offsetStore.recordAt offset = some (some t))
      (hnew : isOld data t = false) (hwants : s.wants fd data t = false) : Comes (n + 1) c
        (advance offset)

/-- The call comes to no old record, and to no place where there is no record. -/
def Clear : Prop :=
  ∀ n c offset, s.Comes fd results data n c offset → s.Reads data n offset →
    (∃ t, s.offsetStore.recordAt offset = some (some t) ∧ isOld data t = false) ∨
      asserts = false ∧ s.offsetStore.recordAt offset = some none

/-- `StreamWrite` returns, and each round before the last one passed a record and counted it. -/
def Returns : Prop :=
  ∃ rounds ≤ maxFDCount + 1, ∃ x w, s.streamWrite asserts fd results rounds = some (x, w) ∧
    w.count ≤ maxFDCount ∧ w.data.currentOffset = advance^[w.count] data.currentOffset

/-- Where the loop is. -/
structure At (n c offset : ℕ) (w : TagWrite) : Prop where
  count_eq : w.count = n
  calls_eq : w.calls.length = c
  offset_eq : w.data.currentOffset = offset
  subs_eq : w.data.subs = data.subs
  startTagOffset_eq : w.data.startTagOffset = data.startTagOffset
  store : ∃ c, LRUCache.Sound s.offsetStore.stream.log.pageSize c ∧
    w.store = s.offsetStore.withCache c
  written_eq : w.data.written = if n = 0 then data.written else 0
  currentTag_eq : w.data.written ≠ 0 → w.data.currentTag = data.currentTag

variable {asserts s fd results data} {n c offset : ℕ} {w : TagWrite} {t : TagType}
  {r : ℤ × TagWrite}

theorem Comes.offset_eq (h : s.Comes fd results data n c offset) :
    offset = advance^[n] data.currentOffset := by
  induction h with
  | first => rfl
  | resumed => rfl
  | delivered _ _ _ _ _ _ ih => rw [ih, Function.iterate_succ_apply']
  | skipped _ _ _ _ _ ih => rw [ih, Function.iterate_succ_apply']

theorem Comes.eq_first (h : s.Comes fd results data 0 c offset) :
    c = 0 ∧ offset = data.currentOffset := by
  cases h
  exact ⟨rfl, rfl⟩

theorem at_first (h : s.offsetStore.Sound) (data : FDData) :
    s.At data 0 0 data.currentOffset ⟨data, s.offsetStore, 0, []⟩ :=
  ⟨rfl, rfl, rfl, rfl, rfl, ⟨_, h, rfl⟩, rfl, fun _ ↦ rfl⟩

namespace At

theorem written_of_reads (h : s.At data n c offset w) (hreads : s.Reads data n offset) :
    w.data.written = 0 := by
  rw [h.written_eq]
  split_ifs with hn
  · exact hreads.2.2 hn
  · rfl

theorem next (h : s.At data n c offset w) : s.At data (n + 1) c (advance offset) w.next := by
  refine ⟨congrArg (· + 1) h.count_eq, h.calls_eq, ?_, h.subs_eq, h.startTagOffset_eq, h.store, rfl,
    fun h0 ↦ absurd rfl h0⟩
  rw [TagWrite.next, h.offset_eq, advance]

theorem call (h : s.At data n c offset w) (start len : ℕ) :
    s.At data n (c + 1) offset (w.call results start len) :=
  { h with
    calls_eq := by rw [TagWrite.call, List.length_append, h.calls_eq, List.length_singleton] }

theorem recordAt_eq (hsound : s.offsetStore.Sound) (h : s.At data n c offset w) :
    (w.store.read w.data.currentOffset).map Prod.fst = s.offsetStore.recordAt offset := by
  obtain ⟨c', hc', hstore⟩ := h.store
  rw [hstore, h.offset_eq]
  exact hsound.recordAt hc' offset

variable (asserts fd results) in
theorem round_eq (hsound : s.offsetStore.Sound) (h : s.At data n c offset w)
    (hreads : s.Reads data n offset)
    {tag : Option TagType} (htag : s.offsetStore.recordAt offset = some tag) :
    ∃ store, s.At data n c offset { w with store := store } ∧ s.round asserts fd results w
      = tag.elim
      (if asserts then none else some (.inl (-1, { w with store := store }))) fun t ↦ some
        (s.first fd results
        { w with data := { w.data with currentTag := t }, store := store }) := by
  have hread := h.recordAt_eq hsound
  rw [htag] at hread
  obtain ⟨⟨tag', store⟩, hq, htag'⟩ := Option.map_eq_some_iff.mp hread
  obtain rfl : tag' = tag := htag'
  obtain ⟨c', hc', hstore⟩ := h.store
  have hsound' : w.store.Sound := by
    rw [hstore]
    exact hc'
  obtain ⟨c₁, hc₁, hstore₁⟩ := hsound'.read hq
  rw [hstore] at hc₁ hstore₁
  refine ⟨store, { h with store := ⟨c₁, hc₁, hstore₁⟩ }, ?_⟩
  rw [round, if_pos (h.written_of_reads hreads), hq, Option.bind_some]
  cases tag' with
  | none => rfl
  | some t => rfl

theorem round_none (hsound : s.offsetStore.Sound) (h : s.At data n c offset w)
    (hreads : s.Reads data n offset) (htag : s.offsetStore.recordAt offset = none) :
    s.round asserts fd results w = none := by
  have hread := h.recordAt_eq hsound
  rw [htag, Option.map_eq_none_iff] at hread
  rw [round, if_pos (h.written_of_reads hreads), hread, Option.bind_none]

variable (asserts fd results) in
/-- Where the record is not an old one, a round passes it, or returns from it. -/
theorem round_record (hsound : s.offsetStore.Sound) (h : s.At data n c offset w)
    (hreads : s.Reads data n offset)
    (ht : s.offsetStore.recordAt offset = some (some t)) (hnew : isOld data t = false) :
    (∃ w' c', s.round asserts fd results w = some (.inr w') ∧
      s.At data (n + 1) c' (advance offset) w' ∧
        (s.wants fd data t = true ∧ t.len.toNat ≤ results c ∧ c' = c + 1 ∨
          s.wants fd data t = false ∧ c' = c)) ∨
      ∃ x w', s.round asserts fd results w = some (.inl (x, w')) ∧ w'.count = n ∧
        w'.data.currentOffset = offset ∧ s.wants fd data t = true ∧ results c < t.len.toNat := by
  obtain ⟨store, hat, hround⟩ := h.round_eq asserts fd results hsound hreads ht
  rw [Option.elim_some] at hround
  obtain ⟨w₁, hw₁⟩ : ∃ w₁ : TagWrite, w₁ =
    { w with data := { w.data with currentTag := t }, store := store } :=
    ⟨_, rfl⟩
  have h₁ : s.At data n c offset w₁ := by
    rw [hw₁]
    exact { hat with currentTag_eq := fun h0 ↦ absurd (h.written_of_reads hreads) h0 }
  have htag : w₁.data.currentTag = t := by rw [hw₁]
  have hold : isOld w₁.data t = false := by
    rw [isOld, h₁.startTagOffset_eq]
    exact hnew
  rw [← hw₁] at hround
  simp only [TagStream.first, htag, hold, Bool.false_eq_true, if_false, wants_congr h₁.subs_eq,
    h₁.calls_eq] at hround
  cases hwants : s.wants fd data t with
  | false =>
    simp only [hwants, Bool.false_eq_true, if_false] at hround
    exact Or.inl ⟨_, c, hround, h₁.next, Or.inr ⟨rfl, rfl⟩⟩
  | true =>
    simp only [hwants, if_true] at hround
    by_cases hall : t.len.toNat ≤ results c
    · rw [if_neg (by omega), if_neg (by omega)] at hround
      exact Or.inl ⟨_, c + 1, hround, (h₁.call _ _).next, Or.inl ⟨rfl, hall, rfl⟩⟩
    · refine Or.inr ?_
      by_cases hneg : results c < 0
      · rw [if_pos hneg] at hround
        exact ⟨-1, _, hround, h₁.count_eq, h₁.offset_eq, rfl, by omega⟩
      · rw [if_neg hneg, if_pos (by omega)] at hround
        exact ⟨1, _, hround, h₁.count_eq, h₁.offset_eq, rfl, by omega⟩

variable (asserts fd results) in
/-- A round for a record of which a part is written passes it, or returns from it. -/
theorem round_resumed (h : s.At data 0 0 offset w) (hwritten : data.written ≠ 0) :
    (∃ w', s.round asserts fd results w = some (.inr w') ∧ s.At data 1 1 (advance offset) w' ∧
      0 ≤ results 0 ∧
        CInt.toUnsigned 64 (data.written + results 0) = data.currentTag.len.toNat) ∨
      ∃ x w', s.round asserts fd results w = some (.inl (x, w')) ∧ w'.count = 0 ∧
        w'.data.currentOffset = offset ∧
        ¬(0 ≤ results 0 ∧ CInt.toUnsigned 64 (data.written + results 0) =
          data.currentTag.len.toNat) := by
  have hwritten' : w.data.written = data.written := h.written_eq
  have htag : w.data.currentTag = data.currentTag := h.currentTag_eq (by rwa [hwritten'])
  have hround : s.round asserts fd results w = some (w.resume results) := by
    rw [round, if_neg (by rwa [hwritten'])]
  have hsame (start len : ℕ) : (w.call results start len).data.written = data.written := hwritten'
  simp only [TagWrite.resume, h.calls_eq, htag, hsame] at hround
  by_cases hneg : results 0 < 0
  · rw [if_pos hneg] at hround
    exact Or.inr ⟨-1, _, hround, h.count_eq, h.offset_eq, fun hpass ↦ by omega⟩
  · rw [if_neg hneg] at hround
    by_cases hall : CInt.toUnsigned 64 (data.written + results 0) = data.currentTag.len.toNat
    · rw [if_pos hall] at hround
      exact Or.inl ⟨_, hround, (h.call _ _).next, by omega, hall⟩
    · rw [if_neg hall] at hround
      exact Or.inr ⟨1, _, hround, h.count_eq, h.offset_eq, fun hpass ↦ hall hpass.2⟩

theorem loop_succ (h : s.At data n c offset w) (hn : n < maxFDCount)
    (hmore : offset < s.offsetStore.totalAvailable) (fuel : ℕ) :
    s.streamWriteLoop asserts fd results s.offsetStore.totalAvailable (fuel + 1) w
      = (s.round asserts fd results w).bind fun q ↦ q.elim some
          fun w ↦ s.streamWriteLoop asserts fd results s.offsetStore.totalAvailable fuel w := by
  rw [streamWriteLoop, if_pos ⟨by rwa [h.count_eq], by rwa [h.offset_eq]⟩]
  refine congrArg _ (funext fun q ↦ ?_)
  cases q <;> rfl

theorem loop_record (hsound : s.offsetStore.Sound) (h : s.At data n c offset w)
    (hreads : s.Reads data n offset)
    (ht : s.offsetStore.recordAt offset = some (some t)) (hnew : isOld data t = false)
    (hpass : s.wants fd data t = true → t.len.toNat ≤ results c) {fuel : ℕ}
    (hloop : s.streamWriteLoop asserts fd results s.offsetStore.totalAvailable fuel w = some r) :
    ∃ w' fuel', s.At data (n + 1) (if s.wants fd data t = true then c + 1 else c)
      (advance offset) w' ∧
      s.streamWriteLoop asserts fd results s.offsetStore.totalAvailable fuel' w' = some r := by
  cases fuel with
  | zero => exact absurd hloop (by simp [streamWriteLoop])
  | succ fuel =>
    rw [h.loop_succ hreads.1 hreads.2.1] at hloop
    rcases h.round_record asserts fd results hsound hreads ht hnew with
      ⟨w', c', hround, hat', hc'⟩ | ⟨x, w', -, -, -, hwants, hfail⟩
    · rw [hround, Option.bind_some, Sum.elim_inr] at hloop
      refine ⟨w', fuel, ?_, hloop⟩
      rcases hc' with ⟨hwants, -, rfl⟩ | ⟨hwants, rfl⟩
      · rwa [if_pos hwants]
      · rwa [if_neg (Bool.eq_false_iff.mp hwants)]
    · have hle := hpass hwants
      omega

/-- An old record is not passed: the loop does not end. -/
theorem loop_old (hsound : s.offsetStore.Sound) (h : s.At data n c offset w)
    (hreads : s.Reads data n offset)
    (ht : s.offsetStore.recordAt offset = some (some t)) (hold : isOld data t = true) (fuel : ℕ) :
    s.streamWriteLoop asserts fd results s.offsetStore.totalAvailable fuel w = none := by
  induction fuel generalizing w with
  | zero => rfl
  | succ fuel ih =>
    obtain ⟨store, hat, hround⟩ := h.round_eq asserts fd results hsound hreads ht
    have hagain : s.At data n c offset
        { w with data := { w.data with currentTag := t }, store := store } :=
      { hat with currentTag_eq := fun h0 ↦ absurd (h.written_of_reads hreads) h0 }
    have hold' : isOld { w.data with currentTag := t } t = true := by
      simp only [isOld, h.startTagOffset_eq]
      exact hold
    rw [h.loop_succ hreads.1 hreads.2.1, hround, Option.elim_some, Option.bind_some,
      TagStream.first]
    simp only [hold', if_true, Sum.elim_inr]
    exact ih hagain

end At

/-! ## Returning -/

/-- A call that comes to a place with a number of rounds left, and returns, has a place there. -/
theorem Comes.exists_at (hsound : s.offsetStore.Sound) (h : s.Comes fd results data n c offset)
    {fuel : ℕ}
    (hloop : s.streamWriteLoop asserts fd results s.offsetStore.totalAvailable fuel
      ⟨data, s.offsetStore, 0, []⟩
      = some r) :
    ∃ w fuel', s.At data n c offset w ∧
      s.streamWriteLoop asserts fd results s.offsetStore.totalAvailable fuel' w = some r := by
  induction h with
  | first => exact ⟨_, fuel, at_first hsound data, hloop⟩
  | resumed hmore hwritten hresult hall =>
    cases fuel with
    | zero => exact absurd hloop (by simp [streamWriteLoop])
    | succ fuel =>
      have hat := at_first hsound data
      rw [hat.loop_succ (by decide) hmore] at hloop
      rcases hat.round_resumed asserts fd results hwritten with
        ⟨w', hround, hat', -⟩ | ⟨x, w', -, -, -, hnot⟩
      · rw [hround, Option.bind_some, Sum.elim_inr] at hloop
        exact ⟨w', fuel, hat', hloop⟩
      · exact absurd ⟨hresult, hall⟩ hnot
  | delivered _ hreads ht hnew hwants hall ih =>
    obtain ⟨w, fuel', hat, hloop'⟩ := ih
    obtain ⟨w', fuel'', hat', hloop''⟩ := hat.loop_record hsound hreads ht hnew
      (fun _ ↦ hall) hloop'
    rw [if_pos hwants] at hat'
    exact ⟨w', fuel'', hat', hloop''⟩
  | skipped _ hreads ht hnew hwants ih =>
    obtain ⟨w, fuel', hat, hloop'⟩ := ih
    have hno : ¬s.wants fd data _ = true := Bool.eq_false_iff.mp hwants
    obtain ⟨w', fuel'', hat', hloop''⟩ := hat.loop_record hsound hreads ht hnew
      (fun hyes ↦ absurd hyes hno) hloop'
    rw [if_neg hno] at hat'
    exact ⟨w', fuel'', hat', hloop''⟩

/-- Where the loop returns for any number of rounds, it came to no old record. -/
theorem clear_of_loop (hsound : s.offsetStore.Sound) {fuel : ℕ}
    (hloop : s.streamWriteLoop asserts fd results s.offsetStore.totalAvailable fuel
      ⟨data, s.offsetStore, 0, []⟩
      = some r) : s.Clear asserts fd results data := by
  intro n c offset hcomes hreads
  obtain ⟨w, fuel', hat, hloop'⟩ := hcomes.exists_at hsound hloop
  cases fuel' with
  | zero => exact absurd hloop' (by simp [streamWriteLoop])
  | succ fuel' =>
    cases htag : s.offsetStore.recordAt offset with
    | none =>
      rw [hat.loop_succ hreads.1 hreads.2.1, hat.round_none hsound hreads htag] at hloop'
      exact absurd hloop' (by simp)
    | some tag =>
      cases tag with
      | none =>
        obtain ⟨store, -, hround⟩ := hat.round_eq asserts fd results hsound hreads
          htag
        rw [hat.loop_succ hreads.1 hreads.2.1, hround] at hloop'
        cases asserts with
        | true => exact absurd hloop' (by simp)
        | false => exact Or.inr ⟨rfl, rfl⟩
      | some t =>
        refine Or.inl ⟨t, rfl, Bool.eq_false_iff.mpr fun hold ↦ ?_⟩
        rw [hat.loop_old hsound hreads htag hold] at hloop'
        exact absurd hloop' (by simp)

/-- Where no record is old, the rounds that are left are enough. The induction is on their
number. -/
theorem Comes.loop_returns (hsound : s.offsetStore.Sound) (hclear : s.Clear asserts fd results data)
    {fuel : ℕ} (hcomes : s.Comes fd results data n c offset) (hat : s.At data n c offset w)
    (hfuel : n + fuel = maxFDCount + 1) (hpos : 0 < fuel) :
    ∃ x w', s.streamWriteLoop asserts fd results s.offsetStore.totalAvailable fuel w
      = some (x, w') ∧
      w'.count ≤ maxFDCount ∧ w'.data.currentOffset = advance^[w'.count] data.currentOffset := by
  induction fuel generalizing n c offset w with
  | zero => exact absurd hpos (Nat.lt_irrefl 0)
  | succ fuel ih =>
    have hoffset := hcomes.offset_eq
    -- the call returns from here
    have hhere {w' : TagWrite} (hcount : w'.count = n) (hw : w'.data.currentOffset = offset) :
        w'.count ≤ maxFDCount ∧ w'.data.currentOffset = advance^[w'.count] data.currentOffset := by
      rw [hw, hcount, hoffset]
      exact ⟨by omega, rfl⟩
    by_cases hmore : n < maxFDCount ∧ offset < s.offsetStore.totalAvailable
    · rw [hat.loop_succ hmore.1 hmore.2]
      by_cases hreads : n = 0 → data.written = 0
      · have hreads' : s.Reads data n offset := ⟨hmore.1, hmore.2, hreads⟩
        rcases hclear n c offset hcomes hreads' with ⟨t, ht, hnew⟩ | ⟨rfl, hnone⟩
        · rcases hat.round_record asserts fd results hsound hreads' ht hnew with
            ⟨w', c', hround, hat', hc'⟩ | ⟨x, w', hround, hcount, hw, -⟩
          · rw [hround, Option.bind_some, Sum.elim_inr]
            have hcomes' : s.Comes fd results data (n + 1) c' (advance offset) := by
              rcases hc' with ⟨hwants, hall, rfl⟩ | ⟨hwants, rfl⟩
              · exact hcomes.delivered hreads' ht hnew hwants hall
              · exact hcomes.skipped hreads' ht hnew hwants
            exact ih hcomes' hat' (by omega) (by omega)
          · rw [hround, Option.bind_some, Sum.elim_inl]
            exact ⟨x, w', rfl, hhere hcount hw⟩
        · obtain ⟨store, hat', hround⟩ := hat.round_eq false fd results hsound
            hreads' hnone
          rw [hround, Option.elim_none, if_neg (by simp), Option.bind_some, Sum.elim_inl]
          exact ⟨-1, _, rfl, hhere hat'.count_eq hat'.offset_eq⟩
      · obtain ⟨rfl, hwritten⟩ := Classical.not_imp.mp hreads
        obtain ⟨rfl, rfl⟩ := hcomes.eq_first
        rcases hat.round_resumed asserts fd results hwritten with
          ⟨w', hround, hat', hresult, hall⟩ | ⟨x, w', hround, hcount, hw, -⟩
        · rw [hround, Option.bind_some, Sum.elim_inr]
          exact ih (.resumed hmore.2 hwritten hresult hall) hat' (by omega) (by omega)
        · rw [hround, Option.bind_some, Sum.elim_inl]
          exact ⟨x, w', rfl, hhere hcount hw⟩
    · rw [streamWriteLoop, if_neg (by rwa [hat.count_eq, hat.offset_eq])]
      exact ⟨_, w, rfl, hhere hat.count_eq hat.offset_eq⟩

theorem returns_iff_clear (hsound : s.offsetStore.Sound) (hdata : s.fds fd = some data) :
    s.Returns asserts fd results data ↔ s.Clear asserts fd results data := by
  simp only [Returns, streamWrite, hdata, Option.bind_some]
  refine ⟨fun ⟨_, _, _, _, hloop, _⟩ ↦ clear_of_loop hsound hloop,
    fun hclear ↦ ⟨_, Nat.le_refl _, ?_⟩⟩
  exact Comes.first.loop_returns hsound hclear (at_first hsound data) (Nat.zero_add _) (by decide)

end TagStream

/-! ## Reachable states -/

namespace TagSystem

variable {asserts : Bool} {s : TagSystem}

theorem sound_new (eventFd : ℕ) (file : MappedFile) : (new eventFd file).stream.offsetStore.Sound :=
  ⟨rfl, fun _ hpage ↦ absurd hpage List.not_mem_nil⟩

theorem sound_queue (h : s.stream.offsetStore.Sound) (tag : TagType) :
    (s.stream.queue tag).offsetStore.Sound := by
  simp only [TagStream.queue, TagOffsetStore.append]
  split_ifs
  · exact h
  · exact PagedLog.sound_push h tag.toBytes

theorem sound_readLoop {s : TagStream} {n : ℕ} {tag : TagType} {store store' : TagOffsetStore}
    {l : List Wake} (h : store.Sound) (hloop : s.readLoop asserts n tag store = some (l, store')) :
    store'.Sound := by
  induction n generalizing tag store l with
  | zero =>
    obtain ⟨-, rfl⟩ := Prod.ext_iff.mp (Option.some.inj hloop)
    exact h
  | succ n ih =>
    rw [TagStream.readLoop] at hloop
    by_cases hempty : store.isEmpty = true
    · rw [if_pos hempty] at hloop
      obtain ⟨-, rfl⟩ := Prod.ext_iff.mp (Option.some.inj hloop)
      exact h
    · rw [if_neg hempty] at hloop
      obtain ⟨⟨r, store₁⟩, hread, hloop⟩ := Option.bind_eq_some_iff.mp hloop
      have hsound := h.readNext hread
      simp only at hloop
      split_ifs at hloop
      · obtain ⟨q, hq, heq⟩ := Option.map_eq_some_iff.mp hloop
        obtain ⟨-, rfl⟩ := Prod.ext_iff.mp heq
        exact ih hsound hq
      · obtain ⟨q, hq, heq⟩ := Option.map_eq_some_iff.mp hloop
        obtain ⟨-, rfl⟩ := Prod.ext_iff.mp heq
        exact ih hsound hq

theorem sound_step (h : s.stream.offsetStore.Sound) (op : TagStreamOp) :
    (s.step asserts op).1.stream.offsetStore.Sound := by
  cases op with
  | register fd =>
    simp only [step, TagStream.register]
    split <;> exact h
  | registerStream streamId =>
    simp only [step, TagStream.registerStream]
    by_cases hmax : streamId.toNat + 1 = 2 ^ 64
    · rw [if_pos hmax]
      exact h
    · rw [if_neg hmax]
      cases s.stream.streams streamId <;> exact h
  | start fd tagOffset =>
    simp only [step, TagStream.start, setWrite_stream]
    split <;> exact h
  | subscribe fd tag =>
    simp only [step]
    cases hcall : s.stream.subscribe fd tag with
    | none => exact h
    | some stream =>
      obtain ⟨data, subs, -, -, -, rfl⟩ := TagStream.subscribe_some hcall
      exact h
  | queue tag =>
    simp only [step, setWrite_stream]
    exact sound_queue h tag
  | streamWrite fd results =>
    simp only [step]
    cases hcall : s.stream.streamWrite asserts fd results (TagStream.maxFDCount + 1) with
    | none => exact h
    | some r =>
      obtain ⟨data, hdata, hloop⟩ := Option.bind_eq_some_iff.mp hcall
      obtain ⟨c, hc, hstore⟩ := (TagStream.extends_streamWriteLoop hloop).cache h
      simp only [TagStream.written, hstore]
      exact hc
  | writeEvent =>
    simp only [step, writeEvent]
    split_ifs <;> exact h
  | readEvent =>
    simp only [step, readEvent]
    split_ifs
    · exact h
    · cases hread : s.stream.read asserts with
      | none => exact h
      | some r =>
        obtain ⟨q, hloop, rfl⟩ := Option.map_eq_some_iff.mp hread
        exact sound_readLoop h hloop

/-- **`StreamWrite` returns if and only if** it comes to no ephemeral record that is older than the
registration of its descriptor, in every state that can be reached. -/
theorem run_returns_iff (asserts : Bool) (eventFd : ℕ) (file : MappedFile) (ops : List TagStreamOp)
    (fd : ℕ) (results : ℕ → ℤ) :
    let s := (Run.run (step asserts) (new eventFd file) ops).1.stream
    ∀ data, s.fds fd = some data →
      (s.Returns asserts fd results data ↔ s.Clear asserts fd results data) := by
  intro s data hdata
  have hsound : s.offsetStore.Sound :=
    (Run.Throughout.of_step (P := fun s : TagSystem ↦ s.stream.offsetStore.Sound)
      (fun s op hs _ ↦ sound_step hs op)
      (sound_new eventFd file) (Run.steps_true _ ops)).last
  exact TagStream.returns_iff_clear hsound hdata

/-- A descriptor that is registered, with a record for it. -/
theorem run_returns_iff_registered :
    let s := (Run.run (step true) (new 3 MappedFile.empty) [.register 5,
      .queue ⟨0, 10, 1, 0, 5, 0⟩]).1.stream
    ∃ data, s.fds 5 = some data ∧
      (s.Returns true 5 (fun _ ↦ 10) data ↔ s.Clear true 5 (fun _ ↦ 10) data) := by
  obtain ⟨data, hdata⟩ : ∃ data, (Run.run (step true) (new 3 MappedFile.empty)
      [.register 5, .queue ⟨0, 10, 1, 0, 5, 0⟩]).1.stream.fds 5 = some data :=
    Option.isSome_iff_exists.mp (by decide +kernel)
  exact ⟨data, hdata, run_returns_iff true 3 MappedFile.empty _ 5 (fun _ ↦ 10) data hdata⟩

/-- An ephemeral record is queued before the descriptor that it is addressed to is registered. -/
theorem not_returns_of_old :
    ¬∀ (asserts : Bool) (eventFd : ℕ) (file : MappedFile) (ops : List TagStreamOp) (fd : ℕ)
      (results : ℕ → ℤ), let s := (Run.run (step asserts) (new eventFd file) ops).1.stream
      ∀ data, s.fds fd = some data → s.Returns asserts fd results data := by
  intro h
  obtain ⟨data, hdata⟩ : ∃ data, (Run.run (step true) (new 3 MappedFile.empty)
      [.registerStream 1, .queue ⟨0, 10, 1, 0, 5, 0⟩, .register 5, .start 5 0]).1.stream.fds 5
        = some data :=
    Option.isSome_iff_exists.mp (by decide +kernel)
  obtain ⟨rounds, hle, x, w, hloop, -⟩ := h true 3 MappedFile.empty
    [.registerStream 1, .queue ⟨0, 10, 1, 0, 5, 0⟩, .register 5, .start 5 0] 5
    (fun _ ↦ 10) data hdata
  have hnone : ∀ rounds ≤ TagStream.maxFDCount + 1, ((Run.run (step true) (new 3 MappedFile.empty)
      [.registerStream 1, .queue ⟨0, 10, 1, 0, 5, 0⟩, .register 5,
        .start 5 0]).1.stream.streamWrite true 5
        (fun _ ↦ 10) rounds).isSome = false := by
    decide +kernel
  have hsome := hnone rounds hle
  rw [hloop] at hsome
  exact absurd hsome (by simp)

end TagSystem

end Coypu
