import Coypu.Cache.TagQueue
import Coypu.Library.Run

/-!
# Delivery of tagged records

What a descriptor accepts are the ranges of the records that are for it, in the order of the queue,
from the record on at which it was started. Within a call of `StreamWrite` each round passes a
record, or leaves a first part of the range of the current one accepted (`Reached`). Between the
calls the descriptor has the records passed and that part (`TagTrace.Exact`); whether a record is
for it can only change to that it is, as streams and subscriptions only grow.
-/

set_option autoImplicit false

namespace Coypu

/-! ## Ranges -/

/-- The bytes of a stream from an offset on. Offsets are 64-bit integers. -/
def streamBytes (streamId : UInt64) (offset len : ℕ) : List (UInt64 × ℕ) :=
  (List.range len).map fun i ↦ (streamId, (offset + i) % 2 ^ 64)

/-- The range of a record. -/
def TagType.range (t : TagType) : List (UInt64 × ℕ) :=
  streamBytes t.streamId t.offset.toNat t.len.toNat

namespace StreamCall

/-- The bytes that the callback took. -/
def accepted (c : StreamCall) : List (UInt64 × ℕ) := streamBytes c.streamId c.offset c.result.toNat

/-- The callback took any number of bytes from none to all. -/
def Accepts (c : StreamCall) : Prop := 0 ≤ c.result ∧ c.result ≤ c.len

/-- The call is for the rest of the range of a record. -/
def IsFor (c : StreamCall) (t : TagType) : Prop :=
  c.streamId = t.streamId ∧ ∃ n ≤ t.len.toNat, c.offset = (t.offset.toNat + n) % 2 ^ 64 ∧
    c.len = t.len.toNat - n

end StreamCall

theorem take_streamBytes (streamId : UInt64) (offset : ℕ) {n len : ℕ} (h : n ≤ len) :
    (streamBytes streamId offset len).take n = streamBytes streamId offset n := by
  rw [streamBytes, ← List.map_take, List.take_range, Nat.min_eq_left h, streamBytes]

theorem streamBytes_add (streamId : UInt64) (offset n len : ℕ) :
    streamBytes streamId offset (n + len)
    = streamBytes streamId offset n ++ streamBytes streamId ((offset + n) % 2 ^ 64) len := by
  rw [streamBytes, List.range_add, List.map_append, List.map_map]
  refine congrArg (streamBytes streamId offset n ++ ·) (List.map_congr_left fun i _ ↦ ?_)
  simp only [Function.comp_apply, Nat.mod_add_mod, Nat.add_assoc]

theorem TagType.take_range_append (t : TagType) {n k : ℕ} (h : n + k ≤ t.len.toNat) :
    t.range.take n ++ streamBytes t.streamId ((t.offset.toNat + n) % 2 ^ 64) k
      = t.range.take (n + k) := by
  rw [TagType.range, take_streamBytes _ _ (Nat.le_trans (Nat.le_add_right n k) h),
    take_streamBytes _ _ h, streamBytes_add]

theorem TagType.take_range (t : TagType) : t.range.take t.len.toNat = t.range := by
  rw [TagType.range, take_streamBytes _ _ (Nat.le_refl _)]

/-! ## Subscriptions -/

namespace TagSub

variable {s s' : TagSub} {tagid : UInt32}

theorem isSet_eq (s : TagSub) (t : UInt32) :
    s.isSet t = true ↔ t.toNat < s.size ∧ s.tags t.toNat = true := by
  rw [isSet]
  split_ifs with h <;> simp [h]

theorem isSet_set (h : s.set tagid = some s') (t : UInt32) :
    s'.isSet t = true ↔ t = tagid ∨ s.isSet t = true := by
  obtain ⟨g, hg, rfl⟩ := Option.map_eq_some_iff.mp h
  -- the vector is long enough, and has the bits that it had
  have hgrown : tagid.toNat < g.size ∧ ∀ t : UInt32, g.isSet t = true ↔ s.isSet t = true := by
    rw [grow] at hg
    split_ifs at hg with hsize
    · rw [grow] at hg
      split_ifs at hg with hsize'
      · rw [grow] at hg
        exact absurd hg (by simp)
      · obtain rfl := Option.some.inj hg
        have hlt : tagid.toNat < (tagid + 16).toNat := Nat.lt_of_not_le hsize'
        have hmin : min s.size (tagid + 16).toNat = s.size := Nat.min_eq_left (by omega)
        refine ⟨hlt, fun t ↦ ?_⟩
        rw [isSet_eq, isSet_eq]
        simp only [resize, hmin]
        by_cases ht : t.toNat < s.size
        · simp only [ht, if_true, true_and, and_iff_right_iff_imp]
          omega
        · simp [ht]
    · obtain rfl := Option.some.inj hg
      exact ⟨Nat.lt_of_not_le hsize, fun _ ↦ Iff.rfl⟩
  rw [isSet_eq, ← hgrown.2, isSet_eq]
  by_cases ht : t = tagid
  · subst ht
    simp [hgrown.1]
  · have hne : t.toNat ≠ tagid.toNat := fun heq ↦ ht (UInt32.toNat_inj.mp heq)
    simp [ht, Function.update_of_ne hne]

end TagSub

theorem TagStream.subscribe_some {s s' : TagStream} {fd : ℕ} {tag : UInt32}
    (h : s.subscribe fd tag = some s') :
    ∃ data subs, s.fds fd = some data ∧ data.subs.set tag = some subs ∧ tag.toNat < s'.tag2fdSize ∧
      s' = { s.setData fd { data with subs := subs } with
        tag2fd := Function.update s.tag2fd tag
          (if fd ∈ s.tag2fd tag then s.tag2fd tag else (s.tag2fd tag).orderedInsert (· ≤ ·) fd)
        tag2fdSize := grown s.tag2fdSize (tag + 1).toNat } := by
  rw [subscribe] at h
  by_cases hsize : grown s.tag2fdSize (tag + 1).toNat ≤ tag.toNat
  · simp only [if_pos hsize, reduceCtorEq] at h
  · simp only [if_neg hsize] at h
    obtain ⟨data, hdata, h⟩ := Option.bind_eq_some_iff.mp h
    obtain ⟨subs, hset, rfl⟩ := Option.map_eq_some_iff.mp h
    exact ⟨data, subs, hdata, hset, Nat.lt_of_not_le hsize, rfl⟩

/-! ## A call of `StreamWrite` -/

/-- The ranges of the records that are for the descriptor. -/
def delivered (passed : List (TagType × Bool)) : List (UInt64 × ℕ) :=
  passed.flatMap fun p ↦ if p.2 then p.1.range else []

/-- A first part of the range of a record of the queue. -/
def firstPart (queued : List TagType) (k written : ℕ) : List (UInt64 × ℕ) :=
  (queued[k]?.elim [] TagType.range).take written

theorem firstPart_eq {queued : List TagType} {k : ℕ} {t : TagType} (h : queued[k]? = some t)
    (written : ℕ) : firstPart queued k written = t.range.take written := by
  rw [firstPart, h, Option.elim_some]

theorem delivered_append (l k : List (TagType × Bool)) :
    delivered (l ++ k) = delivered l ++ delivered k :=
  List.flatMap_append

namespace TagStream

/-- The records from one on, with whether they are for the descriptor. -/
def seen (s : TagStream) (fd : ℕ) (data : FDData) (queued : List TagType) (j n : ℕ) :
    List (TagType × Bool) :=
  ((queued.drop j).take n).map fun t ↦ (t, s.wants fd data t)

/-- Where a call stands that began at record `j`, when `n` records are passed. -/
structure Reached (s : TagStream) (fd : ℕ) (queued : List TagType) (data : FDData) (j : ℕ)
    (w : TagWrite) (n : ℕ) : Prop where
  holds : ∃ next, w.store.Holds queued next
  subs_eq : w.data.subs = data.subs
  offset_eq : w.data.currentOffset = TagType.size * (j + n)
  count_eq : w.count = n
  le : n ≤ (queued.drop j).length
  current : w.data.written ≠ 0 → ∃ t, queued[j + n]? = some t ∧ w.data.currentTag = t ∧
    s.wants fd data t = true ∧ w.data.written < t.len.toNat
  bytes_eq : firstPart queued j data.written ++ w.calls.flatMap StreamCall.accepted
    = delivered (s.seen fd data queued j n) ++ firstPart queued (j + n) w.data.written
  isFor : ∀ c ∈ w.calls, ∃ i t, j ≤ i ∧ queued[i]? = some t ∧ s.wants fd data t = true ∧ c.IsFor t

variable {asserts : Bool} {s : TagStream} {fd : ℕ} {results : ℕ → ℤ} {queued : List TagType}
  {data : FDData} {j n : ℕ} {w w' : TagWrite} {t : TagType}

theorem wants_congr {data' : FDData} (h : data'.subs = data.subs) (t : TagType) :
    s.wants fd data' t = s.wants fd data t := by
  rw [wants, wants, h]

theorem delivered_seen_succ (ht : queued[j + n]? = some t) :
    delivered (s.seen fd data queued j (n + 1))
      = delivered (s.seen fd data queued j n) ++ if s.wants fd data t = true then t.range else
        [] := by
  have hget : (queued.drop j)[n]? = some t := by rw [List.getElem?_drop, ht]
  rw [seen, List.take_add_one, hget, Option.toList_some, List.map_append, delivered_append, ← seen]
  simp [delivered]

/-- What no round changes, and what a round only adds to. -/
structure Extends (w w' : TagWrite) : Prop where
  subs_eq : w'.data.subs = w.data.subs
  registered_eq : w'.data.registered = w.data.registered
  calls : w.calls <+: w'.calls
  cache : w.store.Sound → ∃ c, LRUCache.Sound w.store.stream.log.pageSize c ∧
    w'.store = w.store.withCache c

theorem Extends.of_store {w : TagWrite} (hsubs : w'.data.subs = w.data.subs)
    (hregistered : w'.data.registered = w.data.registered) (hcalls : w.calls <+: w'.calls)
    (hstore : w'.store = w.store) : Extends w w' :=
  ⟨hsubs, hregistered, hcalls, fun hsound ↦ ⟨_, hsound, hstore⟩⟩

theorem Extends.refl (w : TagWrite) : Extends w w := .of_store rfl rfl (List.prefix_refl _) rfl

theorem Extends.trans {w₁ w₂ w₃ : TagWrite} (h : Extends w₁ w₂) (h' : Extends w₂ w₃) :
    Extends w₁ w₃ := by
  refine ⟨h'.subs_eq.trans h.subs_eq, h'.registered_eq.trans h.registered_eq,
    h.calls.trans h'.calls, fun hsound ↦ ?_⟩
  obtain ⟨c, hc, heq⟩ := h.cache hsound
  have hsound' : w₂.store.Sound := by
    rw [heq]
    exact hc
  obtain ⟨c', hc', heq'⟩ := h'.cache hsound'
  rw [heq] at hc' heq'
  exact ⟨c', hc', heq'⟩

theorem Extends.holds {w : TagWrite} (h : Extends w w') {next : ℕ}
    (hholds : w.store.Holds queued next) : w'.store.Holds queued next := by
  obtain ⟨c, hc, heq⟩ := h.cache hholds.sound
  rw [heq]
  exact hholds.cache (hholds.pageSize_eq ▸ hc)

theorem extends_call (results : ℕ → ℤ) (w : TagWrite) (offset len : ℕ) :
    Extends w (w.call results offset len) :=
  .of_store rfl rfl (List.prefix_append _ _) rfl

theorem extends_next (w : TagWrite) : Extends w w.next := .of_store rfl rfl (List.prefix_refl _) rfl

theorem extends_partly (w : TagWrite) (written : ℕ) : Extends w (w.partly written) :=
  .of_store rfl rfl (List.prefix_refl _) rfl

theorem extends_round {q : ℤ × TagWrite ⊕ TagWrite} (h : s.round asserts fd results w = some q) :
    Extends w (q.elim Prod.snd id) := by
  rw [round] at h
  by_cases hwritten : w.data.written = 0
  · rw [if_pos hwritten] at h
    obtain ⟨⟨tag, store⟩, hread, h⟩ := Option.bind_eq_some_iff.mp h
    cases tag with
    | none =>
      cases asserts with
      | true => exact absurd h (by simp)
      | false =>
        obtain rfl := Option.some.inj h
        exact ⟨rfl, rfl, List.prefix_refl _, fun hsound ↦ hsound.read hread⟩
    | some t =>
      obtain rfl := Option.some.inj h
      have hkept : Extends w { w with data := { w.data with currentTag := t }, store := store } :=
        ⟨rfl, rfl, List.prefix_refl _, fun hsound ↦ hsound.read hread⟩
      refine hkept.trans ?_
      simp only [first]
      split_ifs
      · exact Extends.refl _
      · exact extends_call _ _ _ _
      · exact (extends_call _ _ _ _).trans (extends_partly _ _)
      · exact (extends_call _ _ _ _).trans (extends_next _)
      · exact extends_next _
  · rw [if_neg hwritten] at h
    obtain rfl := Option.some.inj h
    simp only [TagWrite.resume]
    split_ifs
    · exact extends_call _ _ _ _
    · exact (extends_call _ _ _ _).trans (extends_next _)
    · exact (extends_call _ _ _ _).trans (extends_partly _ _)

theorem extends_streamWriteLoop {maxOffset fuel : ℕ} {x : ℤ}
    (h : s.streamWriteLoop asserts fd results maxOffset fuel w = some (x, w')) : Extends w w' := by
  induction fuel generalizing w with
  | zero => exact absurd h (by simp [streamWriteLoop])
  | succ fuel ih =>
    rw [streamWriteLoop] at h
    by_cases hmore : w.count < maxFDCount ∧ w.data.currentOffset < maxOffset
    · rw [if_pos hmore] at h
      obtain ⟨q, hround, h⟩ := Option.bind_eq_some_iff.mp h
      have hext := extends_round hround
      cases q with
      | inl r =>
        obtain rfl := Option.some.inj h
        exact hext
      | inr w₁ => exact hext.trans (ih h)
    · rw [if_neg hmore] at h
      obtain ⟨-, rfl⟩ := Prod.ext_iff.mp (Option.some.inj h)
      exact Extends.refl _

theorem lt_length_drop (ht : queued[j + n]? = some t) : n < (queued.drop j).length :=
  (List.getElem?_eq_some_iff.mp (List.getElem?_drop.trans ht)).1

namespace Reached

theorem offset_next (h : s.Reached fd queued data j w n) (hlt : j + n < queued.length) :
    CInt.toUnsigned 64 (w.data.currentOffset + TagType.size : ℕ)
      = TagType.size * (j + (n + 1)) := by
  obtain ⟨next, hholds⟩ := h.holds
  have htotal := hholds.total_eq
  have hmax := hholds.total_lt
  rw [TagType.size] at htotal
  rw [h.offset_eq, TagType.size, CInt.toUnsigned_natCast (by omega)]
  omega

theorem skip (h : s.Reached fd queued data j w n) (ht : queued[j + n]? = some t)
    (hwants : s.wants fd data t = false) (hwritten : w.data.written = 0) :
    s.Reached fd queued data j w.next (n + 1) := by
  have hlt := (List.getElem?_eq_some_iff.mp ht).1
  refine ⟨h.holds, h.subs_eq, h.offset_next hlt, congrArg (· + 1) h.count_eq, lt_length_drop ht,
    fun h0 ↦ absurd rfl h0, ?_, h.isFor⟩
  have hbytes := h.bytes_eq
  rw [hwritten] at hbytes
  rw [delivered_seen_succ ht, hwants]
  simpa [firstPart, TagWrite.next] using hbytes

variable (results) in
/-- A call for the rest of the current record. Where that is taken the record is passed, else there
is more of it written. -/
theorem call (h : s.Reached fd queued data j w n) (ht : queued[j + n]? = some t)
    (hwants : s.wants fd data t = true) (hcurrent : w.data.currentTag = t)
    (hle : w.data.written ≤ t.len.toNat)
    (hw : w' = w.call results ((t.offset.toNat + w.data.written) % 2 ^ 64)
      (t.len.toNat - w.data.written))
    (haccepts : ∀ c ∈ w'.calls, c.Accepts) {x : ℤ} (hx : x = results w.calls.length) :
    0 ≤ x ∧ w.data.written + x.toNat ≤ t.len.toNat ∧
      (w.data.written + x.toNat = t.len.toNat → s.Reached fd queued data j w'.next (n + 1)) ∧
      (w.data.written + x.toNat < t.len.toNat →
        s.Reached fd queued data j (w'.partly (w.data.written + x.toNat)) n ∧
          ∃ c ∈ w'.calls, c.result < c.len) := by
  have hlt := (List.getElem?_eq_some_iff.mp ht).1
  obtain ⟨c, hc⟩ : ∃ c : StreamCall, c = ⟨t.streamId, (t.offset.toNat + w.data.written) % 2 ^ 64,
      t.len.toNat - w.data.written, x⟩ := ⟨_, rfl⟩
  have hcalls : w'.calls = w.calls ++ [c] := by rw [hw, TagWrite.call, hcurrent, hc, hx]
  have hmem : c ∈ w'.calls := by
    rw [hcalls]
    exact List.mem_append_right _ (List.mem_singleton_self c)
  have hdata : w'.data = w.data := by rw [hw, TagWrite.call]
  have hstore : w'.store = w.store := by rw [hw, TagWrite.call]
  have hcount : w'.count = w.count := by rw [hw, TagWrite.call]
  obtain ⟨hnonneg, hmost⟩ : 0 ≤ x ∧ x ≤ (t.len.toNat - w.data.written : ℕ) := by
    have hone := haccepts c hmem
    rw [hc] at hone
    exact hone
  have hfor : ∀ c ∈ w'.calls, ∃ i t, j ≤ i ∧ queued[i]? = some t ∧ s.wants fd data t = true ∧
    c.IsFor t := by
    intro c' hc'
    rw [hcalls] at hc'
    rcases List.mem_append.mp hc' with hc' | hc'
    · exact h.isFor c' hc'
    · rw [List.mem_singleton.mp hc', hc]
      exact ⟨j + n, t, Nat.le_add_right j n, ht, hwants, rfl, w.data.written, hle, rfl, rfl⟩
  -- what the call took comes right behind what was accepted before it
  have hbytes : firstPart queued j data.written ++ w'.calls.flatMap StreamCall.accepted
      = delivered (s.seen fd data queued j n) ++ t.range.take (w.data.written + x.toNat) := by
    have hone : [c].flatMap StreamCall.accepted
        = streamBytes t.streamId ((t.offset.toNat + w.data.written) % 2 ^ 64) x.toNat := by
      rw [List.flatMap_singleton, hc, StreamCall.accepted]
    rw [hcalls, List.flatMap_append, hone, ← List.append_assoc, h.bytes_eq, firstPart_eq ht,
      List.append_assoc, t.take_range_append (by omega)]
  refine ⟨hnonneg, by omega, fun hdone ↦ ?_, fun hmore ↦ ⟨?_, c, hmem, ?_⟩⟩
  · refine ⟨?_, ?_, ?_, ?_, lt_length_drop ht, fun h0 ↦ absurd rfl h0, ?_, hfor⟩
    · rw [TagWrite.next, hstore]
      exact h.holds
    · rw [TagWrite.next, hdata]
      exact h.subs_eq
    · rw [TagWrite.next, hdata]
      exact h.offset_next hlt
    · rw [TagWrite.next, hcount, h.count_eq]
    · rw [hdone, t.take_range] at hbytes
      rw [delivered_seen_succ ht, if_pos hwants]
      simpa [firstPart, TagWrite.next] using hbytes
  · refine ⟨?_, ?_, ?_, ?_, h.le, fun _ ↦ ⟨t, ht, ?_, hwants, hmore⟩, ?_, hfor⟩
    · rw [TagWrite.partly, hstore]
      exact h.holds
    · rw [TagWrite.partly, hdata]
      exact h.subs_eq
    · rw [TagWrite.partly, hdata]
      exact h.offset_eq
    · rw [TagWrite.partly, hcount, h.count_eq]
    · rw [TagWrite.partly, hdata, hcurrent]
    · rw [firstPart_eq ht]
      exact hbytes
  · rw [hc]
    simp only
    omega

theorem round (h : s.Reached fd queued data j w n) (ht : queued[j + n]? = some t)
    (hpersistent : t.isPersistent = true) {q : ℤ × TagWrite ⊕ TagWrite}
    (hround : s.round asserts fd results w = some q)
    (haccepts : ∀ c ∈ (q.elim Prod.snd id).calls, c.Accepts) :
    (∃ w', q = .inr w' ∧ s.Reached fd queued data j w' (n + 1)) ∨
      ∃ x w', q = .inl (x, w') ∧ s.Reached fd queued data j w' n ∧
        (x = -1 ∨ x = 1 ∧ ∃ c ∈ w'.calls, c.result < c.len) := by
  rw [TagStream.round] at hround
  by_cases hwritten : w.data.written = 0
  · rw [if_pos hwritten] at hround
    obtain ⟨next, hholds⟩ := h.holds
    obtain ⟨r, store, hread, hholds', hr⟩ := hholds.read_record ht
    rw [h.offset_eq, hread, Option.bind_some] at hround
    rcases hr with rfl | rfl
    · cases asserts with
      | true => exact absurd hround (by simp)
      | false =>
        obtain rfl := Option.some.inj hround
        exact Or.inr ⟨-1, _, rfl, { h with holds := ⟨next, hholds'⟩ }, Or.inl rfl⟩
    · obtain rfl := Option.some.inj hround
      obtain ⟨w₁, hw₁⟩ : ∃ w₁ : TagWrite, w₁ = { w with
          data := { w.data with currentTag := t }, store := store } := ⟨_, rfl⟩
      have h₁ : s.Reached fd queued data j w₁ n := by
        rw [hw₁]
        exact { h with holds := ⟨next, hholds'⟩, current := fun h0 ↦ absurd hwritten h0 }
      have hcurrent : w₁.data.currentTag = t := by rw [hw₁]
      have hwritten₁ : w₁.data.written = 0 := by
        rw [hw₁]
        exact hwritten
      rw [← hw₁] at haccepts ⊢
      have hold : isOld w₁.data t = false := by
        rw [isOld, hpersistent]
        rfl
      simp only [first, hcurrent, hold, Bool.false_eq_true, if_false, wants_congr h₁.subs_eq]
        at haccepts ⊢
      -- a record that nobody wants is passed without a call
      cases hwants : s.wants fd data t with
      | false =>
        simp only [Bool.false_eq_true, if_false]
        exact Or.inl ⟨_, rfl, h₁.skip ht hwants hwritten₁⟩
      | true =>
        simp only [hwants, if_true] at haccepts ⊢
        have hoffset : (t.offset.toNat + w₁.data.written) % 2 ^ 64 = t.offset.toNat := by
          rw [hwritten₁, Nat.add_zero, Nat.mod_eq_of_lt t.offset.toNat_lt]
        obtain ⟨hx, hle, hdone, hmore⟩ := h₁.call results ht hwants hcurrent (by omega) rfl
          (fun c hc ↦ haccepts c (by
            rw [hoffset, hwritten₁, Nat.sub_zero] at hc
            split_ifs <;> exact hc)) rfl
        rw [hoffset, hwritten₁, Nat.sub_zero, Nat.zero_add] at hdone hmore
        rw [hwritten₁, Nat.zero_add] at hle
        rw [if_neg (Int.not_lt_of_ge hx)]
        split_ifs with hlt
        · obtain ⟨hreached, hpart⟩ := hmore (by omega)
          exact Or.inr ⟨1, _, rfl, hreached, Or.inr ⟨rfl, hpart⟩⟩
        · exact Or.inl ⟨_, rfl, hdone (by omega)⟩
  -- the call before took a part of the record, so the rest is offered
  · obtain ⟨t', ht', hcurrent, hwants, hlt⟩ := h.current hwritten
    obtain rfl : t = t' := Option.some.inj (ht.symm.trans ht')
    rw [if_neg hwritten] at hround
    obtain rfl := Option.some.inj hround
    have hoffset : CInt.toUnsigned 64 (t.offset.toNat + w.data.written : ℕ)
        = (t.offset.toNat + w.data.written) % 2 ^ 64 := CInt.toUnsigned_natCast_eq_mod 64 _
    have hrest : CInt.toUnsigned 64 (t.len.toNat - w.data.written : ℤ)
      = t.len.toNat - w.data.written := by
      have hlen := t.len.toNat_lt
      rw [← Int.ofNat_sub (Nat.le_of_lt hlt), CInt.toUnsigned_natCast (by omega)]
    simp only [TagWrite.resume, hcurrent, hoffset, hrest] at haccepts ⊢
    obtain ⟨hx, hle, hdone, hmore⟩ := h.call results ht hwants hcurrent (Nat.le_of_lt hlt) rfl
      (fun c hc ↦ haccepts c (by split_ifs <;> exact hc)) rfl
    have hwritten' : CInt.toUnsigned 64 (w.data.written + results w.calls.length)
        = w.data.written + (results w.calls.length).toNat := by
      rw [← Int.toNat_of_nonneg hx, ← Int.natCast_add, Int.toNat_natCast,
        CInt.toUnsigned_natCast (Nat.lt_of_le_of_lt hle t.len.toNat_lt)]
    have hsame : (w.call results ((t.offset.toNat + w.data.written) % 2 ^ 64)
        (t.len.toNat - w.data.written)).data.written = w.data.written := rfl
    rw [if_neg (Int.not_lt_of_ge hx), hsame, hwritten']
    split_ifs with heq
    · exact Or.inl ⟨_, rfl, hdone heq⟩
    · obtain ⟨hreached, hpart⟩ := hmore (by omega)
      exact Or.inr ⟨1, _, rfl, hreached, Or.inr ⟨rfl, hpart⟩⟩

/-- **The loop of `StreamWrite`** goes from record to record. Where it says that nothing is left all
records are passed; where it says that there is more, it passed as many records as it may, or a
callback did not take all. -/
theorem streamWriteLoop (h : s.Reached fd queued data j w n)
    (hpersistent : ∀ t ∈ queued.drop j, t.isPersistent = true) {fuel : ℕ} {x : ℤ}
    (hloop : s.streamWriteLoop asserts fd results (TagType.size * queued.length) fuel w =
      some (x, w'))
    (haccepts : ∀ c ∈ w'.calls, c.Accepts) :
    ∃ n', s.Reached fd queued data j w' n' ∧ (x = 0 → j + n' = queued.length) ∧
      (x = 1 → maxFDCount ≤ n' ∨ (∃ c ∈ w'.calls, c.result < c.len) ∨ queued.length < j + n') := by
  induction fuel generalizing w n with
  | zero => exact absurd hloop (by simp [TagStream.streamWriteLoop])
  | succ fuel ih =>
    rw [TagStream.streamWriteLoop] at hloop
    by_cases hmore : w.count < maxFDCount ∧ w.data.currentOffset < TagType.size * queued.length
    · rw [if_pos hmore] at hloop
      obtain ⟨q, hround, hloop⟩ := Option.bind_eq_some_iff.mp hloop
      have hlt : j + n < queued.length := by
        have hoffset := hmore.2
        rw [h.offset_eq] at hoffset
        exact Nat.lt_of_mul_lt_mul_left hoffset
      have hcalls : ∀ c ∈ (q.elim Prod.snd id).calls, c.Accepts := by
        cases q with
        | inl r =>
          obtain rfl := Option.some.inj hloop
          exact haccepts
        | inr w₁ => exact fun c hc ↦ haccepts c ((extends_streamWriteLoop hloop).calls.subset hc)
      have hdrop : queued[j + n] ∈ queued.drop j :=
        List.mem_of_getElem? (by rw [List.getElem?_drop, List.getElem?_eq_getElem hlt])
      rcases h.round (List.getElem?_eq_getElem hlt) (hpersistent _ hdrop) hround hcalls with
        ⟨w₁, rfl, hnext⟩ | ⟨x', w₁, rfl, hstay, hx⟩
      · exact ih hnext hloop
      · obtain ⟨rfl, rfl⟩ := Prod.ext_iff.mp (Option.some.inj hloop)
        refine ⟨n, hstay, fun h0 ↦ ?_, fun h1 ↦ ?_⟩
        · rcases hx with hx | ⟨hx, -⟩ <;> simp only at h0 hx <;> omega
        · rcases hx with hx | ⟨-, hpart⟩
          · simp only at h1 hx
            omega
          · exact Or.inr (Or.inl hpart)
    · rw [if_neg hmore] at hloop
      obtain ⟨rfl, rfl⟩ := Prod.ext_iff.mp (Option.some.inj hloop)
      have hoffset := h.offset_eq
      have hcount := h.count_eq
      rw [TagType.size] at hoffset hmore
      by_cases hend : w.data.currentOffset = TagType.size * queued.length
      · rw [TagType.size] at hend
        exact ⟨n, h, fun _ ↦ by omega, fun h1 ↦ absurd h1 (by simp [TagType.size, hend])⟩
      · rw [TagType.size] at hend
        exact ⟨n, h, fun h0 ↦ absurd h0 (by simp [TagType.size, hend]), fun _ ↦ by omega⟩

end Reached

end TagStream

end Coypu
