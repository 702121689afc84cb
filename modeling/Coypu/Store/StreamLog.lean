import Coypu.Store.CacheLaws
import Coypu.Store.PagedAppends
import Coypu.Store.PagedReads

/-!
# The log of a stream

The pages of a stream are memory of their own, and the cache that is told about each is all that
holds them. While no page begins at or behind `2³²`, the cache holds consecutive pages up to the one
that is written next (`Streaming`), whatever was read in between.
-/

set_option autoImplicit false

namespace Coypu

open LogWriteBuf OneShotCache Transport

/-- The pages that begin before an offset begin before `2³²`. -/
def PagesFit (pageSize n : ℕ) : Prop := (n - 1) / pageSize * pageSize < 2 ^ 32

instance (pageSize n : ℕ) : Decidable (PagesFit pageSize n) :=
  inferInstanceAs (Decidable ((n - 1) / pageSize * pageSize < 2 ^ 32))

theorem PagesFit.lt {pageSize n k : ℕ} (h : PagesFit pageSize n) (hpage : 0 < pageSize)
    (hk : k * pageSize < n) : k * pageSize < 2 ^ 32 := by
  have hle : k ≤ (n - 1) / pageSize := (Nat.le_div_iff_mul_le hpage).mpr (by omega)
  exact Nat.lt_of_le_of_lt (Nat.mul_le_mul_right _ hle) h

theorem PagesFit.mono {pageSize n m : ℕ} (h : PagesFit pageSize n) (hm : m ≤ n) :
    PagesFit pageSize m :=
  Nat.lt_of_le_of_lt (Nat.mul_le_mul_right _ (Nat.div_le_div_right (Nat.sub_le_sub_right hm 1))) h

/-- A writer at the end of its pages, and a cache of the last ones of them. None begins before the
`origin` of the stream. -/
structure Streaming (origin : ℕ) (r : LogWriteBuf × OneShotCache) : Prop where
  appending : r.1.Appending
  readOnly_eq : r.1.readOnly = false
  sound : r.2.Sound r.1.pageSize
  exists_holding : ∃ first next, first ≤ next ∧ r.2 = holding r.1.pageSize first next ∧
    next * r.1.pageSize = r.1.offset ∧ origin ≤ first * r.1.pageSize

namespace Streaming

variable {origin : ℕ} {r : LogWriteBuf × OneShotCache} {l : List UInt8}

theorem findPage (h : Streaming origin r) (offset : ℕ) :
    Streaming origin (r.1, (r.2.findPage offset).2) := by
  obtain ⟨first, next, hle, hholding, hnext, horigin⟩ := h.exists_holding
  refine ⟨h.appending, h.readOnly_eq, h.sound.findPage r.1.pageSize_pos offset, ?_⟩
  have hsound := h.sound
  rw [hholding] at hsound ⊢
  rcases findPage_cases r.1.pageSize_pos hle hsound offset with ⟨-, heq⟩ | ⟨hge, hlt, heq⟩ |
    ⟨-, heq⟩
  · exact ⟨first, next, hle, by rw [heq], hnext, horigin⟩
  · refine ⟨offset / r.1.pageSize, next, Nat.le_of_lt hlt, by rw [heq], hnext, ?_⟩
    exact Nat.le_trans horigin (Nat.mul_le_mul_right _ hge)
  · refine ⟨next, next, Nat.le_refl _, by rw [heq], hnext, ?_⟩
    exact Nat.le_trans horigin (Nat.mul_le_mul_right _ hle)

theorem makeRoom (h : Streaming origin r) (hlt : r.1.isFull = true → r.1.offset < 2 ^ 32) :
    Streaming origin (makeRoom ReadCache.addPage r) := by
  obtain ⟨happ, -, -⟩ := h.appending.makeRoom (f := ReadCache.addPage)
  by_cases hfull : r.1.isFull = true
  · obtain ⟨first, next, hle, hholding, hnext, horigin⟩ := h.exists_holding
    have hcache : (LogWriteBuf.makeRoom ReadCache.addPage r).2
        = holding r.1.pageSize first (next + 1) := by
      rw [makeRoom_of_full hfull, ← addPage_holding hle, hnext, ← hholding]
      rfl
    refine ⟨happ, by rw [makeRoom_readOnly, h.readOnly_eq], ?_,
      first, next + 1, Nat.le_succ_of_le hle, ?_, ?_, ?_⟩
    · rw [hcache, makeRoom_pageSize]
      refine sound_holding (Nat.le_succ_of_le hle) fun k h₁ h₂ ↦ ?_
      rcases Nat.lt_succ_iff_lt_or_eq.mp h₂ with h₂ | rfl
      · have hsound := h.sound
        rw [hholding] at hsound
        exact hsound.base_lt _ (mem_run.mpr ⟨k, h₁, h₂, rfl⟩)
      · rw [hnext]
        exact hlt hfull
    · rw [hcache, makeRoom_pageSize]
    · rw [makeRoom_of_full hfull, allocatePage, ← hnext, Nat.add_one_mul]
    · rwa [makeRoom_pageSize]
  · rw [Bool.not_eq_true] at hfull
    rwa [makeRoom_of_not_full hfull]

theorem fill (h : Streaming origin r) (hfull : r.1.isFull = false)
    (hroom : r.1.position + l.length ≤ r.1.pageSize) : Streaming origin (r.1.fill l, r.2) :=
  ⟨(h.appending.fill hfull hroom).1, h.readOnly_eq, h.sound, h.exists_holding⟩

theorem of_position (h : Streaming origin r) {position : ℕ} (hle : position ≤ r.1.pageSize) :
    Streaming origin ({ r.1 with position := position }, r.2) :=
  ⟨⟨h.appending.dvd, hle, h.appending.page_eq, h.appending.size_eq⟩, h.readOnly_eq, h.sound,
    h.exists_holding⟩

theorem of_size (h : Streaming origin r) {f : MappedFile} (hsize : f.size = r.1.file.size) :
    Streaming origin ({ r.1 with file := f }, r.2) :=
  ⟨⟨h.appending.dvd, h.appending.position_le, h.appending.page_eq,
    hsize.trans h.appending.size_eq⟩, h.readOnly_eq, h.sound, h.exists_holding⟩

theorem of_write (h : Streaming origin r) (start : ℕ) (l : List UInt8) :
    Streaming origin ({ r.1 with file := r.1.file.write start l }, r.2) :=
  h.of_size rfl

theorem offset_lt (h : Streaming origin r) {n : ℕ} (hn : r.1.tell < n)
    (hfits : PagesFit r.1.pageSize n) (hfull : r.1.isFull = true) : r.1.offset < 2 ^ 32 := by
  obtain ⟨first, next, -, -, hnext, -⟩ := h.exists_holding
  rw [← hnext]
  refine hfits.lt r.1.pageSize_pos ?_
  rwa [hnext, ← h.appending.tell_of_full hfull]

theorem push (h : Streaming origin r) (hfits : PagesFit r.1.pageSize (r.1.tell + l.length)) :
    Streaming origin (l.foldl (pushByte ReadCache.addPage) r) := by
  induction l generalizing r with
  | nil => exact h
  | cons x l ih =>
    rw [List.length_cons] at hfits
    have hlt := makeRoom_position_lt (f := ReadCache.addPage) h.appending.position_le
    obtain ⟨-, htell, -⟩ := h.appending.pushByte (f := ReadCache.addPage) x
    refine ih ((h.makeRoom (h.offset_lt (by omega) hfits)).fill makeRoom_not_full ?_) ?_
    · rw [List.length_singleton, makeRoom_pageSize]
      exact hlt
    · have hpage : (pushByte ReadCache.addPage r x).1.pageSize = r.1.pageSize := by
        rw [pushByte, fill_pageSize, makeRoom_pageSize]
      rwa [htell, hpage, Nat.add_assoc, Nat.add_comm 1]

theorem readv (h : Streaming origin r) (hfits : PagesFit r.1.pageSize (r.1.tell + 1))
    (cb : Reader UInt8) : Streaming origin (LogWriteBuf.readv ReadCache.addPage cb r).2 := by
  have hlt := makeRoom_position_lt (f := ReadCache.addPage) h.appending.position_le
  have hlen := cb.length_bytes_le
    [(LogWriteBuf.makeRoom ReadCache.addPage r).1.pageSize
      - (LogWriteBuf.makeRoom ReadCache.addPage r).1.position]
  rw [List.sum_singleton, makeRoom_pageSize] at hlen
  rw [LogWriteBuf.readv, if_neg (by simp [h.readOnly_eq])]
  refine (h.makeRoom (h.offset_lt (Nat.lt_succ_self _) hfits)).fill makeRoom_not_full ?_
  rw [makeRoom_pageSize]
  omega

theorem zeroCopyNext (h : Streaming origin r) (hfits : PagesFit r.1.pageSize (r.1.tell + 1)) :
    Streaming origin (LogWriteBuf.zeroCopyNext ReadCache.addPage r).2.2 := by
  rw [LogWriteBuf.zeroCopyNext, if_neg (by simp [h.readOnly_eq])]
  exact (h.makeRoom (h.offset_lt (Nat.lt_succ_self _) hfits)).of_position
    (Nat.le_refl _)

end Streaming

namespace PagedLog

variable {cacheSize origin : ℕ} {s : PagedLog OneShotCache cacheSize}

/-- Pages begin before `2³²`, and their numbers fit in 32 bits where a loop goes through them. The
position of the writer is not set, since pages have to come in order. -/
def StreamFits (s : PagedLog OneShotCache cacheSize) : LogRequest → Prop
  | .push l => PagesFit s.pageSize (s.writeBuf.tell + l.length)
  | .readv _ | .zeroCopyWriteNext _ => PagesFit s.pageSize (s.writeBuf.tell + 1)
  | .setPosition _ => False
  | .pop _ _ | .find _ _ => s.page s.available + 1 < 2 ^ 32
  | .zeroCopyWriteBackup _ | .peak _ | .writev _ _ _ => True

theorem streaming_step (h : Streaming origin (s.writeBuf, s.cache)) {op : LogRequest}
    (hfits : op.Reads ∨ s.StreamFits op) :
    Streaming origin ((s.step op).1.writeBuf, (s.step op).1.cache) := by
  have hread (c : OneShotCache) (k : ℕ) (_ : k ≤ s.page s.available)
      (hc : Streaming origin (s.writeBuf, c)) :
      Streaming origin (s.writeBuf, (ReadCache.findPage c (k * s.pageSize)).2) :=
    hc.findPage (k * s.pageSize)
  by_cases hreads : op.Reads
  · obtain ⟨c, hs, hc⟩ := step_of_reads (P := fun c ↦ Streaming origin (s.writeBuf, c)) hreads
      hread (fun _ _ hc ↦ hc) h
    rw [hs]
    exact hc
  replace hfits := hfits.resolve_left hreads
  cases op with
  | push l =>
    have hpush := push_eq (f := ReadCache.addPage) (s := (s.writeBuf, s.cache)) h.readOnly_eq
      h.appending.position_le l
    simp only [step, PagedLog.push, update, hpush]
    exact h.push hfits
  | readv cb => exact h.readv hfits cb
  | zeroCopyWriteNext content =>
    have hnext := h.zeroCopyNext hfits
    simp only [step, writeNext]
    split
    · exact hnext
    · exact hnext.of_write _ _
  | zeroCopyWriteBackup len =>
    simp only [step, zeroCopyWriteBackup, backup]
    split_ifs
    · exact h
    · exact h.of_position (Nat.le_trans (Nat.sub_le _ _) h.appending.position_le)
  | setPosition offset => exact absurd hfits id
  | peak | pop | find | writev => exact absurd trivial hreads

/-- The log of a stream whose first page has a number. -/
def ofStream (cacheSize pageSize : ℕ) (hpage : 0 < pageSize) (first : ℕ) :
    PagedLog OneShotCache cacheSize :=
  new pageSize hpage (first * pageSize) true (MappedFile.empty.truncate (first * pageSize))
    (OneShotCache.new pageSize)

theorem streaming_ofStream {pageSize : ℕ} (hpage : 0 < pageSize) (first : ℕ) :
    Streaming (first * pageSize) ((ofStream cacheSize pageSize hpage first).writeBuf,
      (ofStream cacheSize pageSize hpage first).cache) := by
  have hempty : OneShotCache.new pageSize = holding pageSize first first := by
    rw [holding, run_eq_nil (Nat.le_refl _)]
    rfl
  refine ⟨(writable_new hpage (Nat.dvd_mul_left _ _) true rfl
    (OneShotCache.new pageSize) : (ofStream cacheSize pageSize hpage first).Writable).appending,
    rfl, ?_, first, first, Nat.le_refl _, hempty, rfl, Nat.le_refl _⟩
  have hsound : (holding pageSize first first).Sound pageSize :=
    sound_holding (Nat.le_refl _) fun k h₁ h₂ ↦ absurd h₂ (Nat.not_lt_of_le h₁)
  rwa [← hempty] at hsound

end PagedLog

end Coypu
