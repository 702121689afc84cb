import Coypu.Store.CursorEnd
import Coypu.Store.PositionedStream
import Coypu.Store.Unmasking

/-!
# The paged log as one memory

The publish log and the streams of the connections are `LogRWStream`s, whose bytes lie in one memory
and whose environment says which pages are found. A `PagedLog` has the page of its writer and the
pages of its cache, as the code has them. It refines the other (`Shows`): where its calls return and
page numbers fit in 32 bits, `LogRWStream` gives the same answers if the environment finds the pages
that the cache finds, in every run of the log of a file (`run_shows_file`) and of the log of a
stream, whose payloads are unmasked in place (`run_shows_stream`).
-/

set_option autoImplicit false

namespace Coypu

open FlatMemory LawfulReadCache Transport

/-! ## Requests to one memory -/

/-- The requests that both logs have. -/
def LogRequest.Shared : LogRequest → Prop
  | .push _ | .readv _ | .peak _ | .pop _ _ | .writev _ _ _ => True
  | _ => False

namespace LogRWStream

variable {cacheSize : ℕ}

/-- A request and its answer, in an environment that finds some pages. -/
def step (s : LogRWStream cacheSize) :
    (ℕ → Bool) × LogRequest → LogRWStream cacheSize × LogAnswer
  | (_, .push l) => ((s.push l none).2, .result (if (s.push l none).1 then 0 else -1))
  | (_, .readv cb) => ((s.readv cb).2, .result (s.readv cb).1)
  | (find, .peak offset) => (s, .byte (s.peak find offset))
  | (find, .pop start size) => (s, .bytes (s.pop find start size))
  | (find, .writev start size cb) =>
    (s, .written (s.writev find start size cb).1 (gather s.data (s.writev find start size cb).2))
  | _ => (s, .stuck)

/-- A request, or the unmasking of a range. -/
def maskStep (s : LogRWStream cacheSize) :
    (ℕ → Bool) × PagedLog.MaskRequest → LogRWStream cacheSize × Option (Bool ⊕ LogAnswer)
  | (find, .log op) => ((s.step (find, op)).1, some (.inr (s.step (find, op)).2))
  | (find, .unmask start len mask) =>
    ((s.unmask find start len mask).2, some (.inl (s.unmask find start len mask).1))

end LogRWStream

namespace PagedLog

variable {C : Type*} {cacheSize : ℕ} {p p' : PagedLog C cacheSize} {s s' : LogRWStream cacheSize}
  {l : List UInt8}

/-- The writer stands at the end of both logs, and their bytes are the same. -/
structure Shows (p : PagedLog C cacheSize) (s : LogRWStream cacheSize) : Prop where
  writable : p.Writable
  pageSize_eq : s.pageSize = p.pageSize
  available_eq : s.available = p.available
  position_eq : s.position = p.available
  data_eq : s.data = p.file.data

namespace Shows

theorem page_eq (h : Shows p s) (offset : ℕ) : s.page offset = p.page offset := by
  rw [LogRWStream.page, PagedLog.page, h.pageSize_eq]

theorem last_eq (h : Shows p s) : s.page s.available = p.page p.available := by
  rw [h.page_eq, h.available_eq]

theorem of_extends (h : Shows p s) (hext : p.Extends l p') (hpage : s'.pageSize = s.pageSize)
    (havailable : s'.available = s.available + l.length)
    (hposition : s'.position = s.position + l.length)
    (hdata : s'.data = store s.data s.position l) : Shows p' s' where
  writable := hext.writable
  pageSize_eq := by rw [hpage, h.pageSize_eq, hext.pageSize_eq]
  available_eq := by rw [havailable, h.available_eq, hext.available_eq]
  position_eq := by rw [hposition, h.position_eq, hext.available_eq]
  data_eq := by rw [hdata, h.data_eq, h.position_eq, hext.data_eq]

theorem of_cache (h : Shows p s) (c : C) : Shows { p with cache := c } s :=
  ⟨h.writable.cache c, h.pageSize_eq, h.available_eq, h.position_eq, h.data_eq⟩

end Shows

variable [ReadCache C]

namespace Shows

/-! ## Appending -/

theorem push (h : Shows p s) (hlt : (p.push l).2.available < 2 ^ 63) :
    Shows (p.push l).2 (s.push l none).2 ∧ (p.push l).1 = 0 ∧ (s.push l none).1 = true := by
  obtain ⟨hret, hext, -⟩ := h.writable.push l
  have hroom : s.position + l.length < 2 ^ 63 := by
    rwa [h.position_eq, ← hext.available_eq]
  have hpush : s.push l none = (true, { s with
      data := store s.data s.position l
      position := s.position + l.length
      available := s.available + l.length
      available_le := Nat.add_le_add_right s.available_le _
      position_lt := hroom }) := by
    rw [LogRWStream.push]
    exact dif_pos hroom
  rw [hpush]
  exact ⟨h.of_extends hext rfl rfl rfl rfl, hret, rfl⟩

theorem readv (h : Shows p s) (cb : Reader UInt8) (hlt : (p.readv cb).2.available < 2 ^ 63) :
    Shows (p.readv cb).2 (s.readv cb).2 ∧ (s.readv cb).1 = (p.readv cb).1 := by
  obtain ⟨hret, hext, -⟩ := h.writable.readv cb
  have hoffered : s.pageSize - s.position % s.pageSize = p.room := by
    rw [h.pageSize_eq, h.position_eq, room]
  rw [← hoffered] at hret hext
  have hroom : s.position + (cb.run [s.pageSize - s.position % s.pageSize]).bytes.length
      < 2 ^ 63 := by
    calc
      s.position + (cb.run [s.pageSize - s.position % s.pageSize]).bytes.length
          = (p.readv cb).2.available := by rw [hext.available_eq, h.position_eq]
      _ < 2 ^ 63 := hlt
  rw [LogRWStream.readv]
  simp only [dif_pos hroom]
  exact ⟨h.of_extends hext rfl rfl rfl rfl, hret.symm⟩

end Shows

/-! ## Pages that are found -/

/-- What the cache says about the page at an offset. -/
def finds (p : PagedLog C cacheSize) (offset : ℕ) : Bool :=
  (ReadCache.findPage p.cache offset).1.isSome

/-- The request is one that both logs have, and its call returns. Page numbers fit in 32 bits, and
offsets in an `off64_t` also behind the call. -/
structure Covered (p : PagedLog C cacheSize) (op : LogRequest) : Prop where
  shared : op.Shared
  small : p.NumbersSmall
  available_lt : (p.step op).1.available < 2 ^ 63
  returns : (p.step op).2 ≠ .stuck

variable [LawfulReadCache C]

theorem finds_iff (hc : Sound p.pageSize p.cache) {offset : ℕ}
    (hoffset : offset < 2 ^ 32 * p.pageSize) :
    p.finds offset = true ↔ Kept p.pageSize p.cache (offset / p.pageSize) := by
  by_cases hkept : Kept p.pageSize p.cache (offset / p.pageSize)
  · rw [finds, findPage_of_kept p.pageSize_pos hc hoffset hkept]
    exact iff_of_true rfl hkept
  · rw [finds, findPage_of_not_kept p.pageSize_pos hc hkept]
    exact iff_of_false Bool.false_ne_true hkept

/-! ## The loops -/

section Loop

variable {find : ℕ → Bool} {start size slots fuel i queued : ℕ} {c c' : C}
  {r : Option (List UInt8)}

/-- From page `i` on, the environment finds the pages that the cache keeps. -/
def FindsKept (p : PagedLog C cacheSize) (find : ℕ → Bool) (c : C) (i : ℕ) : Prop :=
  ∀ k, i ≤ k → k ≤ p.page p.available → (find (k * p.pageSize) = true ↔ Kept p.pageSize c k)

theorem findsKept (hc : Sound p.pageSize p.cache) (i : ℕ) : p.FindsKept p.finds p.cache i := by
  intro k _ hk
  have hlt := p.page_lt p.available
  rw [finds_iff hc (Nat.mul_lt_mul_of_pos_right (by omega) p.pageSize_pos),
    Nat.mul_div_cancel k p.pageSize_pos]

/-- The look-up of page `i` does not change which of the pages behind it are found. -/
theorem FindsKept.next (h : p.FindsKept find c i) (hc : Sound p.pageSize c) :
    p.FindsKept find (ReadCache.findPage c (i * p.pageSize)).2 (i + 1) :=
  fun k hk hle ↦ (h k (Nat.le_of_succ_le hk) hle).trans
    (kept_findPage_iff hc (Nat.le_of_succ_le hk)).symm

namespace Shows

/-- The segments that are offered. The induction is on the slots left. -/
theorem writevLoop (h : Shows p s) (hlast : p.page p.available + 1 < 2 ^ 32)
    (hc : Sound p.pageSize c) (hfind : p.FindsKept find c i) :
    (p.writevLoop start size slots i queued c).1 = s.writevLoop find start size slots i queued := by
  induction slots generalizing i queued c with
  | zero => rfl
  | succ slots ih =>
    rw [PagedLog.writevLoop, LogRWStream.writevLoop, h.last_eq, h.pageSize_eq]
    by_cases hmore : queued < size ∧ i ≤ p.page p.available
    · rw [if_pos hmore, if_pos hmore]
      have hnext : CInt.toUnsigned 32 (i + 1 : ℕ) = i + 1 := CInt.toUnsigned_natCast (by omega)
      by_cases hkept : Kept p.pageSize c i
      · simp only [findPage_first hc hmore.2 hkept, (hfind i (Nat.le_refl i) hmore.2).mpr hkept,
          hnext, if_true]
        rw [ih (findPage_sound p.pageSize_pos hc _) (hfind.next hc)]
      · have hnone := findPage_of_not_kept p.pageSize_pos hc
          (by rwa [Nat.mul_div_cancel i p.pageSize_pos] :
            ¬Kept p.pageSize c (i * p.pageSize / p.pageSize))
        have hfalse : find (i * p.pageSize) = false := by
          rw [← Bool.not_eq_true, hfind i (Nat.le_refl i) hmore.2]
          exact hkept
        simp only [hnone, hfalse, Bool.false_eq_true, if_false]
    · rw [if_neg hmore, if_neg hmore]

/-- The bytes that are copied, where the loop ends. The induction is on the rounds. -/
theorem popLoop (h : Shows p s) (hlast : p.page p.available + 1 < 2 ^ 32)
    (hc : Sound p.pageSize c) (hfind : p.FindsKept find c i)
    (hpop : p.pageLoop (p.popBody start size) none fuel i l c = some (r, c')) :
    (s.popLoop find start size fuel i l.length).map (l ++ ·) = r := by
  induction fuel generalizing i l c with
  | zero => exact absurd hpop (by simp [pageLoop])
  | succ fuel ih =>
    rw [LogRWStream.popLoop, h.last_eq, h.pageSize_eq, h.data_eq]
    by_cases hi : i ≤ p.page p.available
    · have hnext : CInt.toUnsigned 32 (i + 1 : ℕ) = i + 1 := CInt.toUnsigned_natCast (by omega)
      have hrest {k : List UInt8} := ih (l := k) (findPage_sound p.pageSize_pos hc _)
        (hfind.next hc)
      rw [if_pos hi]
      by_cases hkept : Kept p.pageSize c i
      · rw [pageLoop_of_kept hc hi hkept, hnext] at hpop
        simp only [(hfind i (Nat.le_refl i) hi).mpr hkept, if_true]
        by_cases hbefore : i * p.pageSize + p.pageSize < max start (i * p.pageSize)
        · rw [popBody, pagePop, if_pos (Or.inr hbefore)] at hpop
          rw [if_pos hbefore]
          exact (congrArg Prod.fst (Option.some.inj hpop))
        · rw [popBody_eq (by omega)] at hpop
          rw [if_neg hbefore]
          obtain ⟨out, hout⟩ : ∃ out, out = min (size - l.length)
            (p.pageSize - (max start (i * p.pageSize) - i * p.pageSize)) := ⟨_, rfl⟩
          rw [← hout] at hpop ⊢
          cases hread : p.file.read systemPage (max start (i * p.pageSize)) out with
          | none =>
            rw [hread] at hpop
            exact absurd hpop (by simp)
          | some copied =>
            obtain rfl := MappedFile.eq_of_read hread
            rw [hread] at hpop
            simp only [Option.map_some, List.length_append, length_load] at hpop
            by_cases hdone : l.length + out = size
            · rw [if_pos hdone] at hpop ⊢
              exact congrArg Prod.fst (Option.some.inj hpop)
            · rw [if_neg hdone] at hpop ⊢
              have hmore := hrest hpop
              rw [List.length_append, length_load] at hmore
              rw [hnext, Option.map_map, ← hmore]
              exact congrArg (Option.map · _) (funext fun k ↦ (List.append_assoc _ _ k).symm)
      · rw [pageLoop_of_not_kept hc hi hkept, hnext] at hpop
        have hfalse : find (i * p.pageSize) = false := by
          rw [← Bool.not_eq_true, hfind i (Nat.le_refl i) hi]
          exact hkept
        simp only [hfalse, Bool.false_eq_true, if_false, hnext]
        exact hrest hpop
    · rw [pageLoop, if_neg hi] at hpop
      rw [if_neg hi]
      exact congrArg Prod.fst (Option.some.inj hpop)

end Shows

end Loop

/-! ## One request -/

namespace Shows

theorem peak (h : Shows p s) (hsmall : p.NumbersSmall) (hc : Sound p.pageSize p.cache)
    {offset : ℕ} (hpeak : ¬Kept p.pageSize p.cache (offset / p.pageSize) →
      (ReadCache.peakPage p.cache offset).1 = none) {d : Option UInt8}
    (hret : p.peak offset = some (d, p')) : s.peak p.finds offset = d ∧ Shows p' s := by
  obtain ⟨c, rfl, -⟩ := peak_induction (P := fun _ ↦ True) (fun _ _ ↦ trivial) trivial hret
  refine ⟨?_, h.of_cache c⟩
  rw [LogRWStream.peak, h.available_eq, h.data_eq]
  simp only [PagedLog.peak] at hret
  by_cases hlt : offset < p.available
  · have hoffset := Nat.lt_trans hlt hsmall.lt
    have hfinds := finds_iff hc hoffset
    by_cases hkept : Kept p.pageSize p.cache (offset / p.pageSize)
    · have hle := Nat.div_mul_le_self offset p.pageSize
      have hend := Nat.lt_div_mul_add p.pageSize_pos (a := offset)
      simp only [peakPage_of_kept p.pageSize_pos hc hoffset hkept] at hret
      rw [if_neg (Nat.not_le_of_lt hlt), pagePeak, if_pos ⟨hle, Nat.le_of_lt hend⟩,
        MappedFile.read_one] at hret
      rw [hfinds.mpr hkept, if_neg (by simp), if_neg (Nat.not_le_of_lt hlt)]
      split_ifs at hret
      · exact congrArg Prod.fst (Option.some.inj hret)
      · exact absurd hret (by simp)
    · simp only [hpeak hkept] at hret
      rw [if_pos (Bool.eq_false_iff.mpr fun hfound ↦ hkept (hfinds.mp hfound))]
      exact congrArg Prod.fst (Option.some.inj hret)
  · have hnone : none = d := by
      cases hbase : (ReadCache.peakPage p.cache offset).1 with
      | none =>
        simp only [hbase] at hret
        exact congrArg Prod.fst (Option.some.inj hret)
      | some base =>
        simp only [hbase, if_pos (Nat.le_of_not_lt hlt)] at hret
        exact congrArg Prod.fst (Option.some.inj hret)
    rw [← hnone, if_pos (Nat.le_of_not_lt hlt)]
    exact ite_self none

theorem pop (h : Shows p s) (hsmall : p.NumbersSmall) (hc : Sound p.pageSize p.cache)
    {start size : ℕ} {r : Option (List UInt8)} (hret : p.pop start size = some (r, p')) :
    s.pop p.finds start size = r ∧ Shows p' s := by
  obtain ⟨⟨r', c⟩, hloop, heq⟩ := Option.map_eq_some_iff.mp hret
  obtain ⟨rfl, rfl⟩ := Prod.mk.inj heq
  have hsame := h.popLoop hsmall.last_lt hc (findsKept hc (p.page start)) hloop
  refine ⟨?_, h.of_cache c⟩
  rw [LogRWStream.pop, h.page_eq]
  simpa using hsame

theorem writev (h : Shows p s) (hsmall : p.NumbersSmall) (hc : Sound p.pageSize p.cache)
    (start size : ℕ) (cb : Writer) :
    s.writev p.finds start size cb = ((p.writev start size cb).1, (p.writev start size cb).2.1) ∧
      Shows (p.writev start size cb).2.2 s := by
  have hregions : s.writevRegions p.finds start size
      = (p.writevLoop start (min size (cacheSize * p.pageSize)) cacheSize (p.page start) 0
        p.cache).1 := by
    rw [h.writevLoop hsmall.last_lt hc (findsKept hc _), LogRWStream.writevRegions, h.page_eq,
      h.pageSize_eq]
  rw [LogRWStream.writev, hregions, PagedLog.writev]
  cases (p.writevLoop start (min size (cacheSize * p.pageSize)) cacheSize (p.page start) 0
    p.cache).1 with
  | none => exact ⟨rfl, h.of_cache _⟩
  | some v => exact ⟨rfl, h.of_cache _⟩

/-- **A request is answered as from one memory**, in the environment that finds what the cache
finds. -/
theorem step (h : Shows p s) (hc : Sound p.pageSize p.cache)
    (hpeak : ∀ offset, ¬Kept p.pageSize p.cache (offset / p.pageSize) →
      (ReadCache.peakPage p.cache offset).1 = none) {op : LogRequest} (hop : p.Covered op) :
    Shows (p.step op).1 (s.step (p.finds, op)).1 ∧ (s.step (p.finds, op)).2 = (p.step op).2 := by
  cases op with
  | push l =>
    obtain ⟨hshows, hret, hdone⟩ := h.push hop.available_lt
    refine ⟨hshows, ?_⟩
    simp only [LogRWStream.step, PagedLog.step, hret, hdone, if_true]
  | readv cb =>
    obtain ⟨hshows, hret⟩ := h.readv cb hop.available_lt
    exact ⟨hshows, congrArg LogAnswer.result hret⟩
  | peak offset =>
    cases hret : p.peak offset with
    | none => exact absurd (by rw [PagedLog.step, hret]; rfl) hop.returns
    | some r =>
      obtain ⟨hbyte, hshows⟩ := h.peak hop.small hc (hpeak offset) hret
      simp only [LogRWStream.step, PagedLog.step, hret, Option.elim_some]
      exact ⟨hshows, congrArg LogAnswer.byte hbyte⟩
  | pop start size =>
    cases hret : p.pop start size with
    | none => exact absurd (by rw [PagedLog.step, hret]; rfl) hop.returns
    | some r =>
      obtain ⟨hbytes, hshows⟩ := h.pop hop.small hc hret
      simp only [LogRWStream.step, PagedLog.step, hret, Option.elim_some]
      exact ⟨hshows, congrArg LogAnswer.bytes hbytes⟩
  | writev start size cb =>
    obtain ⟨hsame, hshows⟩ := h.writev hop.small hc start size cb
    simp only [LogRWStream.step, PagedLog.step, hsame, h.data_eq]
    exact ⟨hshows, trivial⟩
  | _ => exact absurd hop.shared id

end Shows

/-! ## The log of a file -/

/-- **The log of a file is one memory.** In every run of it the answers are those of one memory in
some environment, whose bytes are those of the file in the end. -/
theorem run_shows_file (cacheSize : ℕ) {pageSize : ℕ} (hpage : 0 < pageSize) {file : MappedFile}
    (hfile : pageSize ∣ file.size) (hlt : file.size < 2 ^ 63) {ops : List LogRequest}
    (hok : Run.Steps step Covered (ofFile cacheSize pageSize hpage file) ops) :
    ∃ finds : List (ℕ → Bool), finds.length = ops.length ∧
      let r := Run.run LogRWStream.step
        (LogRWStream.new cacheSize pageSize hpage file.data file.size hlt) (finds.zip ops)
      Shows (Run.run step (ofFile cacheSize pageSize hpage file) ops).1 r.1 ∧
        r.2 = (Run.run step (ofFile cacheSize pageSize hpage file) ops).2 := by
  have hstep (p : PagedLog (LRUCache cacheSize) cacheSize) (s : LogRWStream cacheSize)
      (op : LogRequest) (hR : LRUCache.Sound p.pageSize p.cache ∧ Shows p s) (hop : p.Covered op) :
      (LRUCache.Sound (p.step op).1.pageSize (p.step op).1.cache ∧
          Shows (p.step op).1 (s.step (p.finds, op)).1) ∧
        (s.step (p.finds, op)).2 = (p.step op).2 := by
    obtain ⟨hc, h⟩ := hR
    obtain ⟨hshows, hanswer⟩ := h.step hc (fun _ hnot ↦ absurd trivial hnot) hop
    refine ⟨⟨?_, hshows⟩, hanswer⟩
    rw [p.step_pageSize]
    exact step_cache (fun _ _ hc ↦ hc) (fun _ offset hc ↦ hc.findPage offset)
      (fun _ offset hc ↦ hc.findPage offset) hc op
  have hflat : Flat (ofFile cacheSize pageSize hpage file) (FlatLog.ofFile file) :=
    flat_ofFile hpage hfile
  have hfirst : Shows (ofFile cacheSize pageSize hpage file)
      (LogRWStream.new cacheSize pageSize hpage file.data file.size hlt) :=
    ⟨hflat.writable, rfl, rfl, rfl, rfl⟩
  obtain ⟨finds, hlen, hlast, hanswers⟩ := Run.exists_run_simulation finds hstep
    ⟨hflat.sound, hfirst⟩ hok
  exact ⟨finds, hlen, hlast.2, hanswers⟩

/-! ## The log of a stream -/

section Stream

variable {p : PagedLog OneShotCache cacheSize} {origin start len : ℕ} {mask : List UInt8}

/-- A range that is unmasked lies in the log, and its pages are held. -/
def MaskCovered (p : PagedLog OneShotCache cacheSize) : MaskRequest → Prop
  | .log op => p.Covered op
  | .unmask start len mask => p.NumbersSmall ∧ mask ≠ [] ∧ 0 < len ∧ start + len ≤ p.available ∧
      p.RangeHeld start len

theorem Shows.unmask (h : Shows p s) (hs : Streaming origin (p.writeBuf, p.cache))
    (hop : p.MaskCovered (.unmask start len mask)) :
    ∃ p', p.unmask start len mask = some (true, p') ∧
      Shows p' (s.unmask p.finds start len mask).2 ∧
        (s.unmask p.finds start len mask).1 = true := by
  obtain ⟨hsmall, hmask, hlen, hend, hheld⟩ := hop
  have hsize := le_size_of_rangeHeld hs hlen hheld
  have hfound : s.Found p.finds start len := by
    intro offset hle hlt
    have hdiv := Nat.div_mul_le_self offset p.pageSize
    have hpages := hsmall.lt
    rw [h.pageSize_eq, finds_iff hs.sound (by omega), Nat.mul_div_cancel _ p.pageSize_pos]
    exact hheld _ (Nat.div_le_div_right hle) (by omega)
  refine ⟨_, unmask_eq hmask hs.sound hsmall.lt hlen hend hheld hsize, ?_⟩
  rw [LogRWStream.unmask_eq (by rw [h.pageSize_eq, h.available_eq]; exact hsmall.lt)
    (by rw [h.available_eq]; exact hend) hfound hlen]
  have happ := h.writable.appending
  refine ⟨⟨⟨⟨happ.dvd, happ.position_le, happ.page_eq, happ.size_eq⟩, h.writable.readOnly_eq,
    h.writable.tell_eq⟩, h.pageSize_eq, h.available_eq, h.position_eq, ?_⟩, rfl⟩
  simp only [h.data_eq]
  exact (MappedFile.write_data (by rw [Bytes.length_xorMask, length_load]; exact hsize)).symm

/-- **The log of a stream is one memory**, in which payloads are unmasked in place. -/
theorem run_shows_stream (cacheSize : ℕ) {pageSize : ℕ} (hpage : 0 < pageSize) (first : ℕ)
    (hlt : first * pageSize < 2 ^ 63) {ops : List MaskRequest}
    (hok : Run.Steps maskStep (fun p op ↦ p.MaskFits op ∧ p.MaskCovered op)
      (ofStream cacheSize pageSize hpage first) ops) :
    ∃ finds : List (ℕ → Bool), finds.length = ops.length ∧
      let r := Run.run LogRWStream.maskStep
        (LogRWStream.new cacheSize pageSize hpage (fun _ ↦ 0) (first * pageSize) hlt)
        (finds.zip ops)
      Shows (Run.run maskStep (ofStream cacheSize pageSize hpage first) ops).1 r.1 ∧
        r.2 = (Run.run maskStep (ofStream cacheSize pageSize hpage first) ops).2 := by
  have hstep (p : PagedLog OneShotCache cacheSize) (s : LogRWStream cacheSize) (op : MaskRequest)
      (hR : Streaming (first * pageSize) (p.writeBuf, p.cache) ∧ Shows p s)
      (hop : p.MaskFits op ∧ p.MaskCovered op) :
      (Streaming (first * pageSize) ((p.maskStep op).1.writeBuf, (p.maskStep op).1.cache) ∧
          Shows (p.maskStep op).1 (s.maskStep (p.finds, op)).1) ∧
        (s.maskStep (p.finds, op)).2 = (p.maskStep op).2 := by
    obtain ⟨hs, h⟩ := hR
    have hs' := streaming_maskStep hs hop.1
    cases op with
    | log op =>
      obtain ⟨hshows, hanswer⟩ := h.step hs.sound
        (fun _ hnot ↦ OneShotCache.peakPage_of_not_kept hs.sound hnot) hop.2
      exact ⟨⟨hs', hshows⟩, by simp only [LogRWStream.maskStep, maskStep, hanswer]⟩
    | unmask start len mask =>
      obtain ⟨p', hunmask, hshows, hdone⟩ := h.unmask hs hop.2
      refine ⟨⟨hs', ?_⟩, ?_⟩
      · simp only [LogRWStream.maskStep, maskStep, hunmask, Option.elim_some]
        exact hshows
      · simp only [LogRWStream.maskStep, maskStep, hunmask, Option.elim_some, hdone]
  have hdata : (ofStream cacheSize pageSize hpage first).file.data = MappedFile.empty.data :=
    MappedFile.truncate_data (Nat.zero_le _)
  have hfirst : Shows (ofStream cacheSize pageSize hpage first)
      (LogRWStream.new cacheSize pageSize hpage (fun _ ↦ 0) (first * pageSize) hlt) :=
    ⟨writable_new hpage (Nat.dvd_mul_left _ _) true rfl _, rfl, rfl, rfl, hdata.symm⟩
  obtain ⟨finds, hlen, hlast, hanswers⟩ := Run.exists_run_simulation finds hstep
    ⟨streaming_ofStream hpage first, hfirst⟩ hok
  exact ⟨finds, hlen, hlast.2, hanswers⟩

end Stream

end PagedLog

end Coypu
