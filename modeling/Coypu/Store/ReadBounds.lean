import Coypu.Library.Run
import Coypu.Store.SeenPages
import Coypu.Store.StreamLog

/-!
# Reads and the end of the log

`Pop` and `Find` stop at the end of the last page and not at the end of the log. So `Pop` may
succeed behind the end, and `Find` may find a byte that was never written. They do what they should
exactly where no such byte decides (`PaddingUnseen`), in all runs of the log of a file and in those
of a stream that keeps its pages in order.
-/

set_option autoImplicit false

namespace Coypu

open FlatMemory LawfulReadCache Transport

namespace PagedLog

section Calls

variable {C : Type*} {cacheSize : ℕ} {s : PagedLog C cacheSize} {start o o' : ℕ} {d : UInt8}

/-- The first byte of the log from `start` on that matches. -/
def IsFirst (s : PagedLog C cacheSize) (start : ℕ) (d : UInt8) (o : ℕ) : Prop :=
  start ≤ o ∧ o < s.available ∧ s.file.data o = d ∧ ∀ j, start ≤ j → j < o → s.file.data j ≠ d

theorem IsFirst.unique (h : s.IsFirst start d o) (h' : s.IsFirst start d o') : o = o' := by
  rcases Nat.lt_trichotomy o o' with hlt | heq | hlt
  · exact absurd h.2.2.1 (h'.2.2.2 o h.1 hlt)
  · exact heq
  · exact absurd h'.2.2.1 (h.2.2.2 o' h'.1 hlt)

variable [ReadCache C]

/-- What is reported to be read was written. -/
def ReadsWritten (s : PagedLog C cacheSize) : LogRequest → Prop
  | .pop start size => ∀ l s', s.pop start size = some (some l, s') → start + size ≤ s.available
  | .find start d => ∃ r s', s.find start d = some (r, s') ∧ ∀ o, r = some o ↔ s.IsFirst start d o
  | _ => True

/-- The loops over pages end. -/
def NumbersFit (s : PagedLog C cacheSize) : LogRequest → Prop
  | .pop _ _ | .find _ _ => s.page s.available + 1 < 2 ^ 32
  | _ => True

variable [LawfulReadCache C]

/-- No byte behind the end of the log decides. A `Pop` ends there, or its pages do not hold as much.
The first byte that matches is seen; or there is none, all that is seen can be read and none of it
matches. -/
def PaddingUnseen (s : PagedLog C cacheSize) : LogRequest → Prop
  | .pop start size => start + size ≤ s.available ∨ ¬s.PagesHold start size
  | .find start d =>
    (∃ o, s.IsFirst start d o ∧ s.Sees start o ∧ o < s.file.extent systemPage) ∨
      (∀ o, ¬s.IsFirst start d o) ∧
        ∀ o, s.Sees start o → s.file.data o ≠ d ∧ o < s.file.extent systemPage
  | _ => True

theorem readsWritten_iff (hc : Sound s.pageSize s.cache) {op : LogRequest}
    (hfits : s.NumbersFit op) : s.ReadsWritten op ↔ s.PaddingUnseen op := by
  cases op with
  | pop start size =>
    have hpop : (∃ l s', s.pop start size = some (some l, s')) ↔ s.PagesHold start size :=
      pop_succeeds_iff hc hfits
    refine ⟨fun h ↦ or_iff_not_imp_right.mpr fun hhold ↦ ?_, fun h l s' hsome ↦ ?_⟩
    · obtain ⟨l, s', hsome⟩ := hpop.mpr (not_not.mp hhold)
      exact h l s' hsome
    · exact h.resolve_right (not_not.mpr (hpop.mp ⟨l, s', hsome⟩))
  | find start d =>
    constructor
    · rintro ⟨r, s', hfind, hr⟩
      cases r with
      | none =>
        exact Or.inr ⟨fun o ho ↦ absurd ((hr o).mpr ho) (by simp),
          (find_none_iff hc hfits).mp ⟨s', hfind⟩⟩
      | some o =>
        obtain ⟨hsees, -, -, hext⟩ := (find_some_iff hc hfits).mp ⟨s', hfind⟩
        exact Or.inl ⟨o, (hr o).mp rfl, hsees, hext⟩
    · rintro (⟨o, hfirst, hsees, hext⟩ | ⟨hnone, hsees⟩)
      · obtain ⟨s', hfind⟩ := (find_some_iff hc hfits).mpr
          ⟨hsees, hfirst.2.2.1, fun j hj hlt ↦ hfirst.2.2.2 j hj.1 hlt, hext⟩
        refine ⟨some o, s', hfind, fun o' ↦ ⟨?_, fun h ↦ congrArg some (hfirst.unique h)⟩⟩
        rintro ⟨⟩
        exact hfirst
      · obtain ⟨s', hfind⟩ := (find_none_iff hc hfits).mpr hsees
        exact ⟨none, s', hfind, fun o ↦ ⟨fun h ↦ absurd h (by simp), fun h ↦ absurd h (hnone o)⟩⟩
  | _ => exact Iff.rfl

end Calls

/-! ## The log of a file -/

theorem step_cache {C : Type*} [ReadCache C] {cacheSize : ℕ} {s : PagedLog C cacheSize}
    {P : C → Prop} (hadd : ∀ c offset, P c → P (ReadCache.addPage c offset))
    (hfind : ∀ c offset, P c → P (ReadCache.findPage c offset).2)
    (hpeak : ∀ c offset, P c → P (ReadCache.peakPage c offset).2) (hc : P s.cache)
    (op : LogRequest) : P (s.step op).1.cache := by
  have hread (c : C) (k : ℕ) (_ : k ≤ s.page s.available) (h : P c) :=
    hfind c (k * s.pageSize) h
  by_cases hreads : op.Reads
  · obtain ⟨c, hs, hc⟩ := step_of_reads hreads hread hpeak hc
    rwa [hs]
  have hroom : P (LogWriteBuf.makeRoom ReadCache.addPage (s.writeBuf, s.cache)).2 := by
    simp only [LogWriteBuf.makeRoom]
    split_ifs
    · exact hadd _ _ hc
    · exact hc
  cases op with
  | push l =>
    simp only [step, PagedLog.push, update, LogWriteBuf.push]
    split_ifs
    · exact hc
    · exact LogWriteBuf.pushLoop_induction hadd hc
  | readv cb =>
    simp only [step, PagedLog.readv, update, LogWriteBuf.readv]
    split_ifs
    · exact hc
    · exact hroom
  | zeroCopyWriteNext content =>
    have hnext : P s.zeroCopyWriteNext.2.cache := by
      simp only [zeroCopyWriteNext, update, LogWriteBuf.zeroCopyNext]
      split_ifs
      · exact hc
      · exact hroom
    simp only [step, writeNext]
    split
    · exact hnext
    · exact hnext
  | zeroCopyWriteBackup len => exact hc
  | setPosition offset => exact hadd _ _ hc
  | peak | pop | find | writev => exact absurd trivial hreads

/-! ## Runs -/

/-- **Reads report what was written** exactly if the padding is unseen, in every run of the log of
a file whose loops end, and in every run of a stream whose pages come in order and begin before
`2³²`. -/
theorem run_readsWritten_iff (cacheSize pageSize : ℕ) (hpage : 0 < pageSize)
    (ops : List LogRequest) : (∀ (offset : ℕ) (file : MappedFile),
      Run.Steps step NumbersFit (openAt cacheSize pageSize hpage offset file) ops →
      (Run.Steps step ReadsWritten (openAt cacheSize pageSize hpage offset file) ops ↔
        Run.Steps step PaddingUnseen (openAt cacheSize pageSize hpage offset file) ops)) ∧
    ∀ first : ℕ, Run.Steps step StreamFits (ofStream cacheSize pageSize hpage first) ops →
      (Run.Steps step ReadsWritten (ofStream cacheSize pageSize hpage first) ops ↔
        Run.Steps step PaddingUnseen (ofStream cacheSize pageSize hpage first) ops) := by
  constructor
  · intro offset file hok
    have hfirst : (openAt cacheSize pageSize hpage offset file).cache.Sound
        (openAt cacheSize pageSize hpage offset file).pageSize :=
      ⟨rfl, by simp [openAt, new, LRUCache.new]⟩
    refine Run.steps_congr_of_invariant
      (P := fun s : PagedLog (LRUCache cacheSize) cacheSize ↦ s.cache.Sound s.pageSize)
      (fun s op hc _ ↦ ?_) (fun s op hc hfits ↦ readsWritten_iff hc hfits) hfirst hok
    rw [step_pageSize]
    exact step_cache (fun c _ hc ↦ hc) (fun c offset hc ↦ hc.findPage offset)
      (fun c offset hc ↦ hc.findPage offset) hc op
  · intro first hok
    refine Run.steps_congr_of_invariant
      (P := fun s : PagedLog OneShotCache cacheSize ↦
        Streaming (first * pageSize) (s.writeBuf, s.cache))
      (fun s op hs hfits ↦ streaming_step hs (Or.inr hfits)) (fun s op hs hfits ↦ ?_)
      (streaming_ofStream hpage first) hok
    refine readsWritten_iff hs.sound ?_
    cases op with
    | pop start size => exact hfits
    | find start d => exact hfits
    | _ => trivial

/-- Six bytes, and as many are read. -/
theorem run_readsWritten_six :
    Run.Steps step ReadsWritten (openAt 1 4096 (by decide) 0 MappedFile.empty)
      [.push [1, 2, 3, 4, 5, 6], .pop 0 6] := by
  refine ((run_readsWritten_iff 1 4096 (by decide) _).1 0 MappedFile.empty ?_).mpr ?_
  · refine ⟨trivial, ?_, trivial⟩
    show page _ _ + 1 < 2 ^ 32
    decide +kernel
  · exact ⟨trivial, Or.inl (by decide +kernel), trivial⟩

/-- Behind six bytes a seventh is read. -/
theorem not_readsWritten_of_padding :
    ¬∀ cacheSize pageSize (hpage : 0 < pageSize) (offset : ℕ) (file : MappedFile)
      (ops : List LogRequest),
      Run.Steps step ReadsWritten (openAt cacheSize pageSize hpage offset file) ops := by
  intro h
  have hsteps := h 1 4096 (by decide) 0 MappedFile.empty [.push [1, 2, 3, 4, 5, 6], .pop 0 7]
  have hpop : ∃ s', ((openAt 1 4096 (by decide) 0 MappedFile.empty).step
      (.push [1, 2, 3, 4, 5, 6])).1.pop 0 7 = some (some [1, 2, 3, 4, 5, 6, 0], s') := ⟨_, rfl⟩
  obtain ⟨s', hpop⟩ := hpop
  exact absurd (hsteps.2.1 _ _ hpop) (by decide +kernel)

end PagedLog

end Coypu
