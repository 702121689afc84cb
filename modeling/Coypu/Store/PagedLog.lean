import Coypu.Library.Pages
import Coypu.Store.LogWriteBuf
import Coypu.Store.ReadCache

/-!
# A log with its pages

`LogRWStream` as the code has it: bytes go through the one page of its writer and are read through
the pages of its cache. The cache is a parameter, as in the code.

A function that ends in `none` does not return: it touches memory behind the last page of the file,
or its loop over the pages does not end. Page numbers are 32-bit integers; a loop whose last page
has the largest of them starts over.
-/

set_option autoImplicit false

namespace Coypu

open FlatMemory Transport

/-- The log over `cacheSize` slots of an I/O vector. -/
structure PagedLog (C : Type*) (cacheSize : ℕ) where
  writeBuf : LogWriteBuf
  cache : C
  available : ℕ

namespace PagedLog

/-- The size of a memory page. -/
def systemPage : ℕ := 4096

theorem systemPage_pos : 0 < systemPage := by decide

variable {C : Type*} [ReadCache C] {cacheSize : ℕ} (s : PagedLog C cacheSize)

def pageSize : ℕ := s.writeBuf.pageSize

def file : MappedFile := s.writeBuf.file

/-- The log with another writer and cache. -/
def update (r : LogWriteBuf × C) : PagedLog C cacheSize :=
  { s with writeBuf := r.1, cache := r.2 }

/-! ## Writing -/

def push (l : List UInt8) : ℤ × PagedLog C cacheSize :=
  let r := LogWriteBuf.push ReadCache.addPage l (s.writeBuf, s.cache)
  (r.1, { s.update r.2 with available := if r.1 = 0 then s.available + l.length else s.available })

def readv (cb : Reader UInt8) : ℤ × PagedLog C cacheSize :=
  let r := LogWriteBuf.readv ReadCache.addPage cb (s.writeBuf, s.cache)
  (r.1, { s.update r.2 with available := if 0 < r.1 then s.available + r.1.toNat else s.available })

/-- `ZeroCopyWriteNext`, with the region handed out. -/
def zeroCopyWriteNext : Option (ℕ × ℤ) × PagedLog C cacheSize :=
  let r := LogWriteBuf.zeroCopyNext ReadCache.addPage (s.writeBuf, s.cache)
  (r.2.1, { s.update r.2.2 with
    available := match r.2.1 with
      | some (_, len) => CInt.toUnsigned 64 (s.available + len)
      | none => s.available })

/-- The owner of a region writes to it. -/
def writeRegion (start : ℕ) (l : List UInt8) : PagedLog C cacheSize :=
  { s with writeBuf := { s.writeBuf with file := s.writeBuf.file.write start l } }

def zeroCopyWriteBackup (len : ℕ) : PagedLog C cacheSize :=
  { s with
    writeBuf := (s.writeBuf.backup len).2
    available := CInt.toUnsigned 64 (s.available - len) }

/-- `SetPosition`, which leaves `Available` as it is. -/
def setPosition (offset : ℕ) : Bool × PagedLog C cacheSize :=
  let r := LogWriteBuf.setPosition ReadCache.addPage offset (s.writeBuf, s.cache)
  (r.1, s.update r.2)

/-! ## Pages

The functions of `LogReadPageBuf`, for the page at `base`.
-/

/-- `Peak` of a page. The bound of the code lets the byte behind the page in. -/
def pagePeak (base offset : ℕ) : Option (Option UInt8) :=
  if base ≤ offset ∧ offset ≤ base + s.pageSize then
    (s.file.read systemPage offset 1).map List.head?
  else some none

/-- The scan of `Find` over `n` bytes. -/
def scan (d : UInt8) : ℕ → ℕ → Option (Option ℕ)
  | 0, _ => some none
  | n + 1, i =>
    match s.file.read systemPage i 1 with
    | none => none
    | some l => if l = [d] then some (some i) else scan d n (i + 1)

/-- `Find` of a page. It does not look whether the page begins behind `start`. -/
def pageFind (base start : ℕ) (d : UInt8) : Option (Option ℕ) :=
  if start < base then none else s.scan d (base + s.pageSize - start) start

def pagePop (base start size : ℕ) : Option (Option (List UInt8)) :=
  if start < base ∨ base + s.pageSize < start then some none
  else (s.file.read systemPage start (min size (s.pageSize - (start - base)))).map some

/-! ## Reading -/

/-- The number of the page that holds an offset. -/
def page (offset : ℕ) : ℕ := CInt.toUnsigned 32 (offset / s.pageSize : ℕ)

def peak (offset : ℕ) : Option (Option UInt8 × PagedLog C cacheSize) :=
  let r := ReadCache.peakPage s.cache offset
  match r.1 with
  | none => some (none, { s with cache := r.2 })
  | some base =>
    if s.available ≤ offset then some (none, { s with cache := r.2 })
    else (s.pagePeak base offset).map fun d ↦ (d, { s with cache := r.2 })

/-- `ZeroCopyReadNext`: the region handed out. It ends with its page. -/
def zeroCopyReadNext (offset : ℕ) : Option Region × PagedLog C cacheSize :=
  let r := ReadCache.peakPage s.cache offset
  (match r.1 with
    | none => none
    | some base =>
      if s.available ≤ offset then none
      else if base ≤ offset ∧ offset ≤ base + s.pageSize then
        some ⟨offset, s.pageSize - (offset - base)⟩
      else none, { s with cache := r.2 })

/-- The loop of `Find` and `Pop` over the pages from `i` on: `body` gets the offset of a page that
is found, the first byte of page `i`, and what the rounds before left. A page that is not found is
passed over. -/
def pageLoop {τ ρ : Type} (body : ℕ → ℕ → τ → Option (ρ ⊕ τ)) (failed : ρ) :
    ℕ → ℕ → τ → C → Option (ρ × C)
  | 0, _, _, _ => none
  | fuel + 1, i, t, c =>
    if i ≤ s.page s.available then
      let pageStart := i * s.pageSize
      let next := CInt.toUnsigned 32 (i + 1 : ℕ)
      let r := ReadCache.findPage c pageStart
      match r.1 with
      | none => pageLoop body failed fuel next t r.2
      | some base =>
        match body base pageStart t with
        | none => none
        | some (.inl result) => some (result, r.2)
        | some (.inr t') => pageLoop body failed fuel next t' r.2
    else some (failed, c)

/-- A round of `Find`. -/
def findBody (start : ℕ) (d : UInt8) (base pageStart : ℕ) (_ : Unit) : Option (Option ℕ ⊕ Unit) :=
  (s.pageFind base (max start pageStart) d).map fun r ↦
    match r with
    | some offset => .inl (some offset)
    | none => .inr ()

/-- `Find`. After `2³²` rounds the loop does not end. -/
def find (start : ℕ) (d : UInt8) : Option (Option ℕ × PagedLog C cacheSize) :=
  (s.pageLoop (s.findBody start d) none (2 ^ 32) (s.page start) () s.cache).map
    fun r ↦ (r.1, { s with cache := r.2 })

/-- A round of `Pop`, when `l` is copied. -/
def popBody (start size base pageStart : ℕ) (l : List UInt8) :
    Option (Option (List UInt8) ⊕ List UInt8) :=
  (s.pagePop base (max start pageStart) (size - l.length)).map fun r ↦
    match r with
    | none => .inl none
    | some k => if (l ++ k).length = size then .inl (some (l ++ k)) else .inr (l ++ k)

def pop (start size : ℕ) : Option (Option (List UInt8) × PagedLog C cacheSize) :=
  (s.pageLoop (s.popBody start size) none (2 ^ 32) (s.page start) [] s.cache).map
    fun r ↦ (r.1, { s with cache := r.2 })

/-- The loop of `Writev`: the segments for the pages from `i` on, with a number of slots left,
`queued` bytes being covered. It ends in `none` if a page is not found. -/
def writevLoop (start size : ℕ) : ℕ → ℕ → ℕ → C → Option (List Region) × C
  | 0, _, _, c => (some [], c)
  | slots + 1, i, queued, c =>
    if queued < size ∧ i ≤ s.page s.available then
      let pageOffset := (start + queued) % s.pageSize
      let r := ReadCache.findPage c (i * s.pageSize)
      match r.1 with
      | none => (none, r.2)
      | some base =>
        let len := min (size - queued) (s.pageSize - pageOffset)
        let q := writevLoop start size slots (CInt.toUnsigned 32 (i + 1 : ℕ)) (queued + len) r.2
        (q.1.map fun v ↦ ⟨base + pageOffset, len⟩ :: v, q.2)
    else (some [], c)

/-- `Writev`: its result, the segments that it offered, and the log. -/
def writev (start size : ℕ) (cb : Writer) : ℤ × List Region × PagedLog C cacheSize :=
  let r := s.writevLoop start (min size (cacheSize * s.pageSize)) cacheSize (s.page start) 0 s.cache
  match r.1 with
  | none => (-2, [], { s with cache := r.2 })
  | some v => (cb.run (v.map Region.len), v, { s with cache := r.2 })

end PagedLog

/-! ## Runs -/

/-- What a log is asked to do. A region that is handed out is written before the next request, the
byte `i` of it with `content i`. -/
inductive LogRequest where
  | push (l : List UInt8)
  | readv (cb : Reader UInt8)
  | zeroCopyWriteNext (content : ℕ → UInt8)
  | zeroCopyWriteBackup (len : ℕ)
  | setPosition (offset : ℕ)
  | peak (offset : ℕ)
  | pop (start size : ℕ)
  | find (start : ℕ) (d : UInt8)
  | writev (start size : ℕ) (cb : Writer)

/-- The requests that read the log. -/
def LogRequest.Reads : LogRequest → Prop
  | .peak _ | .pop _ _ | .find _ _ | .writev _ _ _ => True
  | _ => False

/-- What the log answers. Of `Writev` these are its result and the bytes that it offered. -/
inductive LogAnswer where
  | done
  | result (r : ℤ)
  | region (r : Option (ℕ × ℤ))
  | byte (d : Option UInt8)
  | bytes (l : Option (List UInt8))
  | offset (o : Option ℕ)
  | written (r : ℤ) (l : List UInt8)
  | stuck

namespace PagedLog

variable {C : Type*} [ReadCache C] {cacheSize : ℕ} (s : PagedLog C cacheSize)

/-- The constructor. -/
def new (pageSize : ℕ) (hpage : 0 < pageSize) (offset : ℕ) (anonymous : Bool) (file : MappedFile)
    (cache : C) : PagedLog C cacheSize :=
  ⟨LogWriteBuf.new pageSize hpage offset false anonymous file, cache, offset⟩

/-- The log of a file, opened at an offset. -/
def openAt (cacheSize pageSize : ℕ) (hpage : 0 < pageSize) (offset : ℕ) (file : MappedFile) :
    PagedLog (LRUCache cacheSize) cacheSize :=
  new pageSize hpage offset false file (LRUCache.new cacheSize pageSize)

/-- The owner of the region handed out, if there is one, writes to all of it. -/
def writeNext (content : ℕ → UInt8) : Option (ℕ × ℤ) × PagedLog C cacheSize :=
  let r := s.zeroCopyWriteNext
  match r.1 with
  | none => r
  | some (start, len) => (r.1, r.2.writeRegion start ((List.range len.toNat).map content))

/-- A request and its answer. There is no state after a call that does not return; a run is only
followed up to there. -/
def step (s : PagedLog C cacheSize) : LogRequest → PagedLog C cacheSize × LogAnswer
  | .push l => ((s.push l).2, .result (s.push l).1)
  | .readv cb => ((s.readv cb).2, .result (s.readv cb).1)
  | .zeroCopyWriteNext content => ((s.writeNext content).2, .region (s.writeNext content).1)
  | .zeroCopyWriteBackup len => (s.zeroCopyWriteBackup len, .done)
  | .setPosition offset => ((s.setPosition offset).2, .done)
  | .peak offset => (s.peak offset).elim (s, .stuck) fun r ↦ (r.2, .byte r.1)
  | .pop start size => (s.pop start size).elim (s, .stuck) fun r ↦ (r.2, .bytes r.1)
  | .find start d => (s.find start d).elim (s, .stuck) fun r ↦ (r.2, .offset r.1)
  | .writev start size cb =>
    ((s.writev start size cb).2.2,
      .written (s.writev start size cb).1 (gather s.file.data (s.writev start size cb).2.1))

/-! ## What a read changes -/

section Induction

variable {s : PagedLog C cacheSize} {τ ρ : Type} {body : ℕ → ℕ → τ → Option (ρ ⊕ τ)} {failed : ρ}
  {P : C → Prop} {s' : PagedLog C cacheSize}

theorem pageLoop_induction
    (hfind : ∀ c k, k ≤ s.page s.available → P c →
      P (ReadCache.findPage c (k * s.pageSize)).2)
    {fuel i : ℕ} {t : τ} {c c' : C} {r : ρ} (hc : P c)
    (h : s.pageLoop body failed fuel i t c = some (r, c')) : P c' := by
  induction fuel generalizing i t c with
  | zero => exact absurd h (by simp [pageLoop])
  | succ fuel ih =>
    rw [pageLoop] at h
    by_cases hi : i ≤ s.page s.available
    · rw [if_pos hi] at h
      have hc' := hfind c i hi hc
      simp only at h
      split at h
      · exact ih hc' h
      · split at h
        · exact absurd h (by simp)
        · obtain ⟨-, rfl⟩ : _ = r ∧ _ = c' := by simpa using h
          exact hc'
        · exact ih hc' h
    · rw [if_neg hi] at h
      obtain ⟨-, rfl⟩ : failed = r ∧ c = c' := by simpa using h
      exact hc

theorem pop_induction {start size : ℕ}
    (hfind : ∀ c k, k ≤ s.page s.available → P c → P (ReadCache.findPage c (k * s.pageSize)).2)
    {r : Option (List UInt8)} (hc : P s.cache) (h : s.pop start size = some (r, s')) :
    ∃ c, s' = { s with cache := c } ∧ P c := by
  obtain ⟨⟨r', c⟩, hsome, hr⟩ := Option.map_eq_some_iff.mp h
  exact ⟨c, (congrArg Prod.snd hr).symm, pageLoop_induction hfind hc hsome⟩

theorem find_induction {start : ℕ} {d : UInt8}
    (hfind : ∀ c k, k ≤ s.page s.available → P c → P (ReadCache.findPage c (k * s.pageSize)).2)
    {r : Option ℕ} (hc : P s.cache) (h : s.find start d = some (r, s')) :
    ∃ c, s' = { s with cache := c } ∧ P c := by
  obtain ⟨⟨r', c⟩, hsome, hr⟩ := Option.map_eq_some_iff.mp h
  exact ⟨c, (congrArg Prod.snd hr).symm, pageLoop_induction hfind hc hsome⟩

theorem peak_induction {offset : ℕ} {d : Option UInt8}
    (hpeak : ∀ c, P c → P (ReadCache.peakPage c offset).2) (hc : P s.cache)
    (h : s.peak offset = some (d, s')) : ∃ c, s' = { s with cache := c } ∧ P c := by
  refine ⟨(ReadCache.peakPage s.cache offset).2, ?_, hpeak _ hc⟩
  simp only [peak] at h
  split at h
  · exact (congrArg Prod.snd (Option.some.inj h)).symm
  · split_ifs at h
    · exact (congrArg Prod.snd (Option.some.inj h)).symm
    · obtain ⟨q, -, hq⟩ := Option.map_eq_some_iff.mp h
      exact (congrArg Prod.snd hq).symm

theorem writevLoop_induction {start size slots i queued : ℕ} {c : C}
    (hfind : ∀ c k, k ≤ s.page s.available → P c →
      P (ReadCache.findPage c (k * s.pageSize)).2) (hc : P c) :
    P (s.writevLoop start size slots i queued c).2 := by
  induction slots generalizing i queued c with
  | zero => exact hc
  | succ slots ih =>
    rw [writevLoop]
    split_ifs with hmore
    · have hc' := hfind c i hmore.2 hc
      simp only
      split
      · exact hc'
      · exact ih hc'
    · exact hc

theorem writev_induction (start size : ℕ) (cb : Writer)
    (hfind : ∀ c k, k ≤ s.page s.available → P c →
      P (ReadCache.findPage c (k * s.pageSize)).2) (hc : P s.cache) :
    ∃ c, (s.writev start size cb).2.2 = { s with cache := c } ∧ P c := by
  have hloop : P (s.writevLoop start (min size (cacheSize * s.pageSize)) cacheSize (s.page start) 0
      s.cache).2 := writevLoop_induction hfind hc
  refine ⟨_, ?_, hloop⟩
  rw [writev]
  split <;> rfl

/-- **A request that reads changes the cache alone**, and keeps of it what look-ups keep. -/
theorem step_of_reads {op : LogRequest} (hop : op.Reads)
    (hfind : ∀ c k, k ≤ s.page s.available → P c → P (ReadCache.findPage c (k * s.pageSize)).2)
    (hpeak : ∀ c offset, P c → P (ReadCache.peakPage c offset).2) (hc : P s.cache) :
    ∃ c, (s.step op).1 = { s with cache := c } ∧ P c := by
  cases op with
  | peak offset =>
    rw [step]
    cases h : s.peak offset with
    | none => exact ⟨s.cache, rfl, hc⟩
    | some r => exact peak_induction (fun c ↦ hpeak c offset) hc h
  | pop start size =>
    rw [step]
    cases h : s.pop start size with
    | none => exact ⟨s.cache, rfl, hc⟩
    | some r => exact pop_induction hfind hc h
  | find start d =>
    rw [step]
    cases h : s.find start d with
    | none => exact ⟨s.cache, rfl, hc⟩
    | some r => exact find_induction hfind hc h
  | writev start size cb => exact writev_induction start size cb hfind hc
  | _ => exact absurd hop id

end Induction

end PagedLog

end Coypu
