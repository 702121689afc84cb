import Coypu.Library.Run
import Coypu.Store.FailedAppends

/-!
# Writing a log through protobuf

`LogZeroCopyOutputStream` hands protobuf the rest of the page that a log writes to. Three layers
take part, and each has a count: the writer its position, the log the bytes that can be read, the
adapter the bytes that went through it.

The adapter asks the log whether there is a region, and the log always says that there is; and where
the page could not be mapped, a region is handed out that is no memory. The adapter never counts. So
a call goes well exactly if the page it needs is allocated, and the count is right exactly where all
that was handed out came back.
-/

set_option autoImplicit false

namespace Coypu

open FlatMemory FaultyLog

/-- `LogZeroCopyOutputStream` over a log. -/
structure LogZeroCopyOutputStream (C : Type*) (cacheSize : ℕ) where
  t : PagedLog C cacheSize
  byteCount : ℤ

/-- What protobuf asks of the adapter. The owner of a region writes to all of it, the byte `i` with
`content i`. -/
inductive OutputCall where
  | next (content : ℕ → UInt8) (failing : Option Faulty.Fault)
  | backUp (count : Int32)

/-- The adapter with the record of its owner: the length of what is left of the last region, and the
bytes that were written and not given back. -/
structure LogOutput (C : Type*) (cacheSize : ℕ) where
  out : LogZeroCopyOutputStream C cacheSize
  left : ℕ
  written : List UInt8

namespace LogZeroCopyOutputStream

variable {C : Type*} {cacheSize : ℕ}

/-- The constructor. -/
def new (t : PagedLog C cacheSize) : LogZeroCopyOutputStream C cacheSize := ⟨t, 0⟩

/-- `Next`, with the region handed out. The first component is what `ZeroCopyWriteNext` returns,
compared with 0: it returns 0 whatever its writer did. -/
def next [ReadCache C] (failed : C → ℕ → C) (failing : Option Faulty.Fault)
    (s : LogZeroCopyOutputStream C cacheSize) :
    Bool × Option (ℕ × ℤ) × LogZeroCopyOutputStream C cacheSize :=
  let r : ℤ × Option (ℕ × ℤ) × PagedLog C cacheSize := (0, zeroCopyWriteNext failed failing s.t)
  (r.1 == 0, r.2.1, { s with t := r.2.2 })

def backUp (count : Int32) (s : LogZeroCopyOutputStream C cacheSize) :
    LogZeroCopyOutputStream C cacheSize :=
  { s with t := zeroCopyWriteBackup count s.t }

end LogZeroCopyOutputStream

namespace LogOutput

variable {C : Type*} {cacheSize : ℕ}

/-- An adapter that was just built. -/
def start (log : PagedLog C cacheSize) : LogOutput C cacheSize := ⟨.new log, 0, []⟩

section Calls

variable [ReadCache C] (failed : C → ℕ → C)

/-- A call, and what its owner does with the region. There is no answer if the region is no memory:
the process ends. -/
def step (w : LogOutput C cacheSize) : OutputCall → LogOutput C cacheSize × Option Bool
  | .next content failing =>
    let r := w.out.next failed failing
    match r.2.1 with
    | none => (⟨r.2.2, 0, w.written⟩, some r.1)
    | some (first, size) =>
      if r.2.2.t.writeBuf.mapFailed then (w, none)
      else
        let l := (List.range size.toNat).map content
        (⟨{ r.2.2 with t := r.2.2.t.writeRegion first l }, l.length, w.written ++ l⟩, some r.1)
  | .backUp count =>
    let n := count.toInt.toNat
    (⟨w.out.backUp count, w.left - n, w.written.take (w.written.length - n)⟩, some true)

/-- A call goes well. `Next` says that there is a region only if there is one, of at least one byte
of memory at the end of the log, and a `Next` that fails changes nothing. In any case the next byte
goes where the log ends. -/
def GoesWell (w : LogOutput C cacheSize) (call : OutputCall) : Prop :=
  nextByte (step failed w call).1.out.t = some (step failed w call).1.out.t.available ∧
  match call with
  | .next _ failing =>
    ((w.out.next failed failing).1 = true →
      ∃ size, 0 < size ∧ (w.out.next failed failing).2.1 = some (w.out.t.available, size) ∧
        (w.out.next failed failing).2.2.t.writeBuf.mapFailed = false) ∧
    ((w.out.next failed failing).1 = false → (w.out.next failed failing).2.2 = w.out)
  | .backUp _ => True

end Calls

/-- No more is given back than is left of the last region. -/
def InContract (w : LogOutput C cacheSize) : OutputCall → Prop
  | .next _ _ => True
  | .backUp count => 0 ≤ count.toInt ∧ count.toInt ≤ w.left

/-- The log grew by exactly the bytes that were written and not given back, and the adapter counted
them. -/
def Appended (log : PagedLog C cacheSize) (w : LogOutput C cacheSize) : Prop :=
  readable w.out.t = readable log ++ w.written ∧ w.out.byteCount = w.written.length

/-- The page that a `Next` needs is allocated, and its length is an `int`. -/
def Allocated (w : LogOutput C cacheSize) : OutputCall → Prop
  | .next _ failing =>
    (w.out.t.writeBuf.isFull = true → Faulty.Allocates w.out.t.writeBuf 0 failing) ∧
      Faulty.regionLen w.out.t.writeBuf < 2 ^ 31
  | .backUp _ => True

/-- What calls hand out less what they give back, if there is room for `room` bytes in the page. -/
def balance (pageSize : ℕ) : ℕ → List OutputCall → ℤ
  | _, [] => 0
  | room, .next _ _ :: calls =>
    ((if room = 0 then pageSize else room : ℕ) : ℤ) + balance pageSize 0 calls
  | room, .backUp count :: calls =>
    balance pageSize (room + count.toInt.toNat) calls - count.toInt

instance (w : LogOutput C cacheSize) (call : OutputCall) : Decidable (InContract w call) :=
  match call with
  | .next _ _ => .isTrue trivial
  | .backUp _ => inferInstanceAs (Decidable (_ ∧ _))

instance (w : LogOutput C cacheSize) (call : OutputCall) : Decidable (Allocated w call) :=
  match call with
  | .next _ _ => inferInstanceAs (Decidable (_ ∧ _))
  | .backUp _ => .isTrue trivial

variable {s log : PagedLog C cacheSize} {w : LogOutput C cacheSize} {content : ℕ → UInt8}
  {failing : Option Faulty.Fault}

/-! ## The log -/

/-- The file has the page that is mapped. -/
def InFile (w : LogWriteBuf) : Prop := w.dataPage ≠ none → w.offset ≤ w.file.size

/-- The log is in place, and so is its page. -/
structure Ready (s : PagedLog C cacheSize) : Prop where
  inPlace : InPlace s
  inFile : InFile s.writeBuf

theorem ready_new {pageSize : ℕ} (hpage : 0 < pageSize) {offset : ℕ} (hoffset : offset < 2 ^ 63)
    (anonymous : Bool) (file : MappedFile) (cache : C) :
    Ready (PagedLog.new pageSize hpage offset anonymous file cache : PagedLog C cacheSize) :=
  ⟨inPlace_new hpage hoffset anonymous file cache, fun hne ↦ absurd rfl hne⟩

/-- The log was made and appended to, as in `run_keepsPlace_iff`. -/
def Reached [ReadCache C] (failed : C → ℕ → C) (log : PagedLog C cacheSize) : Prop :=
  ∃ (pageSize : ℕ) (hpage : 0 < pageSize) (offset : ℕ) (anonymous : Bool) (file : MappedFile)
    (cache : C) (requests : List Append), offset < 2 ^ 63 ∧
      Run.Steps (FaultyLog.step failed) Sound
        (PagedLog.new pageSize hpage offset anonymous file cache : PagedLog C cacheSize) requests ∧
      log = (Run.run (FaultyLog.step failed)
        (PagedLog.new pageSize hpage offset anonymous file cache) requests).1

theorem length_readable (s : PagedLog C cacheSize) : (readable s).length = s.available :=
  length_load _ _ _

theorem regionLen_eq (h : Faulty.Placed s.writeBuf) : 0 < Faulty.regionLen s.writeBuf ∧
    Faulty.regionLen s.writeBuf ≤ s.pageSize ∧ Faulty.regionLen s.writeBuf
      = if Faulty.room s.writeBuf = 0 then s.pageSize else Faulty.room s.writeBuf := by
  have hpos := s.writeBuf.pageSize_pos
  by_cases hfull : s.writeBuf.isFull = true
  · rw [Faulty.regionLen, if_pos hfull, if_pos (h.room_eq_zero_iff.mpr hfull)]
    exact ⟨hpos, Nat.le_refl _, rfl⟩
  · have hne : Faulty.room s.writeBuf ≠ 0 := fun hroom ↦ hfull (h.room_eq_zero_iff.mp hroom)
    have hlt := h.position_lt (by rwa [Bool.not_eq_true] at hfull)
    rw [Faulty.regionLen, if_neg hfull, if_neg hne, Faulty.room, if_neg hfull]
    exact ⟨by omega, Nat.sub_le _ _, rfl⟩

/-- The region that is left was written last, to the page that is mapped. The adapter has counted
nothing. -/
structure Writes (log : PagedLog C cacheSize) (w : LogOutput C cacheSize) : Prop where
  ready : Ready w.out.t
  pageSize_eq : w.out.t.pageSize = log.pageSize
  readable_eq : readable w.out.t = readable log ++ w.written
  byteCount_eq : w.out.byteCount = 0
  left_le : w.left ≤ w.written.length
  mapped : 0 < w.left → w.out.t.writeBuf.dataPage ≠ none ∧ w.left ≤ w.out.t.writeBuf.position

theorem writes_start (h : Ready log) : Writes log (start log) :=
  ⟨h, rfl, (List.append_nil _).symm, rfl, Nat.le_refl 0, fun hlt ↦ absurd hlt (Nat.lt_irrefl 0)⟩

variable [ReadCache C] {g : C → ℕ → C}

/-! ## Calls that go well -/

section Size

variable {σ : Type*} {f f' : σ → ℕ → σ} {r : LogWriteBuf × σ}

theorem le_size_makeRoom (h : InFile r.1) :
    (LogWriteBuf.makeRoom f r).1.offset ≤ (LogWriteBuf.makeRoom f r).1.file.size := by
  by_cases hfull : r.1.isFull = true
  · rw [LogWriteBuf.makeRoom_of_full hfull]
    simp only [LogWriteBuf.allocatePage]
    split_ifs
    · exact Nat.le_max_right _ _
    · exact Nat.le_refl _
  · rw [Bool.not_eq_true] at hfull
    rw [LogWriteBuf.makeRoom_of_not_full hfull]
    obtain ⟨⟨page, hpage⟩, -⟩ := LogWriteBuf.isFull_eq_false_iff.mp hfull
    exact h (by rw [hpage]; exact Option.some_ne_none page)

theorem inFile_makeRoom (h : InFile r.1) {failing : Option Faulty.Fault}
    (hmapped : (Faulty.makeRoom f f' failing r).2.1.mapFailed = false) :
    InFile (Faulty.makeRoom f f' failing r).2.1 := by
  by_cases hret : (Faulty.makeRoom f f' failing r).1 = 0
  · rw [Faulty.makeRoom_of_ret hret hmapped]
    exact fun _ ↦ le_size_makeRoom h
  · by_cases hfull : r.1.isFull = true
    · rw [Faulty.makeRoom_of_full hfull] at hret ⊢
      -- the page that was mapped is there still, or there is none
      rcases hcall : Faulty.fault r.1.anonymous (r.1.offset + r.1.pageSize) failing with
        - | - | - | -
      · exact absurd (by simp [Faulty.allocatePage, hcall]) hret
      · simpa only [Faulty.allocatePage, hcall] using h
      · intro hpage
        simp only [Faulty.allocatePage, hcall] at hpage ⊢
        split_ifs
        · exact h hpage
        · exact Nat.le_add_right _ _
      · exact absurd (by simp [Faulty.allocatePage, hcall]) hret
    · rw [Bool.not_eq_true] at hfull
      rwa [Faulty.makeRoom_of_not_full hfull]

theorem inFile_pushLoop {fuel : ℕ} {e : ℕ → Option Faulty.Fault} {l : List UInt8}
    {r' : ℤ × (LogWriteBuf × σ)} (h : InFile r.1) (hplaced : Faulty.Placed r.1)
    (hr' : Faulty.pushLoop f f' fuel e l r = some r') : InFile r'.2.1 := by
  induction fuel generalizing e l r with
  | zero =>
    obtain rfl := Option.some.inj hr'
    exact h
  | succ fuel ih =>
    rw [Faulty.pushLoop] at hr'
    by_cases hnil : l = []
    · rw [if_pos hnil] at hr'
      obtain rfl := Option.some.inj hr'
      exact h
    rw [if_neg hnil] at hr'
    by_cases hmap : r.1.isFull = true → ¬ Faulty.MapFails r.1 0 (e 0)
    · obtain ⟨hmade, -, -, hroom, -⟩ := Faulty.makeRoom_spec (f := f) (g := f') hplaced hmap
      have hin := inFile_makeRoom h hmade.mapped
      simp only [hmade.mapped, Bool.false_eq_true, if_false] at hr'
      by_cases hret : (Faulty.makeRoom f f' (e 0) r).1 = 0
      · rw [if_neg (not_not_intro hret)] at hr'
        obtain ⟨hnot, -⟩ := hroom hret
        refine ih (r := (LogWriteBuf.fill _ _, _)) hin (hmade.fill hnot ?_).1 hr'
        rw [Faulty.room, hnot, if_neg Bool.false_ne_true, List.length_take]
        exact Nat.le_trans (Nat.min_le_left _ _) (Nat.min_le_right _ _)
      · rw [if_pos hret] at hr'
        obtain rfl := Option.some.inj hr'
        exact hin
    · obtain ⟨hfull, hfails⟩ := Classical.not_imp.mp hmap
      obtain ⟨hret, hno, -⟩ :=
        Faulty.allocatePage_mapFailed (f := f) (g := f') (not_not.mp hfails)
      simp only [Faulty.makeRoom_of_full hfull, hret, hno, ne_eq, not_true_eq_false, if_false,
        if_true] at hr'
      exact absurd hr'.symm (Option.some_ne_none r')

end Size

theorem Ready.step (h : Ready s) {a : Append} (hsound : Sound s a) :
    Ready (FaultyLog.step g s a).1 := by
  refine ⟨h.inPlace.step a hsound, ?_⟩
  have hwritable := h.inPlace.placed.writable
  cases a with
  | push l failing =>
    rcases push_cases (g := g) h.inPlace failing l with ⟨-, r, hr, -⟩ | ⟨hnot, -⟩
    · rw [FaultyLog.step, hr]
      obtain ⟨r', hr', rfl⟩ := Option.map_eq_some_iff.mp hr
      rw [Faulty.push, hwritable, if_neg Bool.false_ne_true] at hr'
      exact inFile_pushLoop (r := (s.writeBuf, s.cache)) h.inFile h.inPlace.placed hr'
    · exact absurd hsound hnot
  | readv cb failing =>
    obtain ⟨hmade, -⟩ := Faulty.makeRoom_spec (f := ReadCache.addPage) (g := g)
      (s := (s.writeBuf, s.cache)) h.inPlace.placed hsound
    have hin := inFile_makeRoom (r := (s.writeBuf, s.cache)) h.inFile hmade.mapped
    rcases readv_cases (g := g) h.inPlace failing cb with ⟨-, r, hr, -⟩ | ⟨hnot, -⟩
    · rw [FaultyLog.step, hr]
      obtain ⟨r', hr', rfl⟩ := Option.map_eq_some_iff.mp hr
      rw [Faulty.readv, hwritable, if_neg Bool.false_ne_true] at hr'
      simp only [hmade.mapped, Bool.false_eq_true, false_and, if_false] at hr'
      split_ifs at hr'
      · obtain rfl := Option.some.inj hr'
        exact hin
      · obtain rfl := Option.some.inj hr'
        exact hin
    · exact absurd hsound hnot
  | zeroCopyWriteNext content failing =>
    obtain ⟨hmade, -⟩ := Faulty.makeRoom_spec (f := ReadCache.addPage) (g := g)
      (s := (s.writeBuf, s.cache)) h.inPlace.placed hsound.1
    have hin := inFile_makeRoom (r := (s.writeBuf, s.cache)) h.inFile hmade.mapped
    have hnext : InFile (zeroCopyWriteNext g failing s).2.writeBuf := by
      simp only [zeroCopyWriteNext, PagedLog.update, Faulty.zeroCopyNext, hwritable,
        Bool.false_eq_true, if_false]
      split_ifs
      · exact hin
      · exact hin
    obtain ⟨r, hr, -⟩ := writeNext_place (g := g) h.inPlace hsound.1 content
    rw [FaultyLog.step, hr]
    rw [writeNext] at hr
    split at hr
    · obtain rfl := Option.some.inj hr
      exact hnext
    · split_ifs at hr
      obtain rfl := Option.some.inj hr
      exact hnext
  | zeroCopyWriteBackup len =>
    simp only [FaultyLog.step, zeroCopyWriteBackup, Faulty.backup]
    split_ifs
    · exact h.inFile
    · exact h.inFile

theorem Reached.ready (h : Reached g log) : Ready log := by
  obtain ⟨pageSize, hpage, offset, anonymous, file, cache, requests, hoffset, hsound, rfl⟩ := h
  exact (Run.Throughout.of_step (fun _ _ hs hok ↦ hs.step hok)
    (ready_new hpage hoffset anonymous file cache) hsound).last

/-- What a `Next` leaves if its page is allocated: the log with the bytes that its owner wrote to
the region, and a page that is full. -/
structure Handed (s : PagedLog C cacheSize) (l : List UInt8) (s' : PagedLog C cacheSize) :
    Prop where
  ready : Ready s'
  readable_eq : readable s' = readable s ++ l
  pageSize_eq : s'.pageSize = s.pageSize
  dataPage_ne : s'.writeBuf.dataPage ≠ none
  position_eq : s'.writeBuf.position = s'.pageSize

/-- A `Next` whose page is allocated: the page is there, it ends in the file, and what was appended
before is still in it. -/
theorem zeroCopyWriteNext_of_allocates (h : Ready s)
    (hok : s.writeBuf.isFull = true → Faulty.Allocates s.writeBuf 0 failing)
    (hlen : Faulty.regionLen s.writeBuf < 2 ^ 31) :
    ∃ m : LogWriteBuf × C, zeroCopyWriteNext g failing s =
        (some (s.available, (Faulty.regionLen s.writeBuf : ℤ)),
          ⟨{ m.1 with position := m.1.pageSize }, m.2,
            s.available + Faulty.regionLen s.writeBuf⟩) ∧
      m.1.pageSize = s.pageSize ∧ m.1.dataPage ≠ none ∧
      s.available + Faulty.regionLen s.writeBuf = m.1.offset ∧ m.1.offset ≤ m.1.file.size ∧
      load m.1.file.data 0 s.available = readable s := by
  obtain ⟨n, hn⟩ : ∃ n, n = Faulty.regionLen s.writeBuf := ⟨_, rfl⟩
  obtain ⟨hplaced, hext, htell, hroom, hiff, -⟩ := Faulty.makeRoom_spec (f := ReadCache.addPage)
    (g := g) (s := (s.writeBuf, s.cache)) h.inPlace.placed (Faulty.not_mapFails hok)
  have hret := hiff.mpr hok
  obtain ⟨hnot, hroom'⟩ := hroom hret
  have hmade := Faulty.makeRoom_of_ret hret hplaced.mapped
  have hsize := le_size_makeRoom (f := ReadCache.addPage) (r := (s.writeBuf, s.cache)) h.inFile
  rw [hmade] at hplaced hext htell hnot hroom'
  obtain ⟨m, hm⟩ : ∃ m, m = LogWriteBuf.makeRoom ReadCache.addPage (s.writeBuf, s.cache) :=
    ⟨_, rfl⟩
  simp only [← hm] at hplaced hext htell hnot hroom' hsize hmade
  have hsame : m.1.pageSize = s.pageSize := by rw [hm, LogWriteBuf.makeRoom_pageSize]; rfl
  have hend := hplaced.tell_add_room
  have hlt := hplaced.offset_lt
  have htell' : m.1.tell = s.available := htell.trans h.inPlace.tell_eq
  rw [hroom', ← hn, htell'] at hend
  have hregion : m.1.pageSize - m.1.position = n := by
    rw [hn, ← hroom', Faulty.room, hnot, if_neg Bool.false_ne_true]
  have hint : CInt.toInt n = n := CInt.toInt_of_mem (by omega) (by omega)
  have hcount : CInt.toUnsigned 64 (s.available + (n : ℤ)) = s.available + n := by
    have hbound : s.available + n < 2 ^ 64 := by
      rw [hend]
      exact Nat.lt_trans hlt (by decide)
    exact_mod_cast CInt.toUnsigned_natCast hbound
  obtain ⟨⟨page, hpage⟩, -⟩ := LogWriteBuf.isFull_eq_false_iff.mp hnot
  rw [← hn]
  refine ⟨m, ?_, hsame, by rw [hpage]; exact Option.some_ne_none page, hend, hsize,
    hext.load_eq (Nat.le_of_eq h.inPlace.tell_eq.symm)⟩
  rw [zeroCopyWriteNext, Faulty.zeroCopyNext, h.inPlace.placed.writable,
    if_neg Bool.false_ne_true]
  simp only [hmade, ne_eq, not_true_eq_false, if_false, hregion, hint, htell', hcount]
  rfl

variable (content) in
theorem writeNext_handed (h : Ready s)
    (hok : s.writeBuf.isFull = true → Faulty.Allocates s.writeBuf 0 failing)
    (hlen : Faulty.regionLen s.writeBuf < 2 ^ 31) :
    ∃ s', writeNext g failing content s
        = some (some (s.available, (Faulty.regionLen s.writeBuf : ℤ)), s') ∧
      Handed s ((List.range (Faulty.regionLen s.writeBuf)).map content) s' := by
  obtain ⟨m, hnext, hsame, hpage, hend, hsize, hold⟩ :=
    zeroCopyWriteNext_of_allocates (g := g) h hok hlen
  have hmap (hfull : s.writeBuf.isFull = true) : ¬ Faulty.MapFails s.writeBuf 0 failing :=
    fun hfails ↦ hfails.not_allocates (hok hfull)
  have hin := h.inPlace.step (g := g) (.zeroCopyWriteNext content failing) ⟨hmap, Or.inr hlen⟩
  have hmapped : (zeroCopyWriteNext g failing s).2.writeBuf.mapFailed = false :=
    (Faulty.zeroCopyNext_cases (f := ReadCache.addPage) (g := g) (s := (s.writeBuf, s.cache))
      h.inPlace.placed hmap).1.mapped
  obtain ⟨n, hn⟩ : ∃ n, n = Faulty.regionLen s.writeBuf := ⟨_, rfl⟩
  obtain ⟨l, hl⟩ : ∃ l, l = (List.range n).map content := ⟨_, rfl⟩
  have hllen : l.length = n := by rw [hl, List.length_map, List.length_range]
  rw [← hn] at hnext hend ⊢
  rw [← hl]
  have hwrite : writeNext g failing content s = some (some (s.available, (n : ℤ)),
      ⟨{ m.1 with position := m.1.pageSize, file := m.1.file.write s.available l }, m.2,
        s.available + n⟩) := by
    rw [hnext] at hmapped
    simp only at hmapped
    simp only [writeNext, hnext, hmapped, Bool.false_eq_true, if_false, Int.toNat_natCast, ← hl]
    rfl
  rw [FaultyLog.step, hwrite] at hin
  refine ⟨_, hwrite, ?_⟩
  refine ⟨⟨hin, fun _ ↦ hsize⟩, ?_, hsame, hpage, rfl⟩
  -- what is written begins where the log ended
  have hdata : (m.1.file.write s.available l).data = store m.1.file.data s.available l :=
    MappedFile.write_data (by rw [hllen, hend]; exact hsize)
  simp only [readable, PagedLog.file, hdata]
  rw [load_add, load_store_of_disjoint (Or.inl (Nat.le_of_eq (Nat.zero_add _))), hold, Nat.zero_add,
    ← hllen, load_store_self]
  rfl

/-- Bytes of the last region come back. -/
structure TookBack (s : PagedLog C cacheSize) (n : ℕ) (s' : PagedLog C cacheSize) : Prop where
  ready : Ready s'
  readable_eq : readable s' = (readable s).take (s.available - n)
  pageSize_eq : s'.pageSize = s.pageSize
  dataPage_eq : s'.writeBuf.dataPage = s.writeBuf.dataPage
  position_eq : s'.writeBuf.position = s.writeBuf.position - n
  room_eq : Faulty.room s'.writeBuf = Faulty.room s.writeBuf + n

theorem zeroCopyWriteBackup_tookBack (h : Ready s) {count : Int32} (hge : 0 ≤ count.toInt)
    (hle : 0 < count.toInt →
      s.writeBuf.dataPage ≠ none ∧ count.toInt ≤ s.writeBuf.position) :
    TookBack s count.toInt.toNat (zeroCopyWriteBackup count s) := by
  obtain ⟨n, hn⟩ : ∃ n, n = count.toInt.toNat := ⟨_, rfl⟩
  have hposition := h.inPlace.placed.position_le
  have hsound : Sound s (.zeroCopyWriteBackup count) := by
    rcases Int.lt_or_eq_of_le hge with hpos | hzero
    · obtain ⟨hpage, hcount⟩ := hle hpos
      exact Or.inr ⟨hpage, hcount, by omega⟩
    · exact Or.inl (Int32.toInt_inj.mp hzero.symm)
  have hin : InPlace (zeroCopyWriteBackup count s) :=
    h.inPlace.step (g := fun c _ ↦ c) (.zeroCopyWriteBackup count) hsound
  have hcount : (n : ℤ) = count.toInt := by rw [hn, Int.toNat_of_nonneg hge]
  have hback : Faulty.backup count s.writeBuf = s.writeBuf.backup n := by
    rw [Faulty.backup_of_nonneg hge, hn]
  have hnot : ¬s.writeBuf.position < n := by
    rcases Nat.eq_zero_or_pos n with hzero | hpos
    · rw [hzero]
      exact Nat.not_lt_zero _
    · have hposition' := (hle (by omega)).2
      omega
  have hwriter : (zeroCopyWriteBackup count s).writeBuf
      = { s.writeBuf with position := s.writeBuf.position - n } := by
    rw [zeroCopyWriteBackup, hback, LogWriteBuf.backup, if_neg hnot]
  rw [← hn]
  have htell : (zeroCopyWriteBackup count s).available = s.available - n ∧ n ≤ s.available := by
    rw [← hin.tell_eq, ← h.inPlace.tell_eq, hwriter]
    rcases Nat.eq_zero_or_pos n with hzero | hpos
    · rw [hzero]
      exact ⟨rfl, Nat.zero_le _⟩
    · obtain ⟨page, hpage⟩ := Option.ne_none_iff_exists'.mp (hle (by omega)).1
      rw [Faulty.tell_of_position hpage, LogWriteBuf.tell_of_page hpage]
      omega
  obtain ⟨havail, hall⟩ := htell
  refine ⟨⟨hin, ?_⟩, ?_, by rw [PagedLog.pageSize, hwriter]; rfl, by rw [hwriter],
    by rw [hwriter], ?_⟩
  · rw [hwriter]
    exact h.inFile
  · rw [readable, readable, havail, PagedLog.file, hwriter, take_load _ (Nat.sub_le _ _)]
    rfl
  · -- the page still ends where it did
    have hend := h.inPlace.placed.tell_add_room
    have hend' := hin.placed.tell_add_room
    have hoffset : (zeroCopyWriteBackup count s).writeBuf.offset = s.writeBuf.offset := by
      rw [hwriter]
    rw [hin.tell_eq, hoffset] at hend'
    rw [h.inPlace.tell_eq] at hend
    omega

/-! ## One call -/

theorem next_eq (w : LogOutput C cacheSize) (failing : Option Faulty.Fault) :
    w.out.next g failing = (true, (zeroCopyWriteNext g failing w.out.t).1,
      { w.out with t := (zeroCopyWriteNext g failing w.out.t).2 }) := rfl

/-- The log of the adapter takes the requests of `FaultyLog`. -/
theorem step_next_t {w : LogOutput C cacheSize} {r : Option (ℕ × ℤ) × PagedLog C cacheSize}
    (hr : writeNext g failing content w.out.t = some r) :
    (step g w (.next content failing)).1.out.t = r.2 := by
  rw [writeNext] at hr
  rw [step, next_eq]
  generalize zeroCopyWriteNext g failing w.out.t = p at hr ⊢
  rcases p with ⟨- | ⟨first, size⟩, t⟩
  · obtain rfl := Option.some.inj hr
    rfl
  · simp only at hr ⊢
    split_ifs at hr ⊢
    obtain rfl := Option.some.inj hr
    rfl

theorem step_next_of_allocated (hw : Writes log w) (hok : Allocated w (.next content failing)) :
    ∃ t, Handed w.out.t ((List.range (Faulty.regionLen w.out.t.writeBuf)).map content) t ∧
      (step g w (.next content failing)).1 = ⟨⟨t, w.out.byteCount⟩,
        Faulty.regionLen w.out.t.writeBuf,
        w.written ++ (List.range (Faulty.regionLen w.out.t.writeBuf)).map content⟩ := by
  obtain ⟨t, hr, hhanded⟩ := writeNext_handed (g := g) content hw.ready hok.1 hok.2
  refine ⟨t, hhanded, ?_⟩
  rw [writeNext] at hr
  rw [step, next_eq]
  generalize zeroCopyWriteNext g failing w.out.t = p at hr ⊢
  rcases p with ⟨- | ⟨first, size⟩, t'⟩
  · exact absurd (Prod.mk.inj (Option.some.inj hr)).1.symm (Option.some_ne_none _)
  · simp only at hr ⊢
    split_ifs at hr ⊢
    obtain ⟨hregion, rfl⟩ := Prod.mk.inj (Option.some.inj hr)
    obtain ⟨-, rfl⟩ := Prod.mk.inj (Option.some.inj hregion)
    simp only [Int.toNat_natCast, List.length_map, List.length_range]

theorem Writes.step (hw : Writes log w) {call : OutputCall} (hcontract : InContract w call)
    (hok : Allocated w call) : Writes log (step g w call).1 := by
  cases call with
  | next content failing =>
    obtain ⟨t, ⟨hready, hread, hsize, hpage, hpos⟩, hstep⟩ :=
      step_next_of_allocated (g := g) hw hok
    have hle := (regionLen_eq hw.ready.inPlace.placed).2.1
    rw [hstep]
    refine ⟨hready, hsize.trans hw.pageSize_eq, ?_, hw.byteCount_eq, ?_, fun _ ↦ ⟨hpage, ?_⟩⟩
    · rw [hread, hw.readable_eq, List.append_assoc]
    · simp
    · rw [hpos, hsize]
      exact hle
  | backUp count =>
    obtain ⟨hge, hle⟩ := hcontract
    have hmapped := hw.mapped
    have hwritten := hw.left_le
    have htook := zeroCopyWriteBackup_tookBack hw.ready hge fun hpos ↦
      ⟨(hmapped (by omega)).1, Int.le_trans hle (by exact_mod_cast (hmapped (by omega)).2)⟩
    have hlen := congrArg List.length hw.readable_eq
    rw [length_readable, List.length_append, length_readable] at hlen
    refine ⟨htook.ready, htook.pageSize_eq.trans hw.pageSize_eq, ?_, hw.byteCount_eq, ?_, ?_⟩
    · refine htook.readable_eq.trans ?_
      rw [hw.readable_eq, List.take_append, length_readable,
        List.take_of_length_le (by rw [length_readable]; omega)]
      congr 2
      omega
    · simp only [LogOutput.step, List.length_take]
      omega
    · intro hpos
      simp only [LogOutput.step] at hpos ⊢
      obtain ⟨hpage, hposition⟩ := hmapped (by omega)
      have hpage' := htook.dataPage_eq
      have hposition' := htook.position_eq
      refine ⟨by rw [← hpage'] at hpage; exact hpage, ?_⟩
      refine Nat.le_trans ?_ (Nat.le_of_eq hposition'.symm)
      omega

/-- A call goes well exactly if the page that it needs is allocated. -/
theorem goesWell_iff (hw : Writes log w) {call : OutputCall} (hcontract : InContract w call) :
    GoesWell g w call ↔ Allocated w call := by
  cases call with
  | next content failing =>
    have hplaced := hw.ready.inPlace.placed
    constructor
    · rintro ⟨hnext, hregion, -⟩
      obtain ⟨size, -, hsome, hmemory⟩ := hregion rfl
      rw [next_eq] at hsome hmemory
      have hmap (hfull : w.out.t.writeBuf.isFull = true) :
          ¬ Faulty.MapFails w.out.t.writeBuf 0 failing := by
        intro hfails
        have hno := (Faulty.zeroCopyNext_of_mapFails (f := ReadCache.addPage) (g := g)
          (s := (w.out.t.writeBuf, w.out.t.cache)) hplaced hfull hfails).2.1
        exact Bool.false_ne_true (hmemory.symm.trans hno)
      obtain ⟨-, ⟨-, hnone, -⟩ | ⟨hok, -⟩⟩ := Faulty.zeroCopyNext_cases
        (f := ReadCache.addPage) (g := g) (s := (w.out.t.writeBuf, w.out.t.cache)) hplaced hmap
      · exact absurd (hnone.symm.trans hsome) (Option.some_ne_none _).symm
      · refine ⟨hok, ?_⟩
        obtain ⟨r, hr, -⟩ := writeNext_place (g := g) hw.ready.inPlace hmap content
        have hkeeps : KeepsPlace g w.out.t (.zeroCopyWriteNext content failing) := by
          rw [step_next_t hr] at hnext
          rw [KeepsPlace, FaultyLog.step, hr]
          exact ⟨Option.some_ne_none _, hnext, fun l e ret heq ↦ by cases heq⟩
        rcases ((keepsPlace_iff hw.ready.inPlace _).mp hkeeps).2 with ⟨hfull, hfail, -⟩ | hlen
        · exact absurd (hok hfull) hfail
        · exact hlen
    · intro hok
      obtain ⟨m, hregion, -⟩ := zeroCopyWriteNext_of_allocates (g := g) hw.ready hok.1 hok.2
      obtain ⟨t, hhanded, hstep⟩ := step_next_of_allocated (g := g) hw hok
      obtain ⟨hpos, -⟩ := regionLen_eq hplaced
      refine ⟨?_, fun _ ↦ ⟨Faulty.regionLen w.out.t.writeBuf, by exact_mod_cast hpos, ?_, ?_⟩,
        fun hfalse ↦ absurd hfalse.symm Bool.false_ne_true⟩
      · rw [hstep]
        exact hhanded.ready.inPlace.nextByte_eq
      · rw [next_eq, hregion]
      · exact (Faulty.zeroCopyNext_cases (f := ReadCache.addPage) (g := g)
          (s := (w.out.t.writeBuf, w.out.t.cache)) hplaced
          (Faulty.not_mapFails hok.1)).1.mapped
  | backUp count =>
    exact ⟨fun _ ↦ trivial,
      fun hok ↦ ⟨(hw.step hcontract hok).ready.inPlace.nextByte_eq, trivial⟩⟩

/-! ## Runs -/

/-- The bytes that are kept are those of the balance. The induction is on the calls, with the room
that is left in the page. -/
theorem length_written {calls : List OutputCall} (hw : Writes log w)
    (hcontract : Run.Steps (step g) InContract w calls)
    (hok : Run.Steps (step g) Allocated w calls) :
    ((Run.run (step g) w calls).1.written.length : ℤ) = w.written.length
      + balance log.pageSize (Faulty.room w.out.t.writeBuf) calls := by
  induction calls generalizing w with
  | nil => simp [balance]
  | cons call calls ih =>
    obtain ⟨hcall, hcontract⟩ := hcontract
    obtain ⟨hok', hok⟩ := hok
    rw [Run.run_cons, ih (hw.step hcall hok') hcontract hok]
    cases call with
    | next content failing =>
      obtain ⟨-, -, hlen⟩ := regionLen_eq hw.ready.inPlace.placed
      obtain ⟨t, hhanded, hstep⟩ := step_next_of_allocated (g := g) hw hok'
      have hroom : Faulty.room t.writeBuf = 0 :=
        hhanded.ready.inPlace.placed.room_eq_zero_iff.mpr
          (LogWriteBuf.isFull_eq_true_iff.mpr (Or.inr hhanded.position_eq))
      rw [hstep]
      simp only [hroom, List.length_append, List.length_map, List.length_range, balance]
      rw [hlen, hw.pageSize_eq, Int.natCast_add, Int.add_assoc]
    | backUp count =>
      obtain ⟨hge, hle⟩ := hcall
      have hwritten := hw.left_le
      have hmapped := hw.mapped
      have htook := zeroCopyWriteBackup_tookBack hw.ready hge fun hpos ↦
        ⟨(hmapped (by omega)).1, Int.le_trans hle (by exact_mod_cast (hmapped (by omega)).2)⟩
      have hroom := htook.room_eq
      simp only [step, LogZeroCopyOutputStream.backUp, hroom, List.length_take, balance]
      omega

/-- **What goes to a log through protobuf.** Each call goes well, the log grows by what was written
and the adapter has counted it, exactly if each page that is needed is allocated and all that was
handed out came back. -/
theorem run_appends_iff (hlog : Reached g log) {calls : List OutputCall}
    (hcontract : Run.Steps (step g) InContract (start log) calls) :
    Run.Steps (step g) (GoesWell g) (start log) calls ∧
        Appended log (Run.run (step g) (start log) calls).1 ↔
      Run.Steps (step g) Allocated (start log) calls ∧
        balance log.pageSize (Faulty.room log.writeBuf) calls = 0 := by
  have h := hlog.ready
  have hgoes : Run.Steps (step g) (GoesWell g) (start log) calls ↔
      Run.Steps (step g) Allocated (start log) calls :=
    Run.steps_iff_of_steps (P := Writes log) (fun _ _ hw hcall hok ↦ hw.step hcall hok)
      (fun _ _ hw hcall ↦ goesWell_iff hw hcall) (writes_start h) hcontract
  rw [hgoes]
  refine and_congr_right fun hok ↦ ?_
  obtain ⟨-, -, hread, hcount, -, -⟩ := (Run.Throughout.of_step
    (fun _ _ hw hok ↦ hw.step hok.1 hok.2) (writes_start h)
    (Run.steps_and.mpr ⟨hcontract, hok⟩) : Run.Throughout (step g) (Writes log) _ calls).last
  have hlen := length_written (writes_start h) hcontract hok
  have hroom : (start log).out.t = log := rfl
  have hnil : (start log).written.length = 0 := rfl
  rw [hroom, hnil] at hlen
  rw [Appended, and_iff_right hread, hcount]
  omega

/-- The log of an empty file. -/
def emptyLog : PagedLog (LRUCache 2) 2 :=
  .new 4096 PagedLog.systemPage_pos 0 false MappedFile.empty (LRUCache.new 2 4096)

theorem reached_emptyLog : Reached (fun c _ ↦ c) emptyLog :=
  ⟨4096, by decide, 0, false, MappedFile.empty, LRUCache.new 2 4096, [], by decide, trivial, rfl⟩

/-- A page is handed out twice, and comes back in parts. -/
theorem run_appends_twice :
    Run.Steps (step fun c _ ↦ c) (GoesWell fun c _ ↦ c) (start emptyLog)
        [.next (fun _ ↦ 65) none, .backUp 96, .backUp 4000, .next (fun _ ↦ 66) (some .truncate),
          .backUp 4096] ∧
      Appended emptyLog (Run.run (step fun c _ ↦ c) (start emptyLog)
        [.next (fun _ ↦ 65) none, .backUp 96, .backUp 4000, .next (fun _ ↦ 66) (some .truncate),
          .backUp 4096]).1 :=
  (run_appends_iff reached_emptyLog (by decide +kernel)).mpr (by decide +kernel)

/-- The file cannot be made longer, and `Next` says that there is a region. -/
theorem not_appends_of_truncate :
    ¬∀ calls, Run.Steps (step fun c _ ↦ c) InContract (start emptyLog) calls →
      Run.Steps (step fun c _ ↦ c) (GoesWell fun c _ ↦ c) (start emptyLog) calls ∧
        Appended emptyLog (Run.run (step fun c _ ↦ c) (start emptyLog) calls).1 := by
  intro h
  obtain ⟨⟨⟨-, hregion, -⟩, -⟩, -⟩ := h [.next (fun _ ↦ 65) (some .truncate)] (by decide +kernel)
  obtain ⟨size, -, hsome, -⟩ := hregion rfl
  have hnone : ((start emptyLog).out.next (fun c _ ↦ c) (some .truncate)).2.1 = none := by
    decide +kernel
  exact absurd (hnone.symm.trans hsome) (Option.some_ne_none _).symm

/-- The page cannot be mapped, and a region of 4096 bytes is handed out that is no memory. -/
example :
    let r := (start emptyLog).out.next (fun c _ ↦ c) (some .mMapWrite)
    r.1 = true ∧ r.2.1 = some (0, 4096) ∧ r.2.2.t.writeBuf.mapFailed = true := by
  decide +kernel

/-- The bytes of one `Next` are in the log, and the count is still 0. -/
example : (Run.run (step fun c _ ↦ c) (start emptyLog) [.next (fun _ ↦ 65) none]).1.out.byteCount
    = 0 := rfl

end LogOutput

end Coypu
