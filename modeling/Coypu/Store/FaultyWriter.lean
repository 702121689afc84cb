import Coypu.Store.LogWriteBuf
import Mathlib.Tactic.Cases

/-!
# A writer whose pages can fail

`AllocatePage` makes the file longer, seeks in it and maps the page, and each of the three calls can
fail. The writer of `LogWriteBuf` is the one for which none does. Here the environment says which
call fails in each allocation.

What a failure leaves behind depends on the call. If the file is not made longer, or there is no
seeking in it, the writer keeps the page it had, at its end, and the next byte goes where it went;
but a `Push` that fails has written what fitted before. A mapping that fails is not noticed:
`MMapWrite` gives `MAP_FAILED` then, and `AllocatePage` asks for a null pointer. So the writer has a
page that is no memory, and the process ends with the first byte that is stored there.
-/

set_option autoImplicit false

namespace Coypu

open FlatMemory Transport

namespace Faulty

/-- The call that fails. -/
inductive Fault where
  | truncate
  | lSeekSet
  | mMapWrite
deriving DecidableEq, Repr

/-- What fails when a page that ends at `stop` is allocated and `failing` is what the environment
lets fail. Anonymous pages are only mapped. No page ends behind the largest offset. -/
def fault (anonymous : Bool) (stop : ℕ) (failing : Option Fault) : Option Fault :=
  if anonymous then
    if failing = some .mMapWrite ∨ 2 ^ 63 ≤ stop then some .mMapWrite else none
  else if 2 ^ 63 ≤ stop then some .truncate
  else failing

/-! ## The functions of the class

The owner is called back with the page that was mapped, or with `MAP_FAILED`. There is no result
where a byte is stored at `MAP_FAILED`.
-/

section

variable {σ : Type*} (mapped failed : σ → ℕ → σ)

def allocatePage (failing : Option Fault) (s : LogWriteBuf × σ) : ℤ × (LogWriteBuf × σ) :=
  let stop := s.1.offset + s.1.pageSize
  let longer := if s.1.anonymous then s.1.file else s.1.file.truncate stop
  match fault s.1.anonymous stop failing with
  | some .truncate => (-1, s)
  | some .lSeekSet => (-2, { s.1 with file := longer }, s.2)
  | some .mMapWrite =>
    -- `MAP_FAILED` is not null, so this is a page like any other
    (0, { s.1 with
      file := longer
      dataPage := some s.1.offset
      mapFailed := true
      position := 0
      offset := stop }, failed s.2 s.1.offset)
  | none => (0, LogWriteBuf.allocatePage mapped s)

/-- `if (!_dataPage.first || _dataPage.second == _pageSize)`, and the result of `AllocatePage`. -/
def makeRoom (failing : Option Fault) (s : LogWriteBuf × σ) : ℤ × (LogWriteBuf × σ) :=
  if s.1.isFull then allocatePage mapped failed failing s else (0, s)

/-- The loop of `Push`. `failing k` is what fails in its allocation number `k`. -/
def pushLoop : ℕ → (ℕ → Option Fault) → List UInt8 → LogWriteBuf × σ →
    Option (ℤ × (LogWriteBuf × σ))
  | 0, _, _, s => some (0, s)
  | fuel + 1, failing, l, s =>
    if l = [] then some (0, s)
    else
      let r := makeRoom mapped failed (failing 0) s
      if r.1 ≠ 0 then some r
      else if r.2.1.mapFailed then none
      else
        let x := min l.length (r.2.1.pageSize - r.2.1.position)
        pushLoop fuel (fun k ↦ failing (if s.1.isFull then k + 1 else k)) (l.drop x)
          (r.2.1.fill (l.take x), r.2.2)

def push (failing : ℕ → Option Fault) (l : List UInt8) (s : LogWriteBuf × σ) :
    Option (ℤ × (LogWriteBuf × σ)) :=
  if s.1.readOnly then some (-1, s) else pushLoop mapped failed l.length failing l s

/-- The transport gets the rest of the page, also if it is no memory. -/
def readv (failing : Option Fault) (cb : Reader UInt8) (s : LogWriteBuf × σ) :
    Option (ℤ × (LogWriteBuf × σ)) :=
  if s.1.readOnly then some (-1, s)
  else
    let r := makeRoom mapped failed failing s
    if r.1 ≠ 0 then some r
    else
      let q := cb.run [r.2.1.pageSize - r.2.1.position]
      if r.2.1.mapFailed = true ∧ q.bytes ≠ [] then none
      else some (q.ret, r.2.1.fill q.bytes, r.2.2)

/-- `ZeroCopyNext`. There is a region if the result is 0. -/
def zeroCopyNext (failing : Option Fault) (s : LogWriteBuf × σ) :
    ℤ × Option (ℕ × ℤ) × (LogWriteBuf × σ) :=
  if s.1.readOnly then (-1, none, s)
  else
    let r := makeRoom mapped failed failing s
    if r.1 ≠ 0 then (r.1, none, r.2)
    else
      (0, some (r.2.1.tell, CInt.toInt (r.2.1.pageSize - r.2.1.position : ℕ)),
        { r.2.1 with position := r.2.1.pageSize }, r.2.2)

end

/-- `Backup` of any `int`. -/
def backup (len : Int32) (w : LogWriteBuf) : Bool × LogWriteBuf :=
  if (w.position : ℤ) < len.toInt then (false, w)
  else (true, { w with position := (w.position - len.toInt).toNat })

/-! ## Where the next byte goes -/

/-- The offset at which the next byte is stored, if it is stored in a page. -/
def nextByte (w : LogWriteBuf) : Option ℕ :=
  if w.isFull then some w.offset
  else if w.mapFailed = false ∧ w.position < w.pageSize then some w.tell
  else none

/-- The bytes that fit into the page that is mapped. -/
def room (w : LogWriteBuf) : ℕ := if w.isFull then 0 else w.pageSize - w.position

/-- The bytes that fit into the page when room was made. -/
def regionLen (w : LogWriteBuf) : ℕ := if w.isFull then w.pageSize else w.pageSize - w.position

/-- The allocation number `k` from here on succeeds. -/
def Allocates (w : LogWriteBuf) (k : ℕ) (failing : Option Fault) : Prop :=
  fault w.anonymous (w.offset + (k + 1) * w.pageSize) failing = none

instance (w : LogWriteBuf) (k : ℕ) (failing : Option Fault) : Decidable (Allocates w k failing) :=
  inferInstanceAs (Decidable (_ = none))

/-- In the allocation number `k` from here on the mapping fails. -/
def MapFails (w : LogWriteBuf) (k : ℕ) (failing : Option Fault) : Prop :=
  fault w.anonymous (w.offset + (k + 1) * w.pageSize) failing = some .mMapWrite

instance (w : LogWriteBuf) (k : ℕ) (failing : Option Fault) : Decidable (MapFails w k failing) :=
  inferInstanceAs (Decidable (_ = some _))

/-- The page is refused: the file is not made longer, or there is no seeking in it. -/
def Refused (w : LogWriteBuf) (failing : Option Fault) : Prop :=
  w.isFull = true ∧ ¬ Allocates w 0 failing ∧ ¬ MapFails w 0 failing

instance (w : LogWriteBuf) (failing : Option Fault) : Decidable (Refused w failing) :=
  inferInstanceAs (Decidable (_ ∧ _ ∧ _))

theorem MapFails.not_allocates {w : LogWriteBuf} {k : ℕ} {failing : Option Fault}
    (h : MapFails w k failing) : ¬ Allocates w k failing := fun hok ↦
  absurd (h.symm.trans hok) (Option.some_ne_none _)

/-- The position is in the page, which is memory and ends at the offset of the next one. -/
structure Placed (w : LogWriteBuf) : Prop where
  writable : w.readOnly = false
  mapped : w.mapFailed = false
  position_le : w.position ≤ w.pageSize
  page_eq : ∀ page, w.dataPage = some page → page + w.pageSize = w.offset
  offset_lt : w.offset < 2 ^ 63

/-- The bytes before the next one are kept, and the next one goes behind them. -/
structure Extends (w v : LogWriteBuf) : Prop where
  tell_le : w.tell ≤ v.tell
  data_eq : ∀ i, i < w.tell → v.file.data i = w.file.data i

variable {σ : Type*} {f g : σ → ℕ → σ} {w v : LogWriteBuf} {s : LogWriteBuf × σ} {l : List UInt8}

namespace Extends

theorem refl (w : LogWriteBuf) : Extends w w := ⟨Nat.le_refl _, fun _ _ ↦ rfl⟩

theorem trans {u : LogWriteBuf} (h : Extends w v) (h' : Extends v u) : Extends w u :=
  ⟨Nat.le_trans h.tell_le h'.tell_le,
    fun i hi ↦ (h'.data_eq i (Nat.lt_of_lt_of_le hi h.tell_le)).trans (h.data_eq i hi)⟩

theorem load_eq (h : Extends w v) {n : ℕ} (hn : n ≤ w.tell) :
    load v.file.data 0 n = load w.file.data 0 n :=
  load_congr fun i _ hi ↦ h.data_eq i (by omega)

end Extends

namespace Placed

theorem tell_of_full (h : Placed w) (hfull : w.isFull = true) : w.tell = w.offset := by
  cases hpage : w.dataPage with
  | none => exact LogWriteBuf.tell_of_none hpage
  | some page =>
    rw [LogWriteBuf.isFull_eq_true_iff, hpage] at hfull
    rw [LogWriteBuf.tell_of_page hpage, hfull.resolve_left (Option.some_ne_none _),
      h.page_eq page hpage]

theorem position_lt (h : Placed w) (hfull : w.isFull = false) : w.position < w.pageSize :=
  Nat.lt_of_le_of_ne h.position_le (LogWriteBuf.isFull_eq_false_iff.mp hfull).2

theorem tell_add_room (h : Placed w) : w.tell + room w = w.offset := by
  by_cases hfull : w.isFull = true
  · rw [room, if_pos hfull, h.tell_of_full hfull, Nat.add_zero]
  · rw [Bool.not_eq_true] at hfull
    obtain ⟨⟨page, hpage⟩, -⟩ := LogWriteBuf.isFull_eq_false_iff.mp hfull
    have hlt := h.position_lt hfull
    have hend := h.page_eq page hpage
    rw [room, hfull, if_neg Bool.false_ne_true, LogWriteBuf.tell_of_page hpage]
    omega

theorem room_eq_zero_iff (h : Placed w) : room w = 0 ↔ w.isFull = true := by
  constructor
  · intro hroom
    by_contra hfull
    rw [Bool.not_eq_true] at hfull
    have hlt := h.position_lt hfull
    rw [room, hfull, if_neg Bool.false_ne_true] at hroom
    omega
  · intro hfull
    exact if_pos hfull

theorem nextByte_eq (h : Placed w) : nextByte w = some w.tell := by
  by_cases hfull : w.isFull = true
  · rw [nextByte, if_pos hfull, h.tell_of_full hfull]
  · rw [nextByte, if_neg hfull,
      if_pos ⟨h.mapped, h.position_lt (by rwa [Bool.not_eq_true] at hfull)⟩]

theorem tell_lt (h : Placed w) : w.tell < 2 ^ 63 := by
  have hroom := h.tell_add_room
  have hlt := h.offset_lt
  omega

/-- What is written into the page moves the next byte, and the offset of the next page stays. -/
theorem fill (h : Placed w) (hfull : w.isFull = false) (hroom : l.length ≤ room w) :
    Placed (w.fill l) ∧ Extends w (w.fill l) ∧ (w.fill l).tell = w.tell + l.length ∧
      room (w.fill l) = room w - l.length := by
  obtain ⟨⟨page, hpage⟩, -⟩ := LogWriteBuf.isFull_eq_false_iff.mp hfull
  have hlt := h.position_lt hfull
  have heq : room w = w.pageSize - w.position := if_neg (by rw [hfull]; exact Bool.false_ne_true)
  have hplaced : Placed (w.fill l) :=
    ⟨h.writable, h.mapped, by rw [LogWriteBuf.fill_position, LogWriteBuf.fill_pageSize]; omega,
      h.page_eq, h.offset_lt⟩
  have htell : (w.fill l).tell = w.tell + l.length := by
    rw [LogWriteBuf.tell_of_page (w := w.fill l) hpage, LogWriteBuf.tell_of_page hpage,
      LogWriteBuf.fill_position, Nat.add_assoc]
  refine ⟨hplaced, ⟨by omega, fun i hi ↦ ?_⟩, htell, ?_⟩
  · rw [LogWriteBuf.tell_of_page hpage] at hi
    rw [LogWriteBuf.fill, hpage]
    exact MappedFile.write_data_of_lt l hi
  · have hend := h.tell_add_room
    have hend' := hplaced.tell_add_room
    rw [LogWriteBuf.fill_offset] at hend'
    omega

end Placed

/-! ## What an allocation leaves -/

/-- An allocation that is refused leaves the next byte and the bytes before it where they are. -/
theorem allocatePage_refused (h : Placed s.1) (hfull : s.1.isFull = true) {failing : Option Fault}
    (hfail : ¬ Allocates s.1 0 failing) (hmap : ¬ MapFails s.1 0 failing) :
    (allocatePage f g failing s).1 < 0 ∧
      Placed (allocatePage f g failing s).2.1 ∧
      (allocatePage f g failing s).2.1.tell = s.1.tell ∧
      Extends s.1 (allocatePage f g failing s).2.1 := by
  have htell := h.tell_of_full hfull
  have hlonger (i : ℕ) (hi : i < s.1.tell) : (if s.1.anonymous then s.1.file
      else s.1.file.truncate (s.1.offset + s.1.pageSize)).data i = s.1.file.data i := by
    rw [htell] at hi
    split_ifs
    · rfl
    · exact MappedFile.truncate_data_of_lt (by omega)
  rw [Allocates, Nat.zero_add, Nat.one_mul] at hfail
  rw [MapFails, Nat.zero_add, Nat.one_mul] at hmap
  obtain ⟨call, hcall⟩ := Option.ne_none_iff_exists'.mp hfail
  cases call with
  | truncate =>
    simp only [Faulty.allocatePage, hcall]
    exact ⟨by decide, h, trivial, Extends.refl _⟩
  | lSeekSet =>
    simp only [Faulty.allocatePage, hcall]
    exact ⟨by decide, ⟨h.writable, h.mapped, h.position_le, h.page_eq, h.offset_lt⟩, rfl,
      Nat.le_refl _, hlonger⟩
  | mMapWrite => exact absurd hcall hmap

theorem allocatePage_mapFailed {failing : Option Fault} (hmap : MapFails s.1 0 failing) :
    (allocatePage f g failing s).1 = 0 ∧ (allocatePage f g failing s).2.1.mapFailed = true ∧
      (allocatePage f g failing s).2.1.isFull = false ∧
      (allocatePage f g failing s).2.1.position = 0 ∧
      (allocatePage f g failing s).2.1.pageSize = s.1.pageSize ∧
      (allocatePage f g failing s).2.1.tell = s.1.offset ∧
      (allocatePage f g failing s).2.1.offset = s.1.offset + s.1.pageSize := by
  rw [MapFails, Nat.zero_add, Nat.one_mul] at hmap
  simp only [Faulty.allocatePage, hmap]
  refine ⟨trivial, trivial, ?_, trivial, trivial, rfl, trivial⟩
  exact LogWriteBuf.isFull_eq_false_iff.mpr ⟨⟨_, rfl⟩, Nat.ne_of_lt s.1.pageSize_pos⟩

theorem allocatePage_succeeded {failing : Option Fault} (hok : Allocates s.1 0 failing) :
    allocatePage f g failing s = (0, LogWriteBuf.allocatePage f s) := by
  rw [Allocates, Nat.zero_add, Nat.one_mul] at hok
  rw [allocatePage, hok]

theorem stop_lt_of_allocates {k : ℕ} {failing : Option Fault} (hok : Allocates w k failing) :
    w.offset + (k + 1) * w.pageSize < 2 ^ 63 := by
  by_contra hge
  rw [Nat.not_lt] at hge
  rw [Allocates, fault, if_pos (Or.inr hge), if_pos hge] at hok
  split_ifs at hok

theorem allocates_of_lt {k : ℕ} (h : w.offset + (k + 1) * w.pageSize < 2 ^ 63) :
    Allocates w k none := by
  rw [Allocates, fault]
  split_ifs with hanonymous hfail hlarge
  · exact absurd (hfail.resolve_left (by simp)) (Nat.not_le.mpr h)
  · rfl
  · exact absurd hlarge (Nat.not_le.mpr h)
  · rfl

/-- A page that is allocated has room for its bytes, and the next byte is its first one. -/
theorem Placed.allocatePage (h : Placed s.1) (hfull : s.1.isFull = true) {failing : Option Fault}
    (hok : Allocates s.1 0 failing) :
    Placed (LogWriteBuf.allocatePage f s).1 ∧
      Extends s.1 (LogWriteBuf.allocatePage f s).1 ∧
      (LogWriteBuf.allocatePage f s).1.isFull = false ∧
      (LogWriteBuf.allocatePage f s).1.tell = s.1.tell ∧
      room (LogWriteBuf.allocatePage f s).1 = s.1.pageSize := by
  have hstop := stop_lt_of_allocates hok
  rw [Nat.zero_add, Nat.one_mul] at hstop
  have hroom := LogWriteBuf.makeRoom_not_full (f := f) (s := s)
  rw [LogWriteBuf.makeRoom_of_full hfull] at hroom
  have htell : (LogWriteBuf.allocatePage f s).1.tell = s.1.tell := by
    rw [h.tell_of_full hfull, LogWriteBuf.tell_of_page rfl]
    rfl
  refine ⟨⟨h.writable, rfl, Nat.zero_le _, fun page hpage ↦ ?_, hstop⟩,
    ⟨Nat.le_of_eq htell.symm, fun i hi ↦ ?_⟩, hroom, htell, ?_⟩
  · rw [← Option.some.inj hpage]
    rfl
  · rw [h.tell_of_full hfull] at hi
    simp only [LogWriteBuf.allocatePage]
    split_ifs
    · exact if_neg (by omega)
    · exact MappedFile.truncate_data_of_lt (by omega)
  · rw [room, hroom, if_neg Bool.false_ne_true]
    rfl

theorem makeRoom_of_full (hfull : s.1.isFull = true) (failing : Option Fault) :
    makeRoom f g failing s = allocatePage f g failing s :=
  if_pos hfull

theorem makeRoom_of_not_full (hfull : s.1.isFull = false) (failing : Option Fault) :
    makeRoom f g failing s = (0, s) :=
  if_neg (by rw [hfull]; exact Bool.false_ne_true)

theorem makeRoom_spec (h : Placed s.1) {failing : Option Fault}
    (hmap : s.1.isFull = true → ¬ MapFails s.1 0 failing) :
    Placed (makeRoom f g failing s).2.1 ∧
      Extends s.1 (makeRoom f g failing s).2.1 ∧
      (makeRoom f g failing s).2.1.tell = s.1.tell ∧
      ((makeRoom f g failing s).1 = 0 → (makeRoom f g failing s).2.1.isFull = false ∧
        room (makeRoom f g failing s).2.1 = regionLen s.1) ∧
      ((makeRoom f g failing s).1 = 0 ↔ (s.1.isFull = true → Allocates s.1 0 failing)) ∧
      (makeRoom f g failing s).1 ≤ 0 := by
  by_cases hfull : s.1.isFull = true
  · rw [makeRoom_of_full hfull]
    by_cases hok : Allocates s.1 0 failing
    · obtain ⟨hplaced, hext, hnot, htell, hroom⟩ := h.allocatePage (f := f) hfull hok
      rw [allocatePage_succeeded hok, regionLen, if_pos hfull]
      exact ⟨hplaced, hext, htell, fun _ ↦ ⟨hnot, hroom⟩, ⟨fun _ _ ↦ hok, fun _ ↦ rfl⟩,
        Int.le_refl 0⟩
    · obtain ⟨hret, hplaced, htell, hext⟩ :=
        allocatePage_refused (f := f) (g := g) h hfull hok (hmap hfull)
      exact ⟨hplaced, hext, htell, fun hzero ↦ absurd hzero hret.ne,
        ⟨fun hzero ↦ absurd hzero hret.ne, fun hall ↦ absurd (hall hfull) hok⟩, hret.le⟩
  · rw [Bool.not_eq_true] at hfull
    rw [makeRoom_of_not_full hfull]
    refine ⟨h, Extends.refl _, rfl, fun _ ↦ ⟨hfull, ?_⟩, ⟨fun _ hfull' ↦ ?_, fun _ ↦ rfl⟩,
      Int.le_refl 0⟩
    · rw [room, regionLen, hfull, if_neg Bool.false_ne_true, if_neg Bool.false_ne_true]
    · rw [hfull] at hfull'
      exact absurd hfull' Bool.false_ne_true

theorem not_mapFails {w : LogWriteBuf} {failing : Option Fault}
    (hok : w.isFull = true → Allocates w 0 failing) : w.isFull = true → ¬ MapFails w 0 failing :=
  fun hfull hmap ↦ hmap.not_allocates (hok hfull)

theorem makeRoom_of_allocates (h : Placed s.1) {failing : Option Fault}
    (hok : s.1.isFull = true → Allocates s.1 0 failing) :
    (makeRoom f g failing s).1 = 0 ∧ (makeRoom f g failing s).2.1.mapFailed = false := by
  obtain ⟨hplaced, -, -, -, hiff, -⟩ := makeRoom_spec (f := f) (g := g) h (not_mapFails hok)
  exact ⟨hiff.mpr hok, hplaced.mapped⟩

/-! ## `Push` -/

/-- The number of pages that `n` bytes need behind the one that is mapped. -/
def needs (w : LogWriteBuf) (n : ℕ) : ℕ := (n - room w + (w.pageSize - 1)) / w.pageSize

theorem lt_needs_iff {n k : ℕ} : k < needs w n ↔ room w + k * w.pageSize < n := by
  have hpage := w.pageSize_pos
  rw [needs, ← Nat.succ_le_iff, Nat.le_div_iff_mul_le hpage, Nat.succ_mul]
  omega

theorem needs_zero (w : LogWriteBuf) : needs w 0 = 0 :=
  Nat.eq_zero_of_not_pos fun hpos ↦ Nat.not_lt_zero _ (lt_needs_iff.mp hpos)

/-- A writer is behind the pages that `n` bytes need. -/
structure Behind (w : LogWriteBuf) (n : ℕ) (v : LogWriteBuf) : Prop where
  pageSize_eq : v.pageSize = w.pageSize
  anonymous_eq : v.anonymous = w.anonymous
  offset_eq : v.offset = w.offset + needs w n * w.pageSize

/-- How a `Push` of `n` bytes ends: all are written, or those that fit before the first page that is
refused, or the process has ended at the first page that cannot be mapped. -/
inductive PushEnds (failing : ℕ → Option Fault) (n : ℕ) (w : LogWriteBuf) :
    Option (ℤ × (LogWriteBuf × σ)) → Prop where
  | written {r : LogWriteBuf × σ} (placed : Placed r.1) (ext : Extends w r.1)
      (tell_eq : r.1.tell = w.tell + n)
      (all : ∀ k, room w + k * w.pageSize < n → Allocates w k (failing k))
      (behind : Behind w n r.1) : PushEnds failing n w (some (0, r))
  | refused {r : ℤ × (LogWriteBuf × σ)} (ret : r.1 ≠ 0) (placed : Placed r.2.1)
      (ext : Extends w r.2.1) (k : ℕ) (tell_eq : r.2.1.tell = w.tell + (room w + k * w.pageSize))
      (lt : room w + k * w.pageSize < n) (fails : ¬ Allocates w k (failing k))
      (not_map : ¬ MapFails w k (failing k)) (before : ∀ j < k, Allocates w j (failing j)) :
      PushEnds failing n w (some r)
  | ended (k : ℕ) (lt : room w + k * w.pageSize < n) (map : MapFails w k (failing k))
      (before : ∀ j < k, Allocates w j (failing j)) : PushEnds failing n w none

namespace PushEnds

variable {e : ℕ → Option Fault} {n : ℕ} {r : Option (ℤ × (LogWriteBuf × σ))}

theorem nil (h : Placed s.1) (e : ℕ → Option Fault) : PushEnds e 0 s.1 (some (0, s)) :=
  .written h (Extends.refl s.1) rfl (fun _ hk ↦ absurd hk (Nat.not_lt_zero _))
    ⟨rfl, rfl, by rw [needs_zero, Nat.zero_mul, Nat.add_zero]⟩

theorem of_fill {x : ℕ} (hsize : v.pageSize = w.pageSize) (hoffset : v.offset = w.offset)
    (hanonymous : v.anonymous = w.anonymous) (hext : Extends w v) (htell : v.tell = w.tell + x)
    (hroom : room v = room w - x) (hxroom : x ≤ room w) (hxn : x ≤ n) (h : PushEnds e (n - x) v r) :
    PushEnds e n w r := by
  have hall (k : ℕ) : Allocates v k (e k) ↔ Allocates w k (e k) := by
    rw [Allocates, Allocates, hsize, hoffset, hanonymous]
  have hmap (k : ℕ) : MapFails v k (e k) ↔ MapFails w k (e k) := by
    rw [MapFails, MapFails, hsize, hoffset, hanonymous]
  cases h with
  | written placed ext tell_eq all behind =>
    simp only [hall, hsize, hroom] at all
    have hneeds : needs v (n - x) = needs w n := by
      refine eq_of_forall_lt_iff fun k ↦ ?_
      rw [lt_needs_iff, lt_needs_iff, hroom, hsize]
      omega
    have hend := behind.offset_eq
    rw [hneeds, hoffset, hsize] at hend
    exact .written placed (hext.trans ext) (by omega) (fun k hk ↦ all k (by omega))
      ⟨behind.pageSize_eq.trans hsize, behind.anonymous_eq.trans hanonymous, hend⟩
  | refused ret placed ext k tell_eq lt fails not_map before =>
    simp only [hall, hmap, hsize, hroom] at tell_eq lt fails not_map before
    exact .refused ret placed (hext.trans ext) k (by omega) (by omega) fails not_map before
  | ended k lt map before =>
    simp only [hall, hmap, hsize, hroom] at lt map before
    exact .ended k (by omega) map before

theorem of_allocatePage (hs : Placed s.1) (hfull : s.1.isFull = true) (hn : 0 < n)
    (hok : Allocates s.1 0 (e 0))
    (h : PushEnds (fun k ↦ e (k + 1)) n (LogWriteBuf.allocatePage f s).1 r) :
    PushEnds e n s.1 r := by
  obtain ⟨-, hext, -, htell, hroom⟩ := hs.allocatePage (f := f) hfull hok
  have hroom' : room s.1 = 0 := if_pos hfull
  have hsize : (LogWriteBuf.allocatePage f s).1.pageSize = s.1.pageSize := rfl
  have hstop (k : ℕ) : s.1.offset + s.1.pageSize + (k + 1) * s.1.pageSize
      = s.1.offset + (k + 1 + 1) * s.1.pageSize := by
    rw [Nat.succ_mul (k + 1), Nat.add_assoc, Nat.add_comm s.1.pageSize]
  have hall (k : ℕ) : Allocates (LogWriteBuf.allocatePage f s).1 k (e (k + 1))
      ↔ Allocates s.1 (k + 1) (e (k + 1)) := by
    rw [Allocates, Allocates, ← hstop]
    rfl
  have hmap (k : ℕ) : MapFails (LogWriteBuf.allocatePage f s).1 k (e (k + 1))
      ↔ MapFails s.1 (k + 1) (e (k + 1)) := by
    rw [MapFails, MapFails, ← hstop]
    rfl
  have hbefore {k : ℕ} (h : ∀ j < k, Allocates s.1 (j + 1) (e (j + 1))) :
      ∀ j < k + 1, Allocates s.1 j (e j) := by
    intro j hj
    cases j with
    | zero => exact hok
    | succ j => exact h j (Nat.lt_of_succ_lt_succ hj)
  cases h with
  | written placed ext tell_eq all behind =>
    simp only [hall, hsize, hroom] at all
    have hneeds : needs s.1 n = needs (LogWriteBuf.allocatePage f s).1 n + 1 := by
      refine eq_of_forall_lt_iff fun k ↦ ?_
      rw [lt_needs_iff, hroom', Nat.zero_add]
      cases k with
      | zero => exact iff_of_true (by rwa [Nat.zero_mul]) (Nat.succ_pos _)
      | succ k =>
        rw [Nat.succ_lt_succ_iff, lt_needs_iff, hroom, hsize, Nat.succ_mul, Nat.add_comm]
    refine .written placed (hext.trans ext) (by omega) (fun k hk ↦ ?_)
      ⟨behind.pageSize_eq.trans hsize, behind.anonymous_eq, ?_⟩
    · rw [hroom'] at hk
      cases k with
      | zero => exact hok
      | succ k =>
        apply all
        rw [Nat.succ_mul] at hk
        omega
    · rw [behind.offset_eq, hneeds, Nat.succ_mul, hsize]
      change s.1.offset + s.1.pageSize + _ = _
      omega
  | refused ret placed ext k tell_eq lt fails not_map before =>
    simp only [hall, hmap, hsize, hroom, htell] at tell_eq lt fails not_map before
    refine .refused ret placed (hext.trans ext) (k + 1) ?_ ?_ fails not_map (hbefore before)
    · rw [hroom', Nat.succ_mul]
      omega
    · rw [hroom', Nat.succ_mul]
      omega
  | ended k lt map before =>
    simp only [hall, hmap, hsize, hroom] at lt map before
    refine .ended (k + 1) ?_ map (hbefore before)
    rw [hroom', Nat.succ_mul]
    omega

theorem of_refused (h : Placed s.1) (hfull : s.1.isFull = true) (hn : 0 < n)
    (hfail : ¬ Allocates s.1 0 (e 0)) (hmap : ¬ MapFails s.1 0 (e 0)) :
    PushEnds e n s.1 (some (allocatePage f g (e 0) s)) := by
  obtain ⟨hret, hplaced, htell, hext⟩ :=
    allocatePage_refused (f := f) (g := g) h hfull hfail hmap
  have hroom : room s.1 + 0 * s.1.pageSize = 0 := by rw [room, if_pos hfull, Nat.zero_mul]
  refine .refused hret.ne hplaced hext 0 ?_ ?_ hfail hmap fun j hj ↦ absurd hj (Nat.not_lt_zero j)
  · rw [hroom, htell, Nat.add_zero]
  · rwa [hroom]

theorem of_mapFails (hfull : s.1.isFull = true) (hn : 0 < n) (hmap : MapFails s.1 0 (e 0)) :
    PushEnds (σ := σ) e n s.1 none := by
  refine .ended 0 ?_ hmap fun j hj ↦ absurd hj (Nat.not_lt_zero j)
  rwa [room, if_pos hfull, Nat.zero_mul]

/-- The process ends exactly if the first page that is needed and not allocated is one that cannot
be mapped. -/
theorem eq_none_iff (h : PushEnds e n w r) :
    r = none ↔ ∃ k, room w + k * w.pageSize < n ∧ MapFails w k (e k) ∧
      ∀ j < k, Allocates w j (e j) := by
  cases h with
  | written placed ext tell_eq all =>
    refine iff_of_false (Option.some_ne_none _) ?_
    rintro ⟨k, hlt, hmap, -⟩
    exact hmap.not_allocates (all k hlt)
  | refused ret placed ext k tell_eq lt fails not_map before =>
    refine iff_of_false (Option.some_ne_none _) ?_
    rintro ⟨k', hlt, hmap, hbefore⟩
    rcases Nat.lt_trichotomy k k' with hkk' | rfl | hk'k
    · exact fails (hbefore k hkk')
    · exact not_map hmap
    · exact hmap.not_allocates (before k' hk'k)
  | ended k lt map before => exact iff_of_true rfl ⟨k, lt, map, before⟩

theorem succeeds_iff (h : PushEnds e n w r) :
    r.map Prod.fst = some 0 ↔ ∀ k, room w + k * w.pageSize < n → Allocates w k (e k) := by
  cases h with
  | written placed ext tell_eq all => exact iff_of_true rfl all
  | refused ret placed ext k tell_eq lt fails not_map before =>
    exact iff_of_false (fun hret ↦ ret (Option.some.inj hret)) fun hall ↦ fails (hall k lt)
  | ended k lt map before =>
    exact iff_of_false (Option.some_ne_none 0).symm fun hall ↦ map.not_allocates (hall k lt)

theorem placed {r : ℤ × (LogWriteBuf × σ)} (h : PushEnds e n w (some r)) : Placed r.2.1 := by
  cases h with
  | written placed => exact placed
  | refused ret placed => exact placed

end PushEnds

/-- What fails in a `Push` of `n` bytes, and in another one behind it, page by page. -/
def followed (w : LogWriteBuf) (n : ℕ) (e e' : ℕ → Option Fault) (k : ℕ) : Option Fault :=
  if k < needs w n then e k else e' (k - needs w n)

theorem followed_of_lt {n k : ℕ} (h : k < needs w n) (e e' : ℕ → Option Fault) :
    followed w n e e' k = e k :=
  if_pos h

theorem followed_add (w : LogWriteBuf) (n : ℕ) (e e' : ℕ → Option Fault) (k : ℕ) :
    followed w n e e' (needs w n + k) = e' k := by
  rw [followed, if_neg (by omega), Nat.add_sub_cancel_left]

namespace Behind

variable {e e' : ℕ → Option Fault} {n n' : ℕ}

/-- The pages that more bytes need are counted on. -/
theorem lt_iff (h : Behind w n v) (hw : Placed w) (hv : Placed v) (htell : v.tell = w.tell + n)
    (k : ℕ) : room v + k * v.pageSize < n' ↔
      room w + (needs w n + k) * w.pageSize < n + n' := by
  have hstart := hw.tell_add_room
  have hend := hv.tell_add_room
  rw [h.offset_eq] at hend
  rw [h.pageSize_eq, Nat.add_mul]
  omega

theorem stop_eq (h : Behind w n v) (k : ℕ) : v.offset + (k + 1) * v.pageSize
    = w.offset + (needs w n + k + 1) * w.pageSize := by
  rw [h.offset_eq, h.pageSize_eq, Nat.add_assoc (needs w n), Nat.add_mul (needs w n),
    Nat.add_assoc]

theorem allocates_iff (h : Behind w n v) (k : ℕ) : Allocates v k (e' k) ↔
    Allocates w (needs w n + k) (followed w n e e' (needs w n + k)) := by
  rw [Allocates, Allocates, h.stop_eq, h.anonymous_eq, followed_add]

theorem mapFails_iff (h : Behind w n v) (k : ℕ) : MapFails v k (e' k) ↔
    MapFails w (needs w n + k) (followed w n e e' (needs w n + k)) := by
  rw [MapFails, MapFails, h.stop_eq, h.anonymous_eq, followed_add]

theorem needs_add (h : Behind w n v) (hw : Placed w) (hv : Placed v)
    (htell : v.tell = w.tell + n) : needs w (n + n') = needs w n + needs v n' := by
  refine eq_of_forall_lt_iff fun k ↦ ?_
  rw [lt_needs_iff]
  by_cases hk : k < needs w n
  · have hlt := lt_needs_iff.mp hk
    exact iff_of_true (by omega) (by omega)
  · obtain ⟨i, rfl⟩ := Nat.exists_eq_add_of_le (Nat.not_lt.mp hk)
    rw [← h.lt_iff hw hv htell, Nat.add_lt_add_iff_left, lt_needs_iff]

/-- The pages of both are allocated up to one of the second. -/
theorem allocates_before (h : Behind w n v)
    (hfirst : ∀ k, room w + k * w.pageSize < n → Allocates w k (e k)) {k : ℕ}
    (hsecond : ∀ j < k, Allocates v j (e' j)) :
    ∀ j < needs w n + k, Allocates w j (followed w n e e' j) := by
  intro j hj
  by_cases hjn : j < needs w n
  · rw [followed_of_lt hjn]
    exact hfirst j (lt_needs_iff.mp hjn)
  · obtain ⟨i, rfl⟩ := Nat.exists_eq_add_of_le (Nat.not_lt.mp hjn)
    exact h.allocates_iff i |>.mp (hsecond i (by omega))

theorem trans {u : LogWriteBuf} (h : Behind w n v) (h' : Behind v n' u) (hw : Placed w)
    (hv : Placed v) (htell : v.tell = w.tell + n) : Behind w (n + n') u := by
  refine ⟨h'.pageSize_eq.trans h.pageSize_eq, h'.anonymous_eq.trans h.anonymous_eq, ?_⟩
  rw [h'.offset_eq, h.offset_eq, h.pageSize_eq, h.needs_add hw hv htell, Nat.add_mul,
    Nat.add_assoc]

end Behind

namespace PushEnds

variable {e e' : ℕ → Option Fault} {n n' : ℕ} {r : Option (ℤ × (LogWriteBuf × σ))}

/-- A `Push` that is not done has needed no page of the next one. -/
theorem followed_of_not_written (h : PushEnds e n w r) (hret : r.map Prod.fst ≠ some 0)
    (hle : n ≤ n') : PushEnds (followed w n e e') n' w r := by
  have hfirst {k : ℕ} (hlt : room w + k * w.pageSize < n) {j : ℕ} (hj : j ≤ k) :
      followed w n e e' j = e j :=
    followed_of_lt (Nat.lt_of_le_of_lt hj (lt_needs_iff.mpr hlt)) e e'
  cases h with
  | written => exact absurd rfl hret
  | refused ret placed ext k tell_eq lt fails not_map before =>
    refine .refused ret placed ext k tell_eq (by omega) ?_ ?_ fun j hj ↦ ?_
    · rwa [hfirst lt (Nat.le_refl k)]
    · rwa [hfirst lt (Nat.le_refl k)]
    · rw [hfirst lt (Nat.le_of_lt hj)]
      exact before j hj
  | ended k lt map before =>
    refine .ended k (by omega) ?_ fun j hj ↦ ?_
    · rwa [hfirst lt (Nat.le_refl k)]
    · rw [hfirst lt (Nat.le_of_lt hj)]
      exact before j hj

/-- **Two `Push` in a row** end as one of all the bytes. -/
theorem followed_of_written {r₁ : LogWriteBuf × σ} (hw : Placed w)
    (h : PushEnds e n w (some (0, r₁))) (h' : PushEnds e' n' r₁.1 r) :
    PushEnds (followed w n e e') (n + n') w r := by
  cases h with
  | refused ret => exact absurd rfl ret
  | written placed ext tell_eq all behind =>
    have hneeds (k : ℕ) : room r₁.1 + k * r₁.1.pageSize < n' ↔
        room w + (needs w n + k) * w.pageSize < n + n' :=
      behind.lt_iff hw placed tell_eq k
    have hboth {k : ℕ} (hk : ∀ j < k, Allocates r₁.1 j (e' j)) :=
      behind.allocates_before all hk
    cases h' with
    | written placed' ext' tell_eq' all' behind' =>
      refine .written placed' (ext.trans ext') (by omega) (fun k hk ↦ ?_)
        (behind.trans behind' hw placed tell_eq)
      rw [← lt_needs_iff, behind.needs_add hw placed tell_eq] at hk
      exact hboth (fun j hj ↦ all' j (lt_needs_iff.mp hj)) k hk
    | refused ret placed' ext' k tell_eq' lt fails not_map before =>
      refine .refused ret placed' (ext.trans ext') (needs w n + k) ?_ ((hneeds k).mp lt)
        (mt (behind.allocates_iff k).mpr fails) (mt (behind.mapFails_iff k).mpr not_map)
        (hboth before)
      have hstart := hw.tell_add_room
      have hend := placed.tell_add_room
      rw [behind.offset_eq] at hend
      rw [tell_eq', tell_eq, behind.pageSize_eq, Nat.add_mul]
      omega
    | ended k lt map before =>
      exact .ended (needs w n + k) ((hneeds k).mp lt) ((behind.mapFails_iff k).mp map)
        (hboth before)

end PushEnds

/-- A round with room in the page writes a block, and the rounds that follow do the rest. -/
theorem pushLoop_round {fuel : ℕ} {e : ℕ → Option Fault} (h : Placed s.1)
    (hfull : s.1.isFull = false) (hfuel : l.length ≤ fuel + 1)
    (hrest : ∀ {l : List UInt8} {s : LogWriteBuf × σ}, Placed s.1 → l.length ≤ fuel →
      PushEnds e l.length s.1 (pushLoop f g fuel e l s)) :
    let x := min l.length (s.1.pageSize - s.1.position)
    PushEnds e l.length s.1
      (pushLoop f g fuel e (l.drop x) (s.1.fill (l.take x), s.2)) := by
  intro x
  have hx : x = min l.length (s.1.pageSize - s.1.position) := rfl
  have hlt := h.position_lt hfull
  have hroom : room s.1 = s.1.pageSize - s.1.position :=
    if_neg (by rw [hfull]; exact Bool.false_ne_true)
  have htake : (l.take x).length = x := by
    rw [List.length_take]
    omega
  obtain ⟨hplaced, hext, htell, hleft⟩ := h.fill (l := l.take x) hfull (by omega)
  rw [htake] at htell hleft
  have hends := hrest (l := l.drop x) (s := (s.1.fill (l.take x), s.2)) hplaced
    (by rw [List.length_drop]; omega)
  rw [List.length_drop] at hends
  exact PushEnds.of_fill (v := s.1.fill (l.take x)) rfl rfl rfl hext htell hleft (by omega)
    (by omega) hends

/-- **What a `Push` does**, whatever fails in it. The induction is on the rounds. -/
theorem pushLoop_spec {fuel : ℕ} {e : ℕ → Option Fault} (h : Placed s.1) (hfuel : l.length ≤ fuel) :
    PushEnds e l.length s.1 (pushLoop f g fuel e l s) := by
  induction fuel generalizing e l s with
  | zero =>
    rw [List.length_eq_zero_iff.mp (Nat.le_zero.mp hfuel)]
    exact PushEnds.nil h e
  | succ fuel ih =>
    by_cases hnil : l = []
    · rw [pushLoop, if_pos hnil, hnil]
      exact PushEnds.nil h e
    have hlen := List.length_pos_of_ne_nil hnil
    rw [pushLoop, if_neg hnil]
    by_cases hfull : s.1.isFull = true
    · simp only [makeRoom_of_full hfull, hfull, if_true]
      by_cases hok : Allocates s.1 0 (e 0)
      · obtain ⟨hplaced, -, hnot, -, -⟩ := h.allocatePage (f := f) hfull hok
        rw [allocatePage_succeeded hok, if_neg (not_not_intro rfl), hplaced.mapped,
          if_neg Bool.false_ne_true]
        apply PushEnds.of_allocatePage h hfull hlen hok
        exact pushLoop_round hplaced hnot hfuel ih
      · by_cases hmap : MapFails s.1 0 (e 0)
        · obtain ⟨hret, hno, -⟩ := allocatePage_mapFailed (f := f) (g := g) hmap
          rw [if_neg (not_not_intro hret), if_pos hno]
          exact PushEnds.of_mapFails hfull hlen hmap
        · rw [if_pos (allocatePage_refused h hfull hok hmap).1.ne]
          exact PushEnds.of_refused h hfull hlen hok hmap
    · rw [Bool.not_eq_true] at hfull
      simp only [makeRoom_of_not_full hfull, hfull, Bool.false_eq_true, if_false]
      rw [if_neg (not_not_intro rfl), h.mapped, if_neg Bool.false_ne_true]
      exact pushLoop_round h hfull hfuel ih

theorem push_spec (h : Placed s.1) (failing : ℕ → Option Fault) (l : List UInt8) :
    PushEnds failing l.length s.1 (push f g failing l s) := by
  rw [push, h.writable, if_neg Bool.false_ne_true]
  exact pushLoop_spec h (Nat.le_refl _)

/-- A writer in a file behind the largest offset. -/
structure AtLimit (w : LogWriteBuf) : Prop where
  writable : w.readOnly = false
  inFile : w.anonymous = false
  full : w.isFull = true
  le_offset : 2 ^ 63 ≤ w.offset

theorem AtLimit.fault_eq (h : AtLimit w) (k : ℕ) (failing : Option Fault) :
    fault w.anonymous (w.offset + (k + 1) * w.pageSize) failing = some .truncate := by
  rw [fault, h.inFile, if_neg Bool.false_ne_true,
    if_pos (Nat.le_trans h.le_offset (Nat.le_add_right _ _))]

theorem AtLimit.not_allocates (h : AtLimit w) (k : ℕ) (failing : Option Fault) :
    ¬ Allocates w k failing := by
  rw [Allocates, h.fault_eq]
  exact Option.some_ne_none _

theorem AtLimit.push_eq (h : AtLimit s.1) (failing : ℕ → Option Fault) (hl : l ≠ []) :
    push f g failing l s = some (-1, s) := by
  obtain ⟨n, hn⟩ := Nat.exists_eq_add_one_of_ne_zero (Nat.ne_of_gt (List.length_pos_of_ne_nil hl))
  have hfault := h.fault_eq 0 (failing 0)
  rw [Nat.zero_add, Nat.one_mul] at hfault
  have hroom : makeRoom f g (failing 0) s = (-1, s) := by
    rw [makeRoom_of_full h.full, allocatePage, hfault]
  rw [push, h.writable, if_neg Bool.false_ne_true, hn, pushLoop, if_neg hl]
  simp only [hroom]
  exact if_pos (by decide)

/-! ## The other calls -/

theorem readv_spec (h : Placed s.1) {failing : Option Fault}
    (hmap : s.1.isFull = true → ¬ MapFails s.1 0 failing) (cb : Reader UInt8) :
    ∃ r, readv f g failing cb s = some r ∧ Placed r.2.1 ∧
      r.2.1.tell = s.1.tell + r.1.toNat := by
  obtain ⟨hplaced, -, htell, hroom, -, hle⟩ := makeRoom_spec (f := f) (g := g) h hmap
  rw [readv, h.writable, if_neg Bool.false_ne_true]
  by_cases hret : (makeRoom f g failing s).1 = 0
  · obtain ⟨hfull, -⟩ := hroom hret
    simp only [hret, ne_eq, not_true_eq_false, if_false, hplaced.mapped, Bool.false_eq_true,
      false_and]
    refine ⟨_, rfl, ?_⟩
    have hle := cb.length_bytes_le
      [(makeRoom f g failing s).2.1.pageSize - (makeRoom f g failing s).2.1.position]
    have hlt := hplaced.position_lt hfull
    rw [List.sum_singleton] at hle
    obtain ⟨hplaced', -, htell', -⟩ := hplaced.fill hfull (l := (cb.run _).bytes)
      (by rw [room, hfull, if_neg Bool.false_ne_true]; exact hle)
    refine ⟨hplaced', ?_⟩
    rw [htell', htell]
    rcases cb.ret_cases [(makeRoom f g failing s).2.1.pageSize
      - (makeRoom f g failing s).2.1.position] with ⟨hneg, hnil⟩ | ⟨-, heq⟩
    · rw [hnil, List.length_nil, Int.toNat_of_nonpos hneg]
    · rw [heq, Int.toNat_natCast]
  · rw [if_pos hret]
    exact ⟨_, rfl, hplaced, by rw [htell, Int.toNat_of_nonpos hle, Nat.add_zero]⟩

theorem readv_of_mapFails (h : Placed s.1) (hfull : s.1.isFull = true) {failing : Option Fault}
    (hmap : MapFails s.1 0 failing) (cb : Reader UInt8) {r : ℤ × (LogWriteBuf × σ)}
    (hr : readv f g failing cb s = some r) : nextByte r.2.1 = none := by
  obtain ⟨hret, hno, hnot, -⟩ := allocatePage_mapFailed (f := f) (g := g) hmap
  rw [readv, h.writable, if_neg Bool.false_ne_true] at hr
  simp only [makeRoom_of_full hfull, hret, hno, ne_eq, not_true_eq_false, if_false,
    true_and] at hr
  split_ifs at hr with hbytes
  · obtain rfl := Option.some.inj hr
    rw [hbytes, LogWriteBuf.fill_nil, nextByte, hnot, if_neg Bool.false_ne_true, hno]
    exact if_neg fun hboth ↦ Bool.noConfusion hboth.1

theorem tell_of_position {page : ℕ} (hpage : w.dataPage = some page) (n : ℕ) :
    LogWriteBuf.tell { w with position := n } = page + n :=
  LogWriteBuf.tell_of_page (w := { w with position := n }) hpage

theorem zeroCopyNext_cases (h : Placed s.1) {failing : Option Fault}
    (hmap : s.1.isFull = true → ¬ MapFails s.1 0 failing) :
    Placed (zeroCopyNext f g failing s).2.2.1 ∧
    ((¬ (s.1.isFull = true → Allocates s.1 0 failing) ∧ (zeroCopyNext f g failing s).2.1 = none ∧
        (zeroCopyNext f g failing s).2.2.1.tell = s.1.tell) ∨
      ((s.1.isFull = true → Allocates s.1 0 failing) ∧
        (zeroCopyNext f g failing s).2.1 = some (s.1.tell, CInt.toInt (regionLen s.1)) ∧
        (zeroCopyNext f g failing s).2.2.1.tell = s.1.tell + regionLen s.1)) := by
  obtain ⟨hplaced, -, htell, hroom, hiff, -⟩ := makeRoom_spec (f := f) (g := g) h hmap
  rw [zeroCopyNext, h.writable, if_neg Bool.false_ne_true]
  by_cases hret : (makeRoom f g failing s).1 = 0
  · obtain ⟨hfull, hlen⟩ := hroom hret
    have heq := hlen
    rw [room, hfull, if_neg Bool.false_ne_true] at heq
    have hend := hplaced.tell_add_room
    obtain ⟨⟨page, hpage⟩, -⟩ := LogWriteBuf.isFull_eq_false_iff.mp hfull
    have hnext := hplaced.page_eq page hpage
    simp only [hret, ne_eq, not_true_eq_false, if_false]
    refine ⟨⟨hplaced.writable, hplaced.mapped, Nat.le_refl _, hplaced.page_eq,
      hplaced.offset_lt⟩, Or.inr ⟨hiff.mp hret, by rw [htell, heq], ?_⟩⟩
    have hpos := hplaced.position_le
    have hfirst := LogWriteBuf.tell_of_page hpage
    rw [tell_of_position hpage]
    omega
  · simp only [if_pos (show (makeRoom f g failing s).1 ≠ 0 from hret)]
    exact ⟨hplaced, Or.inl ⟨fun hall ↦ hret (hiff.mpr hall), trivial, htell⟩⟩

theorem zeroCopyNext_of_mapFails (h : Placed s.1) (hfull : s.1.isFull = true)
    {failing : Option Fault} (hmap : MapFails s.1 0 failing) :
    (zeroCopyNext f g failing s).2.1 = some (s.1.tell, CInt.toInt (regionLen s.1)) ∧
      (zeroCopyNext f g failing s).2.2.1.mapFailed = true ∧
      nextByte (zeroCopyNext f g failing s).2.2.1 = some (s.1.tell + regionLen s.1) := by
  obtain ⟨hret, hno, -, hpos, hsize, htell, hoffset⟩ :=
    allocatePage_mapFailed (f := f) (g := g) hmap
  rw [zeroCopyNext, h.writable, if_neg Bool.false_ne_true, regionLen, if_pos hfull,
    h.tell_of_full hfull]
  simp only [makeRoom_of_full hfull, hret, ne_eq, not_true_eq_false, if_false, hpos, hsize, htell,
    Nat.sub_zero]
  refine ⟨trivial, hno, ?_⟩
  rw [nextByte, if_pos]
  · rw [hoffset]
  · exact LogWriteBuf.isFull_eq_true_iff.mpr (Or.inr rfl)

/-- The condition under which bytes that are given back move the next byte. -/
def TakesBack (len : Int32) (w : LogWriteBuf) : Prop :=
  w.dataPage ≠ none ∧ len.toInt ≤ w.position ∧ w.position - len.toInt ≤ w.pageSize

instance (len : Int32) (w : LogWriteBuf) : Decidable (TakesBack len w) :=
  inferInstanceAs (Decidable (_ ∧ _ ∧ _))

theorem backup_zero (w : LogWriteBuf) : backup 0 w = (true, w) := by
  have hsame : ((w.position : ℤ) - (0 : Int32).toInt).toNat = w.position := by
    rw [Int32.toInt_zero]
    omega
  rw [backup, if_neg (by rw [Int32.toInt_zero]; omega), hsame]

theorem backup_cases (h : Placed w) (len : Int32) :
    (TakesBack len w ∧ Placed (backup len w).2 ∧ ((backup len w).2.tell : ℤ) = w.tell - len.toInt) ∨
    (¬ TakesBack len w ∧
      (nextByte (backup len w).2 = none ∨ nextByte (backup len w).2 = some w.tell)) := by
  by_cases hlen : (w.position : ℤ) < len.toInt
  · right
    rw [backup, if_pos hlen]
    exact ⟨fun htakes ↦ absurd htakes.2.1 (by omega), Or.inr h.nextByte_eq⟩
  rw [backup, if_neg hlen]
  rcases Option.eq_none_or_eq_some w.dataPage with hpage | ⟨page, hpage⟩
  · right
    refine ⟨fun htakes ↦ htakes.1 hpage, Or.inr ?_⟩
    rw [LogWriteBuf.tell_of_none hpage, nextByte, if_pos]
    exact LogWriteBuf.isFull_eq_true_iff.mpr (Or.inl hpage)
  · have hend := h.page_eq page hpage
    by_cases hsize : w.position - len.toInt ≤ w.pageSize
    · left
      refine ⟨⟨by rw [hpage]; exact Option.some_ne_none page, by omega, hsize⟩,
        ⟨h.writable, h.mapped, by simp only; omega, h.page_eq, h.offset_lt⟩, ?_⟩
      rw [tell_of_position hpage, LogWriteBuf.tell_of_page hpage]
      omega
    · right
      refine ⟨fun htakes ↦ hsize htakes.2.2, Or.inl ?_⟩
      have hnot : LogWriteBuf.isFull { w with position := (w.position - len.toInt).toNat }
        = false := by
        rw [LogWriteBuf.isFull_eq_false_iff]
        exact ⟨⟨page, hpage⟩, by simp only; omega⟩
      rw [nextByte, hnot, if_neg Bool.false_ne_true]
      refine if_neg fun hboth ↦ ?_
      have hlt := hboth.2
      simp only at hlt
      omega

/-! ## Calls that succeed

They do what the writer does whose pages do not fail.
-/

theorem makeRoom_of_ret {failing : Option Fault} (h : (makeRoom f g failing s).1 = 0)
    (hmapped : (makeRoom f g failing s).2.1.mapFailed = false) :
    makeRoom f g failing s = (0, LogWriteBuf.makeRoom f s) := by
  by_cases hfull : s.1.isFull = true
  · rw [makeRoom_of_full hfull] at h hmapped ⊢
    rw [LogWriteBuf.makeRoom_of_full hfull]
    apply allocatePage_succeeded
    by_contra hfail
    rw [Allocates, Nat.zero_add, Nat.one_mul] at hfail
    obtain ⟨call, hcall⟩ := Option.ne_none_iff_exists'.mp hfail
    cases call <;> simp [Faulty.allocatePage, hcall] at h hmapped
  · rw [Bool.not_eq_true] at hfull
    rw [makeRoom_of_not_full hfull, LogWriteBuf.makeRoom_of_not_full hfull]

theorem pushLoop_of_ret {fuel : ℕ} {e : ℕ → Option Fault} {r : LogWriteBuf × σ}
    (h : pushLoop f g fuel e l s = some (0, r)) : r = LogWriteBuf.pushLoop f fuel l s := by
  induction fuel generalizing e l s with
  | zero => exact (Prod.mk.inj (Option.some.inj h)).2.symm
  | succ fuel ih =>
    by_cases hnil : l = []
    · rw [pushLoop, if_pos hnil] at h
      rw [LogWriteBuf.pushLoop, if_pos hnil]
      exact (Prod.mk.inj (Option.some.inj h)).2.symm
    rw [pushLoop, if_neg hnil] at h
    rw [LogWriteBuf.pushLoop, if_neg hnil]
    by_cases hret : (makeRoom f g (e 0) s).1 = 0
    · simp only [hret, ne_eq, not_true_eq_false, if_false] at h
      cases hmapped : (makeRoom f g (e 0) s).2.1.mapFailed with
      | true =>
        rw [if_pos hmapped] at h
        exact absurd h.symm (Option.some_ne_none _)
      | false =>
        rw [hmapped, if_neg Bool.false_ne_true, makeRoom_of_ret hret hmapped] at h
        exact ih h
    · rw [if_pos hret] at h
      exact absurd (Prod.mk.inj (Option.some.inj h)).1 hret

theorem push_of_ret {failing : ℕ → Option Fault} {r : LogWriteBuf × σ}
    (h : push f g failing l s = some (0, r)) : LogWriteBuf.push f l s = (0, r) := by
  unfold push at h
  unfold LogWriteBuf.push
  split_ifs at h ⊢
  · exact absurd (Prod.mk.inj (Option.some.inj h)).1 (by decide)
  · rw [← pushLoop_of_ret h]

theorem readv_of_ret {failing : Option Fault} (h : (makeRoom f g failing s).1 = 0)
    (hmapped : (makeRoom f g failing s).2.1.mapFailed = false) (cb : Reader UInt8) :
    readv f g failing cb s = some (LogWriteBuf.readv f cb s) := by
  have hroom := makeRoom_of_ret h hmapped
  rw [hroom] at hmapped
  simp only at hmapped
  simp only [readv, LogWriteBuf.readv, hroom, hmapped, ne_eq, not_true_eq_false, if_false,
    Bool.false_eq_true, false_and]
  split_ifs <;> rfl

theorem zeroCopyNext_of_ret {failing : Option Fault} (h : (makeRoom f g failing s).1 = 0)
    (hmapped : (makeRoom f g failing s).2.1.mapFailed = false) :
    zeroCopyNext f g failing s = LogWriteBuf.zeroCopyNext f s := by
  simp only [zeroCopyNext, LogWriteBuf.zeroCopyNext, makeRoom_of_ret h hmapped, ne_eq,
    not_true_eq_false, if_false]

theorem backup_of_nonneg {len : Int32} (h : 0 ≤ len.toInt) :
    backup len w = w.backup len.toInt.toNat := by
  have hposition : ((w.position : ℤ) - len.toInt).toNat = w.position - len.toInt.toNat := by omega
  rw [backup, LogWriteBuf.backup, hposition]
  exact if_congr (by omega) rfl rfl

end Faulty

end Coypu
