import Coypu.Library.CInt
import Coypu.Library.MappedFile
import Coypu.Library.Transport

/-!
# The writer of a log

`LogWriteBuf` writes through one page that is mapped, and maps the next one when it is full.
`_offset` is the offset of the page to map next after `AllocatePage`, but that of the page mapped
after `PositionPage`; so the writer that was repositioned maps the same page again when it is full.

The system calls succeed here, so offsets are below `2⁶³`. Anonymous pages are memory of their own,
numbered as a file would be.
-/

set_option autoImplicit false

namespace Coypu

open FlatMemory Transport

/-- The writer. `dataPage` is the offset of the page mapped, `position` the position in it. If the
mapping of that page failed, `_dataPage.first` is `MAP_FAILED`. -/
structure LogWriteBuf where
  pageSize : ℕ
  pageSize_pos : 0 < pageSize
  offset : ℕ
  readOnly : Bool
  dataPage : Option ℕ
  mapFailed : Bool
  position : ℕ
  anonymous : Bool
  file : MappedFile

namespace LogWriteBuf

variable (w : LogWriteBuf)

/-- The constructor: no page is mapped. -/
def new (pageSize : ℕ) (hpage : 0 < pageSize) (offset : ℕ) (readOnly anonymous : Bool)
    (file : MappedFile) : LogWriteBuf :=
  ⟨pageSize, hpage, offset, readOnly, none, false, 0, anonymous, file⟩

/-- A page has to be allocated before anything is written. -/
def isFull : Bool := w.dataPage.isNone || decide (w.position = w.pageSize)

/-- Where the next byte goes. -/
def tell : ℕ :=
  match w.dataPage with
  | none => w.offset
  | some page => page + w.position

/-- Write at the position, which moves. -/
def fill (l : List UInt8) : LogWriteBuf :=
  { w with
    file := w.file.write (w.dataPage.getD 0 + w.position) l
    position := w.position + l.length }

/-! ## The functions of the class

They call the owner back with the offset of each page that is mapped, which changes the owner's
state.
-/

variable {σ : Type*} (allocateCb : σ → ℕ → σ)

def allocatePage (s : LogWriteBuf × σ) : LogWriteBuf × σ :=
  ({ s.1 with
      file := if s.1.anonymous then s.1.file.zeroed s.1.offset s.1.pageSize
        else s.1.file.truncate (s.1.offset + s.1.pageSize)
      dataPage := some s.1.offset
      mapFailed := false
      position := 0
      offset := s.1.offset + s.1.pageSize },
    allocateCb s.2 s.1.offset)

/-- `if (!_dataPage.first || _dataPage.second == _pageSize) AllocatePage()`. -/
def makeRoom (s : LogWriteBuf × σ) : LogWriteBuf × σ :=
  if s.1.isFull then allocatePage allocateCb s else s

/-- The loop of `Push`. A round writes a byte at least. -/
def pushLoop : ℕ → List UInt8 → LogWriteBuf × σ → LogWriteBuf × σ
  | 0, _, s => s
  | fuel + 1, l, s =>
    if l = [] then s
    else
      let s' := makeRoom allocateCb s
      let x := min l.length (s'.1.pageSize - s'.1.position)
      pushLoop fuel (l.drop x) (s'.1.fill (l.take x), s'.2)

def push (l : List UInt8) (s : LogWriteBuf × σ) : ℤ × (LogWriteBuf × σ) :=
  if s.1.readOnly then (-1, s) else (0, pushLoop allocateCb l.length l s)

def readv (cb : Reader UInt8) (s : LogWriteBuf × σ) : ℤ × (LogWriteBuf × σ) :=
  if s.1.readOnly then (-1, s)
  else
    let s' := makeRoom allocateCb s
    let r := cb.run [s'.1.pageSize - s'.1.position]
    (r.ret, s'.1.fill r.bytes, s'.2)

/-- `ZeroCopyNext`: the region handed out begins at the offset given, and its length is an `int`. -/
def zeroCopyNext (s : LogWriteBuf × σ) : ℤ × Option (ℕ × ℤ) × (LogWriteBuf × σ) :=
  if s.1.readOnly then (-1, none, s)
  else
    let s' := makeRoom allocateCb s
    (0, some (s'.1.tell, CInt.toInt (s'.1.pageSize - s'.1.position : ℕ)),
      { s'.1 with position := s'.1.pageSize }, s'.2)

def backup (len : ℕ) : Bool × LogWriteBuf :=
  if w.position < len then (false, w) else (true, { w with position := w.position - len })

/-- `SetPosition`, which is `PositionPage`. -/
def setPosition (offset : ℕ) (s : LogWriteBuf × σ) : Bool × (LogWriteBuf × σ) :=
  let base := offset / s.1.pageSize * s.1.pageSize
  (true,
    { s.1 with
      file := if s.1.anonymous then s.1.file.zeroed base s.1.pageSize
        else if s.1.file.size = base then s.1.file.truncate (base + s.1.pageSize) else s.1.file
      dataPage := some base
      mapFailed := false
      position := offset % s.1.pageSize
      offset := base },
    allocateCb s.2 base)

/-! ## Byte by byte -/

variable {w} {f : σ → ℕ → σ} {s : LogWriteBuf × σ} {l k : List UInt8}

/-- One byte of a `Push`. -/
def pushByte (allocateCb : σ → ℕ → σ) (s : LogWriteBuf × σ) (x : UInt8) : LogWriteBuf × σ :=
  ((makeRoom allocateCb s).1.fill [x], (makeRoom allocateCb s).2)

@[simp] theorem fill_position : (w.fill l).position = w.position + l.length := rfl

@[simp] theorem fill_offset : (w.fill l).offset = w.offset := rfl

@[simp] theorem fill_pageSize : (w.fill l).pageSize = w.pageSize := rfl

@[simp] theorem fill_readOnly : (w.fill l).readOnly = w.readOnly := rfl

@[simp] theorem fill_anonymous : (w.fill l).anonymous = w.anonymous := rfl

@[simp] theorem fill_size : (w.fill l).file.size = w.file.size := rfl

@[simp] theorem makeRoom_pageSize : (makeRoom f s).1.pageSize = s.1.pageSize := by
  unfold makeRoom
  split_ifs <;> rfl

@[simp] theorem makeRoom_readOnly : (makeRoom f s).1.readOnly = s.1.readOnly := by
  unfold makeRoom
  split_ifs <;> rfl

@[simp] theorem makeRoom_anonymous : (makeRoom f s).1.anonymous = s.1.anonymous := by
  unfold makeRoom
  split_ifs <;> rfl

theorem makeRoom_of_full (h : s.1.isFull = true) :
    makeRoom f s = allocatePage f s :=
  if_pos h

theorem makeRoom_of_not_full (h : s.1.isFull = false) : makeRoom f s = s :=
  if_neg (by simp [h])

theorem isFull_eq_false_iff :
    w.isFull = false ↔ (∃ page, w.dataPage = some page) ∧ w.position ≠ w.pageSize := by
  rw [isFull, Bool.or_eq_false_iff, Option.isNone_eq_false_iff, Option.isSome_iff_exists,
    decide_eq_false_iff_not]

theorem isFull_eq_true_iff :
    w.isFull = true ↔ w.dataPage = none ∨ w.position = w.pageSize := by
  rw [isFull, Bool.or_eq_true, Option.isNone_iff_eq_none, decide_eq_true_iff]

theorem makeRoom_not_full : (makeRoom f s).1.isFull = false := by
  by_cases h : s.1.isFull = true
  · rw [makeRoom_of_full h, isFull_eq_false_iff]
    exact ⟨⟨_, rfl⟩, Nat.ne_of_lt s.1.pageSize_pos⟩
  · rw [Bool.not_eq_true] at h
    rwa [makeRoom_of_not_full h]

theorem fill_append (w : LogWriteBuf) (l k : List UInt8) : w.fill (l ++ k) = (w.fill l).fill k := by
  simp only [fill, MappedFile.write_append, List.length_append, Nat.add_assoc]

theorem fill_nil (w : LogWriteBuf) : w.fill [] = w := by
  have hfile (file : MappedFile) (i : ℕ) : file.write i [] = file :=
    MappedFile.ext (by rw [MappedFile.write_data_nil]) rfl
  simp only [fill, hfile, List.length_nil, Nat.add_zero]

theorem foldl_pushByte_of_room (hfull : s.1.isFull = false)
    (hroom : s.1.position + l.length ≤ s.1.pageSize) :
    l.foldl (pushByte f) s = (s.1.fill l, s.2) := by
  induction l generalizing s with
  | nil => rw [List.foldl_nil, fill_nil]
  | cons x l ih =>
    rw [List.length_cons] at hroom
    rw [List.foldl_cons, pushByte, makeRoom_of_not_full hfull]
    by_cases hnil : l = []
    · rw [hnil, List.foldl_nil]
    · have hlen := List.length_pos_of_ne_nil hnil
      rw [ih, ← fill_append, List.singleton_append]
      · rw [isFull_eq_false_iff] at hfull ⊢
        exact ⟨hfull.1, by simp only [fill_position, fill_pageSize, List.length_singleton]; omega⟩
      · simp only [fill_position, fill_pageSize, List.length_singleton]
        omega

/-- Whether the page is allocated before or with the first byte makes no difference. -/
theorem foldl_pushByte_makeRoom (h : l ≠ []) :
    l.foldl (pushByte f) (makeRoom f s) = l.foldl (pushByte f) s := by
  cases l with
  | nil => exact absurd rfl h
  | cons x l =>
    rw [List.foldl_cons, List.foldl_cons, pushByte, makeRoom_of_not_full makeRoom_not_full,
      pushByte]

theorem makeRoom_position_lt (hpos : s.1.position ≤ s.1.pageSize) :
    (makeRoom f s).1.position < s.1.pageSize := by
  by_cases hfull : s.1.isFull = true
  · rw [makeRoom_of_full hfull]
    exact s.1.pageSize_pos
  · rw [Bool.not_eq_true] at hfull
    rw [makeRoom_of_not_full hfull]
    rw [isFull_eq_false_iff] at hfull
    omega

/-- A block goes where its bytes go one by one. The induction is on the rounds. -/
theorem pushLoop_eq {fuel : ℕ} (hpos : s.1.position ≤ s.1.pageSize) (hfuel : l.length ≤ fuel) :
    pushLoop f fuel l s = l.foldl (pushByte f) s := by
  induction fuel generalizing l s with
  | zero =>
    rw [List.length_eq_zero_iff.mp (Nat.le_zero.mp hfuel)]
    rfl
  | succ fuel ih =>
    by_cases hnil : l = []
    · rw [pushLoop, if_pos hnil, hnil, List.foldl_nil]
    have hlen := List.length_pos_of_ne_nil hnil
    have hlt := makeRoom_position_lt (f := f) hpos
    rw [pushLoop, if_neg hnil]
    simp only [makeRoom_pageSize]
    obtain ⟨x, hx⟩ : ∃ x, x = min l.length (s.1.pageSize - (makeRoom f s).1.position) :=
      ⟨_, rfl⟩
    have hblock := foldl_pushByte_of_room (f := f) (s := makeRoom f s)
      (l := l.take x) makeRoom_not_full (by rw [List.length_take, makeRoom_pageSize]; omega)
    rw [← hx, ih (by simp; omega) (by rw [List.length_drop]; omega), ← hblock, ← List.foldl_append,
      List.take_append_drop, foldl_pushByte_makeRoom hnil]

/-! ## A writer at the end of its file -/

/-- Pages are mapped one behind the other, and the file ends with the page that is mapped. -/
structure Appending (w : LogWriteBuf) : Prop where
  dvd : w.pageSize ∣ w.offset
  position_le : w.position ≤ w.pageSize
  page_eq : ∀ page, w.dataPage = some page → page + w.pageSize = w.offset
  size_eq : w.file.size = w.offset

theorem tell_of_page {page : ℕ} (h : w.dataPage = some page) : w.tell = page + w.position := by
  rw [tell, h]

theorem tell_of_none (h : w.dataPage = none) : w.tell = w.offset := by
  rw [tell, h]

namespace Appending

theorem tell_le (h : w.Appending) : w.tell ≤ w.offset := by
  cases hpage : w.dataPage with
  | none => exact Nat.le_of_eq (tell_of_none hpage)
  | some page =>
    have hpos := h.position_le
    have hend := h.page_eq page hpage
    rw [tell_of_page hpage]
    omega

theorem tell_of_full (h : w.Appending) (hfull : w.isFull = true) : w.tell = w.offset := by
  cases hpage : w.dataPage with
  | none => rw [tell_of_none hpage]
  | some page =>
    rw [isFull_eq_true_iff, hpage] at hfull
    rw [tell_of_page hpage, hfull.resolve_left (by simp), h.page_eq page hpage]

theorem makeRoom (h : s.1.Appending) :
    (makeRoom f s).1.Appending ∧ (LogWriteBuf.makeRoom f s).1.tell = s.1.tell ∧
      (LogWriteBuf.makeRoom f s).1.file.data = s.1.file.data := by
  by_cases hfull : s.1.isFull = true
  · rw [makeRoom_of_full hfull]
    have hsize := h.size_eq
    refine ⟨⟨?_, Nat.zero_le _, fun page hpage ↦ ?_, ?_⟩, ?_, ?_⟩
    · exact Nat.dvd_add h.dvd (Nat.dvd_refl _)
    · rw [← Option.some.inj hpage]
      rfl
    · simp only [allocatePage]
      split_ifs
      · rw [MappedFile.zeroed_size]
        omega
      · rfl
    · rw [h.tell_of_full hfull, tell_of_page rfl]
      rfl
    · simp only [allocatePage]
      split_ifs
      · exact MappedFile.zeroed_data (by omega)
      · exact MappedFile.truncate_data (by omega)
  · rw [Bool.not_eq_true] at hfull
    rw [makeRoom_of_not_full hfull]
    exact ⟨h, rfl, rfl⟩

theorem fill (h : w.Appending) (hfull : w.isFull = false)
    (hroom : w.position + l.length ≤ w.pageSize) :
    (w.fill l).Appending ∧ (w.fill l).tell = w.tell + l.length ∧
      (w.fill l).file.data = store w.file.data w.tell l := by
  obtain ⟨⟨page, hpage⟩, -⟩ := isFull_eq_false_iff.mp hfull
  have hend := h.page_eq page hpage
  have hsize := h.size_eq
  refine ⟨⟨h.dvd, hroom, h.page_eq, h.size_eq⟩, ?_, ?_⟩
  · rw [tell_of_page (w := w.fill l) hpage, tell_of_page hpage, fill_position, Nat.add_assoc]
  · rw [tell_of_page hpage, LogWriteBuf.fill, hpage]
    exact MappedFile.write_data (by simp only [Option.getD_some]; omega)

theorem pushByte (h : s.1.Appending) (x : UInt8) :
    (pushByte f s x).1.Appending ∧ (LogWriteBuf.pushByte f s x).1.tell = s.1.tell + 1 ∧
      (LogWriteBuf.pushByte f s x).1.file.data = store s.1.file.data s.1.tell [x] := by
  obtain ⟨happ, htell, hdata⟩ := h.makeRoom (f := f)
  have hlt := makeRoom_position_lt (f := f) h.position_le
  obtain ⟨happ', htell', hdata'⟩ := happ.fill (l := [x]) makeRoom_not_full
    (by rw [List.length_singleton, makeRoom_pageSize]; omega)
  exact ⟨happ', htell'.trans (by rw [htell]; rfl), by rw [LogWriteBuf.pushByte, hdata', htell,
    hdata]⟩

theorem foldl (h : s.1.Appending) (l : List UInt8) :
    (l.foldl (LogWriteBuf.pushByte f) s).1.Appending ∧
      (l.foldl (LogWriteBuf.pushByte f) s).1.tell = s.1.tell + l.length ∧
      (l.foldl (LogWriteBuf.pushByte f) s).1.file.data = store s.1.file.data s.1.tell l := by
  induction l generalizing s with
  | nil => exact ⟨h, rfl, (store_nil _ _).symm⟩
  | cons x l ih =>
    obtain ⟨happ, htell, hdata⟩ := h.pushByte (f := f) x
    obtain ⟨happ', htell', hdata'⟩ := ih happ
    refine ⟨happ', ?_, ?_⟩
    · rw [List.foldl_cons, htell', htell, List.length_cons]
      omega
    · have hcons : x :: l = [x] ++ l := rfl
      rw [List.foldl_cons, hdata', htell, hdata, hcons, store_append, List.length_singleton]

end Appending

theorem foldl_page (hl : l ≠ []) :
    ∃ page, (l.foldl (pushByte f) s).1.dataPage = some page ∧
      0 < (l.foldl (pushByte f) s).1.position := by
  obtain ⟨k, x, rfl⟩ := (List.eq_nil_or_concat l).resolve_left hl
  obtain ⟨⟨page, hpage⟩, -⟩ := isFull_eq_false_iff.mp
    (makeRoom_not_full (f := f) (s := k.foldl (pushByte f) s))
  rw [List.concat_eq_append, List.foldl_append]
  exact ⟨page, hpage, Nat.succ_pos _⟩

/-! ## `Push` -/

theorem pushByte_position_le (h : s.1.position ≤ s.1.pageSize) (x : UInt8) :
    (pushByte f s x).1.position ≤ (pushByte f s x).1.pageSize := by
  have hlt := makeRoom_position_lt (f := f) h
  simp only [pushByte, fill_position, fill_pageSize, List.length_singleton, makeRoom_pageSize]
  omega

theorem foldl_position_le (h : s.1.position ≤ s.1.pageSize) (l : List UInt8) :
    (l.foldl (pushByte f) s).1.position ≤ (l.foldl (pushByte f) s).1.pageSize := by
  induction l generalizing s with
  | nil => exact h
  | cons x l ih => exact ih (pushByte_position_le h x)

@[simp] theorem foldl_pageSize (l : List UInt8) :
    (l.foldl (pushByte f) s).1.pageSize = s.1.pageSize := by
  induction l generalizing s with
  | nil => rfl
  | cons x l ih => rw [List.foldl_cons, ih, pushByte, fill_pageSize, makeRoom_pageSize]

@[simp] theorem foldl_readOnly (l : List UInt8) :
    (l.foldl (pushByte f) s).1.readOnly = s.1.readOnly := by
  induction l generalizing s with
  | nil => rfl
  | cons x l ih => rw [List.foldl_cons, ih, pushByte, fill_readOnly, makeRoom_readOnly]

@[simp] theorem foldl_anonymous (l : List UInt8) :
    (l.foldl (pushByte f) s).1.anonymous = s.1.anonymous := by
  induction l generalizing s with
  | nil => rfl
  | cons x l ih => rw [List.foldl_cons, ih, pushByte, fill_anonymous, makeRoom_anonymous]

theorem push_eq (hw : s.1.readOnly = false) (hpos : s.1.position ≤ s.1.pageSize) (l : List UInt8) :
    push f l s = (0, l.foldl (pushByte f) s) := by
  rw [push, if_neg (by simp [hw]), pushLoop_eq hpos (Nat.le_refl _)]

end LogWriteBuf

end Coypu
