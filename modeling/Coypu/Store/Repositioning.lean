import Coypu.Library.Run
import Coypu.Store.LogWriteBuf

/-!
# A writer that was repositioned

What is pushed after `SetPosition` goes behind the position as long as it stays in the page that
holds the position. The byte behind that page is written to the beginning of the page instead, and
the file ends before the bytes pushed could.
-/

set_option autoImplicit false

namespace Coypu

open FlatMemory

namespace LogWriteBuf

/-- A writer without a callback. -/
def noCallback : Unit → ℕ → Unit := fun s _ ↦ s

/-- `Push`, and the bytes that it reports as written. -/
def pushStep (w : LogWriteBuf) (l : List UInt8) : LogWriteBuf × List UInt8 :=
  let r := push noCallback l (w, ())
  (r.2.1, if r.1 = 0 then l else [])

/-- The writer after `SetPosition`. -/
def positioned (w : LogWriteBuf) (p : ℕ) : LogWriteBuf := (setPosition noCallback p (w, ())).2.1

/-- The bytes pushed after `SetPosition` lie behind the position, and those before it are what they
were. -/
def Placed (w : LogWriteBuf) (p : ℕ) (ls : List (List UInt8)) : Prop :=
  let r := Run.run pushStep (w.positioned p) ls
  (∀ i < p, r.1.file.data i = w.file.data i) ∧
    p + r.2.flatten.length ≤ r.1.file.size ∧
    load r.1.file.data p r.2.flatten.length = r.2.flatten

/-- The end of the page that holds the position, or of the file if it ends in that page. -/
def writeEnd (w : LogWriteBuf) (p : ℕ) : ℕ :=
  let base := p / w.pageSize * w.pageSize
  min (base + w.pageSize) (if w.file.size = base then base + w.pageSize else w.file.size)

variable {w : LogWriteBuf} {p : ℕ}

/-! ## The writer after `SetPosition` -/

theorem positioned_position_lt : (w.positioned p).position < (w.positioned p).pageSize :=
  Nat.mod_lt _ w.pageSize_pos

theorem positioned_not_full : (w.positioned p).isFull = false :=
  isFull_eq_false_iff.mpr ⟨⟨_, rfl⟩, Nat.ne_of_lt positioned_position_lt⟩

theorem positioned_tell : (w.positioned p).tell = p := Nat.div_add_mod' p w.pageSize

theorem positioned_data (hfile : w.anonymous = false) :
    (w.positioned p).file.data = w.file.data := by
  simp only [positioned, setPosition, hfile, Bool.false_eq_true, if_false]
  split_ifs with hsize
  · exact MappedFile.truncate_data (by omega)
  · rfl

theorem positioned_size (hfile : w.anonymous = false) :
    min (p / w.pageSize * w.pageSize + w.pageSize) (w.positioned p).file.size = w.writeEnd p := by
  simp only [positioned, setPosition, hfile, Bool.false_eq_true, if_false, writeEnd]
  split_ifs <;> rfl

theorem le_positioned_size (hfile : w.anonymous = false) (hp : p ≤ w.file.size) :
    p ≤ (w.positioned p).file.size := by
  simp only [positioned, setPosition, hfile, Bool.false_eq_true, if_false]
  split_ifs
  · rw [MappedFile.truncate_size]
    omega
  · exact hp

/-! ## A sequence of pushes -/

theorem run_pushStep_of_readOnly (hw : w.readOnly = true) (ls : List (List UInt8)) :
    (Run.run pushStep w ls).1 = w ∧ (Run.run pushStep w ls).2.flatten = [] := by
  induction ls with
  | nil => exact ⟨rfl, rfl⟩
  | cons l ls ih =>
    have hstep : pushStep w l = (w, []) := by
      simp [pushStep, push, hw]
    rw [Run.run_cons, hstep]
    exact ih

theorem run_pushStep (hw : w.readOnly = false) (hpos : w.position ≤ w.pageSize)
    (ls : List (List UInt8)) :
    (Run.run pushStep w ls).1 = (ls.flatten.foldl (pushByte noCallback) (w, ())).1 ∧
      (Run.run pushStep w ls).2 = ls := by
  induction ls generalizing w with
  | nil => exact ⟨rfl, rfl⟩
  | cons l ls ih =>
    have hstep : pushStep w l = ((l.foldl (pushByte noCallback) (w, ())).1, l) := by
      rw [pushStep, push_eq hw hpos]
      simp
    have hpos' := foldl_position_le (f := noCallback) (s := (w, ())) hpos l
    obtain ⟨hfinal, hpushed⟩ := ih (w := (l.foldl (pushByte noCallback) (w, ())).1)
      (by simpa using hw)
      hpos'
    rw [Run.run_cons, hstep, List.flatten_cons, List.foldl_append]
    exact ⟨hfinal, by rw [hpushed]⟩

theorem placed_of_readOnly (hfile : w.anonymous = false) (hp : p ≤ w.file.size)
    (hw : w.readOnly = true) (ls : List (List UInt8)) : w.Placed p ls := by
  obtain ⟨hfinal, hpushed⟩ := run_pushStep_of_readOnly (w := w.positioned p) hw ls
  rw [Placed, hfinal, hpushed, positioned_data hfile]
  exact ⟨fun _ _ ↦ rfl, le_positioned_size hfile hp, load_zero _ _⟩

theorem run_positioned (hw : w.readOnly = false) (ls : List (List UInt8)) :
    (Run.run pushStep (w.positioned p) ls).1
        = (ls.flatten.foldl (pushByte noCallback) (w.positioned p, ())).1 ∧
      (Run.run pushStep (w.positioned p) ls).2 = ls :=
  run_pushStep (w := w.positioned p) hw (Nat.le_of_lt positioned_position_lt) ls

theorem foldl_positioned {l : List UInt8} (hroom : p % w.pageSize + l.length ≤ w.pageSize) :
    l.foldl (pushByte noCallback) (w.positioned p, ()) = ((w.positioned p).fill l, ()) :=
  foldl_pushByte_of_room (s := (w.positioned p, ())) positioned_not_full hroom

theorem placed_of_fits (hfile : w.anonymous = false) (hw : w.readOnly = false)
    {ls : List (List UInt8)} (hfits : p + ls.flatten.length ≤ w.writeEnd p) : w.Placed p ls := by
  rw [← positioned_size hfile] at hfits
  have hsize := Nat.le_trans hfits (Nat.min_le_right _ _)
  have hmod := Nat.div_add_mod' p w.pageSize
  have hroom : p % w.pageSize + ls.flatten.length ≤ w.pageSize := by omega
  have hdata : ((w.positioned p).fill ls.flatten).file.data = store w.file.data p ls.flatten := by
    have htell : (w.positioned p).dataPage.getD 0 + (w.positioned p).position = p :=
      positioned_tell
    rw [fill, htell, ← positioned_data hfile]
    exact MappedFile.write_data hsize
  simp only [Placed, (run_positioned hw ls).1, (run_positioned hw ls).2]
  rw [foldl_positioned hroom, hdata]
  exact ⟨fun i hi ↦ store_of_lt _ hi, hsize, load_store_self _ _ _⟩

theorem appending_of_full (hfile : w.anonymous = false) {l : List UInt8}
    (hlen : p % w.pageSize + l.length = w.pageSize) :
    (makeRoom noCallback ((w.positioned p).fill l, ())).1.Appending ∧
      (makeRoom noCallback ((w.positioned p).fill l, ())).1.tell = p / w.pageSize * w.pageSize := by
  have hfull : ((w.positioned p).fill l).isFull = true := isFull_eq_true_iff.mpr (Or.inr hlen)
  have hanon : (w.positioned p).anonymous = false := hfile
  rw [makeRoom_of_full hfull]
  refine ⟨⟨?_, Nat.zero_le _, fun page hpage ↦ ?_, ?_⟩, rfl⟩
  · exact Nat.dvd_add (Nat.dvd_mul_left _ _) (Nat.dvd_refl _)
  · rw [← Option.some.inj hpage]
    rfl
  · simp only [allocatePage, fill_anonymous, hanon, Bool.false_eq_true, if_false]
    rfl

/-- Bytes that do not fit in the page are not placed: the file ends before they could. -/
theorem not_placed_of_long (hfile : w.anonymous = false) (hw : w.readOnly = false)
    {ls : List (List UInt8)}
    (hlong : p / w.pageSize * w.pageSize + w.pageSize < p + ls.flatten.length) :
    ¬w.Placed p ls := by
  rintro ⟨-, hsize, -⟩
  rw [(run_positioned hw ls).1, (run_positioned hw ls).2] at hsize
  have hmod := Nat.div_add_mod' p w.pageSize
  have hlt := Nat.mod_lt p w.pageSize_pos
  obtain ⟨l, k, hsplit, hlen⟩ : ∃ l k, ls.flatten = l ++ k ∧ p % w.pageSize + l.length
    = w.pageSize :=
    ⟨ls.flatten.take (w.pageSize - p % w.pageSize), ls.flatten.drop (w.pageSize - p % w.pageSize),
      (List.take_append_drop _ _).symm, by rw [List.length_take]; omega⟩
  rw [hsplit, List.length_append] at hlong hsize
  have hk : k ≠ [] := by
    rintro rfl
    rw [List.length_nil] at hlong
    omega
  -- the first bytes fill the page; the others are written by a writer that ends its file
  obtain ⟨happ, htell⟩ := appending_of_full hfile hlen
  rw [List.foldl_append, foldl_positioned (Nat.le_of_eq hlen), ← foldl_pushByte_makeRoom hk]
    at hsize
  obtain ⟨happ', htell', -⟩ := happ.foldl (f := noCallback) k
  obtain ⟨page, hpage, hpos⟩ := foldl_page (f := noCallback)
    (s := makeRoom noCallback ((w.positioned p).fill l, ())) hk
  have hend := happ'.page_eq page hpage
  rw [tell_of_page hpage, htell] at htell'
  rw [happ'.size_eq] at hsize
  simp only [foldl_pageSize, makeRoom_pageSize, fill_pageSize] at hend
  have hsame : (w.positioned p).pageSize = w.pageSize := rfl
  omega

/-- **The bytes pushed are placed** behind the position exactly if they fit in the page of the
position and, unless that page is added to the file, in the file; or the writer is read only. -/
theorem placed_iff (hfile : w.anonymous = false) (hp : p ≤ w.file.size) (ls : List (List UInt8)) :
    w.Placed p ls ↔ w.readOnly = true ∨ p + ls.flatten.length ≤ w.writeEnd p := by
  by_cases hw : w.readOnly = true
  · exact ⟨fun _ ↦ Or.inl hw, fun _ ↦ placed_of_readOnly hfile hp hw ls⟩
  rw [Bool.not_eq_true] at hw
  refine ⟨fun h ↦ Or.inr ?_, fun h ↦ placed_of_fits hfile hw (h.resolve_left (by simp [hw]))⟩
  rw [← positioned_size hfile]
  by_cases hlong : p / w.pageSize * w.pageSize + w.pageSize < p + ls.flatten.length
  · exact absurd h (not_placed_of_long hfile hw hlong)
  · have hmod := Nat.div_add_mod' p w.pageSize
    have hsize := h.2.1
    rw [(run_positioned hw ls).1, (run_positioned hw ls).2, foldl_positioned (by omega),
      fill_size] at hsize
    omega

/-- The last byte of a file is replaced. -/
theorem placed_last :
    (new 4096 (by decide) 3 false false (MappedFile.ofList [1, 2, 3])).Placed 2 [[9]] :=
  (placed_iff rfl (by decide) _).mpr (Or.inr (by decide))

/-- A page and a byte, from the beginning of an empty file: the last byte replaces the first. -/
theorem not_placed_of_page_and_byte :
    ¬(new 4096 (by decide) 0 false false MappedFile.empty).Placed 0 [List.replicate 4097 1] :=
  not_placed_of_long rfl rfl (by rw [List.flatten_singleton, List.length_replicate]; decide)

end LogWriteBuf

end Coypu
