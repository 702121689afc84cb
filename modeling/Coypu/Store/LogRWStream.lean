import Coypu.Library.Bytes
import Coypu.Library.CInt
import Coypu.Library.Memory
import Coypu.Library.Transport

/-!
# The paged log

`LogRWStream` appends at the position of its writer and reads through pages. Page `i` shows the
bytes from `i * pageSize` on, so the log is a flat memory here and a page a window into it; whether
a page can be mapped is the environment's answer `find` to the offset of its first byte. `PagedLog`
has the pages themselves, and refines it (`PagedLog.run_shows_file`, `PagedLog.run_shows_stream`).

Offsets are 64-bit and page numbers 32-bit integers. `writev` turns the one into the other, so its
page numbers go through `CInt.toUnsigned 32`.
-/

set_option autoImplicit false

namespace Coypu

open FlatMemory Transport

/-- The log over `cacheSize` page slots. The writer never stands before the end of the readable
bytes; file offsets are signed 64-bit integers, which bounds it. -/
structure LogRWStream (cacheSize : ℕ) where
  data : ℕ → UInt8
  position : ℕ
  available : ℕ
  pageSize : ℕ
  pageSize_pos : 0 < pageSize
  available_le : available ≤ position
  position_lt : position < 2 ^ 63

namespace LogRWStream

variable {cacheSize : ℕ} (s : LogRWStream cacheSize)

theorem smallPage_pos : 0 < 4096 := by decide

theorem beginning_lt : 0 < 2 ^ 63 := by decide

/-- A log opened behind the first `offset` bytes of a file. -/
def new (cacheSize pageSize : ℕ) (hpage : 0 < pageSize) (data : ℕ → UInt8) (offset : ℕ)
    (hoffset : offset < 2 ^ 63) : LogRWStream cacheSize :=
  ⟨data, offset, offset, pageSize, hpage, Nat.le_refl _, hoffset⟩

/-- `Push`. Where the allocation of a page fails, after `k` bytes, the call fails and the bytes
written so far stay behind the end. No page is allocated beyond the largest file offset. -/
def push (l : List UInt8) (limit : Option ℕ) : Bool × LogRWStream cacheSize :=
  let written := match limit with
    | none => l
    | some k => l.take k
  if h : s.position + written.length < 2 ^ 63 then
    let s' : LogRWStream cacheSize :=
      { s with
        data := store s.data s.position written
        position := s.position + written.length
        available_le := Nat.le_trans s.available_le (Nat.le_add_right _ _)
        position_lt := h }
    match limit with
    | none =>
      (true, { s' with
        available := s.available + written.length
        available_le := Nat.add_le_add_right s.available_le _ })
    | some _ => (false, s')
  else (false, s)

/-- The number of the page that holds an offset. -/
def page (offset : ℕ) : ℕ := CInt.toUnsigned 32 (offset / s.pageSize : ℕ)

/-- The loop of `Writev`: the segments for the pages from `i` on, `queued` bytes being covered, with
a number of slots left. `none` if a page cannot be mapped. -/
def writevLoop (find : ℕ → Bool) (start size : ℕ) : ℕ → ℕ → ℕ → Option (List Region)
  | 0, _, _ => some []
  | slots + 1, i, queued =>
    if queued < size ∧ i ≤ s.page s.available then
      let pageStart := i * s.pageSize
      let pageOffset := (start + queued) % s.pageSize
      if find pageStart then
        let len := min (size - queued) (s.pageSize - pageOffset)
        (writevLoop find start size slots (CInt.toUnsigned 32 (i + 1 : ℕ)) (queued + len)).map
          fun v ↦ ⟨pageStart + pageOffset, len⟩ :: v
      else none
    else some []

/-- The segments `Writev` hands to its callback. -/
def writevRegions (find : ℕ → Bool) (start size : ℕ) : Option (List Region) :=
  s.writevLoop find start (min size (cacheSize * s.pageSize)) cacheSize (s.page start) 0

/-- `Writev`: its result and the segments it offered. -/
def writev (find : ℕ → Bool) (start size : ℕ) (cb : Writer) : ℤ × List Region :=
  match s.writevRegions find start size with
  | none => (-2, [])
  | some v => (cb.run (v.map Region.len), v)

/-! ### Reading -/

/-- `Peak`. -/
def peak (find : ℕ → Bool) (offset : ℕ) : Option UInt8 :=
  if find offset = false then none
  else if s.available ≤ offset then none
  else some (s.data offset)

/-- The loop of `Pop`: the bytes copied from page `i` on, `read` bytes being copied. A page that is
not found is passed over. -/
def popLoop (find : ℕ → Bool) (start size : ℕ) : ℕ → ℕ → ℕ → Option (List UInt8)
  | 0, _, _ => none
  | fuel + 1, i, read =>
    if i ≤ s.page s.available then
      let pageStart := i * s.pageSize
      if find pageStart then
        let startPos := max start pageStart
        if pageStart + s.pageSize < startPos then none
        else
          let out := min (size - read) (s.pageSize - (startPos - pageStart))
          if read + out = size then some (load s.data startPos out)
          else (popLoop find start size fuel (CInt.toUnsigned 32 (i + 1 : ℕ)) (read + out)).map
            fun l ↦ load s.data startPos out ++ l
      else popLoop find start size fuel (CInt.toUnsigned 32 (i + 1 : ℕ)) read
    else none

/-- `Pop` of a range. After `2³²` rounds the page numbers start over, and the loop does not end. -/
def pop (find : ℕ → Bool) (start size : ℕ) : Option (List UInt8) :=
  s.popLoop find start size (2 ^ 32) (s.page start) 0

/-- The loop of `Unmask`, over the memory as it is when page `i` is reached. -/
def unmaskLoop (find : ℕ → Bool) (start len : ℕ) (mask : List UInt8) :
    ℕ → ℕ → ℕ → (ℕ → UInt8) → Bool × (ℕ → UInt8)
  | 0, _, _, data => (false, data)
  | fuel + 1, i, read, data =>
    if i ≤ s.page s.available then
      let pageStart := i * s.pageSize
      if find pageStart then
        let startPos := max start pageStart
        if pageStart + s.pageSize < startPos then (false, data)
        else
          let out := min (len - read) (s.pageSize - (startPos - pageStart))
          let data' := store data startPos (Bytes.xorMask mask read (load data startPos out))
          if read + out = len then (true, data')
          else unmaskLoop find start len mask fuel (CInt.toUnsigned 32 (i + 1 : ℕ))
            (read + out) data'
      else unmaskLoop find start len mask fuel (CInt.toUnsigned 32 (i + 1 : ℕ)) read data
    else (false, data)

/-- `Unmask` of a range, in place. -/
def unmask (find : ℕ → Bool) (start len : ℕ) (mask : List UInt8) :
    Bool × LogRWStream cacheSize :=
  let r := s.unmaskLoop find start len mask (2 ^ 32) (s.page start) 0 s.data
  (r.1, { s with data := r.2 })

/-- `Readv`: one region, up to the end of the page the writer stands on. -/
def readv (cb : Reader UInt8) : ℤ × LogRWStream cacheSize :=
  let r := cb.run [s.pageSize - s.position % s.pageSize]
  if h : s.position + r.bytes.length < 2 ^ 63 then
    (r.ret, { s with
      data := store s.data s.position r.bytes
      position := s.position + r.bytes.length
      available := s.available + r.bytes.length
      available_le := Nat.add_le_add_right s.available_le _
      position_lt := h })
  else (-1, s)

variable {s}

/-! ## Appending -/

theorem push_available_le (l : List UInt8) (limit : Option ℕ) :
    s.available ≤ (s.push l limit).2.available := by
  unfold push
  cases limit <;> simp only <;> split <;> simp

theorem push_data {l : List UInt8} {limit : Option ℕ} {i : ℕ} (hi : i < s.available) :
    (s.push l limit).2.data i = s.data i := by
  have hpos := s.available_le
  unfold push
  cases limit <;> simp only <;> split
  · exact store_of_lt _ (by omega)
  · rfl
  · exact store_of_lt _ (by omega)
  · rfl

theorem load_push {l : List UInt8} {limit : Option ℕ} {start len : ℕ}
    (h : start + len ≤ s.available) :
    load (s.push l limit).2.data start len = load s.data start len :=
  load_congr fun _ _ hi ↦ push_data (by omega)

/-- A push at the end of the readable bytes fails and changes nothing, or makes its bytes
readable. -/
theorem push_cases (l : List UInt8) (h : s.position = s.available) :
    s.push l none = (false, s) ∨
    ((s.push l none).1 = true ∧ (s.push l none).2.available = s.available + l.length ∧
      (s.push l none).2.position = (s.push l none).2.available ∧
      load (s.push l none).2.data s.available l.length = l) := by
  unfold push
  by_cases hlt : s.position + l.length < 2 ^ 63
  · right
    have hload : load (store s.data s.position l) s.available l.length = l := by
      rw [← h]
      exact load_store_self s.data s.position l
    simp only [dif_pos hlt]
    exact ⟨trivial, trivial, congrArg (· + l.length) h, hload⟩
  · left
    exact dif_neg hlt

/-! ## Vectored writes -/

section Loop

variable {find : ℕ → Bool} {start size : ℕ}

theorem page_eq {offset : ℕ} (h : offset < 2 ^ 32 * s.pageSize) :
    s.page offset = offset / s.pageSize :=
  CInt.toUnsigned_natCast ((Nat.div_lt_iff_lt_mul s.pageSize_pos).mpr h)

theorem page_succ {i offset : ℕ} (h : offset = (i + 1) * s.pageSize)
    (hlt : offset < 2 ^ 32 * s.pageSize) :
    CInt.toUnsigned 32 (i + 1 : ℕ) = offset / s.pageSize := by
  have hnext : i + 1 < 2 ^ 32 := Nat.lt_of_mul_lt_mul_right (h ▸ hlt)
  rw [CInt.toUnsigned_natCast hnext, h, Nat.mul_div_cancel _ s.pageSize_pos]

/-- What one round of the loop does: it ends, or it offers the rest of one page and goes on. -/
theorem writevLoop_cases {slots i queued : ℕ} {v : List Region}
    (hv : s.writevLoop find start size (slots + 1) i queued = some v) :
    v = [] ∨ ∃ len w, queued < size ∧
      len = min (size - queued) (s.pageSize - (start + queued) % s.pageSize) ∧
      v = ⟨i * s.pageSize + (start + queued) % s.pageSize, len⟩ :: w ∧
      s.writevLoop find start size slots (CInt.toUnsigned 32 (i + 1 : ℕ)) (queued + len)
        = some w := by
  rw [writevLoop] at hv
  by_cases hmore : queued < size ∧ i ≤ s.page s.available
  · rw [if_pos hmore] at hv
    by_cases hfind : find (i * s.pageSize) = true
    · simp only [if_pos hfind] at hv
      obtain ⟨w, hw, rfl⟩ := Option.map_eq_some_iff.mp hv
      exact Or.inr ⟨_, w, hmore.1, rfl, rfl, hw⟩
    · simp only [if_neg hfind] at hv
      exact absurd hv (by simp)
  · rw [if_neg hmore] at hv
    exact Or.inl (by simpa using hv.symm)

theorem writevLoop_zero {i queued : ℕ} {v : List Region}
    (hv : s.writevLoop find start size 0 i queued = some v) : v = [] := by
  simpa [writevLoop] using hv.symm

/-- As long as page numbers are 32-bit integers, the segments follow each other from the first byte
on. The induction is on the slots left; what it carries is that `i` is the page of the next byte. -/
theorem writevLoop_tiles (hpages : start + size ≤ 2 ^ 32 * s.pageSize) {slots i queued : ℕ}
    {v : List Region} (hi : queued < size → i = (start + queued) / s.pageSize)
    (hv : s.writevLoop find start size slots i queued = some v) : Tiles (start + queued) v := by
  induction slots generalizing i queued v with
  | zero =>
    rw [writevLoop_zero hv]
    exact Tiles.nil _
  | succ slots ih =>
    rcases writevLoop_cases hv with rfl | ⟨len, w, hlt, hlen, rfl, hw⟩
    · exact Tiles.nil _
    have hstart : i * s.pageSize + (start + queued) % s.pageSize = start + queued := by
      rw [hi hlt, Nat.div_add_mod']
    have hoff : (start + queued) % s.pageSize < s.pageSize := Nat.mod_lt _ s.pageSize_pos
    rw [hstart]
    refine Tiles.cons ?_
    rw [Nat.add_assoc]
    refine ih (fun hmore ↦ ?_) hw
    refine page_succ ?_ (by omega)
    rw [Nat.add_mul]
    omega

theorem writevLoop_sum {slots i queued : ℕ} {v : List Region} (hq : queued ≤ size)
    (hv : s.writevLoop find start size slots i queued = some v) :
    queued + (v.map Region.len).sum ≤ size := by
  induction slots generalizing i queued v with
  | zero =>
    rw [writevLoop_zero hv]
    exact hq
  | succ slots ih =>
    rcases writevLoop_cases hv with rfl | ⟨len, w, hlt, hlen, rfl, hw⟩
    · exact hq
    have hrest := ih (by omega) hw
    simp only [List.map_cons, List.sum_cons]
    omega

theorem writevLoop_inside_pages {slots i queued : ℕ} {v : List Region} (hi : i < 2 ^ 32)
    (hv : s.writevLoop find start size slots i queued = some v) :
    ∀ r ∈ v, r.Inside (2 ^ 32 * s.pageSize) := by
  induction slots generalizing i queued v with
  | zero =>
    rw [writevLoop_zero hv]
    simp
  | succ slots ih =>
    rcases writevLoop_cases hv with rfl | ⟨len, w, hlt, hlen, rfl, hw⟩
    · simp
    have hoff : (start + queued) % s.pageSize < s.pageSize := Nat.mod_lt _ s.pageSize_pos
    have hpage : (i + 1) * s.pageSize ≤ 2 ^ 32 * s.pageSize := Nat.mul_le_mul_right _ hi
    have hnext : CInt.toUnsigned 32 (i + 1 : ℕ) < 2 ^ 32 := by
      rw [CInt.toUnsigned]
      omega
    intro r hr
    rcases List.mem_cons.mp hr with rfl | hr
    · simp only [Region.Inside]
      rw [Nat.add_mul] at hpage
      omega
    · exact ih hnext hw r hr

end Loop

theorem page_lt (offset : ℕ) : s.page offset < 2 ^ 32 := by
  rw [page, CInt.toUnsigned]
  omega

theorem writevRegions_sum {find : ℕ → Bool} {start size : ℕ} {v : List Region}
    (hv : s.writevRegions find start size = some v) : (v.map Region.len).sum ≤ size := by
  have hsum := writevLoop_sum (Nat.zero_le _) hv
  omega

/-- The segments offered for a range in the first `2³²` pages are a prefix of it. -/
theorem writevRegions_tiles {find : ℕ → Bool} {start size : ℕ} {v : List Region}
    (hpages : start + min size (cacheSize * s.pageSize) ≤ 2 ^ 32 * s.pageSize)
    (hv : s.writevRegions find start size = some v) : Tiles start v := by
  have htiles := writevLoop_tiles hpages (fun hpos ↦ ?_) hv
  · rwa [Nat.add_zero] at htiles
  · rw [Nat.add_zero]
    exact page_eq (by omega)

/-- No segment offered for a range of the log leaves the log. Where the page numbers are wrong, the
log is longer than all pages they can name. -/
theorem writevRegions_inside {find : ℕ → Bool} {start size : ℕ} {v : List Region}
    (hrange : start + size ≤ s.available) (hv : s.writevRegions find start size = some v) :
    ∀ r ∈ v, r.Inside s.available := by
  by_cases hpages : s.available ≤ 2 ^ 32 * s.pageSize
  · have hsum := writevRegions_sum hv
    exact (writevRegions_tiles (by omega) hv).inside (by omega)
  · intro r hr
    have hinside := writevLoop_inside_pages (page_lt _) hv r hr
    simp only [Region.Inside] at hinside ⊢
    omega

end LogRWStream

end Coypu
