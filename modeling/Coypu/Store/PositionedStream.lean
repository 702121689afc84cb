import Coypu.Store.LogRWStream

/-!
# The log with a read position

`PositionedStream` reads a log from its own position on. Its reads go through a page cache, whose
answers are a field here: a cache drops pages behind the position, so which pages it still finds is
a property of the stream at a time.

The loops of `LogRWStream` go page by page. On bytes whose pages are found, as long as page numbers
fit in 32 bits, they do what one `memcpy` would; `Unread` says that the bytes from the position on
are such bytes.
-/

set_option autoImplicit false

namespace Coypu

open FlatMemory Transport

namespace LogRWStream

variable {cacheSize : ℕ} {s : LogRWStream cacheSize} {find : ℕ → Bool} {start size : ℕ}

/-! ## Ranges of the log -/

/-- The cache finds the pages of a range. -/
def Found (s : LogRWStream cacheSize) (find : ℕ → Bool) (start size : ℕ) : Prop :=
  ∀ offset, start ≤ offset → offset < start + size →
    find (offset / s.pageSize * s.pageSize) = true

theorem Found.mono (h : s.Found find start size) {n : ℕ} (hn : n ≤ size) : s.Found find start n :=
  fun offset h₁ h₂ ↦ h offset h₁ (by omega)

/-- Where the loops stand when `read` bytes are done: at the first byte of page `i`, or, in the
first round, at `start` on that page. -/
structure AtPage (s : LogRWStream cacheSize) (start read i : ℕ) : Prop where
  index_eq : i = (start + read) / s.pageSize
  start_eq : read = 0 ∨ start + read = i * s.pageSize

theorem atPage_start (hpages : start < 2 ^ 32 * s.pageSize) : s.AtPage start 0 (s.page start) :=
  ⟨page_eq hpages, Or.inl rfl⟩

namespace AtPage

variable {read i n : ℕ}

theorem max_eq (h : s.AtPage start read i) : max start (i * s.pageSize) = start + read := by
  have hdiv := Nat.div_mul_le_self (start + read) s.pageSize
  rw [← h.index_eq] at hdiv
  rcases h.start_eq with h0 | h0 <;> omega

theorem lt (h : s.AtPage start read i) : start + read < i * s.pageSize + s.pageSize := by
  have hlt := Nat.lt_mul_div_succ (start + read) s.pageSize_pos
  rw [← h.index_eq, Nat.mul_comm, Nat.add_mul] at hlt
  omega

theorem le_page (h : s.AtPage start read i) (hrange : start + read ≤ s.available)
    (hpages : s.available < 2 ^ 32 * s.pageSize) : i ≤ s.page s.available ∧ i < 2 ^ 32 := by
  have hlt := (Nat.div_lt_iff_lt_mul s.pageSize_pos).mpr hpages
  have hle := Nat.div_le_div_right (c := s.pageSize) hrange
  rw [LogRWStream.page_eq hpages, h.index_eq]
  omega

theorem find_eq (h : s.AtPage start read i) (hfind : s.Found find start size)
    (hread : read < size) : find (i * s.pageSize) = true := by
  rw [h.index_eq]
  exact hfind _ (by omega) (by omega)

theorem next (h : s.AtPage start read i) (hn : s.pageSize - (start + read - i * s.pageSize) = n)
    (hrange : start + read + n ≤ s.available) (hpages : s.available < 2 ^ 32 * s.pageSize) :
    CInt.toUnsigned 32 (i + 1 : ℕ) = i + 1 ∧ s.AtPage start (read + n) (i + 1) := by
  have hlt := h.lt
  have hge := h.max_eq
  have hmul : start + (read + n) = (i + 1) * s.pageSize := by
    rw [Nat.add_mul]
    omega
  have hdiv : i + 1 = (start + (read + n)) / s.pageSize := by
    rw [hmul, Nat.mul_div_cancel _ s.pageSize_pos]
  refine ⟨?_, hdiv, Or.inr hmul⟩
  rw [page_succ (s := s) hmul (by omega)]
  exact hdiv.symm

end AtPage

/-- The induction is on the rounds left; what it carries is `AtPage`. -/
theorem popLoop_eq (hpages : s.available < 2 ^ 32 * s.pageSize)
    (hrange : start + size ≤ s.available)
    (hfind : s.Found find start size) {fuel i read : ℕ} (hi : s.AtPage start read i)
    (hfuel : 2 ^ 32 ≤ i + fuel) (hread : read < size) :
    s.popLoop find start size fuel i read = some (load s.data (start + read) (size - read)) := by
  induction fuel generalizing i read with
  | zero =>
    have hle := (hi.le_page (by omega) hpages).2
    omega
  | succ fuel ih =>
    have hlt := hi.lt
    have hge := hi.max_eq
    rw [popLoop, if_pos (hi.le_page (by omega) hpages).1]
    simp only [hi.find_eq hfind hread, if_true, hi.max_eq]
    rw [if_neg (by omega)]
    by_cases hdone : read + min (size - read) (s.pageSize - (start + read - i * s.pageSize)) = size
    · have hmin : min (size - read) (s.pageSize - (start + read - i * s.pageSize))
        = size - read := by
        omega
      rw [if_pos hdone, hmin]
    · have hmin : min (size - read) (s.pageSize - (start + read - i * s.pageSize))
          = s.pageSize - (start + read - i * s.pageSize) := by omega
      obtain ⟨hnext, hi'⟩ := hi.next rfl (by omega) hpages
      rw [if_neg hdone, hmin, hnext, ih hi' (by omega) (by omega), Option.map_some,
        ← Nat.add_assoc, ← load_add]
      congr 2
      omega

theorem pop_eq (hpages : s.available < 2 ^ 32 * s.pageSize) (hrange : start + size ≤ s.available)
    (hfind : s.Found find start size) (hpos : 0 < size) :
    s.pop find start size = some (load s.data start size) :=
  popLoop_eq hpages hrange hfind (atPage_start (by omega)) (Nat.le_add_left _ _) hpos

theorem popLoop_length {fuel i read : ℕ} {l : List UInt8}
    (h : s.popLoop find start size fuel i read = some l) : read + l.length = size := by
  induction fuel generalizing i read l with
  | zero => exact absurd h (by simp [popLoop])
  | succ fuel ih =>
    rw [popLoop] at h
    split_ifs at h with hpage
    · simp only at h
      split_ifs at h with hfound hpos hdone
      · obtain rfl : load s.data _ _ = l := by simpa using h
        rwa [length_load]
      · obtain ⟨k, hk, rfl⟩ := Option.map_eq_some_iff.mp h
        have hrest := ih hk
        rw [List.length_append, length_load]
        omega
      · exact ih h

theorem pop_length {l : List UInt8} (h : s.pop find start size = some l) : l.length = size := by
  have hlen := popLoop_length h
  omega

theorem unmaskLoop_eq {mask : List UInt8} (hpages : s.available < 2 ^ 32 * s.pageSize)
    (hrange : start + size ≤ s.available) (hfind : s.Found find start size) {fuel i read : ℕ}
    {data : ℕ → UInt8} (hi : s.AtPage start read i) (hfuel : 2 ^ 32 ≤ i + fuel)
    (hread : read < size) :
    s.unmaskLoop find start size mask fuel i read data
      = (true, store data (start + read)
          (Bytes.xorMask mask read (load data (start + read) (size - read)))) := by
  induction fuel generalizing i read data with
  | zero =>
    have hle := (hi.le_page (by omega) hpages).2
    omega
  | succ fuel ih =>
    have hlt := hi.lt
    have hge := hi.max_eq
    rw [unmaskLoop, if_pos (hi.le_page (by omega) hpages).1]
    simp only [hi.find_eq hfind hread, if_true, hi.max_eq]
    rw [if_neg (by omega)]
    by_cases hdone : read + min (size - read) (s.pageSize - (start + read - i * s.pageSize)) = size
    · have hmin : min (size - read) (s.pageSize - (start + read - i * s.pageSize))
        = size - read := by
        omega
      rw [if_pos hdone, hmin]
    · obtain ⟨n, hn⟩ : ∃ n, n = s.pageSize - (start + read - i * s.pageSize) := ⟨_, rfl⟩
      have hmin : min (size - read) (s.pageSize - (start + read - i * s.pageSize)) = n := by omega
      obtain ⟨hnext, hi'⟩ := hi.next hn.symm (by omega) hpages
      have hrest : size - read = n + (size - (read + n)) := by omega
      -- the first `n` bytes are done, and the others are as they were
      rw [if_neg hdone, hmin, hnext, ih hi' (by omega) (by omega), hrest, load_add,
        Bytes.xorMask_append, store_append, length_load, Bytes.length_xorMask, length_load,
        ← Nat.add_assoc, load_store_of_disjoint (by simp)]

theorem unmask_eq {mask : List UInt8} (hpages : s.available < 2 ^ 32 * s.pageSize)
    (hrange : start + size ≤ s.available) (hfind : s.Found find start size) (hpos : 0 < size) :
    s.unmask find start size mask
      = (true, { s with
          data := store s.data start (Bytes.xorMask mask 0 (load s.data start size)) }) := by
  rw [unmask, unmaskLoop_eq hpages hrange hfind (atPage_start (by omega)) (by omega) hpos]
  rfl

theorem unmask_zero (mask : List UInt8) : (s.unmask find start 0 mask).2 = s := by
  have hloop : ∀ fuel i, (s.unmaskLoop find start 0 mask fuel i 0 s.data).2 = s.data := by
    intro fuel
    induction fuel with
    | zero => exact fun i ↦ rfl
    | succ fuel ih =>
      intro i
      have hnil : Bytes.xorMask mask 0 [] = [] := rfl
      rw [unmaskLoop]
      simp only [Nat.zero_sub, Nat.zero_min, load_zero, hnil, store_nil, Nat.add_zero, if_true]
      split_ifs
      · rfl
      · rfl
      · exact ih _
      · rfl
  rw [unmask]
  simp only [hloop]

end LogRWStream

/-- The stream: a log, the offset to read from, what the page cache answers, and the end of the
storage that pages can be allocated in. -/
structure PositionedStream (cacheSize : ℕ) where
  log : LogRWStream cacheSize
  curOffset : ℕ
  find : ℕ → Bool
  room : ℕ

namespace PositionedStream

variable {cacheSize : ℕ} (p : PositionedStream cacheSize)

def available : ℕ := CInt.toUnsigned 64 (p.log.available - p.curOffset)

def currentOffset : ℕ := p.curOffset

def peak (offset : ℕ) : Option UInt8 := p.log.peak p.find (p.curOffset + offset)

def unmask (offset len : ℕ) (mask : List UInt8) : Bool × PositionedStream cacheSize :=
  let r := p.log.unmask p.find offset len mask
  (r.1, { p with log := r.2 })

/-- Step over `n` bytes. -/
def advance (n : ℕ) : PositionedStream cacheSize := { p with curOffset := p.curOffset + n }

/-- `Pop` at the position, which moves. -/
def pop (size : ℕ) : Option (List UInt8) × PositionedStream cacheSize :=
  match p.log.pop p.find p.curOffset size with
  | some dest => (some dest, p.advance size)
  | none => (none, p)

/-- `Pop` at an offset. -/
def popAt (offset size : ℕ) : Option (List UInt8) := p.log.pop p.find offset size

def skip (size : ℕ) : Bool × PositionedStream cacheSize :=
  if size ≤ p.available then (true, p.advance size) else (false, p)

def readv (cb : Reader UInt8) : ℤ × PositionedStream cacheSize :=
  let r := p.log.readv cb
  (r.1, { p with log := r.2 })

/-- `Push`, which returns `0` if all went well. -/
def push (l : List UInt8) : ℤ × PositionedStream cacheSize :=
  let limit := if p.log.position + l.length ≤ p.room then none else some (p.room - p.log.position)
  let r := p.log.push l limit
  (if r.1 then 0 else -1, { p with log := r.2 })

/-! ## What a stream holds -/

/-- The bytes from the position to the end of the log are `l`, and all reads of them succeed. -/
structure Unread (p : PositionedStream cacheSize) (l : List UInt8) : Prop where
  load_eq : load p.log.data p.curOffset l.length = l
  available_eq : p.curOffset + l.length = p.log.available
  pages_lt : p.log.available < 2 ^ 32 * p.log.pageSize
  found : p.log.Found p.find p.curOffset l.length
  peaked : ∀ offset, p.curOffset ≤ offset → offset < p.log.available → p.find offset = true

/-- The position is behind the bytes `k`, and `l` is unread. -/
structure Consumed (p : PositionedStream cacheSize) (offset : ℕ) (k l : List UInt8) : Prop where
  offset_eq : offset + k.length = p.curOffset
  unread : ({ p with curOffset := offset } : PositionedStream cacheSize).Unread (k ++ l)

variable {p : PositionedStream cacheSize} {l k : List UInt8}

theorem length_nil_lt : ([] : List UInt8).length < 2 ^ 44 := by decide

/-- A stream from the beginning of a log that holds `l`. -/
def ofList (cacheSize : ℕ) (l : List UInt8) (hlen : l.length < 2 ^ 44) :
    PositionedStream cacheSize where
  log := LogRWStream.new cacheSize 4096 LogRWStream.smallPage_pos (fun i ↦ l.getD i 0) l.length
    (by omega)
  curOffset := 0
  find := fun _ ↦ true
  room := 2 ^ 63 - 1

theorem unread_ofList {l : List UInt8} (hlen : l.length < 2 ^ 44) :
    (ofList cacheSize l hlen).Unread l where
  load_eq := by
    refine List.ext_getElem (by simp) fun i _ h₂ ↦ ?_
    rw [getElem_load]
    simp [ofList, LogRWStream.new, h₂]
  available_eq := by simp [ofList, LogRWStream.new]
  pages_lt := by
    simp only [ofList, LogRWStream.new]
    omega
  found _ _ _ := rfl
  peaked _ _ _ := rfl

namespace Unread

theorem available (h : p.Unread l) : p.available = l.length := by
  have hend := h.available_eq
  have hbound := p.log.available_le
  have hlt := p.log.position_lt
  rw [PositionedStream.available, CInt.toUnsigned_of_mem (by omega) (by omega)]
  omega

theorem peak (h : p.Unread l) (i : ℕ) : p.peak i = l[i]? := by
  have hend := h.available_eq
  rw [PositionedStream.peak, LogRWStream.peak]
  by_cases hi : i < l.length
  · have hi' : i < (load p.log.data p.curOffset l.length).length := by rwa [length_load]
    have hget : (load p.log.data p.curOffset l.length)[i] = p.log.data (p.curOffset + i) :=
      getElem_load _ _ _ _ _
    rw [if_neg (by simp [h.peaked _ (Nat.le_add_right _ i) (by omega)]), if_neg (by omega),
      List.getElem?_eq_getElem hi, ← hget]
    simp only [h.load_eq]
  · rw [List.getElem?_eq_none (by omega), if_pos (by omega : p.log.available ≤ p.curOffset + i)]
    split_ifs <;> rfl

theorem load_take (h : p.Unread l) {n : ℕ} (hn : n ≤ l.length) :
    load p.log.data p.curOffset n = l.take n := by
  rw [← take_load _ hn, h.load_eq]

theorem advance (h : p.Unread l) {n : ℕ} (hn : n ≤ l.length) : (p.advance n).Unread (l.drop n) where
  load_eq := by
    rw [List.length_drop, PositionedStream.advance, ← drop_load _ hn, h.load_eq]
  available_eq := by
    have hend := h.available_eq
    simp only [List.length_drop, PositionedStream.advance]
    omega
  pages_lt := h.pages_lt
  found offset h₁ h₂ := by
    simp only [PositionedStream.advance, List.length_drop] at h₁ h₂
    exact h.found offset (by omega) (by omega)
  peaked offset h₁ h₂ := h.peaked offset (Nat.le_trans (Nat.le_add_right _ _) h₁) h₂

theorem pop (h : p.Unread l) {n : ℕ} (hpos : 0 < n) (hn : n ≤ l.length) :
    p.pop n = (some (l.take n), p.advance n) := by
  have hend := h.available_eq
  rw [PositionedStream.pop, LogRWStream.pop_eq h.pages_lt (by omega) (h.found.mono hn) hpos,
    h.load_take hn]

theorem skip (h : p.Unread l) {n : ℕ} (hn : n ≤ l.length) : p.skip n = (true, p.advance n) := by
  rw [PositionedStream.skip, h.available, if_pos hn]

theorem consumed (h : p.Unread (k ++ l)) : (p.advance k.length).Consumed p.curOffset k l :=
  ⟨rfl, h⟩

end Unread

namespace Consumed

variable {offset : ℕ}

theorem rest (h : p.Consumed offset k l) : p.Unread l := by
  have hadv := h.unread.advance (n := k.length) (by simp)
  rw [List.drop_left' rfl, PositionedStream.advance] at hadv
  simpa only [h.offset_eq] using hadv

theorem load_eq (h : p.Consumed offset k l) : load p.log.data offset k.length = k := by
  have hload := h.unread.load_take (n := k.length) (by simp)
  rwa [List.take_left' rfl] at hload

theorem range (h : p.Consumed offset k l) :
    offset + k.length ≤ p.log.available ∧ p.log.Found p.find offset k.length := by
  have hend : offset + (k ++ l).length = p.log.available := h.unread.available_eq
  rw [List.length_append] at hend
  exact ⟨by omega, h.unread.found.mono (by simp)⟩

/-- `Unmask` masks the bytes behind the position and leaves the unread ones. -/
theorem unmask (h : p.Consumed offset k l) (mask : List UInt8) :
    (p.unmask offset k.length mask).2.Consumed offset (Bytes.xorMask mask 0 k) l := by
  obtain ⟨hend, hfound⟩ := h.range
  rw [PositionedStream.unmask]
  by_cases hpos : 0 < k.length
  · rw [LogRWStream.unmask_eq h.unread.pages_lt hend hfound hpos, h.load_eq]
    refine ⟨by simpa using h.offset_eq, ?_, by simpa using h.unread.available_eq,
      h.unread.pages_lt, ?_, h.unread.peaked⟩
    · have hmasked := load_store_self p.log.data offset (Bytes.xorMask mask 0 k)
      rw [Bytes.length_xorMask] at hmasked
      rw [List.length_append, Bytes.length_xorMask, load_add, hmasked,
        load_store_of_disjoint (by simp), h.offset_eq, h.rest.load_eq]
    · simpa [LogRWStream.Found] using h.unread.found
  · obtain rfl : k = [] := List.length_eq_zero_iff.mp (by omega)
    rw [List.length_nil, LogRWStream.unmask_zero]
    exact h

theorem popAt (h : p.Consumed offset k l) (hpos : 0 < k.length) :
    p.popAt offset k.length = some k := by
  obtain ⟨hend, hfound⟩ := h.range
  rw [PositionedStream.popAt, LogRWStream.pop_eq h.unread.pages_lt hend hfound hpos, h.load_eq]

theorem popAt_getD (h : p.Consumed offset k l) : (p.popAt offset k.length).getD [] = k := by
  by_cases hpos : 0 < k.length
  · rw [h.popAt hpos, Option.getD_some]
  · obtain rfl : k = [] := List.length_eq_zero_iff.mp (Nat.eq_zero_of_not_pos hpos)
    cases hpop : p.popAt offset ([] : List UInt8).length with
    | none => rfl
    | some l' => exact List.length_eq_zero_iff.mp (LogRWStream.pop_length hpop)

end Consumed

end PositionedStream

end Coypu
