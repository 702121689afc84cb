import Coypu.Library.Run
import Coypu.Store.PagedAppends
import Coypu.Store.PagedReads

/-!
# The log of a file is one array of bytes

`FlatLog` is what a log is for: bytes that grow at the end and are read by their offsets. Pages and
slots only show in the lengths of the regions that callbacks and owners get, which end where a page
ends.

The log of a file answers as the flat one while offsets that are read lie in pages whose numbers and
that of the last page fit in 32 bits, and regions are shorter than `2³¹` bytes (`run_flat`). What
`Writev` offers lies in pages that are mapped when the callback gets it, since there is a slot for
each.
-/

set_option autoImplicit false

namespace Coypu

open FlatMemory Transport LawfulReadCache

/-- The bytes, and how many of the last ones were handed out and can be taken back. -/
structure FlatLog where
  bytes : List UInt8
  handed : ℕ

namespace FlatLog

/-- What a range is cut into at the ends of the pages, up to a number of pieces. -/
def pieces (pageSize : ℕ) : ℕ → ℕ → ℕ → List ℕ
  | 0, _, _ => []
  | slots + 1, start, size =>
    if size = 0 then []
    else
      let len := min size (pageSize - start % pageSize)
      len :: pieces pageSize slots (start + len) (size - len)

variable (pageSize cacheSize : ℕ)

/-- The log of a file. -/
def ofFile (file : MappedFile) : FlatLog := ⟨load file.data 0 file.size, 0⟩

variable (t : FlatLog)

def room : ℕ := pageSize - t.bytes.length % pageSize

/-- The number of the page with the end, as the code has it. -/
def lastPage : ℕ := CInt.toUnsigned 32 (t.bytes.length / pageSize : ℕ)

def append (l : List UInt8) (handed : ℕ) : FlatLog := ⟨t.bytes ++ l, handed⟩

/-- A request and its answer. The array has no position that could be set. -/
def step (t : FlatLog) : LogRequest → FlatLog × LogAnswer
  | .push l => (t.append l 0, .result 0)
  | .readv cb =>
    (t.append (cb.run [t.room pageSize]).bytes 0, .result (cb.run [t.room pageSize]).ret)
  | .zeroCopyWriteNext content =>
    (t.append ((List.range (t.room pageSize)).map content) (t.room pageSize),
      .region (some (t.bytes.length, (t.room pageSize : ℤ))))
  | .zeroCopyWriteBackup len =>
    (⟨t.bytes.take (t.bytes.length - len), t.handed - len⟩, .done)
  | .setPosition _ => (t, .stuck)
  | .peak offset => (t, .byte t.bytes[offset]?)
  | .pop start size => (t, .bytes (some ((t.bytes.drop start).take size)))
  | .find start d =>
    (t, .offset (((t.bytes.drop start).findIdx? (· = d)).map (start + ·)))
  | .writev start size cb =>
    let v := pieces pageSize cacheSize start size
    (t, .written (cb.run v) ((t.bytes.drop start).take v.sum))

/-- What is read or taken back is there. -/
def InRange : LogRequest → Prop
  | .zeroCopyWriteBackup len => len ≤ t.handed
  | .peak offset => offset < t.bytes.length
  | .pop start size | .writev start size _ => start + size ≤ t.bytes.length
  | .setPosition _ | .find _ _ => False
  | .push _ | .readv _ | .zeroCopyWriteNext _ => True

instance : (op : LogRequest) → Decidable (t.InRange op)
  | .zeroCopyWriteBackup len => inferInstanceAs (Decidable (len ≤ t.handed))
  | .peak offset => inferInstanceAs (Decidable (offset < t.bytes.length))
  | .pop start size | .writev start size _ =>
    inferInstanceAs (Decidable (start + size ≤ t.bytes.length))
  | .setPosition _ | .find _ _ => .isFalse id
  | .push _ | .readv _ | .zeroCopyWriteNext _ => .isTrue trivial

/-- Page numbers fit in 32 bits and regions in an `int`. No file is longer than `2⁶³` bytes. -/
def Fits : LogRequest → Prop
  | .zeroCopyWriteNext _ =>
    t.room pageSize < 2 ^ 31 ∧ t.bytes.length + t.room pageSize < 2 ^ 63
  | .zeroCopyWriteBackup _ => t.bytes.length < 2 ^ 63
  | .peak offset => offset < 2 ^ 32 * pageSize
  | .pop start size | .writev start size _ =>
    start < 2 ^ 32 * pageSize ∧ start / pageSize ≤ t.lastPage pageSize ∧
      start + size ≤ (t.lastPage pageSize + 1) * pageSize
  | .push _ | .readv _ | .setPosition _ | .find _ _ => True

instance : (op : LogRequest) → Decidable (t.Fits pageSize op)
  | .zeroCopyWriteNext _ => inferInstanceAs
      (Decidable (t.room pageSize < 2 ^ 31 ∧ t.bytes.length + t.room pageSize < 2 ^ 63))
  | .zeroCopyWriteBackup _ => inferInstanceAs (Decidable (t.bytes.length < 2 ^ 63))
  | .peak offset => inferInstanceAs (Decidable (offset < 2 ^ 32 * pageSize))
  | .pop start size | .writev start size _ => inferInstanceAs
      (Decidable (start < 2 ^ 32 * pageSize ∧ start / pageSize ≤ t.lastPage pageSize ∧
        start + size ≤ (t.lastPage pageSize + 1) * pageSize))
  | .push _ | .readv _ | .setPosition _ | .find _ _ => .isTrue trivial

end FlatLog

namespace PagedLog

variable {cacheSize : ℕ} {s : PagedLog (LRUCache cacheSize) cacheSize} {t : FlatLog}

/-- The segments that `Writev` offers lie in pages that are mapped when the callback gets them. -/
def OffersMapped (s : PagedLog (LRUCache cacheSize) cacheSize) : LogRequest → Prop
  | .writev start size cb => ∀ r ∈ (s.writev start size cb).2.1,
      ∃ page ∈ (s.writev start size cb).2.2.cache.slots,
        page.base ≤ r.start ∧ r.start + r.len ≤ page.base + s.pageSize
  | _ => True

/-- The log holds the bytes of the array. -/
structure Flat (s : PagedLog (LRUCache cacheSize) cacheSize) (t : FlatLog) : Prop where
  writable : s.Writable
  sound : LRUCache.Sound s.pageSize s.cache
  bytes_eq : load s.file.data 0 s.available = t.bytes
  handed_le : t.handed ≤ s.writeBuf.position
  mapped : t.handed = 0 ∨ ∃ page, s.writeBuf.dataPage = some page

theorem sound_push (h : LRUCache.Sound s.pageSize s.cache) (l : List UInt8) :
    LRUCache.Sound (s.push l).2.pageSize (s.push l).2.cache := by
  have hsize : (s.push l).2.pageSize = s.pageSize := s.step_pageSize (.push l)
  rw [hsize]
  simp only [PagedLog.push, update, LogWriteBuf.push]
  split_ifs
  · exact h
  · exact LogWriteBuf.pushLoop_induction (P := LRUCache.Sound s.pageSize) (fun _ _ hc ↦ hc) h

/-- What the loop over the pages finds does not depend on the pages that are mapped. -/
theorem pageLoop_congr {τ ρ : Type} {body : ℕ → ℕ → τ → Option (ρ ⊕ τ)} {failed : ρ} {fuel i : ℕ}
    {x : τ} {s' : PagedLog (LRUCache cacheSize) cacheSize} (hwriter : s'.writeBuf = s.writeBuf)
    (havailable : s'.available = s.available) {c c' : LRUCache cacheSize} (hc : c.Sound s.pageSize)
    (hc' : c'.Sound s.pageSize) :
    (s'.pageLoop body failed fuel i x c').map Prod.fst =
    (s.pageLoop body failed fuel i x c).map Prod.fst := by
  have hsize : s'.pageSize = s.pageSize := by rw [pageSize, pageSize, hwriter]
  have hpage : s'.page s'.available = s.page s.available := by rw [page, page, hsize, havailable]
  induction fuel generalizing i x c c' with
  | zero => rfl
  | succ fuel ih =>
    rw [pageLoop, pageLoop, hpage, hsize]
    split_ifs
    · have hfirst := LRUCache.findPage_fst hc (i * s.pageSize)
      have hsecond := LRUCache.findPage_fst hc' (i * s.pageSize)
      simp only [ReadCache.findPage, hfirst, hsecond]
      split
      · rfl
      · rfl
      · exact ih (hc.findPage _) (hc'.findPage _)
    · rfl

theorem pop_congr {c : LRUCache cacheSize} (hs : LRUCache.Sound s.pageSize s.cache)
    (hc : LRUCache.Sound s.pageSize c) (start size : ℕ) :
    (({ s with cache := c } : PagedLog (LRUCache cacheSize) cacheSize).pop start size).map Prod.fst
      = (s.pop start size).map Prod.fst := by
  rw [PagedLog.pop, PagedLog.pop, Option.map_map, Option.map_map]
  generalize 2 ^ 32 = fuel
  refine pageLoop_congr ?_ ?_ hs hc <;> rfl

namespace Flat

theorem length_eq (h : Flat s t) : s.available = t.bytes.length := by
  rw [← h.bytes_eq, length_load]

theorem room_eq (h : Flat s t) : s.room = t.room s.pageSize := by
  rw [room, h.length_eq]
  rfl

theorem lastPage_eq (h : Flat s t) : s.page s.available = t.lastPage s.pageSize := by
  rw [page, h.length_eq]
  rfl

theorem load_eq (h : Flat s t) {start n : ℕ} (hn : start + n ≤ t.bytes.length) :
    load s.file.data start n = (t.bytes.drop start).take n := by
  have hlen := h.length_eq
  rw [← h.bytes_eq, drop_load _ (by omega), Nat.zero_add, take_load _ (by omega)]

theorem le_extent (h : Flat s t) {n : ℕ} (hn : n ≤ t.bytes.length) :
    n ≤ s.file.extent systemPage := by
  have hsize := h.writable.available_le
  have hlen := h.length_eq
  exact Nat.le_trans (by omega) (MappedFile.size_le_extent (by decide))

theorem of_extends (h : Flat s t) {l : List UInt8} {s' : PagedLog (LRUCache cacheSize) cacheSize}
    {handed : ℕ} (hext : s.Extends l s') (hcache : s'.cache = s.cache)
    (hhanded : handed ≤ s'.writeBuf.position)
    (hmapped : handed = 0 ∨ ∃ page, s'.writeBuf.dataPage = some page) :
    Flat s' (t.append l handed) := by
  refine ⟨hext.writable, ?_, ?_, hhanded, hmapped⟩
  · rw [hext.pageSize_eq, hcache]
    exact h.sound
  · have hload := hext.load_eq (Nat.zero_le _)
    rw [Nat.sub_zero, Nat.sub_zero, h.bytes_eq] at hload
    exact hload

theorem of_cache (h : Flat s t) {c : LRUCache cacheSize} (hc : c.Sound s.pageSize) :
    Flat { s with cache := c } t :=
  ⟨h.writable.cache c, hc, h.bytes_eq, h.handed_le, h.mapped⟩

/-! ## Appending -/

theorem makeRoom_cache (r : LogWriteBuf × LRUCache cacheSize) :
    (LogWriteBuf.makeRoom ReadCache.addPage r).2 = r.2 := by
  unfold LogWriteBuf.makeRoom
  split_ifs <;> rfl

theorem push (h : Flat s t) (l : List UInt8) :
    Flat (s.push l).2 (t.append l 0) ∧ (s.push l).1 = 0 := by
  obtain ⟨hret, hext, hboth⟩ := h.writable.push l
  refine ⟨h.of_extends hext ?_ (Nat.zero_le _) (Or.inl rfl), hret⟩
  have hcache := LogWriteBuf.foldl_pushByte_induction (f := ReadCache.addPage)
    (P := fun r ↦ r.2 = s.cache) (fun r _ hr ↦ (makeRoom_cache r).trans hr)
    (s := (s.writeBuf, s.cache)) rfl l
  rwa [← hboth] at hcache

theorem readv (h : Flat s t) (cb : Reader UInt8) :
    Flat (s.readv cb).2 (t.append (cb.run [t.room s.pageSize]).bytes 0) ∧
      (s.readv cb).1 = (cb.run [t.room s.pageSize]).ret := by
  obtain ⟨hret, hext, -, hcache⟩ := h.writable.readv cb
  rw [← h.room_eq]
  exact ⟨h.of_extends hext (hcache.trans (makeRoom_cache _)) (Nat.zero_le _) (Or.inl rfl), hret⟩

theorem writeNext (h : Flat s t) {content : ℕ → UInt8}
    (hfits : t.Fits s.pageSize (.zeroCopyWriteNext content)) :
    Flat (s.writeNext content).2
        (t.append ((List.range (t.room s.pageSize)).map content) (t.room s.pageSize)) ∧
      (s.writeNext content).1 = some (t.bytes.length, (t.room s.pageSize : ℤ)) := by
  obtain ⟨hint, hoffset⟩ := hfits
  rw [← h.room_eq, ← h.length_eq] at *
  obtain ⟨hregion, hext, hpos, hmapped, hcache⟩ := h.writable.writeNext hint (by omega) content
  refine ⟨h.of_extends hext (hcache.trans (makeRoom_cache _)) ?_ (Or.inr hmapped), hregion⟩
  rw [hpos]
  exact Nat.sub_le _ _

theorem backup (h : Flat s t) {len : ℕ} (hlen : len ≤ t.handed) (hfile : t.bytes.length < 2 ^ 63) :
    Flat (s.zeroCopyWriteBackup len)
      ⟨t.bytes.take (t.bytes.length - len), t.handed - len⟩ := by
  have hpos := h.handed_le
  have hlength := h.length_eq
  have htell := h.writable.tell_eq
  have happ := h.writable.appending
  -- the bytes taken back are in the page
  have hle : len ≤ s.available := by
    rcases h.mapped with hnone | ⟨page, hpage⟩
    · omega
    · rw [LogWriteBuf.tell_of_page hpage] at htell
      omega
  have hcount : CInt.toUnsigned 64 (s.available - (len : ℤ)) = s.available - len := by
    rw [← Int.ofNat_sub hle, CInt.toUnsigned_natCast (by omega)]
  have hbackup : s.zeroCopyWriteBackup len
      = ⟨{ s.writeBuf with position := s.writeBuf.position - len }, s.cache,
        s.available - len⟩ := by
    rw [zeroCopyWriteBackup, LogWriteBuf.backup, if_neg (by omega), hcount]
  have htell' : ({ s.writeBuf with position := s.writeBuf.position - len } : LogWriteBuf).tell
      = s.available - len := by
    rw [← htell]
    rcases h.mapped with hnone | ⟨page, hpage⟩
    · obtain rfl : len = 0 := by omega
      rfl
    · rw [LogWriteBuf.tell_of_page hpage]
      rw [Nat.add_sub_assoc (Nat.le_trans hlen hpos)]
      exact LogWriteBuf.tell_of_page hpage
  rw [hbackup]
  refine ⟨⟨⟨happ.dvd, ?_, happ.page_eq, happ.size_eq⟩, h.writable.readOnly_eq, htell'⟩, h.sound, ?_,
    ?_, ?_⟩
  · exact Nat.le_trans (Nat.sub_le _ _) happ.position_le
  · simp only [← h.bytes_eq, length_load]
    rw [take_load _ (Nat.sub_le _ _)]
    rfl
  · exact Nat.sub_le_sub_right hpos len
  · exact h.mapped.imp (fun hnone ↦ by simp only; omega) id

/-! ## Reading -/

theorem peak (h : Flat s t) {offset : ℕ} (hrange : offset < t.bytes.length)
    (hfits : offset < 2 ^ 32 * s.pageSize) :
    ∃ c, c.Sound s.pageSize ∧ s.peak offset = some (t.bytes[offset]?, { s with cache := c }) := by
  refine ⟨_, h.sound.findPage offset, ?_⟩
  have hbyte : t.bytes[offset]? = some (s.file.data offset) := by
    rw [List.getElem?_eq_getElem hrange]
    simp only [← h.bytes_eq, getElem_load, Nat.zero_add]
  rw [hbyte, peak_of_kept h.sound hfits trivial (by rw [h.length_eq]; exact hrange)
    (h.le_extent (n := offset + 1) hrange)]
  rfl

theorem pop (h : Flat s t) {start size : ℕ} (hrange : start + size ≤ t.bytes.length)
    (hfits : t.Fits s.pageSize (.pop start size)) :
    ∃ c, c.Sound s.pageSize ∧ s.pop start size
      = some (some ((t.bytes.drop start).take size), { s with cache := c }) := by
  obtain ⟨hstart, hpage, hend⟩ := hfits
  have hkept : s.keptPages s.cache (s.page start)
      = List.range' (s.page start) (s.page s.available + 1 - s.page start) :=
    keptPages_eq fun _ _ _ ↦ trivial
  rw [← h.lastPage_eq] at hpage hend
  have hfirst := page_eq hstart
  have hle := Nat.div_mul_le_self start s.pageSize
  have hmax : max start (s.page start * s.pageSize) = start := by
    rw [hfirst]
    omega
  have hcount : s.page start + (s.page s.available + 1 - s.page start)
    = s.page s.available + 1 := by
    omega
  have hsize := h.le_extent hrange
  obtain ⟨c, hc⟩ := pop_of_kept h.sound hstart hkept (Nat.le_refl _) (by omega)
    (by rwa [hmax, hcount]) (Or.inr (by rwa [hmax]))
  rw [hmax, h.load_eq hrange] at hc
  obtain ⟨c', heq, hsound⟩ := pop_induction (P := LRUCache.Sound s.pageSize)
    (fun c k _ hc ↦ hc.findPage (k * s.pageSize)) h.sound hc
  exact ⟨c', hsound, by rw [hc, heq]⟩

/-- **A read within a page** gives its bytes or fails, also where the number of the page does not
fit in 32 bits: the page that is found then is another one, before it. -/
theorem pop_within (h : Flat s t) {start size : ℕ} (hpos : 0 < size)
    (hrange : start + size ≤ t.bytes.length) (hpage : start % s.pageSize + size ≤ s.pageSize) :
    ∃ r c, s.pop start size = some (r, { s with cache := c }) ∧ c.Sound s.pageSize ∧
      (r = none ∨ r = some ((t.bytes.drop start).take size)) := by
  obtain ⟨fuel, hfuel⟩ : ∃ fuel, 2 ^ 32 = fuel + 1 := ⟨2 ^ 32 - 1, rfl⟩
  by_cases hle : s.page start ≤ s.page s.available
  · have hlt := s.page_lt start
    have hkey : CInt.toUnsigned 32 (s.page start * s.pageSize / s.pageSize : ℕ) = s.page start := by
      rw [Nat.mul_div_cancel _ s.pageSize_pos, CInt.toUnsigned_natCast hlt]
    have hfind : (ReadCache.findPage s.cache (s.page start * s.pageSize)).1
        = some (s.page start * s.pageSize) :=
      (LRUCache.findPage_fst h.sound _).trans (by rw [hkey])
    have hdiv := Nat.div_add_mod' start s.pageSize
    have hbefore : s.page start ≤ start / s.pageSize := CInt.toUnsigned_natCast_le 32 _
    have hbegin := Nat.mul_le_mul_right s.pageSize hbefore
    have hmax : max start (s.page start * s.pageSize) = start := by omega
    have hsound := h.sound.findPage (s.page start * s.pageSize)
    -- the page that is found holds the offset, or ends before it
    rcases Nat.eq_or_lt_of_le hbefore with heq | hfar
    · have hmin : min (size - ([] : List UInt8).length)
        (s.pageSize - (start - s.page start * s.pageSize))
          = size := by
        rw [heq, List.length_nil]
        omega
      refine ⟨_, _, ?_, hsound, Or.inr rfl⟩
      rw [PagedLog.pop, hfuel, pageLoop, if_pos hle]
      simp only [hfind]
      rw [popBody_eq (by rw [heq]; omega), hmax, hmin,
        MappedFile.read_of_le_extent (h.le_extent hrange), h.load_eq hrange]
      have hlen : ((t.bytes.drop start).take size).length = size := by
        rw [List.length_take, List.length_drop]
        omega
      simp only [Option.map_some, List.nil_append, if_pos hlen]
      rfl
    · have hmod : s.page start = start / s.pageSize % 2 ^ 32 := CInt.toUnsigned_natCast_eq_mod 32 _
      have hend := Nat.mul_le_mul_right s.pageSize
        (by omega : s.page start + 2 ≤ start / s.pageSize)
      have hpagePop : s.pagePop (s.page start * s.pageSize) start size = some none :=
        if_pos (by rw [Nat.add_mul] at hend; omega)
      refine ⟨none, _, ?_, hsound, Or.inl rfl⟩
      rw [PagedLog.pop, hfuel, pageLoop, if_pos hle]
      simp only [hfind, popBody, hmax, List.length_nil, Nat.sub_zero, hpagePop, Option.map_some]
      rfl
  · refine ⟨none, s.cache, ?_, h.sound, Or.inl rfl⟩
    rw [PagedLog.pop, hfuel, pageLoop, if_neg hle]
    rfl

end Flat

/-! ## Vectored writes -/

/-- The loop of `Writev` offers the pieces of the range, and the pages of all of them are mapped at
the end. The induction is on the slots left; the pages looked up so far are the `recent` ones. -/
theorem writevLoop_eq {start size : ℕ} (hend : start + size ≤ (s.page s.available + 1) * s.pageSize)
    {slots i queued : ℕ} {c : LRUCache cacheSize} {recent rest : List CachedPage}
    (hc : c.Sound s.pageSize) (hslots : c.slots = recent ++ rest)
    (hlen : recent.length + slots ≤ cacheSize)
    (hnew : queued < size → ∀ page ∈ recent, page.key < i)
    (hi : queued < size → i = (start + queued) / s.pageSize) (hqueued : queued ≤ size) :
    ∃ v c', s.writevLoop start size slots i queued c = (some v, c') ∧
      v.map Region.len = FlatLog.pieces s.pageSize slots (start + queued) (size - queued) ∧
      Tiles (start + queued) v ∧ c'.Sound s.pageSize ∧ (∀ page ∈ recent, page ∈ c'.slots) ∧
      ∀ r ∈ v, ∃ page ∈ c'.slots, page.base ≤ r.start ∧
        r.start + r.len ≤ page.base + s.pageSize := by
  induction slots generalizing i queued c recent rest with
  | zero =>
    refine ⟨[], c, rfl, rfl, Tiles.nil _, hc, fun page h ↦ ?_, by simp⟩
    rw [hslots]
    exact List.mem_append_left _ h
  | succ slots ih =>
    by_cases hmore : queued < size
    · have hi := hi hmore
      have hmod := Nat.div_add_mod' (start + queued) s.pageSize
      have hlt := Nat.mod_lt (start + queued) s.pageSize_pos
      have hlast : i ≤ s.page s.available := by
        have hdiv := (Nat.div_lt_iff_lt_mul s.pageSize_pos).mpr
          (Nat.lt_of_lt_of_le (Nat.add_lt_add_left hmore start) hend)
        omega
      have hpage := s.page_lt s.available
      have hkey : CInt.toUnsigned 32 (i * s.pageSize / s.pageSize : ℕ) = i := by
        rw [Nat.mul_div_cancel _ s.pageSize_pos, CInt.toUnsigned_natCast (by omega)]
      have hfind : (ReadCache.findPage c (i * s.pageSize)).1 = some (i * s.pageSize) :=
        (LRUCache.findPage_fst hc _).trans (by rw [hkey])
      obtain ⟨rest', hslots'⟩ := LRUCache.findPage_slots hc hkey.symm hslots (by omega)
        fun page h ↦ Nat.ne_of_lt (hnew hmore page h)
      obtain ⟨len, hlen'⟩ : ∃ len,
          len = min (size - queued) (s.pageSize - (start + queued) % s.pageSize) := ⟨_, rfl⟩
      have hstart : i * s.pageSize + (start + queued) % s.pageSize = start + queued := by
        rw [hi, hmod]
      -- where there is a next round, it is for the next page
      have hnext (hmore' : queued + len < size) :
          CInt.toUnsigned 32 (i + 1 : ℕ) = i + 1 ∧ start + (queued + len)
            = (i + 1) * s.pageSize := by
        have hmul : start + (queued + len) = (i + 1) * s.pageSize := by
          rw [Nat.add_one_mul]
          omega
        have hlt' : (i + 1) * s.pageSize < (s.page s.available + 1) * s.pageSize := by
          omega
        have hle := Nat.lt_of_mul_lt_mul_right hlt'
        exact ⟨CInt.toUnsigned_natCast (by omega), hmul⟩
      have hnew' (hmore' : queued + len < size) (page : CachedPage)
          (hpage' : page ∈ (⟨i, i * s.pageSize⟩ :: recent : List CachedPage)) :
          page.key < CInt.toUnsigned 32 (i + 1 : ℕ) := by
        rw [(hnext hmore').1]
        rcases List.mem_cons.mp hpage' with rfl | hpage'
        · exact Nat.lt_succ_self i
        · exact Nat.lt_succ_of_lt (hnew hmore page hpage')
      have hi' (hmore' : queued + len < size) :
          CInt.toUnsigned 32 (i + 1 : ℕ) = (start + (queued + len)) / s.pageSize := by
        rw [(hnext hmore').1, (hnext hmore').2, Nat.mul_div_cancel _ s.pageSize_pos]
      obtain ⟨v, c', hloop, hlens, htiles, hsound, hold, hin⟩ :=
        ih (hc.findPage (i * s.pageSize)) hslots' (by rw [List.length_cons]; omega) hnew' hi'
          (by omega)
      refine ⟨⟨start + queued, len⟩ :: v, c', ?_, ?_, Tiles.cons ?_, hsound,
        fun page hpage' ↦ hold page (List.mem_cons_of_mem _ hpage'), ?_⟩
      · have hloop' : s.writevLoop start size slots (CInt.toUnsigned 32 (i + 1 : ℕ)) (queued + len)
            (ReadCache.findPage c (i * s.pageSize)).2 = (some v, c') := hloop
        rw [writevLoop, if_pos ⟨hmore, hlast⟩]
        simp only [hfind, ← hlen', hstart, hloop', Option.map_some]
      · rw [FlatLog.pieces, if_neg (by omega), List.map_cons, hlens]
        simp only [← hlen', Nat.add_assoc, Nat.sub_sub]
      · rwa [Nat.add_assoc]
      · intro r hr
        rcases List.mem_cons.mp hr with rfl | hr
        · exact ⟨_, hold _ List.mem_cons_self, by simp only; omega, by simp only; omega⟩
        · exact hin r hr
    · obtain rfl : queued = size := by omega
      refine ⟨[], c, ?_, ?_, Tiles.nil _, hc, fun page h ↦ ?_, by simp⟩
      · rw [writevLoop, if_neg (by omega)]
      · rw [Nat.sub_self]
        rfl
      · rw [hslots]
        exact List.mem_append_left _ h

end PagedLog

namespace FlatLog

theorem pieces_min {pageSize slots start size n : ℕ} (hpage : 0 < pageSize)
    (hn : slots * pageSize ≤ n) :
    pieces pageSize slots start (min size n) = pieces pageSize slots start size := by
  induction slots generalizing start size n with
  | zero => rfl
  | succ slots ih =>
    rw [Nat.add_one_mul] at hn
    have hlen : min (min size n) (pageSize - start % pageSize)
        = min size (pageSize - start % pageSize) := by
      omega
    have hrest : min size n - min size (pageSize - start % pageSize)
        = min (size - min size (pageSize - start % pageSize))
            (n - min size (pageSize - start % pageSize)) := by
      omega
    by_cases hsize : size = 0
    · rw [hsize, Nat.zero_min]
    · rw [pieces, pieces, if_neg (by omega), if_neg hsize]
      simp only [hlen]
      rw [hrest, ih (by omega)]

theorem pieces_sum_le (pageSize slots start size : ℕ) :
    (pieces pageSize slots start size).sum ≤ size := by
  induction slots generalizing start size with
  | zero => exact Nat.zero_le _
  | succ slots ih =>
    rw [pieces]
    split_ifs with hsize
    · exact Nat.zero_le _
    · have hrest := ih (start + min size (pageSize - start % pageSize))
        (size - min size (pageSize - start % pageSize))
      rw [List.sum_cons]
      omega

end FlatLog

namespace PagedLog

variable {cacheSize : ℕ} {s : PagedLog (LRUCache cacheSize) cacheSize} {t : FlatLog}

theorem Flat.writev (h : Flat s t) {start size : ℕ} {cb : Writer}
    (hrange : start + size ≤ t.bytes.length) (hfits : t.Fits s.pageSize (.writev start size cb)) :
    Flat (s.step (.writev start size cb)).1 t ∧
      (s.step (.writev start size cb)).2 = (t.step s.pageSize cacheSize (.writev start size cb)).2 ∧
      OffersMapped s (.writev start size cb) := by
  obtain ⟨hstart, -, hend⟩ := hfits
  rw [← h.lastPage_eq] at hend
  have hloop : ∃ v c, s.writevLoop start (min size (cacheSize * s.pageSize)) cacheSize
    (s.page start) 0
        s.cache = (some v, c) ∧
      v.map Region.len = FlatLog.pieces s.pageSize cacheSize (start + 0)
        (min size (cacheSize * s.pageSize) - 0) ∧
      Tiles (start + 0) v ∧ c.Sound s.pageSize ∧ (∀ page ∈ [], page ∈ c.slots) ∧
      ∀ r ∈ v, ∃ page ∈ c.slots, page.base ≤ r.start ∧ r.start + r.len ≤ page.base + s.pageSize :=
    writevLoop_eq (by omega) h.sound (List.nil_append _).symm (by simp) (by simp)
      (fun _ ↦ page_eq hstart) (Nat.zero_le _)
  obtain ⟨v, c, hloop, hlens, htiles, hsound, -, hmapped⟩ := hloop
  rw [Nat.add_zero, Nat.sub_zero, FlatLog.pieces_min s.pageSize_pos (Nat.le_refl _)] at hlens
  rw [Nat.add_zero] at htiles
  have hwritev : s.writev start size cb
      = (cb.run (FlatLog.pieces s.pageSize cacheSize start size), v, { s with cache := c }) := by
    rw [PagedLog.writev, hloop]
    simp only [hlens]
  have hsum := FlatLog.pieces_sum_le s.pageSize cacheSize start size
  refine ⟨?_, ?_, ?_⟩
  · simp only [step, hwritev]
    exact h.of_cache hsound
  · simp only [step, hwritev, FlatLog.step, htiles.gather, hlens, h.load_eq (Nat.le_trans
      (Nat.add_le_add_left hsum start) hrange)]
  · simp only [OffersMapped, hwritev]
    exact hmapped

/-! ## Runs -/

/-- A request that is in range and fits is answered as the array answers it. -/
theorem Flat.step (h : Flat s t) {op : LogRequest} (hrange : t.InRange op)
    (hfits : t.Fits s.pageSize op) :
    Flat (s.step op).1 (t.step s.pageSize cacheSize op).1 ∧
      (s.step op).2 = (t.step s.pageSize cacheSize op).2 ∧ OffersMapped s op := by
  cases op with
  | push l =>
    obtain ⟨hflat, hret⟩ := h.push l
    exact ⟨hflat, congrArg LogAnswer.result hret, trivial⟩
  | readv cb =>
    obtain ⟨hflat, hret⟩ := h.readv cb
    exact ⟨hflat, congrArg LogAnswer.result hret, trivial⟩
  | zeroCopyWriteNext content =>
    obtain ⟨hflat, hregion⟩ := h.writeNext hfits
    exact ⟨hflat, congrArg LogAnswer.region hregion, trivial⟩
  | zeroCopyWriteBackup len => exact ⟨h.backup hrange hfits, rfl, trivial⟩
  | setPosition offset => exact absurd hrange id
  | peak offset =>
    obtain ⟨c, hc, hpeak⟩ := h.peak hrange hfits
    simp only [PagedLog.step, hpeak, Option.elim_some]
    exact ⟨h.of_cache hc, rfl, trivial⟩
  | pop start size =>
    obtain ⟨c, hc, hpop⟩ := h.pop hrange hfits
    simp only [PagedLog.step, hpop, Option.elim_some]
    exact ⟨h.of_cache hc, rfl, trivial⟩
  | find start d => exact absurd hrange id
  | writev start size cb => exact h.writev hrange hfits

/-- The log of a file, opened at its end. -/
def ofFile (cacheSize pageSize : ℕ) (hpage : 0 < pageSize) (file : MappedFile) :
    PagedLog (LRUCache cacheSize) cacheSize :=
  openAt cacheSize pageSize hpage file.size file

theorem flat_ofFile {pageSize : ℕ} (hpage : 0 < pageSize) {file : MappedFile}
    (hfile : pageSize ∣ file.size) :
    Flat (ofFile cacheSize pageSize hpage file) (FlatLog.ofFile file) :=
  ⟨writable_new hpage hfile false rfl _, ⟨rfl, by simp [ofFile, openAt, new, LRUCache.new]⟩, rfl,
    Nat.zero_le _, Or.inl rfl⟩

/-- **The log of a file answers as one array of bytes.** -/
theorem run_flat {pageSize : ℕ} (hpage : 0 < pageSize) {file : MappedFile}
    (hfile : pageSize ∣ file.size) {ops : List LogRequest}
    (hrange : Run.Steps (FlatLog.step pageSize cacheSize) FlatLog.InRange (FlatLog.ofFile file) ops)
    (hfits : Run.Steps (FlatLog.step pageSize cacheSize) (FlatLog.Fits pageSize)
      (FlatLog.ofFile file) ops) :
    (Run.run step (ofFile cacheSize pageSize hpage file) ops).2
        = (Run.run (FlatLog.step pageSize cacheSize) (FlatLog.ofFile file) ops).2 ∧
      (Run.run step (ofFile cacheSize pageSize hpage file) ops).1.available
        = (Run.run (FlatLog.step pageSize cacheSize) (FlatLog.ofFile file) ops).1.bytes.length ∧
      Run.Steps step OffersMapped (ofFile cacheSize pageSize hpage file) ops := by
  have hstep (t : FlatLog) (s : PagedLog (LRUCache cacheSize) cacheSize) (op : LogRequest)
      (hR : s.pageSize = pageSize ∧ Flat s t) (hok : t.InRange op ∧ t.Fits pageSize op) :
      ((s.step op).1.pageSize = pageSize ∧
          Flat (s.step op).1 (t.step pageSize cacheSize op).1) ∧
        (t.step pageSize cacheSize op).2 = (s.step op).2 ∧ OffersMapped s op := by
    obtain ⟨rfl, hflat⟩ := hR
    obtain ⟨hflat', hanswer, hoffers⟩ := hflat.step hok.1 hok.2
    exact ⟨⟨s.step_pageSize op, hflat'⟩, hanswer.symm, hoffers⟩
  have hfirst : (ofFile cacheSize pageSize hpage file).pageSize = pageSize ∧
      Flat (ofFile cacheSize pageSize hpage file) (FlatLog.ofFile file) :=
    ⟨rfl, flat_ofFile hpage hfile⟩
  have hok := Run.steps_and.mpr ⟨hrange, hfits⟩
  obtain ⟨hlast, hanswers⟩ := Run.run_simulation
    (fun t s op hR hok ↦ ⟨(hstep t s op hR hok).1, (hstep t s op hR hok).2.1⟩) hfirst hok
  exact ⟨hanswers.symm, hlast.2.length_eq,
    Run.Steps.of_simulation
      (fun t s op hR hok ↦ ⟨(hstep t s op hR hok).1, (hstep t s op hR hok).2.2⟩)
      hfirst hok⟩

/-- Two pages and a byte, a region that is taken back in part, and reads over the ends of pages. -/
theorem run_flat_pages :
    (Run.run step (ofFile 1 4 (by decide) (MappedFile.ofList [1, 2, 3, 4]))
        [.push [5, 6, 7, 8, 9], .zeroCopyWriteNext (fun _ ↦ 7), .zeroCopyWriteBackup 2, .pop 6 3,
          .peak 5, .writev 2 6 (Writer.atMost 5 (by decide))]).2
      = (Run.run (FlatLog.step 4 1) (FlatLog.ofFile (MappedFile.ofList [1, 2, 3, 4]))
        [.push [5, 6, 7, 8, 9], .zeroCopyWriteNext (fun _ ↦ 7), .zeroCopyWriteBackup 2, .pop 6 3,
          .peak 5, .writev 2 6 (Writer.atMost 5 (by decide))]).2 :=
  (run_flat (by decide) (by decide) (by decide) (by decide)).1

/-- A region of `2³¹` bytes, whose length is negative as an `int`. -/
theorem not_flat_of_large_page :
    ¬∀ cacheSize pageSize (hpage : 0 < pageSize) (file : MappedFile) (ops : List LogRequest),
      1 ≤ cacheSize → pageSize ∣ file.size →
      Run.Steps (FlatLog.step pageSize cacheSize) FlatLog.InRange (FlatLog.ofFile file) ops →
      (Run.run step (ofFile cacheSize pageSize hpage file) ops).1.available
        = (Run.run (FlatLog.step pageSize cacheSize) (FlatLog.ofFile file) ops).1.bytes.length := by
  intro h
  have hcount := h 1 (2 ^ 31) (by decide) MappedFile.empty [.zeroCopyWriteNext fun _ ↦ 0]
    (Nat.le_refl 1) (Nat.dvd_zero _) ⟨trivial, trivial⟩
  have hcode : (Run.run step (ofFile 1 (2 ^ 31) (by decide) MappedFile.empty)
      [.zeroCopyWriteNext fun _ ↦ 0]).1.available = 2 ^ 64 - 2 ^ 31 := by
    decide +kernel
  rw [hcode] at hcount
  simp only [Run.run_cons, Run.run_nil, FlatLog.step, FlatLog.append, FlatLog.ofFile,
    List.length_append, List.length_map, List.length_range, length_load, FlatLog.room] at hcount
  exact absurd hcount (by decide)

end PagedLog

end Coypu
