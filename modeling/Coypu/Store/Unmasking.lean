import Coypu.Library.Bytes
import Coypu.Library.Run
import Coypu.Store.StreamLog

/-!
# Unmasking in place

`Unmask` goes through the pages of a range and combines each byte with a byte of the mask. The
position in the mask is carried from page to page, beside the number of bytes done; both begin at
zero and grow together, so the mask goes on where it was (`unmaskLoop_eq`). Where the pages of the
range are held, the whole range is masked as one byte string.
-/

set_option autoImplicit false

namespace Coypu

open FlatMemory OneShotCache

namespace PagedLog

variable {cacheSize : ℕ} (s : PagedLog OneShotCache cacheSize)

/-! ## The functions -/

/-- The loop of `Unmask` of a page over `n` bytes from `i` on: the position in the mask and the
memory behind it. It divides by the length of the mask. -/
def unmaskBytes (mask : List UInt8) : ℕ → ℕ → ℕ → MappedFile → Option (ℕ × MappedFile)
  | 0, _, maskPos, f => some (maskPos, f)
  | n + 1, i, maskPos, f =>
    match f.read systemPage i 1, mask[maskPos % mask.length]? with
    | some l, some m => unmaskBytes mask n (i + 1) (maskPos + 1) (f.write i (l.map (· ^^^ m)))
    | _, _ => none

/-- `Unmask` of the page at `base`, with the number of bytes done. -/
def pageUnmask (base start : ℕ) (mask : List UInt8) (maskPos size : ℕ) (f : MappedFile) :
    Option (Option (ℕ × ℕ × MappedFile)) :=
  if start < base ∨ base + s.pageSize < start then some none
  else
    let outSize := min size (s.pageSize - (start - base))
    (unmaskBytes mask outSize start maskPos f).map fun r ↦ some (outSize, r)

/-- The loop of `Unmask` over the pages from `i` on, `read` bytes being done. A page that is not
found is passed over. -/
def unmaskLoop (start len : ℕ) (mask : List UInt8) :
    ℕ → ℕ → ℕ → ℕ → MappedFile → OneShotCache → Option (Bool × MappedFile × OneShotCache)
  | 0, _, _, _, _, _ => none
  | fuel + 1, i, read, maskPos, f, c =>
    if i ≤ s.page s.available then
      let pageStart := i * s.pageSize
      let next := CInt.toUnsigned 32 (i + 1 : ℕ)
      let r := ReadCache.peakPage c pageStart
      match r.1 with
      | none => unmaskLoop start len mask fuel next read maskPos f r.2
      | some base =>
        match s.pageUnmask base (max start pageStart) mask maskPos (len - read) f with
        | none => none
        | some none => some (false, f, r.2)
        | some (some (outSize, maskPos', f')) =>
          if read + outSize = len then some (true, f', r.2)
          else unmaskLoop start len mask fuel next (read + outSize) maskPos' f' r.2
    else some (false, f, c)

/-- `Unmask`. After `2³²` rounds the loop does not end. -/
def unmask (start len : ℕ) (mask : List UInt8) :
    Option (Bool × PagedLog OneShotCache cacheSize) :=
  (s.unmaskLoop start len mask (2 ^ 32) (s.page start) 0 0 s.file s.cache).map fun r ↦
    (r.1, { s with writeBuf := { s.writeBuf with file := r.2.1 }, cache := r.2.2 })

/-! ## One page -/

variable {s} {start len : ℕ} {mask : List UInt8} {f : MappedFile}

theorem unmaskBytes_eq (hmask : mask ≠ []) {n i maskPos : ℕ} (hsize : i + n ≤ f.size) :
    unmaskBytes mask n i maskPos f
      = some (maskPos + n, f.write i (Bytes.xorMask mask maskPos (load f.data i n))) := by
  induction n generalizing i maskPos f with
  | zero =>
    have hwrite : f.write i (Bytes.xorMask mask maskPos []) = f :=
      MappedFile.ext (MappedFile.write_data_nil i) rfl
    rw [load_zero, hwrite]
    rfl
  | succ n ih =>
    have hlt : maskPos % mask.length < mask.length :=
      Nat.mod_lt _ (List.length_pos_iff.mpr hmask)
    have hread : f.read systemPage i 1 = some [f.data i] :=
      MappedFile.read_eq (by decide) (by omega)
    have hfirst : Bytes.xorMask mask maskPos [f.data i]
        = [f.data i].map (· ^^^ mask[maskPos % mask.length]) := by
      rw [Bytes.xorMask, List.mapIdx_cons, List.mapIdx_nil, Nat.add_zero,
        List.getD_eq_getElem _ _ hlt]
      rfl
    -- the bytes behind the first one are as they were
    have hrest : load (f.write i (Bytes.xorMask mask maskPos [f.data i])).data (i + 1) n
        = load f.data (i + 1) n := by
      rw [MappedFile.write_data (by rw [Bytes.length_xorMask, List.length_singleton]; omega),
        load_store_of_disjoint (by simp)]
    have hload : load f.data i (n + 1) = [f.data i] ++ load f.data (i + 1) n := load_succ _ _ _
    rw [unmaskBytes, hread, List.getElem?_eq_getElem hlt]
    simp only
    rw [← hfirst, ih (by rw [MappedFile.write_size]; omega), hrest, hload, Bytes.xorMask_append,
      MappedFile.write_append, Bytes.length_xorMask, List.length_singleton, Nat.add_assoc,
      Nat.add_comm 1 n]

theorem pageUnmask_eq (hmask : mask ≠ []) {base maskPos size n : ℕ} (hbase : base ≤ start)
    (hend : start ≤ base + s.pageSize) (hn : n = min size (s.pageSize - (start - base)))
    (hsize : start + n ≤ f.size) :
    s.pageUnmask base start mask maskPos size f
      = some (some (n, maskPos + n,
          f.write start (Bytes.xorMask mask maskPos (load f.data start n)))) := by
  rw [pageUnmask, if_neg (by omega)]
  simp only
  rw [← hn, unmaskBytes_eq hmask hsize, Option.map_some]

/-! ## All pages -/

/-- Where the pages of a range are held, the rest of it is masked as one byte string. The induction
is on the rounds; the mask position is the number of bytes done in each of them. -/
theorem unmaskLoop_eq (hmask : mask ≠ []) (hc : OneShotCache.Sound s.pageSize s.cache)
    (hpages : s.available < 2 ^ 32 * s.pageSize) (hend : start + len ≤ s.available)
    {fuel i read : ℕ} (hi : Pages.At s.pageSize start read i)
    (hkept : ∀ k, i ≤ k → k * s.pageSize < start + len → Kept s.pageSize s.cache k)
    (hsize : start + len ≤ f.size) (hfuel : 2 ^ 32 ≤ i + fuel) (hread : read < len) :
    s.unmaskLoop start len mask fuel i read read f s.cache
      = some (true, f.write (start + read)
          (Bytes.xorMask mask read (load f.data (start + read) (len - read))), s.cache) := by
  have hpos := s.pageSize_pos
  induction fuel generalizing i read f with
  | zero =>
    have hlt : start + read < 2 ^ 32 * s.pageSize := by omega
    rw [← Nat.div_lt_iff_lt_mul hpos, ← hi.index_eq] at hlt
    omega
  | succ fuel ih =>
    have hle := hi.le
    have hlt := hi.lt hpos
    have hpage : i ≤ s.page s.available := by
      rw [page_eq hpages, hi.index_eq]
      exact Nat.div_le_div_right (by omega)
    have hpeak : s.cache.peakPage (i * s.pageSize) = (some (i * s.pageSize), s.cache) := by
      have hdiv : i * s.pageSize / s.pageSize = i := Nat.mul_div_cancel _ hpos
      have hpageKept : Kept s.pageSize s.cache (i * s.pageSize / s.pageSize) := by
        rw [hdiv]
        exact hkept i (Nat.le_refl i) (by omega)
      have hfound := peakPage_of_kept hpos hc hpageKept
      rw [hdiv] at hfound
      exact Prod.ext hfound rfl
    obtain ⟨n, hn⟩ : ∃ n, n = min (len - read) (s.pageSize - (start + read - i * s.pageSize)) :=
      ⟨_, rfl⟩
    rw [unmaskLoop, if_pos hpage]
    simp only [ReadCache.peakPage, hpeak, hi.max_eq]
    rw [pageUnmask_eq hmask hle (by omega) hn (by omega)]
    simp only
    by_cases hdone : read + n = len
    · have hrest : len - read = n := by omega
      rw [if_pos hdone, hrest]
    · have hnext : n = s.pageSize - (start + read - i * s.pageSize) := by omega
      have hi' := hi.next hpos hnext
      have hsucc : CInt.toUnsigned 32 (i + 1 : ℕ) = i + 1 := by
        have hbefore := hi'.le
        exact CInt.toUnsigned_natCast (Nat.lt_of_mul_lt_mul_right
          (by omega : (i + 1) * s.pageSize < 2 ^ 32 * s.pageSize))
      have hsplit : len - read = n + (len - (read + n)) := by omega
      -- the bytes behind this page are as they were
      rw [if_neg hdone, hsucc, ih hi' (fun k hk ↦ hkept k (by omega))
        (by rw [MappedFile.write_size]; exact hsize) (by omega) (by omega), hsplit, load_add,
        Bytes.xorMask_append, MappedFile.write_append, Bytes.length_xorMask, length_load,
        MappedFile.write_data (by rw [Bytes.length_xorMask, length_load]; omega),
        ← Nat.add_assoc, load_store_of_disjoint (by simp)]

/-- The pages of a range are held. -/
def RangeHeld (s : PagedLog OneShotCache cacheSize) (start len : ℕ) : Prop :=
  ∀ k, start / s.pageSize ≤ k → k * s.pageSize < start + len → Kept s.pageSize s.cache k

/-- The log with other bytes in its memory. -/
def withFile (s : PagedLog OneShotCache cacheSize) (f : MappedFile) :
    PagedLog OneShotCache cacheSize :=
  { s with writeBuf := { s.writeBuf with file := f } }

theorem unmask_eq (hmask : mask ≠ []) (hc : OneShotCache.Sound s.pageSize s.cache)
    (hpages : s.available < 2 ^ 32 * s.pageSize) (hlen : 0 < len)
    (hend : start + len ≤ s.available) (hheld : s.RangeHeld start len)
    (hsize : start + len ≤ s.file.size) :
    s.unmask start len mask = some (true, s.withFile
      (s.file.write start (Bytes.xorMask mask 0 (load s.file.data start len)))) := by
  have hpage : s.page start = start / s.pageSize := page_eq (by omega)
  have hloop := unmaskLoop_eq hmask hc hpages hend (Pages.At.first s.pageSize start) hheld hsize
    (Nat.le_add_left (2 ^ 32) _) hlen
  rw [Nat.add_zero, Nat.sub_zero] at hloop
  rw [unmask, hpage, hloop]
  rfl

/-! ## Runs -/

/-- The last byte of a range in pages that are held lies in the memory of the log. -/
theorem le_size_of_rangeHeld {origin : ℕ} (h : Streaming origin (s.writeBuf, s.cache))
    (hlen : 0 < len) (hheld : s.RangeHeld start len) : start + len ≤ s.file.size := by
  obtain ⟨first, next, -, hholding, hnext, -⟩ := h.exists_holding
  simp only at hholding hnext
  have hdiv := Nat.div_mul_le_self (start + len - 1) s.pageSize
  have hlast := hheld ((start + len - 1) / s.pageSize) (Nat.div_le_div_right (by omega)) (by omega)
  rw [hholding] at hlast
  have hlt := ((kept_holding s.pageSize_pos).mp hlast).2
  have hmul : ((start + len - 1) / s.pageSize + 1) * s.pageSize ≤ next * s.pageSize :=
    Nat.mul_le_mul_right _ hlt
  have hend := Nat.lt_div_mul_add s.pageSize_pos (a := start + len - 1)
  rw [Nat.add_one_mul] at hmul
  rw [file, h.appending.size_eq, ← hnext]
  exact Nat.le_trans (by omega) hmul

/-- What the owner of a log asks it to do: a request, or to unmask a range. -/
inductive MaskRequest where
  | log (op : LogRequest)
  | unmask (start len : ℕ) (mask : List UInt8)

/-- A request. As in `step`, there is no state after a call that does not return. -/
def maskStep (s : PagedLog OneShotCache cacheSize) :
    MaskRequest → PagedLog OneShotCache cacheSize × Option (Bool ⊕ LogAnswer)
  | .log op => ((s.step op).1, some (.inr (s.step op).2))
  | .unmask start len mask =>
    (s.unmask start len mask).elim (s, none) fun r ↦ (r.2, some (.inl r.1))

/-- The pages that a request allocates begin before `2³²`, and no request sets the position of the
writer. -/
def MaskFits (s : PagedLog OneShotCache cacheSize) : MaskRequest → Prop
  | .log op => op.Reads ∨ s.StreamFits op
  | .unmask _ _ _ => True

/-- `Unmask` of a range of the log whose pages are held masks the bytes of the range and no others,
and a second time brings back the log. -/
def Unmasks (s : PagedLog OneShotCache cacheSize) : MaskRequest → Prop
  | .log _ => True
  | .unmask start len mask =>
    mask ≠ [] → 0 < len → start + len ≤ s.available → s.available < 2 ^ 32 →
      s.RangeHeld start len → ∃ s', s.unmask start len mask = some (true, s') ∧
        (∀ k m, k < len → mask[k % mask.length]? = some m →
          s'.file.data (start + k) = s.file.data (start + k) ^^^ m) ∧
        (∀ i, i < start ∨ start + len ≤ i → s'.file.data i = s.file.data i) ∧
        s'.unmask start len mask = some (true, s)

theorem unmasks {origin : ℕ} (h : Streaming origin (s.writeBuf, s.cache)) (op : MaskRequest) :
    s.Unmasks op := by
  cases op with
  | log op => trivial
  | unmask start len mask =>
    intro hmask hlen hend hlt hheld
    have hpages : s.available < 2 ^ 32 * s.pageSize :=
      Nat.lt_of_lt_of_le hlt (Nat.le_mul_of_pos_right _ s.pageSize_pos)
    have hsize := le_size_of_rangeHeld h hlen hheld
    set l := load s.file.data start len with hl
    set f := s.file.write start (Bytes.xorMask mask 0 l) with hf
    have hwidth : (Bytes.xorMask mask 0 l).length = len := by
      rw [Bytes.length_xorMask, hl, length_load]
    have hdata : f.data = store s.file.data start (Bytes.xorMask mask 0 l) :=
      MappedFile.write_data (by rw [hwidth]; exact hsize)
    refine ⟨s.withFile f, unmask_eq hmask h.sound hpages hlen hend hheld hsize, ?_, ?_, ?_⟩
    · intro k m hk hm
      have hk' : k < (Bytes.xorMask mask 0 l).length := by rwa [hwidth]
      have hkl : k < l.length := by rwa [hl, length_load]
      obtain ⟨hmod, hget⟩ := List.getElem?_eq_some_iff.mp hm
      change f.data (start + k) = _
      rw [hdata, store_add hk', Bytes.getElem_xorMask _ _ hkl, Nat.zero_add,
        List.getD_eq_getElem _ _ hmod, hget]
      simp only [hl, getElem_load]
    · intro i hi
      change f.data i = _
      rw [hdata]
      rcases hi with hi | hi
      · exact store_of_lt _ hi
      · exact store_of_le (by rwa [hwidth])
    · have hback : load f.data start len = Bytes.xorMask mask 0 l := by
        rw [hdata, ← hwidth]
        exact load_store_self _ _ _
      have hrestored : f.write start (Bytes.xorMask mask 0 (load f.data start len)) = s.file := by
        rw [hback, Bytes.xorMask_xorMask, hf, hl]
        exact MappedFile.write_load (by rwa [hwidth]) hwidth.symm
      have hagain := unmask_eq (s := s.withFile f) hmask h.sound hpages hlen hend hheld hsize
      change _ = some (true, (s.withFile f).withFile
        (f.write start (Bytes.xorMask mask 0 (load f.data start len)))) at hagain
      rw [hrestored] at hagain
      exact hagain

theorem unmaskBytes_size {n i maskPos : ℕ} {r : ℕ × MappedFile}
    (h : unmaskBytes mask n i maskPos f = some r) : r.2.size = f.size := by
  induction n generalizing i maskPos f with
  | zero =>
    obtain rfl : (maskPos, f) = r := Option.some.inj h
    rfl
  | succ n ih =>
    rw [unmaskBytes] at h
    split at h
    · exact (ih h).trans (MappedFile.write_size _ _)
    · exact absurd h (by simp)

theorem pageUnmask_size {base maskPos size : ℕ} {r : ℕ × ℕ × MappedFile}
    (h : s.pageUnmask base start mask maskPos size f = some (some r)) : r.2.2.size = f.size := by
  rw [pageUnmask] at h
  split_ifs at h
  · exact absurd h (by simp)
  · obtain ⟨q, hq, hr⟩ := Option.map_eq_some_iff.mp h
    rw [← Option.some.inj hr]
    exact unmaskBytes_size hq

theorem unmaskLoop_size {fuel i read maskPos : ℕ} {c : OneShotCache}
    {r : Bool × MappedFile × OneShotCache}
    (h : s.unmaskLoop start len mask fuel i read maskPos f c = some r) :
    r.2.1.size = f.size ∧ r.2.2 = c := by
  induction fuel generalizing i read maskPos f with
  | zero => exact absurd h (by simp [unmaskLoop])
  | succ fuel ih =>
    rw [unmaskLoop] at h
    split_ifs at h
    · simp only [ReadCache.peakPage, peakPage] at h
      split at h
      · exact ih h
      · split at h
        · exact absurd h (by simp)
        · rw [← Option.some.inj h]
          exact ⟨rfl, rfl⟩
        · rename_i hpage
          have hsize := pageUnmask_size hpage
          split_ifs at h
          · rw [← Option.some.inj h]
            exact ⟨hsize, rfl⟩
          · obtain ⟨hrest, hcache⟩ := ih h
            exact ⟨hrest.trans hsize, hcache⟩
    · rw [← Option.some.inj h]
      exact ⟨rfl, rfl⟩

theorem streaming_maskStep {origin : ℕ} (h : Streaming origin (s.writeBuf, s.cache))
    {op : MaskRequest} (hfits : s.MaskFits op) :
    Streaming origin ((s.maskStep op).1.writeBuf, (s.maskStep op).1.cache) := by
  cases op with
  | log op => exact streaming_step h hfits
  | unmask start len mask =>
    rw [maskStep]
    cases hunmask : s.unmask start len mask with
    | none => exact h
    | some r =>
      obtain ⟨q, hq, rfl⟩ := Option.map_eq_some_iff.mp hunmask
      obtain ⟨hsize, hcache⟩ := unmaskLoop_size hq
      have hwith := h.of_size hsize
      rw [← hcache] at hwith
      exact hwith

/-- **Unmasking masks the payload** and nothing else, in every run of a stream. -/
theorem run_unmasks {pageSize : ℕ} (hpage : 0 < pageSize) (first : ℕ) {ops : List MaskRequest}
    (hfits : Run.Steps maskStep MaskFits (ofStream cacheSize pageSize hpage first) ops) :
    Run.Steps maskStep Unmasks (ofStream cacheSize pageSize hpage first) ops :=
  Run.Steps.of_invariant (P := fun s : PagedLog OneShotCache cacheSize ↦
      Streaming (first * pageSize) (s.writeBuf, s.cache))
    (fun _ _ hs hok ↦ streaming_maskStep hs hok) (fun _ op hs _ ↦ unmasks hs op)
    (streaming_ofStream hpage first) hfits

/-- Seven bytes in pages of three, five of which are masked over two page boundaries. -/
theorem run_unmasks_pages :
    Run.Steps maskStep Unmasks (ofStream 4 3 (by decide) 0)
      [.log (.push [1, 2, 3, 4, 5, 6, 7]), .unmask 2 5 [8, 9]] := by
  refine run_unmasks (by decide) 0 ⟨Or.inr ?_, trivial, trivial⟩
  show PagesFit _ _
  decide +kernel

end PagedLog

end Coypu
