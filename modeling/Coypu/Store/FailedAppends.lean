import Coypu.Library.Run
import Coypu.Store.FaultyWriter
import Coypu.Store.PagedLog

/-!
# Appends that fail

A log counts its bytes in `_available` and leaves it to its writer where they go. The log of
`PagedLog` is asked to append while any allocation of a page may fail, and the two should not come
apart.

They do in four ways. A `Push` that fails has written what fitted into the pages it had, and
`_available` is as before. A page that cannot be mapped is taken for one, and nothing can be stored
in it. A region is counted with its length as an `int`. And bytes are given back that the writer
does not take back, since it has no page or is not as far in it.
-/

set_option autoImplicit false

namespace Coypu

open FlatMemory Transport

/-- A request to append, and what fails in it. A region that is handed out is written before the
next request, the byte `i` of it with `content i`. -/
inductive Append where
  | push (l : List UInt8) (failing : ℕ → Option Faulty.Fault)
  | readv (cb : Reader UInt8) (failing : Option Faulty.Fault)
  | zeroCopyWriteNext (content : ℕ → UInt8) (failing : Option Faulty.Fault)
  | zeroCopyWriteBackup (len : Int32)

namespace FaultyLog

/-! ## The functions of the class

There is no result where the process ends.
-/

section

variable {C : Type*} [ReadCache C] {cacheSize : ℕ} (failed : C → ℕ → C)

def push (failing : ℕ → Option Faulty.Fault) (l : List UInt8) (s : PagedLog C cacheSize) :
    Option (ℤ × PagedLog C cacheSize) :=
  (Faulty.push ReadCache.addPage failed failing l (s.writeBuf, s.cache)).map fun r ↦
    (r.1, ⟨r.2.1, r.2.2, if r.1 = 0 then s.available + l.length else s.available⟩)

def readv (failing : Option Faulty.Fault) (cb : Reader UInt8) (s : PagedLog C cacheSize) :
    Option (ℤ × PagedLog C cacheSize) :=
  (Faulty.readv ReadCache.addPage failed failing cb (s.writeBuf, s.cache)).map fun r ↦
    (r.1, ⟨r.2.1, r.2.2, if 0 < r.1 then s.available + r.1.toNat else s.available⟩)

/-- `ZeroCopyWriteNext`, with the region handed out. Its result is 0 also if there is none. -/
def zeroCopyWriteNext (failing : Option Faulty.Fault) (s : PagedLog C cacheSize) :
    Option (ℕ × ℤ) × PagedLog C cacheSize :=
  let r := Faulty.zeroCopyNext ReadCache.addPage failed failing (s.writeBuf, s.cache)
  (r.2.1, { s.update r.2.2 with
    available := match r.2.1 with
      | some (_, len) => CInt.toUnsigned 64 (s.available + len)
      | none => s.available })

def zeroCopyWriteBackup (len : Int32) (s : PagedLog C cacheSize) : PagedLog C cacheSize :=
  { s with
    writeBuf := (Faulty.backup len s.writeBuf).2
    available := CInt.toUnsigned 64 (s.available - len.toInt) }

/-- The owner of the region handed out, if there is one, writes to all of it, which ends the process
if the region is no memory. -/
def writeNext (failing : Option Faulty.Fault) (content : ℕ → UInt8) (s : PagedLog C cacheSize) :
    Option (Option (ℕ × ℤ) × PagedLog C cacheSize) :=
  let r := zeroCopyWriteNext failed failing s
  match r.1 with
  | none => some r
  | some (start, len) =>
    if r.2.writeBuf.mapFailed then none
    else some (r.1, r.2.writeRegion start ((List.range len.toNat).map content))

/-- A request. There is no answer if the process ends in it. -/
def step (s : PagedLog C cacheSize) : Append → PagedLog C cacheSize × Option LogAnswer
  | .push l failing =>
    match push failed failing l s with
    | none => (s, none)
    | some r => (r.2, some (.result r.1))
  | .readv cb failing =>
    match readv failed failing cb s with
    | none => (s, none)
    | some r => (r.2, some (.result r.1))
  | .zeroCopyWriteNext content failing =>
    match writeNext failed failing content s with
    | none => (s, none)
    | some r => (r.2, some (.region r.1))
  | .zeroCopyWriteBackup len => (zeroCopyWriteBackup len s, some .done)

end

/-! ## The log and its writer -/

variable {C : Type*} {cacheSize : ℕ}

/-- The bytes that can be read. -/
def readable (s : PagedLog C cacheSize) : List UInt8 := load s.file.data 0 s.available

/-- Where the next byte goes, if it goes into a page. -/
def nextByte (s : PagedLog C cacheSize) : Option ℕ := Faulty.nextByte s.writeBuf

/-- The writer is in its page, and the next byte goes behind the last one that is counted. -/
structure InPlace (s : PagedLog C cacheSize) : Prop where
  placed : Faulty.Placed s.writeBuf
  tell_eq : s.writeBuf.tell = s.available

/-- The condition on a request. A `Push` is refused before its first byte or not at all; no mapping
fails; a region has a length that is an `int`; what is given back was written to the page that is
still mapped. -/
def Sound (s : PagedLog C cacheSize) : Append → Prop
  | .push l failing =>
    (∀ k, Faulty.room s.writeBuf + k * s.pageSize < l.length →
      Faulty.Allocates s.writeBuf k (failing k)) ∨ Faulty.Refused s.writeBuf (failing 0)
  | .readv _ failing => s.writeBuf.isFull = true → ¬ Faulty.MapFails s.writeBuf 0 failing
  | .zeroCopyWriteNext _ failing =>
    (s.writeBuf.isFull = true → ¬ Faulty.MapFails s.writeBuf 0 failing) ∧
      (Faulty.Refused s.writeBuf failing ∨ Faulty.regionLen s.writeBuf < 2 ^ 31)
  | .zeroCopyWriteBackup len =>
    len = 0 ∨ Faulty.TakesBack len s.writeBuf

theorem InPlace.nextByte_eq {s : PagedLog C cacheSize} (h : InPlace s) :
    nextByte s = some s.available := by
  rw [nextByte, h.placed.nextByte_eq, h.tell_eq]

theorem inPlace_new {pageSize : ℕ} (hpage : 0 < pageSize) {offset : ℕ} (hoffset : offset < 2 ^ 63)
    (anonymous : Bool) (file : MappedFile) (cache : C) :
    InPlace (PagedLog.new pageSize hpage offset anonymous file cache : PagedLog C cacheSize) :=
  ⟨⟨rfl, rfl, Nat.zero_le _, fun page hnone ↦ absurd hnone.symm (Option.some_ne_none page),
    hoffset⟩, rfl⟩

variable {s : PagedLog C cacheSize}

/-- A page holds a byte at least, so there are no more allocations than bytes. -/
instance (a : Append) : Decidable (Sound s a) :=
  match a with
  | .push l failing =>
    have hbound : (∀ k < l.length, Faulty.room s.writeBuf + k * s.pageSize < l.length →
        Faulty.Allocates s.writeBuf k (failing k)) ↔
        ∀ k, Faulty.room s.writeBuf + k * s.pageSize < l.length →
          Faulty.Allocates s.writeBuf k (failing k) := by
      constructor
      · intro h k hk
        have hle := Nat.le_mul_of_pos_right k s.writeBuf.pageSize_pos
        refine h k ?_ hk
        rw [PagedLog.pageSize] at hk
        omega
      · intro h k _ hk
        exact h k hk
    @instDecidableOr _ _ (decidable_of_iff _ hbound) inferInstance
  | .readv _ _ => inferInstanceAs (Decidable (_ → _))
  | .zeroCopyWriteNext _ _ => inferInstanceAs (Decidable (_ ∧ _))
  | .zeroCopyWriteBackup _ => inferInstanceAs (Decidable (_ ∨ _))

/-! ## `ZeroCopyWriteBackup` -/

theorem zeroCopyWriteBackup_zero (h : InPlace s) : InPlace (zeroCopyWriteBackup 0 s) := by
  have hlt := h.placed.tell_lt
  have hplace := h.tell_eq
  have havail : (zeroCopyWriteBackup 0 s).available = s.available := by
    rw [zeroCopyWriteBackup, Int32.toInt_zero, Int.sub_zero]
    exact CInt.toUnsigned_natCast (by omega)
  have hwriter : (zeroCopyWriteBackup 0 s).writeBuf = s.writeBuf := by
    rw [zeroCopyWriteBackup, Faulty.backup_zero]
  exact ⟨by rw [hwriter]; exact h.placed, by rw [hwriter, havail, hplace]⟩

theorem zeroCopyWriteBackup_cases (h : InPlace s) (len : Int32) :
    (Sound s (.zeroCopyWriteBackup len) ∧ InPlace (zeroCopyWriteBackup len s)) ∨
    (¬ Sound s (.zeroCopyWriteBackup len) ∧
      nextByte (zeroCopyWriteBackup len s) ≠ some (zeroCopyWriteBackup len s).available) := by
  by_cases hzero : len = 0
  · rw [hzero]
    exact Or.inl ⟨Or.inl rfl, zeroCopyWriteBackup_zero h⟩
  have hlt := h.placed.tell_lt
  have hplace := h.tell_eq
  have hle := Int32.le_toInt len
  have hge := Int32.toInt_lt len
  have havail : (zeroCopyWriteBackup len s).available
      = CInt.toUnsigned 64 (s.available - len.toInt) := rfl
  rcases Faulty.backup_cases h.placed len with ⟨htakes, hplaced, htell⟩ | ⟨hnot, hnext⟩
  · left
    refine ⟨Or.inr htakes, hplaced, ?_⟩
    have hend := hplaced.tell_lt
    rw [havail, CInt.toUnsigned_of_mem (by omega) (by omega), ← hplace, ← htell]
    exact (Int.toNat_natCast _).symm
  · right
    have hne : len.toInt ≠ 0 := fun h0 ↦ hzero (Int32.toInt_inj.mp h0)
    refine ⟨?_, ?_⟩
    · rintro (hlen | htakes)
      · exact hzero hlen
      · exact hnot htakes
    · intro heq
      rcases hnext with hnone | hsome
      · exact Option.some_ne_none _ (heq.symm.trans hnone)
      · have htell := Option.some.inj (hsome.symm.trans heq)
        rw [havail, CInt.toUnsigned, hplace] at htell
        omega

variable [ReadCache C] {g : C → ℕ → C}

/-- The process is still there after the call, the next byte goes where the log ends, and a `Push`
that fails leaves the log and the place of the next byte as they were. -/
def KeepsPlace (failed : C → ℕ → C) (s : PagedLog C cacheSize) (a : Append) : Prop :=
  (step failed s a).2 ≠ none ∧
  nextByte (step failed s a).1 = some (step failed s a).1.available ∧
  ∀ l failing ret, a = .push l failing → (step failed s a).2 = some (.result ret) → ret ≠ 0 →
    readable (step failed s a).1 = readable s ∧ nextByte (step failed s a).1 = nextByte s

/-! ## `Push` -/

theorem map_push (failing : ℕ → Option Faulty.Fault) (l : List UInt8) :
    (push g failing l s).map (fun r ↦ (r.1, (r.2.writeBuf, r.2.cache)))
      = Faulty.push ReadCache.addPage g failing l (s.writeBuf, s.cache) := by
  rw [push, Option.map_map]
  exact Option.map_id'

theorem push_of_ret {failing : ℕ → Option Faulty.Fault} {l : List UInt8} {s' : PagedLog C cacheSize}
    (h : push g failing l s = some (0, s')) : s.push l = (0, s') := by
  obtain ⟨⟨ret, r⟩, hr, heq⟩ := Option.map_eq_some_iff.mp h
  obtain ⟨rfl, rfl⟩ := Prod.mk.inj heq
  rw [PagedLog.push, Faulty.push_of_ret hr]
  rfl

/-- A `Push` that is refused has written what fitted before, and nothing of it is counted. -/
theorem push_cases (h : InPlace s) (failing : ℕ → Option Faulty.Fault) (l : List UInt8) :
    (Sound s (.push l failing) ∧ ∃ r, push g failing l s = some r ∧ InPlace r.2 ∧
      (r.1 ≠ 0 → readable r.2 = readable s ∧ r.2.available = s.available)) ∨
    (¬ Sound s (.push l failing) ∧
      ∀ r, push g failing l s = some r → nextByte r.2 ≠ some r.2.available) := by
  have hspec := Faulty.push_spec (f := ReadCache.addPage) (g := g) (s := (s.writeBuf, s.cache))
    h.placed failing l
  have hpage := s.writeBuf.pageSize_pos
  rw [push]
  generalize Faulty.push ReadCache.addPage g failing l (s.writeBuf, s.cache) = p at hspec ⊢
  -- only what the `Push` stores before its first allocation is left to it
  have hfirst {k : ℕ} (hlt : Faulty.room s.writeBuf + k * s.writeBuf.pageSize < l.length)
      (hfail : ¬ Faulty.Allocates s.writeBuf k (failing k))
      (hbefore : ∀ j < k, Faulty.Allocates s.writeBuf j (failing j))
      (hsound : Sound s (.push l failing)) : k = 0 ∧ Faulty.Refused s.writeBuf (failing 0) := by
    rcases hsound with hall | hrefused
    · exact absurd (hall k hlt) hfail
    · refine ⟨?_, hrefused⟩
      by_contra hk
      exact hrefused.2.1 (hbefore 0 (Nat.pos_of_ne_zero hk))
  cases hspec with
  | written placed ext tell_eq all =>
    left
    refine ⟨Or.inl all, _, rfl, ⟨placed, ?_⟩, fun hne ↦ absurd rfl hne⟩
    simp only [if_true]
    rw [tell_eq, h.tell_eq]
  | refused ret placed ext k tell_eq lt fails not_map before =>
    by_cases hk : Faulty.room s.writeBuf + k * s.writeBuf.pageSize = 0
    · left
      have hzero : k = 0 := by
        apply Nat.eq_zero_of_not_pos
        intro hpos
        have hle := Nat.le_mul_of_pos_left s.writeBuf.pageSize hpos
        omega
      have hfull := h.placed.room_eq_zero_iff.mp (by omega)
      rw [hzero] at fails not_map
      refine ⟨Or.inr ⟨hfull, fails, not_map⟩, _, rfl, ⟨placed, ?_⟩, fun _ ↦ ⟨?_, if_neg ret⟩⟩
      · simp only [if_neg ret]
        rw [tell_eq, hk, Nat.add_zero, h.tell_eq]
      · simp only [readable, if_neg ret]
        exact ext.load_eq (Nat.le_of_eq h.tell_eq.symm)
    · right
      refine ⟨fun hsound ↦ ?_, fun r hr ↦ ?_⟩
      · obtain ⟨hzero, hfull, -⟩ := hfirst lt fails before hsound
        rw [hzero, h.placed.room_eq_zero_iff.mpr hfull] at hk
        exact hk (by omega)
      · obtain rfl := Option.some.inj hr
        simp only [nextByte, placed.nextByte_eq, if_neg ret]
        intro heq
        have htell := Option.some.inj heq
        have hplace := h.tell_eq
        simp only at tell_eq
        omega
  | ended k lt map before =>
    right
    refine ⟨fun hsound ↦ ?_, fun r hr ↦ absurd hr.symm (Option.some_ne_none r)⟩
    obtain ⟨rfl, -, -, hmap⟩ := hfirst lt map.not_allocates before hsound
    exact hmap map

theorem push_keepsPlace_iff (h : InPlace s) (failing : ℕ → Option Faulty.Fault) (l : List UInt8) :
    KeepsPlace g s (.push l failing) ↔ Sound s (.push l failing) := by
  rw [KeepsPlace, step]
  rcases push_cases (g := g) h failing l with ⟨hsound, r, hr, hin, hsame⟩ | ⟨hnot, hne⟩
  · refine iff_of_true ⟨?_, ?_, ?_⟩ hsound
    · rw [hr]
      exact Option.some_ne_none _
    · rw [hr]
      exact hin.nextByte_eq
    · rintro - - ret - hret hne
      rw [hr] at hret ⊢
      obtain rfl := LogAnswer.result.inj (Option.some.inj hret)
      obtain ⟨hread, havail⟩ := hsame hne
      refine ⟨hread, ?_⟩
      rw [h.nextByte_eq, ← havail]
      exact hin.nextByte_eq
  · refine iff_of_false (fun hkeeps ↦ ?_) hnot
    cases hr : push g failing l s with
    | none =>
      rw [hr] at hkeeps
      exact hkeeps.1 rfl
    | some r =>
      rw [hr] at hkeeps
      exact hne r hr hkeeps.2.1

/-! ## The other requests -/

theorem readv_cases (h : InPlace s) (failing : Option Faulty.Fault) (cb : Reader UInt8) :
    (Sound s (.readv cb failing) ∧ ∃ r, readv g failing cb s = some r ∧ InPlace r.2) ∨
    (¬ Sound s (.readv cb failing) ∧ ∀ r, readv g failing cb s = some r → nextByte r.2 = none) := by
  have htell' : s.writeBuf.tell = s.available := h.tell_eq
  by_cases hsound : Sound s (.readv cb failing)
  · obtain ⟨r, hr, hplaced, htell⟩ := Faulty.readv_spec (f := ReadCache.addPage) (g := g)
      (s := (s.writeBuf, s.cache)) h.placed hsound cb
    refine Or.inl ⟨hsound, _, by rw [readv, hr]; rfl, hplaced, htell.trans ?_⟩
    simp only [htell']
    split_ifs with hret
    · rfl
    · omega
  · right
    obtain ⟨hfull, hmap⟩ := Classical.not_imp.mp hsound
    refine ⟨hsound, fun r hr ↦ ?_⟩
    obtain ⟨r', hr', rfl⟩ := Option.map_eq_some_iff.mp hr
    exact Faulty.readv_of_mapFails (s := (s.writeBuf, s.cache)) h.placed hfull
      (not_not.mp hmap) cb hr'

/-- A number of bytes is counted by its value as an `int`. -/
theorem toUnsigned_add_toInt_iff {a n : ℕ} (h : a + n < 2 ^ 63) :
    CInt.toUnsigned 64 (a + CInt.toInt n) = a + n ↔ n < 2 ^ 31 := by
  constructor
  · intro heq
    have hlt := CInt.toInt_lt n
    have hle := CInt.le_toInt n
    rw [CInt.toUnsigned] at heq
    omega
  · intro hn
    rw [CInt.toInt_of_mem (by omega) (by omega)]
    exact CInt.toUnsigned_natCast (n := a + n) (by omega)

theorem zeroCopyWriteNext_cases (h : InPlace s) {failing : Option Faulty.Fault}
    (hmap : s.writeBuf.isFull = true → ¬ Faulty.MapFails s.writeBuf 0 failing)
    (content : ℕ → UInt8) : (Sound s (.zeroCopyWriteNext content failing) ∧
      InPlace (zeroCopyWriteNext g failing s).2) ∨
    (¬ Sound s (.zeroCopyWriteNext content failing) ∧
      nextByte (zeroCopyWriteNext g failing s).2
        ≠ some (zeroCopyWriteNext g failing s).2.available) := by
  obtain ⟨hplaced, ⟨hfail, hnone, htell⟩ | ⟨hok, hsome, htell⟩⟩ := Faulty.zeroCopyNext_cases
    (f := ReadCache.addPage) (g := g) (s := (s.writeBuf, s.cache)) h.placed hmap
  · left
    rw [Classical.not_imp] at hfail
    refine ⟨⟨hmap, Or.inl ⟨hfail.1, hfail.2, hmap hfail.1⟩⟩, hplaced, htell.trans ?_⟩
    rw [zeroCopyWriteNext]
    simp only [hnone]
    exact h.tell_eq
  · have hlt := hplaced.tell_lt
    have hplace := h.tell_eq
    simp only at htell
    have havail : (zeroCopyWriteNext g failing s).2.available
        = CInt.toUnsigned 64 (s.available + CInt.toInt (Faulty.regionLen s.writeBuf)) := by
      rw [zeroCopyWriteNext]
      simp only [hsome]
    have hiff := toUnsigned_add_toInt_iff (a := s.available) (n := Faulty.regionLen s.writeBuf)
      (by omega)
    by_cases hlen : Faulty.regionLen s.writeBuf < 2 ^ 31
    · left
      refine ⟨⟨hmap, Or.inr hlen⟩, hplaced, ?_⟩
      rw [havail, hiff.mpr hlen, ← hplace]
      exact htell
    · right
      refine ⟨?_, fun hnext ↦ hlen (hiff.mp ?_)⟩
      · rintro ⟨-, ⟨hfull, hfail, -⟩ | hshort⟩
        · exact hfail (hok hfull)
        · exact hlen hshort
      · rw [nextByte, havail] at hnext
        have heq := Option.some.inj (hplaced.nextByte_eq.symm.trans hnext)
        omega

theorem writeNext_place (h : InPlace s) {failing : Option Faulty.Fault}
    (hmap : s.writeBuf.isFull = true → ¬ Faulty.MapFails s.writeBuf 0 failing)
    (content : ℕ → UInt8) : ∃ r, writeNext g failing content s = some r ∧
      (InPlace r.2 ↔ InPlace (zeroCopyWriteNext g failing s).2) ∧
      nextByte r.2 = nextByte (zeroCopyWriteNext g failing s).2 ∧
      r.2.available = (zeroCopyWriteNext g failing s).2.available := by
  have hplaced := (Faulty.zeroCopyNext_cases (f := ReadCache.addPage) (g := g)
    (s := (s.writeBuf, s.cache)) h.placed hmap).1
  have hmapped : (zeroCopyWriteNext g failing s).2.writeBuf.mapFailed = false := hplaced.mapped
  rw [writeNext]
  split
  · exact ⟨_, rfl, Iff.rfl, rfl, rfl⟩
  · rw [hmapped, if_neg Bool.false_ne_true]
    refine ⟨_, rfl, ⟨?_, ?_⟩, rfl, rfl⟩
    · rintro ⟨⟨hw, hm, hpos, hpage, hlt⟩, htell⟩
      exact ⟨⟨hw, hm, hpos, hpage, hlt⟩, htell⟩
    · rintro ⟨⟨hw, hm, hpos, hpage, hlt⟩, htell⟩
      exact ⟨⟨hw, hm, hpos, hpage, hlt⟩, htell⟩

theorem writeNext_of_mapFails (h : InPlace s) (hfull : s.writeBuf.isFull = true)
    {failing : Option Faulty.Fault} (hmap : Faulty.MapFails s.writeBuf 0 failing)
    (content : ℕ → UInt8) : writeNext g failing content s = none := by
  obtain ⟨hsome, hmapped, -⟩ := Faulty.zeroCopyNext_of_mapFails (f := ReadCache.addPage) (g := g)
    (s := (s.writeBuf, s.cache)) h.placed hfull hmap
  have hregion : (zeroCopyWriteNext g failing s).1
      = some (s.writeBuf.tell, CInt.toInt (Faulty.regionLen s.writeBuf)) := hsome
  have hno : (zeroCopyWriteNext g failing s).2.writeBuf.mapFailed = true := hmapped
  rw [writeNext]
  simp only [hregion, hno, if_true]

/-! ## Requests in which nothing fails -/

/-- The request itself. -/
def request : Append → LogRequest
  | .push l _ => .push l
  | .readv cb _ => .readv cb
  | .zeroCopyWriteNext content _ => .zeroCopyWriteNext content
  | .zeroCopyWriteBackup len => .zeroCopyWriteBackup len.toInt.toNat

/-- Each page that the request needs is allocated, and no negative number of bytes is given back. -/
def Unfailing (s : PagedLog C cacheSize) : Append → Prop
  | .push l failing => ∀ k, Faulty.room s.writeBuf + k * s.pageSize < l.length →
      Faulty.Allocates s.writeBuf k (failing k)
  | .readv _ failing => s.writeBuf.isFull = true → Faulty.Allocates s.writeBuf 0 failing
  | .zeroCopyWriteNext _ failing => s.writeBuf.isFull = true → Faulty.Allocates s.writeBuf 0 failing
  | .zeroCopyWriteBackup len => 0 ≤ len.toInt

/-- **The log whose pages do not fail** is `PagedLog`. -/
theorem step_eq (h : InPlace s) (a : Append) (hok : Unfailing s a) :
    step g s a = ((s.step (request a)).1, some (s.step (request a)).2) := by
  cases a with
  | push l failing =>
    have hspec := Faulty.push_spec (f := ReadCache.addPage) (g := g) (s := (s.writeBuf, s.cache))
      h.placed failing l
    cases hr : Faulty.push ReadCache.addPage g failing l (s.writeBuf, s.cache) with
    | none =>
      rw [hr] at hspec
      obtain ⟨k, hlt, hmap, -⟩ : ∃ k, Faulty.room s.writeBuf + k * s.pageSize < l.length ∧
          Faulty.MapFails s.writeBuf k (failing k) ∧ True := by
        cases hspec with
        | ended k lt map before => exact ⟨k, lt, map, trivial⟩
      exact absurd (hok k hlt) hmap.not_allocates
    | some r =>
      rw [hr] at hspec
      have hret : r.1 = 0 := by
        cases hspec with
        | written => rfl
        | refused ret placed ext k tell_eq lt fails => exact absurd (hok k lt) fails
      have hpush : push g failing l s
          = some (0, ⟨r.2.1, r.2.2, s.available + l.length⟩) := by
        rw [push, hr, Option.map_some, hret, if_pos rfl]
      simp only [step, hpush, request, PagedLog.step, push_of_ret hpush]
  | readv cb failing =>
    obtain ⟨hret, hmapped⟩ := Faulty.makeRoom_of_allocates (f := ReadCache.addPage) (g := g)
      (s := (s.writeBuf, s.cache)) h.placed hok
    simp only [step, readv, Faulty.readv_of_ret hret hmapped, Option.map_some, request,
      PagedLog.step, PagedLog.readv]
    rfl
  | zeroCopyWriteNext content failing =>
    obtain ⟨hret, hmapped⟩ := Faulty.makeRoom_of_allocates (f := ReadCache.addPage) (g := g)
      (s := (s.writeBuf, s.cache)) h.placed hok
    have hnext : zeroCopyWriteNext g failing s = s.zeroCopyWriteNext := by
      rw [zeroCopyWriteNext, Faulty.zeroCopyNext_of_ret hret hmapped]
      rfl
    have hmemory : s.zeroCopyWriteNext.2.writeBuf.mapFailed = false := by
      rw [← hnext]
      exact (Faulty.zeroCopyNext_cases (f := ReadCache.addPage) (g := g)
        (s := (s.writeBuf, s.cache)) h.placed (Faulty.not_mapFails hok)).1.mapped
    have hwrite : writeNext g failing content s = some (s.writeNext content) := by
      simp only [writeNext, hnext, PagedLog.writeNext]
      cases s.zeroCopyWriteNext.1 with
      | none => rfl
      | some region => simp only [hmemory, Bool.false_eq_true, if_false]
    rw [step, hwrite]
    rfl
  | zeroCopyWriteBackup len =>
    have hlen : (len.toInt.toNat : ℤ) = len.toInt := Int.toNat_of_nonneg hok
    simp only [step, zeroCopyWriteBackup, Faulty.backup_of_nonneg hok, request, PagedLog.step,
      PagedLog.zeroCopyWriteBackup, hlen]

/-! ## Runs -/

/-- A request keeps the place of the next byte exactly if it meets the condition, and the log is in
place after it if it does. -/
theorem keepsPlace_iff (h : InPlace s) (a : Append) : KeepsPlace g s a ↔ Sound s a := by
  cases a with
  | push l failing => exact push_keepsPlace_iff h failing l
  | readv cb failing =>
    rw [KeepsPlace, step]
    rcases readv_cases (g := g) h failing cb with ⟨hsound, r, hr, hin⟩ | ⟨hnot, hnowhere⟩
    · rw [hr]
      exact iff_of_true ⟨Option.some_ne_none _, hin.nextByte_eq, fun l e ret heq ↦ by cases heq⟩
        hsound
    · refine iff_of_false (fun hkeeps ↦ ?_) hnot
      cases hr : readv g failing cb s with
      | none =>
        rw [hr] at hkeeps
        exact hkeeps.1 rfl
      | some r =>
        rw [hr] at hkeeps
        exact Option.some_ne_none _ (hkeeps.2.1.symm.trans (hnowhere r hr))
  | zeroCopyWriteNext content failing =>
    rw [KeepsPlace, step]
    by_cases hmap : s.writeBuf.isFull = true → ¬ Faulty.MapFails s.writeBuf 0 failing
    · obtain ⟨r, hr, -, hnext, havail⟩ := writeNext_place (g := g) h hmap content
      rw [hr]
      simp only [hnext, havail]
      rcases zeroCopyWriteNext_cases (g := g) h hmap content with ⟨hsound, hin⟩ | ⟨hnot, hne⟩
      · exact iff_of_true ⟨Option.some_ne_none _, hin.nextByte_eq, fun l e ret heq ↦ by cases heq⟩
          hsound
      · exact iff_of_false (fun hkeeps ↦ hne hkeeps.2.1) hnot
    · obtain ⟨hfull, hfails⟩ := Classical.not_imp.mp hmap
      rw [writeNext_of_mapFails h hfull (not_not.mp hfails)]
      exact iff_of_false (fun hkeeps ↦ hkeeps.1 rfl) fun hsound ↦ hmap hsound.1
  | zeroCopyWriteBackup len =>
    rcases zeroCopyWriteBackup_cases h len with ⟨hsound, hin⟩ | ⟨hnot, hne⟩
    · exact iff_of_true ⟨Option.some_ne_none _, hin.nextByte_eq, fun l e ret heq ↦ by cases heq⟩
        hsound
    · exact iff_of_false (fun hkeeps ↦ hne hkeeps.2.1) hnot

theorem InPlace.step (h : InPlace s) (a : Append) (hsound : Sound s a) :
    InPlace (step g s a).1 := by
  cases a with
  | push l failing =>
    rcases push_cases (g := g) h failing l with ⟨-, r, hr, hin, -⟩ | ⟨hnot, -⟩
    · rwa [FaultyLog.step, hr]
    · exact absurd hsound hnot
  | readv cb failing =>
    rcases readv_cases (g := g) h failing cb with ⟨-, r, hr, hin⟩ | ⟨hnot, -⟩
    · rwa [FaultyLog.step, hr]
    · exact absurd hsound hnot
  | zeroCopyWriteNext content failing =>
    obtain ⟨r, hr, hplace, -⟩ := writeNext_place (g := g) h hsound.1 content
    rw [FaultyLog.step, hr]
    rcases zeroCopyWriteNext_cases (g := g) h hsound.1 content with ⟨-, hin⟩ | ⟨hnot, -⟩
    · exact hplace.mpr hin
    · exact absurd hsound hnot
  | zeroCopyWriteBackup len =>
    rcases zeroCopyWriteBackup_cases h len with ⟨-, hin⟩ | ⟨hnot, -⟩
    · exact hin
    · exact absurd hsound hnot

/-- **When failed appends shift a log.** After every call the next byte goes where the log ends, and
a `Push` that fails changes nothing, exactly in the runs whose requests all meet the condition. -/
theorem run_keepsPlace_iff {pageSize : ℕ} (hpage : 0 < pageSize) {offset : ℕ}
    (hoffset : offset < 2 ^ 63)
    (anonymous : Bool) (file : MappedFile) (cache : C) (requests : List Append) :
    Run.Steps (step g) (KeepsPlace g)
        (PagedLog.new pageSize hpage offset anonymous file cache : PagedLog C cacheSize) requests ↔
      Run.Steps (step g) Sound
        (PagedLog.new pageSize hpage offset anonymous file cache : PagedLog C cacheSize) requests :=
  Run.steps_iff_of_invariant (P := InPlace) (fun _ a h hsound ↦ h.step a hsound)
    (fun _ a h ↦ keepsPlace_iff h a) (inPlace_new hpage hoffset anonymous file cache)

/-- A page is filled, there is no seeking to the next one at first, and of the region in it two
bytes are given back. -/
theorem run_keepsPlace_retry :
    Run.Steps (step fun c _ ↦ c) (KeepsPlace fun c _ ↦ c)
      (PagedLog.new 4096 (by decide) 0 false MappedFile.empty (LRUCache.new 2 4096) :
        PagedLog (LRUCache 2) 2)
      [.zeroCopyWriteNext (fun _ ↦ 65) none, .push [66] (fun _ ↦ some .lSeekSet),
        .zeroCopyWriteNext (fun _ ↦ 66) none, .zeroCopyWriteBackup 2,
        .push [67] (fun _ ↦ some .truncate)] :=
  (run_keepsPlace_iff (by decide) (by decide) false MappedFile.empty _ _).mpr (by decide +kernel)

/-- A line goes over the end of a page, and the file cannot be made longer: the two bytes that are
in the page stay there and are not counted. -/
theorem not_run_keepsPlace_of_truncate :
    ¬ Run.Steps (step fun c _ ↦ c) (KeepsPlace fun c _ ↦ c)
      (PagedLog.new 4096 (by decide) 0 false MappedFile.empty (LRUCache.new 2 4096) :
        PagedLog (LRUCache 2) 2)
      [.zeroCopyWriteNext (fun _ ↦ 65) none, .zeroCopyWriteBackup 2,
        .push [65, 66, 67, 68, 10] fun _ ↦ some .truncate] := by
  rintro ⟨-, -, ⟨-, hplace, -⟩, -⟩
  exact absurd hplace (by decide +kernel)

end FaultyLog

end Coypu
