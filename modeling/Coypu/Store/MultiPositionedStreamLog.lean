import Coypu.Library.Run
import Coypu.Store.LogRWStream

/-!
# The log with a position for each descriptor

`MultiPositionedStreamLog` keeps an offset for each descriptor in a vector; `UINT64_MAX` in a slot
says that the descriptor has none. `Mark` puts any offset there, as it comes from a client, and the
bytes pending for a descriptor are an unsigned difference.

A position never passes the end of the log exactly if no mark does (`run_behind_iff`).
-/

set_option autoImplicit false

namespace Coypu

open FlatMemory Transport

structure MultiPositionedStreamLog (cacheSize : ℕ) where
  stream : LogRWStream cacheSize
  curOffsets : List ℕ

namespace MultiPositionedStreamLog

variable {cacheSize : ℕ} (m : MultiPositionedStreamLog cacheSize)

/-- `UINT64_MAX`. -/
def unset : ℕ := 2 ^ 64 - 1

def new (stream : LogRWStream cacheSize) : MultiPositionedStreamLog cacheSize := ⟨stream, []⟩

/-- The offset in the slot of a descriptor, if there is a slot. -/
def curOffset (fd : ℕ) : ℕ := m.curOffsets.getD fd unset

def setOffset (fd offset : ℕ) : MultiPositionedStreamLog cacheSize :=
  { m with curOffsets := m.curOffsets.set fd offset }

def push (l : List UInt8) (limit : Option ℕ) : MultiPositionedStreamLog cacheSize :=
  { m with stream := (m.stream.push l limit).2 }

/-- `Register`: the vector grows up to the slot if it has to. -/
def register (fd offset : ℕ) : MultiPositionedStreamLog cacheSize :=
  { m with
    curOffsets :=
      (m.curOffsets ++ List.replicate (fd + 1 - m.curOffsets.length) unset).set fd offset }

def mark (fd offset : ℕ) : Bool × MultiPositionedStreamLog cacheSize :=
  if fd < m.curOffsets.length then (true, m.setOffset fd offset) else (false, m)

def markEnd (fd : ℕ) : Bool × MultiPositionedStreamLog cacheSize :=
  if fd < m.curOffsets.length then (true, m.setOffset fd m.stream.available) else (false, m)

def unregister (fd : ℕ) : ℤ × MultiPositionedStreamLog cacheSize :=
  if m.curOffsets.length ≤ fd then (-3, m) else (0, m.setOffset fd unset)

/-- `Available` of a descriptor. -/
def availableAt (fd : ℕ) : ℕ :=
  if m.curOffsets.length ≤ fd then 0
  else if m.curOffset fd = unset then 0
  else CInt.toUnsigned 64 (m.stream.available - m.curOffset fd)

/-- `IsEmpty` of a descriptor. -/
def isEmptyAt (fd : ℕ) : Bool :=
  if m.curOffsets.length ≤ fd then true
  else if m.curOffset fd = unset then true
  else decide (CInt.toUnsigned 64 (m.stream.available - m.curOffset fd) = 0)

/-- `Writev`: its result, the segments it offered, and the log with the position moved. -/
def writev (size fd : ℕ) (find : ℕ → Bool) (cb : Writer) :
    ℤ × List Region × MultiPositionedStreamLog cacheSize :=
  if m.curOffsets.length ≤ fd then (-3, [], m)
  else if m.curOffset fd = unset then (0, [], m)
  else
    let r := m.stream.writev find (m.curOffset fd) size cb
    if 0 < r.1 then
      (r.1, r.2, m.setOffset fd (CInt.toUnsigned 64 (m.curOffset fd + r.1)))
    else (r.1, r.2, m)

/-! ## The positions after an operation -/

variable {m}

theorem curOffset_of_le {fd : ℕ} (h : m.curOffsets.length ≤ fd) : m.curOffset fd = unset :=
  List.getD_eq_default _ _ h

theorem lt_of_curOffset_ne {fd : ℕ} (h : m.curOffset fd ≠ unset) : fd < m.curOffsets.length := by
  by_contra hle
  exact h (curOffset_of_le (Nat.le_of_not_lt hle))

theorem curOffset_setOffset {fd g offset : ℕ} (hg : g < m.curOffsets.length) :
    (m.setOffset g offset).curOffset fd = if fd = g then offset else m.curOffset fd := by
  unfold curOffset setOffset
  by_cases heq : fd = g
  · rw [if_pos heq, heq, List.getD_eq_getElem _ _ (by simpa using hg), List.getElem_set_self]
  · rw [if_neg heq, List.getD_eq_getElem?_getD, List.getElem?_set_ne (Ne.symm heq),
      ← List.getD_eq_getElem?_getD]

theorem curOffset_register {fd g offset : ℕ} :
    (m.register g offset).curOffset fd = if fd = g then offset else m.curOffset fd := by
  unfold curOffset register
  by_cases heq : fd = g
  · rw [if_pos heq, heq, List.getD_eq_getElem _ _ (by simp; omega), List.getElem_set_self]
  · rw [if_neg heq, List.getD_eq_getElem?_getD, List.getElem?_set_ne (Ne.symm heq),
      List.getD_eq_getElem?_getD, List.getElem?_append]
    split_ifs with hlt
    · rfl
    · rw [List.getElem?_replicate, List.getElem?_eq_none (by omega)]
      split_ifs <;> rfl

@[simp] theorem curOffset_push {fd : ℕ} (l : List UInt8) (limit : Option ℕ) :
    (m.push l limit).curOffset fd = m.curOffset fd := rfl

end MultiPositionedStreamLog

/-! ## The operations as one -/

/-- The operations on the log. A new descriptor is registered without a position, an offset to mark
is any 64-bit integer, and `Writev` is called with what is available for the descriptor. -/
inductive LogOp where
  | push (l : List UInt8) (limit : Option ℕ)
  | register (fd : ℕ)
  | mark (fd : ℕ) (offset : UInt64)
  | markEnd (fd : ℕ)
  | unregister (fd : ℕ)
  | writev (fd : ℕ) (find : ℕ → Bool) (cb : Writer)

/-- What a step offered to the transport, and what the transport took of it. -/
structure Offer where
  regions : List Region
  ret : ℤ

namespace MultiPositionedStreamLog

variable {cacheSize : ℕ} {m : MultiPositionedStreamLog cacheSize}

def step (m : MultiPositionedStreamLog cacheSize) :
    LogOp → MultiPositionedStreamLog cacheSize × Offer
  | .push l limit => (m.push l limit, ⟨[], 0⟩)
  | .register fd => (m.register fd unset, ⟨[], 0⟩)
  | .mark fd offset => ((m.mark fd offset.toNat).2, ⟨[], 0⟩)
  | .markEnd fd => ((m.markEnd fd).2, ⟨[], 0⟩)
  | .unregister fd => ((m.unregister fd).2, ⟨[], 0⟩)
  | .writev fd find cb =>
    let r := m.writev (m.availableAt fd) fd find cb
    (r.2.2, ⟨r.2.1, r.1⟩)

/-- No position is behind the end of the log, and the number of bytes pending is the distance. -/
def Behind (m : MultiPositionedStreamLog cacheSize) : Prop :=
  ∀ fd, m.curOffset fd ≠ unset → m.curOffset fd ≤ m.stream.available ∧
    m.curOffset fd + m.availableAt fd = m.stream.available

/-- The step leaves all positions behind the end and offers bytes of the log only. -/
def NeverPast (m : MultiPositionedStreamLog cacheSize) (op : LogOp) : Prop :=
  (m.step op).1.Behind ∧ ∀ r ∈ (m.step op).2.regions, r.Inside m.stream.available

/-- A mark is at most the end of the log, or takes the position away. -/
def MarksWritten (m : MultiPositionedStreamLog cacheSize) : LogOp → Prop
  | .mark fd offset => fd < m.curOffsets.length →
      offset.toNat ≤ m.stream.available ∨ offset.toNat = unset
  | _ => True

theorem available_lt_unset : m.stream.available < unset := by
  have h₁ := m.stream.available_le
  have h₂ := m.stream.position_lt
  unfold unset
  omega

theorem availableAt_eq {fd : ℕ} (hset : m.curOffset fd ≠ unset)
    (hle : m.curOffset fd ≤ m.stream.available) :
    m.availableAt fd = m.stream.available - m.curOffset fd := by
  have hlt := lt_of_curOffset_ne hset
  have hbound := available_lt_unset (m := m)
  unfold unset at hbound
  rw [availableAt, if_neg (by omega), if_neg hset, CInt.toUnsigned_of_mem (by omega) (by omega)]
  omega

theorem behind_of_le (h : ∀ fd, m.curOffset fd ≠ unset → m.curOffset fd ≤ m.stream.available) :
    m.Behind := by
  intro fd hset
  have hle := h fd hset
  rw [availableAt_eq hset hle]
  omega

theorem Behind.setOffset (h : m.Behind) {fd offset : ℕ} (hfd : fd < m.curOffsets.length)
    (hoffset : offset ≤ m.stream.available ∨ offset = unset) : (m.setOffset fd offset).Behind := by
  refine behind_of_le fun g hset ↦ ?_
  rw [curOffset_setOffset hfd] at hset ⊢
  split_ifs at hset ⊢
  · exact hoffset.resolve_right hset
  · exact (h g hset).1

/-- What `writev` can do: nothing, or offer the segments of a range from the position on and move
the position over what was taken. -/
theorem writev_cases (m : MultiPositionedStreamLog cacheSize) (size fd : ℕ) (find : ℕ → Bool)
    (cb : Writer) :
    ((m.writev size fd find cb).2.2 = m ∧ (m.writev size fd find cb).2.1 = []
      ∧ (m.writev size fd find cb).1 ≤ 0) ∨
    ∃ v, m.curOffset fd ≠ unset ∧ m.stream.writevRegions find (m.curOffset fd) size = some v ∧
      (m.writev size fd find cb).2.1 = v ∧
      (m.writev size fd find cb).1 = cb.run (v.map Region.len) ∧
      (m.writev size fd find cb).2.2 = if 0 < cb.run (v.map Region.len)
        then m.setOffset fd (CInt.toUnsigned 64 (m.curOffset fd + cb.run (v.map Region.len)))
        else m := by
  unfold writev LogRWStream.writev
  by_cases hlen : m.curOffsets.length ≤ fd
  · rw [if_pos hlen]
    exact Or.inl ⟨rfl, rfl, by simp⟩
  by_cases hset : m.curOffset fd = unset
  · rw [if_neg hlen, if_pos hset]
    exact Or.inl ⟨rfl, rfl, Int.le_refl 0⟩
  rw [if_neg hlen, if_neg hset]
  cases hv : m.stream.writevRegions find (m.curOffset fd) size with
  | none => exact Or.inl ⟨rfl, rfl, by simp⟩
  | some v =>
    refine Or.inr ⟨v, hset, rfl, ?_⟩
    simp only
    split_ifs <;> exact ⟨rfl, rfl, rfl⟩

/-- A move over bytes of the log is not wrapped. -/
theorem moved_eq (m : MultiPositionedStreamLog cacheSize) {cur : ℕ} {r : ℤ} (hpos : 0 < r)
    (hle : cur + r ≤ m.stream.available) : CInt.toUnsigned 64 (cur + r) = cur + r.toNat := by
  have hbound := available_lt_unset (m := m)
  unfold unset at hbound
  rw [CInt.toUnsigned_of_mem (by omega) (by omega)]
  omega

/-- The bytes taken from the segments of a `writev` are the next ones of the log. -/
theorem taken_eq {find : ℕ → Bool} {cb : Writer} {fd : ℕ} {v : List Region}
    (hpages : m.curOffset fd + min (m.availableAt fd) (cacheSize * m.stream.pageSize)
      ≤ 2 ^ 32 * m.stream.pageSize)
    (hv : m.stream.writevRegions find (m.curOffset fd) (m.availableAt fd) = some v) :
    (gather m.stream.data v).take (cb.run (v.map Region.len)).toNat
      = load m.stream.data (m.curOffset fd) (cb.run (v.map Region.len)).toNat := by
  have hrun := cb.run_le (v.map Region.len)
  rw [(LogRWStream.writevRegions_tiles hpages hv).gather, take_load _ (by omega)]

/-- A `writev` takes the next bytes of the log and moves the position over them. -/
theorem writev_taken {fd : ℕ} (hset : m.curOffset fd ≠ unset)
    (hle : m.curOffset fd ≤ m.stream.available)
    (hpages : m.curOffset fd + min (m.availableAt fd) (cacheSize * m.stream.pageSize)
      ≤ 2 ^ 32 * m.stream.pageSize) (find : ℕ → Bool) (cb : Writer) :
    ∃ k, (gather m.stream.data (m.writev (m.availableAt fd) fd find cb).2.1).take
        (m.writev (m.availableAt fd) fd find cb).1.toNat = load m.stream.data (m.curOffset fd) k ∧
      m.curOffset fd + k ≤ m.stream.available ∧
      (m.writev (m.availableAt fd) fd find cb).2.2.stream = m.stream ∧
      (m.writev (m.availableAt fd) fd find cb).2.2.curOffset fd = m.curOffset fd + k := by
  rcases writev_cases m (m.availableAt fd) fd find cb with
    ⟨hm, hnil, -⟩ | ⟨v, -, hv, hregions, hret, hm⟩
  · rw [hm, hnil]
    exact ⟨0, by simp, hle, rfl, rfl⟩
  refine ⟨(cb.run (v.map Region.len)).toNat, ?_, ?_, ?_, ?_⟩
  · rw [hregions, hret, taken_eq hpages hv]
  all_goals
    have hsum := LogRWStream.writevRegions_sum hv
    have hrun := cb.run_le (v.map Region.len)
    rw [availableAt_eq hset hle] at hsum
  · omega
  · rw [hm]
    split_ifs <;> rfl
  · rw [hm]
    split_ifs with hpos
    · rw [curOffset_setOffset (lt_of_curOffset_ne hset), if_pos rfl, moved_eq m hpos (by omega)]
    · rw [Int.toNat_of_nonpos (by omega), Nat.add_zero]

theorem Behind.step (h : m.Behind) {op : LogOp} (hok : m.MarksWritten op) : m.NeverPast op := by
  cases op with
  | push l limit =>
    refine ⟨behind_of_le fun fd hset ↦ ?_, by simp [MultiPositionedStreamLog.step]⟩
    have hgrow := LogRWStream.push_available_le (s := m.stream) l limit
    exact Nat.le_trans (h fd hset).1 hgrow
  | register fd =>
    refine ⟨behind_of_le fun g hset ↦ ?_, by simp [MultiPositionedStreamLog.step]⟩
    simp only [MultiPositionedStreamLog.step, curOffset_register] at hset ⊢
    split_ifs at hset ⊢
    · exact absurd rfl hset
    · exact (h g hset).1
  | mark fd offset =>
    refine ⟨?_, by simp [MultiPositionedStreamLog.step]⟩
    simp only [MultiPositionedStreamLog.step, mark]
    split_ifs with hfd
    · exact h.setOffset hfd (hok hfd)
    · exact h
  | markEnd fd =>
    refine ⟨?_, by simp [MultiPositionedStreamLog.step]⟩
    simp only [MultiPositionedStreamLog.step, markEnd]
    split_ifs with hfd
    · exact h.setOffset hfd (Or.inl (Nat.le_refl _))
    · exact h
  | unregister fd =>
    refine ⟨?_, by simp [MultiPositionedStreamLog.step]⟩
    simp only [MultiPositionedStreamLog.step, unregister]
    split_ifs with hfd
    · exact h
    · exact h.setOffset (Nat.lt_of_not_le hfd) (Or.inr rfl)
  | writev fd find cb =>
    simp only [NeverPast, MultiPositionedStreamLog.step]
    rcases writev_cases m (m.availableAt fd) fd find cb with
      ⟨hm, hnil, -⟩ | ⟨v, hset, hv, hregions, -, hm⟩
    · rw [hm, hnil]
      exact ⟨h, by simp⟩
    obtain ⟨hle, hpending⟩ := h fd hset
    rw [hm, hregions]
    refine ⟨?_, LogRWStream.writevRegions_inside (by omega) hv⟩
    split_ifs with hpos
    · have hsum := LogRWStream.writevRegions_sum hv
      have hrun := cb.run_le (v.map Region.len)
      rw [moved_eq m hpos (by omega)]
      exact h.setOffset (lt_of_curOffset_ne hset) (Or.inl (by omega))
    · exact h

/-! ## Runs -/

/-- **No position passes the end of the log** in a run exactly if every mark of the run names bytes
that are written. -/
theorem run_behind_iff (stream : LogRWStream cacheSize) (ops : List LogOp) :
    Run.Steps step NeverPast (new stream) ops ↔ Run.Steps step MarksWritten (new stream) ops := by
  have hnew : (new stream).Behind := behind_of_le fun fd hset ↦ absurd rfl hset
  refine Run.steps_iff_of_invariant (P := Behind) (fun m op hm hok ↦ (hm.step hok).1)
    (fun m op hm ↦ ⟨fun hpast ↦ ?_, fun hok ↦ hm.step hok⟩) hnew
  cases op with
  | mark fd offset =>
    intro hfd
    have hafter := hpast.1 fd
    simp only [MultiPositionedStreamLog.step, mark, if_pos hfd, curOffset_setOffset hfd,
      if_true] at hafter
    by_cases hunset : offset.toNat = unset
    · exact Or.inr hunset
    · exact Or.inl (hafter hunset).1
  | _ => trivial

/-- A client that marks the byte behind the end of ten: its position passes the end. -/
theorem not_behind_of_mark :
    ¬∀ ops, Run.Steps step NeverPast
      (new (LogRWStream.new 2 4096 (by decide) (fun _ ↦ 0) 10 (by decide))) ops := by
  intro h
  have hsteps := h [.register 0, .mark 0 11]
  exact absurd (hsteps.2.1.1 0 (by decide)).1 (by decide)

end MultiPositionedStreamLog

end Coypu
