import Coypu.Library.Bytes
import Coypu.Library.CInt
import Coypu.Library.Run
import Mathlib.Logic.Function.Basic
import Mathlib.Tactic.SplitIfs

/-!
# The sequence cache

A `SequenceCache` gives each record that is pushed the next sequence number, keeps the last record
of each key, and writes the record to its stream. After a restart the records of the stream are
restored into a new cache, which goes on with the larger of its own count and the number of the
record.

That number is taken already. So the restored cache issues it once more, unless its own count is
larger, which holds only if no number was drawn before the last record was written but for records
that were written (`continues_iff`). And a record whose write fails is in the cache that runs, but
not in the restored one (`run_restores`).
-/

set_option autoImplicit false

namespace Coypu

/-- What a cache uses of its records: the key as a string, and the sequence number, of 64 bits. -/
class CacheType (ρ : Type*) where
  key : ρ → List UInt8
  seqno : ρ → ℕ
  setSeqno : ρ → ℕ → ρ
  seqno_setSeqno : ∀ t n, n < 2 ^ 64 → seqno (setSeqno t n) = n
  key_setSeqno : ∀ t n, key (setSeqno t n) = key t

/-- The bytes of a record: a key of 64 with a zero behind it, the sequence number, and the data of
the coin. -/
structure CoinCache where
  bytes : List UInt8
  length_eq : bytes.length = 128
  zero_mem : 0 ∈ bytes.take 64
deriving DecidableEq

namespace CoinCache

/-- A record as the constructor makes it, with the key and the sequence number given and all else
zero. -/
def ofKey (key : List UInt8) (seqno : ℕ) (h : key.length < 64) : CoinCache where
  bytes := key ++ List.replicate (64 - key.length) 0 ++ (Bytes.encode 8 seqno).reverse
    ++ List.replicate 56 0
  length_eq := by
    rw [List.length_append, List.length_append, List.length_append, List.length_replicate,
      List.length_replicate, List.length_reverse, Bytes.length_encode]
    omega
  zero_mem := by
    rw [List.append_assoc, List.append_assoc, List.take_append, List.mem_append]
    refine .inr ?_
    rw [List.take_append_of_le_length (Nat.le_of_eq (by rw [List.length_replicate])),
      List.take_replicate, List.mem_replicate]
    exact ⟨by omega, rfl⟩

instance : CacheType CoinCache where
  key t := (t.bytes.take 64).takeWhile (· ≠ 0)
  seqno t := Bytes.decode ((t.bytes.drop 64).take 8).reverse
  setSeqno t n :=
    { bytes := t.bytes.take 64 ++ ((Bytes.encode 8 n).reverse ++ t.bytes.drop 72)
      length_eq := by
        have hlength := t.length_eq
        simp only [List.length_append, List.length_take, List.length_reverse, Bytes.length_encode,
          List.length_drop]
        omega
      zero_mem := by
        have hlength := t.length_eq
        rw [List.take_append_of_le_length (by rw [List.length_take]; omega), List.take_take]
        exact t.zero_mem }
  seqno_setSeqno t n h := by
    have hlength := t.length_eq
    have htake : (t.bytes.take 64).length = 64 := by rw [List.length_take]; omega
    rw [List.drop_append_of_le_length (by omega), List.drop_of_length_le (by omega),
      List.nil_append,
      List.take_append_of_le_length
        (Nat.le_of_eq (by rw [List.length_reverse, Bytes.length_encode])),
      List.take_of_length_le (Nat.le_of_eq (by rw [List.length_reverse, Bytes.length_encode])),
      List.reverse_reverse, Bytes.decode_encode (by omega)]
  key_setSeqno t n := by
    have hlength := t.length_eq
    rw [List.take_append_of_le_length (by rw [List.length_take]; omega), List.take_take]
    rfl

end CoinCache

/-! ## The cache -/

structure SequenceCache (ρ : Type*) where
  nextSeqNo : ℕ
  cacheMap : List UInt8 → Option ρ

namespace SequenceCache

open CacheType

variable {ρ : Type*} [CacheType ρ] (s : SequenceCache ρ)

def new : SequenceCache ρ := ⟨0, fun _ ↦ none⟩

def store (t : ρ) : SequenceCache ρ :=
  { s with cacheMap := Function.update s.cacheMap (key t) (some t) }

def restore (t : ρ) : SequenceCache ρ :=
  { s.store t with nextSeqNo := max (CInt.toUnsigned 64 (s.nextSeqNo + 1 : ℕ)) (seqno t) }

def nextSeq : ℕ × SequenceCache ρ :=
  (s.nextSeqNo, { s with nextSeqNo := CInt.toUnsigned 64 (s.nextSeqNo + 1 : ℕ) })

/-- `Push`, up to the write to the stream: the record that is written, and the cache. -/
def push (t : ρ) : ρ × SequenceCache ρ :=
  let r := s.nextSeq
  (setSeqno t r.1, r.2.store (setSeqno t r.1))

def load (k : List UInt8) : Option ρ := s.cacheMap k

/-- A call of `NextSeq`, or of `Push` with the result of the stream's own `Push`. -/
inductive Op (ρ : Type*)
  | nextSeq
  | push (t : ρ) (ret : ℤ)

/-- The record of a call reaches the stream. -/
def Op.Writes : Op ρ → Prop
  | nextSeq => False
  | push _ ret => ret = 0

instance : DecidablePred (Op.Writes (ρ := ρ))
  | .nextSeq => inferInstanceAs (Decidable False)
  | .push _ ret => inferInstanceAs (Decidable (ret = 0))

/-- The number that a call issues, and the record that reaches the stream, if one does. -/
structure Issue (ρ : Type*) where
  number : ℕ
  written : List ρ

def step (s : SequenceCache ρ) : Op ρ → SequenceCache ρ × Issue ρ
  | .nextSeq => (s.nextSeq.2, ⟨s.nextSeq.1, []⟩)
  | .push t ret => ((s.push t).2, ⟨seqno (s.push t).1, if ret = 0 then [(s.push t).1] else []⟩)

omit [CacheType ρ] in
@[simp] theorem new_nextSeqNo : (new : SequenceCache ρ).nextSeqNo = 0 := rfl

theorem restore_nextSeqNo (t : ρ) :
    (s.restore t).nextSeqNo = max (CInt.toUnsigned 64 (s.nextSeqNo + 1 : ℕ)) (seqno t) := rfl

/-- The records of a run that reach the stream. -/
def written (ops : List (Op ρ)) (s : SequenceCache ρ) :
    List ρ := (Run.run step s ops).2.flatMap Issue.written

/-- The cache that is restored from records. -/
def restored (w : List ρ) : SequenceCache ρ := w.foldl restore new

/-! ## The numbers of a run -/

section Numbers

variable {s : SequenceCache ρ} {ops : List (Op ρ)} {op : Op ρ}

theorem step_nextSeqNo (h : s.nextSeqNo + 1 < 2 ^ 64) :
    (step s op).1.nextSeqNo = s.nextSeqNo + 1 := by
  cases op with
  | nextSeq => exact CInt.toUnsigned_natCast h
  | push t ret => exact CInt.toUnsigned_natCast h

theorem step_number (h : s.nextSeqNo < 2 ^ 64) : (step s op).2.number = s.nextSeqNo := by
  cases op with
  | nextSeq => rfl
  | push t ret => exact seqno_setSeqno t _ h

theorem step_written (h : s.nextSeqNo < 2 ^ 64) :
    (step s op).2.written.map seqno = if op.Writes then [s.nextSeqNo] else [] := by
  cases op with
  | nextSeq => rfl
  | push t ret =>
    by_cases hret : ret = 0
    · have hwrites : (Op.push t ret).Writes := hret
      rw [step, if_pos hret, if_pos hwrites, List.map_singleton]
      exact congrArg (fun n ↦ [n]) (seqno_setSeqno t _ h)
    · have hwrites : ¬(Op.push t ret).Writes := hret
      rw [step, if_neg hret, if_neg hwrites, List.map_nil]

variable (s ops) in
theorem run_nextSeqNo (h : s.nextSeqNo + ops.length < 2 ^ 64) :
    (Run.run step s ops).1.nextSeqNo = s.nextSeqNo + ops.length := by
  induction ops using List.reverseRecOn with
  | nil => rfl
  | append_singleton ops op ih =>
    rw [List.length_append, List.length_singleton, ← Nat.add_assoc] at h
    have hprev := ih (by omega)
    rw [Run.run_concat, step_nextSeqNo (by rw [hprev]; exact h), hprev, List.length_append,
      List.length_singleton, Nat.add_assoc]

theorem written_concat :
    written (ops ++ [op]) s = written ops s ++ (step (Run.run step s ops).1 op).2.written := by
  rw [written, Run.run_concat_snd, List.flatMap_append, List.flatMap_singleton, written]

theorem numbers_concat (h : s.nextSeqNo + ops.length < 2 ^ 64) :
    (written (ops ++ [op]) s).map seqno
      = (written ops s).map seqno ++ if op.Writes then [s.nextSeqNo + ops.length] else [] := by
  have hnext := run_nextSeqNo s ops h
  rw [written_concat, List.map_append, step_written (by rw [hnext]; exact h), hnext]

theorem run_numbers (h : s.nextSeqNo + ops.length ≤ 2 ^ 64) :
    (Run.run step s ops).2.map Issue.number = List.range' s.nextSeqNo ops.length := by
  induction ops using List.reverseRecOn with
  | nil => rfl
  | append_singleton ops op ih =>
    rw [List.length_append, List.length_singleton, ← Nat.add_assoc] at h
    have hnext := run_nextSeqNo s ops (by omega)
    rw [Run.run_concat_snd, List.map_append, ih (by omega), List.map_singleton,
      step_number (by rw [hnext]; omega),
      hnext, List.length_append, List.length_singleton, List.range'_1_concat]

variable (s ops) in
theorem numbers_mem (h : s.nextSeqNo + ops.length ≤ 2 ^ 64) :
    ∀ x ∈ (written ops s).map seqno, s.nextSeqNo ≤ x ∧ x < s.nextSeqNo + ops.length := by
  induction ops using List.reverseRecOn with
  | nil => simp [written]
  | append_singleton ops op ih =>
    rw [List.length_append, List.length_singleton, ← Nat.add_assoc] at h ⊢
    rw [numbers_concat (by omega)]
    intro x hx
    rcases List.mem_append.mp hx with hx | hx
    · have hmem := ih (by omega) x hx
      omega
    · split_ifs at hx
      · rw [List.mem_singleton.mp hx]
        omega
      · exact absurd hx List.not_mem_nil

theorem numbers_pairwise (h : s.nextSeqNo + ops.length ≤ 2 ^ 64) :
    ((written ops s).map seqno).Pairwise (· < ·) := by
  induction ops using List.reverseRecOn with
  | nil => exact .nil
  | append_singleton ops op ih =>
    rw [List.length_append, List.length_singleton, ← Nat.add_assoc] at h
    rw [numbers_concat (by omega), List.pairwise_append]
    refine ⟨ih (by omega), by split_ifs <;> simp, fun x hx y hy ↦ ?_⟩
    split_ifs at hy
    · rw [List.mem_singleton.mp hy]
      exact (numbers_mem _ _ (by omega) x hx).2
    · exact absurd hy List.not_mem_nil

variable (s ops) in
theorem numbers_length (h : s.nextSeqNo + ops.length ≤ 2 ^ 64) :
    ((written ops s).map seqno).length = ops.countP fun op ↦ op.Writes := by
  induction ops using List.reverseRecOn with
  | nil => rfl
  | append_singleton ops op ih =>
    rw [List.length_append, List.length_singleton, ← Nat.add_assoc] at h
    rw [numbers_concat (by omega), List.length_append, ih (by omega), List.countP_append,
      List.countP_singleton]
    simp only [decide_eq_true_eq]
    split_ifs <;> rfl

/-- No number is drawn before a record is written but for records that are written. -/
def Contiguous (ops : List (Op ρ)) : Prop := ops.Pairwise fun op later ↦ later.Writes → op.Writes

/-- The numbers of the records are the first ones. The induction is on the last call. -/
theorem numbers_lt_length_iff (h : ops.length ≤ 2 ^ 64) :
    (∀ x ∈ (written ops (new : SequenceCache ρ)).map seqno,
      x < ((written ops (new : SequenceCache ρ)).map seqno).length)
      ↔ Contiguous ops := by
  induction ops using List.reverseRecOn with
  | nil => exact iff_of_true (by simp [written]) .nil
  | append_singleton ops op ih =>
    rw [List.length_append, List.length_singleton] at h
    have hnew : (new : SequenceCache ρ).nextSeqNo + ops.length = ops.length := Nat.zero_add _
    have hlength := numbers_length (new : SequenceCache ρ) ops (by omega)
    have hmem := numbers_mem (new : SequenceCache ρ) ops (by omega)
    have hle : ops.countP (fun op ↦ op.Writes) ≤ ops.length := List.countP_le_length
    rw [Contiguous, List.pairwise_append, ← Contiguous, ← ih (by omega), numbers_concat (by omega),
      hnew]
    by_cases hop : op.Writes
    · have hall : ops.countP (fun op ↦ op.Writes) = ops.length ↔ ∀ op ∈ ops, op.Writes := by
        simp [List.countP_eq_length]
      rw [if_pos hop, List.length_append, List.length_singleton, hlength]
      constructor
      · intro hlt
        have hlast := hlt ops.length (List.mem_append_right _ (List.mem_singleton_self _))
        have hcount : ops.countP (fun op ↦ op.Writes) = ops.length := by omega
        refine ⟨fun x hx ↦ ?_, List.pairwise_singleton _ _, fun a ha b _ _ ↦ hall.mp hcount a ha⟩
        have hx' := (hmem x hx).2
        omega
      · rintro ⟨hlt, -, hwrites⟩ x hx
        have hcount := hall.mpr fun a ha ↦ hwrites a ha op (List.mem_singleton_self _) hop
        rcases List.mem_append.mp hx with hx | hx
        · exact Nat.lt_succ_of_lt (hlt x hx)
        · rw [List.mem_singleton.mp hx]
          omega
    · rw [if_neg hop, List.append_nil]
      refine ⟨fun hlt ↦ ⟨hlt, List.pairwise_singleton _ _, fun a _ b hb hwrites ↦ ?_⟩,
        fun hlt ↦ hlt.1⟩
      rw [List.mem_singleton.mp hb] at hwrites
      exact absurd hwrites hop

end Numbers

/-! ## After a restart -/

section Restart

variable {w : List ρ} {t : ρ}

theorem restored_concat : restored (w ++ [t]) = (restored w).restore t := by
  rw [restored, List.foldl_append, List.foldl_cons, List.foldl_nil, restored]

theorem length_le_of_lt {l : List ℕ} {n : ℕ} (h : l.Pairwise (· < ·)) (hlt : ∀ x ∈ l, x < n) :
    l.length ≤ n := by
  induction l using List.reverseRecOn generalizing n with
  | nil => exact Nat.zero_le _
  | append_singleton l x ih =>
    obtain ⟨hl, -, hlast⟩ := List.pairwise_append.mp h
    have hx := hlt x (List.mem_append_right _ (List.mem_singleton_self _))
    have hlength := ih hl fun y hy ↦ hlast y hy x (List.mem_singleton_self _)
    rw [List.length_append, List.length_singleton]
    omega

/-- The restored count: that of the records, or the last number. -/
theorem restored_nextSeqNo (h : (w.map seqno).Pairwise (· < ·))
    (hlt : ∀ t ∈ w, seqno t + 1 < 2 ^ 64) :
    (restored w).nextSeqNo = max w.length ((w.getLast?.map seqno).getD 0) := by
  induction w using List.reverseRecOn with
  | nil => rfl
  | append_singleton w t ih =>
    rw [List.map_append, List.pairwise_append] at h
    obtain ⟨hw, -, hlast⟩ := h
    have hbefore : ∀ x ∈ w.map seqno, x < seqno t :=
      fun x hx ↦ hlast x hx _ (List.mem_singleton_self _)
    have hlength := length_le_of_lt hw hbefore
    rw [List.length_map] at hlength
    have hprev : (w.getLast?.map seqno).getD 0 = 0 ∨ (w.getLast?.map seqno).getD 0 < seqno t := by
      cases hget : w.getLast? with
      | none => exact .inl rfl
      | some u => exact .inr (hbefore _ (List.mem_map_of_mem (List.mem_of_getLast? hget)))
    have ht := hlt t (List.mem_append_right _ (List.mem_singleton_self _))
    have hih := ih hw fun u hu ↦ hlt u (List.mem_append_left _ hu)
    have hnext : CInt.toUnsigned 64 ((restored w).nextSeqNo + 1 : ℕ) = (restored w).nextSeqNo + 1 :=
      CInt.toUnsigned_natCast (by omega)
    rw [restored_concat, List.getLast?_concat, List.length_append, List.length_singleton]
    rw [restore_nextSeqNo, hnext, hih, Option.map_some, Option.getD_some]
    omega

theorem restored_nextSeqNo_le (h : (w.map seqno).Pairwise (· < ·))
    (hlt : ∀ t ∈ w, seqno t + 1 < 2 ^ 64) {n : ℕ} (hn : ∀ t ∈ w, seqno t < n) :
    (restored w).nextSeqNo ≤ n := by
  have hlength := length_le_of_lt h (n := n) fun x hx ↦ by
    obtain ⟨t, ht, rfl⟩ := List.mem_map.mp hx
    exact hn t ht
  rw [List.length_map] at hlength
  rw [restored_nextSeqNo h hlt]
  refine Nat.max_le.mpr ⟨hlength, ?_⟩
  cases hget : w.getLast? with
  | none => exact Nat.zero_le _
  | some t => exact Nat.le_of_lt (hn t (List.mem_of_getLast? hget))

/-- The restored count lies above all numbers exactly if these are the first ones. -/
theorem lt_restored_iff (h : (w.map seqno).Pairwise (· < ·)) (hlt : ∀ t ∈ w, seqno t + 1 < 2 ^ 64) :
    (∀ x ∈ w.map seqno, x < (restored w).nextSeqNo) ↔
    ∀ x ∈ w.map seqno, x < (w.map seqno).length := by
  rw [restored_nextSeqNo h hlt, List.length_map]
  refine ⟨fun hall x hx ↦ ?_, fun hall x hx ↦ Nat.lt_of_lt_of_le (hall x hx) (Nat.le_max_left _ _)⟩
  have hne : w ≠ [] := by
    rintro rfl
    exact List.not_mem_nil hx
  have hget := List.getLast?_eq_some_getLast hne
  have hlast := hall _ (List.mem_map_of_mem (List.getLast_mem hne))
  have hx' := hall x hx
  rw [hget, Option.map_some, Option.getD_some] at hlast hx'
  omega

/-- The numbers issued after the restart are larger than those of the records restored, and those of
all records increase. -/
def Continues (ops later : List (Op ρ)) : Prop :=
  let w := written ops new
  (∀ i ∈ (Run.run step (restored w) later).2, ∀ t ∈ w, seqno t < i.number)
    ∧ ((w ++ written later (restored w)).map seqno).Pairwise (· < ·)

/-- **The numbers go on after a restart**, as long as fewer than 2⁶⁴ are drawn, exactly if none is
drawn after it, or before it no number was drawn before a record was written but for records that
were written. -/
theorem continues_iff (ops later : List (Op ρ)) (h : ops.length + later.length ≤ 2 ^ 64) :
    Continues ops later ↔ later = [] ∨ Contiguous ops := by
  have hbound : (new : SequenceCache ρ).nextSeqNo + ops.length ≤ 2 ^ 64 := by
    rw [new_nextSeqNo]
    omega
  have hw := numbers_pairwise hbound
  have hmem := numbers_mem _ _ hbound
  by_cases hlater : later = []
  · subst hlater
    refine iff_of_true ⟨by simp, ?_⟩ (.inl rfl)
    rw [show written [] (restored (written ops (new : SequenceCache ρ))) = [] from rfl,
      List.append_nil]
    exact hw
  · rw [or_iff_right hlater, ← numbers_lt_length_iff (by omega)]
    have hpos := List.length_pos_of_ne_nil hlater
    rw [new_nextSeqNo] at hmem
    have hlt : ∀ t ∈ written ops (new : SequenceCache ρ), seqno t + 1 < 2 ^ 64 := fun t ht ↦ by
      have hx := (hmem _ (List.mem_map_of_mem ht)).2
      omega
    rw [← lt_restored_iff hw hlt]
    have hrestored : (restored (written ops (new : SequenceCache ρ))).nextSeqNo + later.length
      ≤ 2 ^ 64 := by
      have hcount := restored_nextSeqNo_le hw hlt (n := ops.length) fun t ht ↦ by
        have hx := (hmem _ (List.mem_map_of_mem ht)).2
        omega
      omega
    have hnumbers := run_numbers hrestored
    constructor
    · intro hcontinues x hx
      obtain ⟨t, ht, rfl⟩ := List.mem_map.mp hx
      -- the first number drawn is the one that the restored cache begins with
      have hfirst : (restored (written ops (new : SequenceCache ρ))).nextSeqNo
          ∈ (Run.run step
            (restored (written ops (new : SequenceCache ρ))) later).2.map Issue.number := by
        rw [hnumbers, List.mem_range'_1]
        omega
      obtain ⟨i, hi, hnumber⟩ := List.mem_map.mp hfirst
      exact hnumber ▸ hcontinues.1 i hi t ht
    · intro hall
      refine ⟨fun i hi t ht ↦ ?_, ?_⟩
      · have hnumber := List.mem_map_of_mem (f := Issue.number) hi
        rw [hnumbers, List.mem_range'_1] at hnumber
        exact Nat.lt_of_lt_of_le (hall _ (List.mem_map_of_mem ht)) hnumber.1
      · rw [List.map_append, List.pairwise_append]
        exact ⟨hw, numbers_pairwise hrestored, fun x hx y hy ↦
          Nat.lt_of_lt_of_le (hall x hx) (numbers_mem _ _ hrestored y hy).1⟩

/-- The record of a coin before it is pushed. -/
def btc : CoinCache := .ofKey [66, 84, 67] 0 (by decide)

theorem continues_iff_twoRecords :
    Continues [.push btc 0, .push btc 0] [.push btc 0]
      ↔ [Op.push btc 0] = [] ∨ Contiguous [.push btc 0, .push btc 0] :=
  continues_iff _ _ (by decide)

/-- A number is drawn between the two records. The second one has number 2, and so has the next
after the restart. -/
theorem not_continues_of_gap : ¬Continues [.push btc 0, .nextSeq, .push btc 0] [.push btc 0] := by
  unfold Continues
  decide +kernel

end Restart

/-! ## What is restored -/

section Loading

variable {s : SequenceCache ρ} {ops : List (Op ρ)} {op : Op ρ} {w : List ρ} {t : ρ} {k : List UInt8}

/-- The call pushes a record with the key. -/
def Op.Pushes (k : List UInt8) : Op ρ → Prop
  | nextSeq => False
  | push t _ => key t = k

instance (k : List UInt8) : DecidablePred (Op.Pushes (ρ := ρ) k)
  | .nextSeq => inferInstanceAs (Decidable False)
  | .push t _ => inferInstanceAs (Decidable (key t = k))

/-- The last record with the key that was pushed has reached the stream, if there is one. -/
def LastWritten (ops : List (Op ρ)) (k : List UInt8) : Prop :=
  ∀ op ∈ ops.reverse.find? fun op ↦ op.Pushes k, op.Writes

/-- The restored cache has what the running one has, and nothing that did not reach the stream. -/
def Restores (ops : List (Op ρ)) : Prop :=
  let w := written ops new
  ∀ k, (restored w).load k = (Run.run step (new : SequenceCache ρ) ops).1.load k
    ∧ ∀ t, (Run.run step (new : SequenceCache ρ) ops).1.load k = some t → t ∈ w

theorem pushes_push {ret : ℤ} : (Op.push t ret).Pushes k ↔ key t = k := Iff.rfl

theorem load_restore : (s.restore t).load k = if k = key t then some t else s.load k :=
  Function.update_apply ..

theorem load_step_push (ret : ℤ) : (step s (.push t ret)).1.load k
    = if k = key t then some (setSeqno t s.nextSeqNo) else s.load k := by
  have hkey : key (setSeqno t s.nextSeqNo) = key t := key_setSeqno _ _
  rw [← hkey]
  exact Function.update_apply ..

theorem mem_of_load (h : (restored w).load k = some t) : t ∈ w := by
  induction w using List.reverseRecOn with
  | nil => exact absurd h (by simp [restored, load, new])
  | append_singleton w u ih =>
    rw [restored_concat, load_restore] at h
    split_ifs at h
    · exact List.mem_append_right _ (List.mem_singleton.mpr (Option.some.inj h).symm)
    · exact List.mem_append_left _ (ih h)

theorem lastWritten_of_not_pushes (h : ¬op.Pushes k) :
    LastWritten (ops ++ [op]) k ↔ LastWritten ops k := by
  rw [LastWritten, List.reverse_append, List.reverse_singleton, List.singleton_append,
    List.find?_cons_of_neg (by simpa using h)]
  rfl

theorem lastWritten_of_pushes (h : op.Pushes k) : LastWritten (ops ++ [op]) k ↔ op.Writes := by
  rw [LastWritten, List.reverse_append, List.reverse_singleton, List.singleton_append,
    List.find?_cons_of_pos (by simpa using h)]
  simp

theorem restored_written_push (ret : ℤ) : restored (written (ops ++ [.push t ret]) new)
    = if ret = 0 then
        (restored (written ops new)).restore
          (setSeqno t (Run.run step (new : SequenceCache ρ) ops).1.nextSeqNo)
      else restored (written ops new) := by
  rw [written_concat]
  split_ifs with hret
  · rw [step, if_pos hret]
    exact restored_concat
  · rw [step, if_neg hret, List.append_nil]

/-- A key whose last record is written. The induction is on the last call. -/
theorem load_eq_of_lastWritten (h : LastWritten ops k) :
    (restored (written ops new)).load k = (Run.run step (new : SequenceCache ρ) ops).1.load k := by
  induction ops using List.reverseRecOn with
  | nil => rfl
  | append_singleton ops op ih =>
    cases op with
    | nextSeq =>
      rw [lastWritten_of_not_pushes id] at h
      rw [written_concat, Run.run_concat]
      exact (congrArg (fun w ↦ (restored w).load k) (List.append_nil _)).trans (ih h)
    | push t ret =>
      rw [restored_written_push, Run.run_concat, load_step_push]
      by_cases hkey : key t = k
      · have hret : ret = 0 := (lastWritten_of_pushes (pushes_push.mpr hkey)).mp h
        rw [if_pos hret, load_restore, key_setSeqno, if_pos hkey.symm, if_pos hkey.symm]
      · rw [if_neg (Ne.symm hkey),
          ← ih ((lastWritten_of_not_pushes (pushes_push.not.mpr hkey)).mp h)]
        split_ifs
        · rw [load_restore, key_setSeqno, if_neg (Ne.symm hkey)]
        · rfl

/-- The number of a record that was not written is that of no record that was. -/
theorem lastWritten_of_load_eq (hlen : ops.length ≤ 2 ^ 64)
    (h : (restored (written ops new)).load k =
      (Run.run step (new : SequenceCache ρ) ops).1.load k) :
    LastWritten ops k := by
  induction ops using List.reverseRecOn with
  | nil => exact fun op hop ↦ absurd hop (by simp)
  | append_singleton ops op ih =>
    rw [List.length_append, List.length_singleton] at hlen
    cases op with
    | nextSeq =>
      rw [written_concat, Run.run_concat] at h
      refine (lastWritten_of_not_pushes id).mpr (ih (by omega) ?_)
      exact (congrArg (fun w ↦ (restored w).load k) (List.append_nil _)).symm.trans h
    | push t ret =>
      rw [restored_written_push, Run.run_concat, load_step_push] at h
      by_cases hkey : key t = k
      · rw [lastWritten_of_pushes (pushes_push.mpr hkey)]
        by_contra hret
        have hret' : ¬ret = 0 := hret
        rw [if_neg hret', if_pos hkey.symm] at h
        have hnext := run_nextSeqNo (new : SequenceCache ρ) ops (by rw [new_nextSeqNo]; omega)
        have hmem := (numbers_mem (new : SequenceCache ρ) _ (by rw [new_nextSeqNo]; omega) _
          (List.mem_map_of_mem (mem_of_load h))).2
        rw [seqno_setSeqno _ _ (by rw [hnext, new_nextSeqNo]; omega), hnext] at hmem
        exact Nat.lt_irrefl _ hmem
      · rw [if_neg (Ne.symm hkey)] at h
        refine (lastWritten_of_not_pushes (pushes_push.not.mpr hkey)).mpr
          (ih (by omega) (Eq.trans ?_ h))
        split_ifs
        · rw [load_restore, key_setSeqno, if_neg (Ne.symm hkey)]
        · rfl

/-- **The restored cache is the running one**, if of each key the last record that was pushed was
written; and while no more than 2⁶⁴ numbers are drawn, only then. -/
theorem run_restores (ops : List (Op ρ)) :
    ((∀ k, LastWritten ops k) → Restores ops)
      ∧ (ops.length ≤ 2 ^ 64 → Restores ops → ∀ k, LastWritten ops k) := by
  refine ⟨fun h k ↦ ?_, fun hlen h k ↦ lastWritten_of_load_eq hlen (h k).1⟩
  have heq := load_eq_of_lastWritten (h k)
  exact ⟨heq, fun t ht ↦ mem_of_load (heq.trans ht)⟩

/-- The second write fails. -/
theorem not_restores_of_failure : ¬Restores [.push btc 0, .push btc (-1)] := by
  intro h
  exact absurd (h [66, 84, 67]).1 (by decide +kernel)

end Loading

end SequenceCache

end Coypu
