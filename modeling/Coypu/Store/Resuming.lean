import Coypu.Store.PagedAppends

/-!
# A log that is resumed

A log that was opened behind its file writes as far as it likes. One whose position was set goes on
up to the end of the page of the position (`Ready`).
-/

set_option autoImplicit false

namespace Coypu

open FlatMemory LogWriteBuf

namespace PagedLog

variable {C : Type*} {cacheSize : ℕ} {s : PagedLog C cacheSize} {n : ℕ}
  {limit : Option ℕ} {l : List UInt8}

/-- The writer of a file goes on behind `n` bytes, up to the limit if there is one. -/
structure Ready (s : PagedLog C cacheSize) (n : ℕ) (limit : Option ℕ) : Prop where
  anonymous_eq : s.writeBuf.anonymous = false
  readOnly_eq : s.writeBuf.readOnly = false
  dvd : s.pageSize ∣ s.file.size
  le_size : n ≤ s.file.size
  size_le : s.file.size ≤ n + s.pageSize
  writer : match limit with
    | none => s.Writable ∧ s.available = n
    | some e => ∃ page, s.writeBuf.dataPage = some page ∧ page + s.writeBuf.position = n ∧
        page + s.pageSize = e ∧ e ≤ s.file.size

theorem Writable.ready (h : s.Writable) (hfile : s.writeBuf.anonymous = false) :
    s.Ready s.available none := by
  have hsize := h.appending.size_eq
  refine ⟨hfile, h.readOnly_eq, ?_, h.available_le, ?_, h, rfl⟩
  · rw [file, hsize]
    exact h.appending.dvd
  · rw [file, hsize, ← h.tell_eq]
    cases hpage : s.writeBuf.dataPage with
    | none =>
      rw [tell_of_none hpage]
      exact Nat.le_add_right _ _
    | some page =>
      have hend := h.appending.page_eq page hpage
      rw [tell_of_page hpage, pageSize]
      omega

variable [ReadCache C]

theorem Ready.push_of_limit {e : ℕ} (h : s.Ready n (some e)) (hroom : n + l.length ≤ e) :
    (s.push l).1 = 0 ∧ (s.push l).2.Ready (n + l.length) (some e) ∧
      (s.push l).2.file.data = store s.file.data n l := by
  obtain ⟨page, hpage, hpos, hend, hle⟩ := h.writer
  rw [pageSize] at hend
  have hfit : s.writeBuf.position + l.length ≤ s.writeBuf.pageSize := by omega
  have hpush := push_eq (f := ReadCache.addPage) (s := (s.writeBuf, s.cache)) h.readOnly_eq
    (by simp only; omega) l
  have hfold : l.foldl (pushByte ReadCache.addPage) (s.writeBuf, s.cache)
      = (s.writeBuf.fill l, s.cache) := by
    by_cases hnil : l = []
    · rw [hnil, fill_nil, List.foldl_nil]
    · have hlen := List.length_pos_of_ne_nil hnil
      exact foldl_pushByte_of_room
        (isFull_eq_false_iff.mpr ⟨⟨page, hpage⟩, by simp only; omega⟩) hfit
  have hdata : (s.writeBuf.fill l).file.data = store s.writeBuf.file.data n l := by
    rw [fill, hpage, Option.getD_some, hpos]
    exact MappedFile.write_data (Nat.le_trans hroom hle)
  have hsize := h.size_le
  simp only [push, hpush, hfold, update]
  refine ⟨trivial, ⟨h.anonymous_eq, h.readOnly_eq, h.dvd, Nat.le_trans hroom hle, ?_, page, hpage,
    by rw [← hpos, Nat.add_assoc]; rfl, hend, hle⟩, hdata⟩
  rw [Nat.add_right_comm]
  exact Nat.le_trans hsize (Nat.le_add_right _ _)

/-- **A push goes behind the bytes** unless it goes over the limit. -/
theorem Ready.push (h : s.Ready n limit) (hroom : ∀ e, limit = some e → n + l.length ≤ e) :
    (s.push l).1 = 0 ∧ (s.push l).2.Ready (n + l.length) limit ∧
      (s.push l).2.file.data = store s.file.data n l := by
  cases limit with
  | none =>
    obtain ⟨hw, rfl⟩ := h.writer
    obtain ⟨hret, hext, -⟩ := hw.push l
    have hready := hext.writable.ready (hext.anonymous_eq.trans h.anonymous_eq)
    rw [hext.available_eq] at hready
    exact ⟨hret, hready, hext.data_eq⟩
  | some e => exact h.push_of_limit (hroom e rfl)

/-- When its position is set behind `n` bytes, the writer goes on up to the end of the page. -/
theorem Ready.setPosition (hfile : s.writeBuf.anonymous = false) (hw : s.writeBuf.readOnly = false)
    (hdvd : s.pageSize ∣ s.file.size) (hle : n ≤ s.file.size)
    (hsize : s.file.size ≤ n + s.pageSize) :
    (s.setPosition n).2.Ready n (some (n / s.pageSize * s.pageSize + s.pageSize)) ∧
      (s.setPosition n).2.file.data = s.file.data := by
  have hmod := Nat.div_add_mod' n s.pageSize
  have hlt := Nat.mod_lt n s.writeBuf.pageSize_pos
  have hset : (s.setPosition n).2.file = if s.file.size = n / s.pageSize * s.pageSize then
      s.file.truncate (n / s.pageSize * s.pageSize + s.pageSize) else s.file := by
    simp only [PagedLog.setPosition, LogWriteBuf.setPosition, hfile, update]
    rfl
  by_cases hbase : s.file.size = n / s.pageSize * s.pageSize
  · rw [if_pos hbase] at hset
    refine ⟨⟨hfile, hw, ?_, ?_, ?_, _, rfl, hmod, rfl, ?_⟩, ?_⟩
    · rw [hset]
      exact Nat.dvd_add (Nat.dvd_mul_left _ _) (Nat.dvd_refl _)
    · rw [hset, MappedFile.truncate_size, ← hbase]
      exact Nat.le_add_right_of_le hle
    · rw [hset, MappedFile.truncate_size]
      exact Nat.add_le_add_right (Nat.div_mul_le_self _ _) _
    · rw [hset]
      rfl
    · rw [hset]
      exact MappedFile.truncate_data (by omega)
  · rw [if_neg hbase] at hset
    -- the file is whole pages, and does not end where the page begins
    have hnext : n / s.pageSize * s.pageSize + s.pageSize ≤ s.file.size := by
      obtain ⟨q, hq⟩ := hdvd
      have hle' : n / s.pageSize * s.pageSize ≤ q * s.pageSize := by
        rw [Nat.mul_comm q, ← hq]
        omega
      have hle'' := Nat.le_of_mul_le_mul_right hle' s.writeBuf.pageSize_pos
      have hlt' : n / s.pageSize < q := by
        refine Nat.lt_of_le_of_ne hle'' fun heq ↦ hbase ?_
        rw [hq, heq, Nat.mul_comm]
      rw [hq, Nat.mul_comm s.pageSize, ← Nat.add_one_mul]
      exact Nat.mul_le_mul_right _ hlt'
    refine ⟨⟨hfile, hw, ?_, ?_, ?_, _, rfl, hmod, rfl, ?_⟩, ?_⟩
    · rwa [hset]
    · rwa [hset]
    · rwa [hset]
    · rwa [hset]
    · rw [hset]

end PagedLog

end Coypu
