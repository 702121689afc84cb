import Coypu.Buf.Drain
import Coypu.Http.WebSocket

/-!
# Sources of frames

What `DoOpen` needs of the buffer it reads from: that the buffer holds a list of bytes, and that
looking at it and taking from it are looking at and taking from that list. The circular buffer and
the stream both do, so what `DoOpen` does to a header is said once for both.
-/

set_option autoImplicit false

namespace Coypu

open WebSocket

/-- A source of frames that holds a list. -/
class LawfulFrameSource (β : Type*) [FrameSource β] where
  Holds : β → List UInt8 → Prop
  available_eq : ∀ {b : β} {l : List UInt8}, Holds b l → FrameSource.available b = l.length
  peak_eq : ∀ {b : β} {l : List UInt8} (i : ℕ), Holds b l → FrameSource.peak b i = l[i]?
  pop_eq : ∀ {b : β} {l : List UInt8} {n : ℕ}, Holds b l → 0 < n → n ≤ l.length →
    (FrameSource.pop b n).1 = some (l.take n) ∧ Holds (FrameSource.pop b n).2 (l.drop n)

instance : LawfulFrameSource (BipBuf .uint64 UInt8) where
  Holds := BipBuf.Rep
  available_eq h := h.available_eq
  peak_eq i h := (BipBuf.peak_refines h i).ret_eq
  pop_eq {b l n} h hpos hn := by
    have hpop := BipBuf.pop_refines h n
    rw [if_pos ⟨hpos, hn⟩, if_pos ⟨hpos, hn⟩] at hpop
    exact ⟨hpop.ret_eq, hpop.rep⟩

instance {cacheSize : ℕ} : LawfulFrameSource (PositionedStream cacheSize) where
  Holds := PositionedStream.Unread
  available_eq h := h.available
  peak_eq i h := h.peak i
  pop_eq {b l n} h hpos hn := by
    have hpop : FrameSource.pop b n = (some (l.take n), b.advance n) := h.pop hpos hn
    rw [hpop]
    exact ⟨rfl, h.advance hn⟩

namespace Con

open LawfulFrameSource

variable {cacheSize : ℕ} {c : Con cacheSize} {β : Type*} [FrameSource β] [LawfulFrameSource β]
  {b : β} {l t : List UInt8} {h₀ h₁ : UInt8}

/-- The length of a header with second byte `h₁`. -/
def headerLen (h₁ : UInt8) : ℕ :=
  2 + (if h₁ &&& 0x80 ≠ 0 then wsMaskLen else 0) + extended (0x7F &&& h₁)

/-- `DoOpen` waits if it does not see the two bytes that say how long the header is. -/
theorem doOpen_of_short (h : Holds b l) (hav : l.length % 2 ^ 32 < 2) :
    c.doOpen b = (1, b, c) := by
  unfold doOpen
  simp only [available_eq h]
  rw [if_neg (by omega)]

theorem doOpen_of_lt (h : Holds b (h₀ :: h₁ :: t))
    (hav : (h₀ :: h₁ :: t).length % 2 ^ 32 < headerLen h₁) : c.doOpen b = (1, b, c) := by
  by_cases hshort : (h₀ :: h₁ :: t).length % 2 ^ 32 < 2
  · exact doOpen_of_short h hshort
  have hpeak := peak_eq 1 h
  simp only [List.getElem?_cons_succ, List.getElem?_cons_zero] at hpeak
  unfold headerLen at hav
  unfold doOpen
  simp only [available_eq h, hpeak]
  rw [if_pos (by omega), if_neg (by omega)]

/-- `DoOpen` takes the header: the first byte, the second, then the key, then the extended
length. -/
theorem doOpen_of_le (h : Holds b (h₀ :: h₁ :: t))
    (hav : headerLen h₁ ≤ (h₀ :: h₁ :: t).length % 2 ^ 32) :
    ∃ b', Holds b' ((h₀ :: h₁ :: t).drop (headerLen h₁)) ∧ c.doOpen b = (2, b', { c with
      frame := ⟨[h₀, h₁], if h₁ &&& 0x80 ≠ 0 then t.take wsMaskLen else c.frame.mask, h₀ &&& 0x0F,
        decide (h₁ &&& 0x80 ≠ 0), if extended (0x7F &&& h₁) = 0 then (0x7F &&& h₁).toNat
          else Bytes.decode ((t.drop (if h₁ &&& 0x80 ≠ 0 then wsMaskLen else 0)).take
            (extended (0x7F &&& h₁)))⟩
      state := .openData }) := by
  have hpeak := peak_eq 1 h
  simp only [List.getElem?_cons_succ, List.getElem?_cons_zero] at hpeak
  have hle : headerLen h₁ ≤ t.length + 2 := Nat.le_trans hav (Nat.mod_le _ _)
  have hdrop : ∀ n, (h₀ :: h₁ :: t).drop (2 + n) = t.drop n := fun n ↦ by
    rw [← List.drop_drop]
    rfl
  unfold headerLen at hav hle ⊢
  obtain ⟨hhdr, hrest⟩ := pop_eq (n := 2) h (by omega) (by simp)
  rw [List.drop_succ_cons, List.drop_succ_cons, List.drop_zero] at hrest
  rw [List.take_succ_cons, List.take_succ_cons, List.take_zero] at hhdr
  unfold doOpen
  simp only [available_eq h, hpeak, hhdr]
  have htwo : 2 ≤ (h₀ :: h₁ :: t).length % 2 ^ 32 := by omega
  rw [if_pos htwo, if_pos hav]
  simp only [Option.getD_some, List.getD_cons_succ, List.getD_cons_zero, decide_eq_true_eq]
  -- with and without a key, and with and without an extended length
  by_cases hm : h₁ &&& 0x80 ≠ 0
  · simp only [if_pos hm] at hle ⊢
    obtain ⟨hkey, hrest'⟩ := pop_eq (n := wsMaskLen) hrest (by decide) (by omega)
    simp only [hkey, Option.getD_some]
    by_cases he : extended (0x7F &&& h₁) = 0
    · simp only [he, if_true]
      refine ⟨_, ?_, rfl⟩
      rwa [Nat.add_zero, hdrop]
    · obtain ⟨hext, hrest''⟩ := pop_eq (n := extended (0x7F &&& h₁)) hrest' (by omega)
        (by rw [List.length_drop]; omega)
      simp only [he, if_false, hext, Option.getD_some]
      refine ⟨_, ?_, rfl⟩
      rwa [Nat.add_assoc, hdrop, ← List.drop_drop]
  · simp only [if_neg hm] at hle ⊢
    by_cases he : extended (0x7F &&& h₁) = 0
    · simp only [he, if_true]
      exact ⟨_, hrest, rfl⟩
    · obtain ⟨hext, hrest'⟩ := pop_eq (n := extended (0x7F &&& h₁)) hrest (by omega) (by omega)
      simp only [he, if_false, hext, Option.getD_some]
      refine ⟨_, ?_, rfl⟩
      rwa [Nat.add_zero, hdrop]

theorem doOpenData_of_lt (h : Holds b l) (hlen : l.length < c.frame.len) :
    c.doOpenData b = some (0, b, c) := by
  unfold doOpenData
  rw [available_eq h, if_neg (by omega)]

end Con

end Coypu
