import Coypu.Buf.Fill
import Coypu.Http.WebSocket

/-!
# What `Queue` writes

A frame on the wire is a header of two bytes, an extended length of zero, two or eight bytes, the
key of a client, and the payload. `Queue` appends it if `WriteFrame` sees room for it, and nothing
if not. `WriteFrame` counts four bytes of spare room for a server, which sends no key, and none for
a client, which does.
-/

set_option autoImplicit false

namespace Coypu

open FlatMemory Transport WebSocket

/-! ## Appending to the write buffer -/

namespace BipBuf

variable {b : BipBuf .uint64 UInt8} {l : List UInt8}

/-- The buffer holds `l`, and items can be pushed to it. -/
structure Buffers (b : BipBuf .uint64 UInt8) (cap : ℕ) (l : List UInt8) : Prop where
  rep : b.Rep l
  bounded : b.Bounded
  capacity_eq : b.capacity = cap

variable {cap : ℕ}

theorem Wf.buffers (h : b.Wf) : b.Buffers b.capacity b.contents := ⟨h.rep, h.bounded, rfl⟩

theorem Buffers.wf (h : b.Buffers cap l) : b.Wf := h.rep.wf h.bounded

theorem Buffers.free_eq (h : b.Buffers cap l) : b.free = cap - l.length := by
  rw [h.rep.free_eq, h.capacity_eq]

theorem Buffers.pushList (h : b.Buffers cap l) {k : List UInt8}
    (hroom : l.length + k.length ≤ cap) : (b.pushList k).Buffers cap (l ++ k) := by
  have hpush := pushBlock_refines h.rep h.bounded (fun i ↦ k.getD i 0) k.length
  have hrep := hpush.rep
  rw [load_getD, h.capacity_eq] at hrep
  refine ⟨?_, hpush.bounded h.bounded, hpush.capacity_eq.trans h.capacity_eq⟩
  by_cases hk : 0 < k.length
  · rwa [if_pos ⟨hk, hroom⟩] at hrep
  · obtain rfl : k = [] := List.length_eq_zero_iff.mp (Nat.eq_zero_of_not_pos hk)
    rw [if_neg (fun hn ↦ hk hn.1)] at hrep
    rw [List.append_nil]
    exact hrep

theorem pushList_nil : b.pushList [] = b := by
  unfold BipBuf.pushList pushBlock
  simp

theorem Buffers.foldl_push (h : b.Buffers cap l) {k : List UInt8}
    (hroom : l.length + k.length ≤ cap) :
    (k.foldl (fun b x ↦ (b.push x).buf) b).Buffers cap (l ++ k) := by
  induction k generalizing b l with
  | nil => simpa using h
  | cons x k ih =>
    rw [List.length_cons] at hroom
    have hpush := push_refines h.rep h.bounded x
    have hrep := hpush.rep
    rw [h.capacity_eq, if_pos (by omega)] at hrep
    have hone : (b.push x).buf.Buffers cap (l ++ [x]) :=
      ⟨hrep, hpush.bounded h.bounded, hpush.capacity_eq.trans h.capacity_eq⟩
    rw [List.foldl_cons, List.append_cons]
    refine ih hone ?_
    rw [List.length_append, List.length_singleton]
    omega

end BipBuf

/-! ## The header -/

namespace WebSocket

/-- The seven bits for the length in the second byte. -/
def shortLen (len : ℕ) : UInt8 :=
  if len ≤ 125 then UInt8.ofNat len else if len < 2 ^ 16 - 1 then wsPayload16 else wsPayload64

/-- The extended length. -/
def extension (len : ℕ) : List UInt8 :=
  if len ≤ 125 then [] else if len < 2 ^ 16 - 1 then Bytes.encode 2 len else Bytes.encode 8 len

def header (code : WSOPCode) (masked : Bool) (len : ℕ) : List UInt8 :=
  [0x80 ||| (0x0F &&& code.value), maskBit masked (shortLen len)]

/-- `WriteFrame` sees room for a frame. -/
def HasRoom (free len : ℕ) (masked : Bool) : Prop :=
  2 + (extension len).length + len + (if masked then 0 else 4) ≤ free

theorem length_extension (len : ℕ) : (extension len).length ≤ 8 := by
  unfold extension
  split_ifs <;> simp

/-- The three branches of `WriteFrame` are one, as long as no sum is cut. -/
theorem writeFrame_cases {σ : Type*} [FrameSink σ] {t : σ} (hnil : ∀ t : σ, FrameSink.push t [] = t)
    (code : WSOPCode) (masked : Bool) {len : ℕ} (hlen : len < 2 ^ 63) :
    (HasRoom (FrameSink.free t % 2 ^ 32) len masked → writeFrame t code masked len
      = (true, FrameSink.push (FrameSink.push t (header code masked len)) (extension len))) ∧
    (¬HasRoom (FrameSink.free t % 2 ^ 32) len masked →
      writeFrame t code masked len = (false, t)) := by
  have hspare : (if masked then 0 else 4 : ℕ) ≤ 4 := by split_ifs <;> omega
  unfold writeFrame HasRoom extension header shortLen
  by_cases h₁ : len ≤ 125
  · simp only [if_pos h₁, List.length_nil, Nat.add_zero, hnil]
    rw [Nat.mod_eq_of_lt (by omega : 2 + len + _ < 2 ^ 64)]
    exact ⟨fun hroom ↦ if_neg (by omega), fun hroom ↦ if_pos (by omega)⟩
  · by_cases h₂ : len < 2 ^ 16 - 1
    · simp only [if_neg h₁, if_pos h₂, Bytes.length_encode]
      rw [Nat.mod_eq_of_lt (by omega : 4 + len + _ < 2 ^ 64)]
      exact ⟨fun hroom ↦ if_neg (by omega), fun hroom ↦ if_pos (by omega)⟩
    · simp only [if_neg h₁, if_neg h₂, Bytes.length_encode]
      rw [Nat.mod_eq_of_lt (by omega : 10 + len + _ < 2 ^ 64)]
      exact ⟨fun hroom ↦ if_neg (by omega), fun hroom ↦ if_pos (by omega)⟩

theorem writeFrame_eq {b : BipBuf .uint64 UInt8} (code : WSOPCode) (masked : Bool) {len : ℕ}
    (hfree : b.free < 2 ^ 32) (hlen : len < 2 ^ 63) :
    (HasRoom b.free len masked → writeFrame b code masked len
      = (true, (b.pushList (header code masked len)).pushList (extension len))) ∧
    (¬HasRoom b.free len masked → writeFrame b code masked len = (false, b)) := by
  have hcases := writeFrame_cases (t := b) (fun t ↦ BipBuf.pushList_nil (b := t)) code masked hlen
  simp only [FrameSink.free, FrameSink.push, Nat.mod_eq_of_lt hfree] at hcases
  exact hcases

end WebSocket

/-! ## The whole frame -/

namespace Con

variable {cacheSize : ℕ} {con : Con cacheSize}

/-- The bytes of a frame in the order in which a connection writes them. -/
def wire (con : Con cacheSize) (code : WSOPCode) (data : List UInt8) : List UInt8 :=
  header code con.masked data.length ++ extension data.length
    ++ (if con.masked then con.mask ++ Bytes.xorMask con.mask 0 data else data)

/-- The connection can queue. -/
def Sends (con : Con cacheSize) : Prop := con.state = .open ∨ con.state = .openData

/-- `Queue` appends the frame. The room that `WriteFrame` sees is enough on a server. -/
theorem queue_of_room {cap : ℕ} {l : List UInt8} (code : WSOPCode) {data : List UInt8}
    (hsends : con.Sends) (hbuf : con.writeBuf.Buffers cap l) (hcap : cap < 2 ^ 32)
    (hroom : HasRoom con.writeBuf.free data.length con.masked)
    (hwire : con.masked = true → l.length + (con.wire code data).length ≤ cap) :
    (con.queue code data).1 = true ∧
      (con.queue code data).2.writeBuf.Buffers cap (l ++ con.wire code data) ∧
      (con.queue code data).2 = { con with
        writeBuf := (con.queue code data).2.writeBuf
        calls := con.calls ++ [.setWrite] } := by
  have hfree := hbuf.free_eq
  have hlen : data.length < 2 ^ 63 := by
    unfold HasRoom at hroom
    omega
  have hwrite := (writeFrame_eq code con.masked (by omega) hlen).1 hroom
  -- on a server `WriteFrame` asks for more than the frame has
  have hfits : l.length + (con.wire code data).length ≤ cap := by
    by_cases hm : con.masked = true
    · exact hwire hm
    · unfold HasRoom at hroom
      simp only [wire, header, hm, List.length_append, List.length_cons, List.length_nil] at hroom ⊢
      simp at hroom ⊢
      omega
  have hqueue : con.queue code data = (true, { con with
      writeBuf := con.pushPayload ((con.writeBuf.pushList
        (header code con.masked data.length)).pushList (extension data.length)) data }.call
        .setWrite) := by
    unfold Sends at hsends
    rw [Con.queue, if_pos hsends, hwrite]
    rfl
  rw [hqueue]
  refine ⟨rfl, ?_, rfl⟩
  simp only [Con.call]
  unfold wire at hfits ⊢
  rw [pushPayload]
  have h₁ := hbuf.pushList (k := header code con.masked data.length) (by
    simp only [List.length_append] at hfits
    omega)
  have h₂ := h₁.pushList (k := extension data.length) (by
    simp only [List.length_append] at hfits ⊢
    omega)
  by_cases hm : con.masked = true
  · simp only [if_pos hm, List.length_append, Bytes.length_xorMask] at hfits ⊢
    have h₃ := h₂.pushList (k := con.mask) (by simp only [List.length_append]; omega)
    have h₄ := h₃.foldl_push (k := Bytes.xorMask con.mask 0 data)
      (by simp only [List.length_append, Bytes.length_xorMask]; omega)
    simpa only [List.append_assoc, pushMask] using h₄
  · simp only [if_neg hm, List.length_append] at hfits ⊢
    have h₃ := h₂.pushList (k := data) (by simp only [List.length_append]; omega)
    simpa only [List.append_assoc] using h₃

theorem queue_of_no_room {code : WSOPCode} {data : List UInt8} (hfree : con.writeBuf.free < 2 ^ 32)
    (hlen : data.length < 2 ^ 63)
    (h : ¬con.Sends ∨ ¬HasRoom con.writeBuf.free data.length con.masked) :
    con.queue code data = (false, con) := by
  unfold Sends at h
  rw [Con.queue]
  by_cases hsends : con.state = .open ∨ con.state = .openData
  · have hroom := h.resolve_left (not_not.mpr hsends)
    rw [if_pos hsends, (writeFrame_eq code con.masked hfree hlen).2 hroom]
    rfl
  · rw [if_neg hsends]

end Con

end Coypu
