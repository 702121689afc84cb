import Coypu.Http.Parsing

/-!
# Frames on the wire

A frame as a peer sends it: any operation code, any of the three encodings of its length, with or
without a key. The parser takes it as it was sent, if what it takes for the key and for the length
is that (`drains_wireFrame`).
-/

set_option autoImplicit false

namespace Coypu

open Incremental WebSocket

variable {cacheSize : ℕ}

/-- A frame: its first byte, seven bits for the length, the extended length, the key if there is
one, and the payload as it is sent. -/
structure WireFrame where
  first : UInt8
  short : Fin 128
  extension : List UInt8
  key : List UInt8
  payload : List UInt8
  extension_eq : extension.length = Con.extended (UInt8.ofNat short.val)
  key_eq : key = [] ∨ key.length = wsMaskLen
  payload_eq : payload.length = if extension.length = 0 then short.val else Bytes.decode extension

namespace WireFrame

theorem key_nil : ([] : List UInt8) = [] ∨ ([] : List UInt8).length = wsMaskLen := Or.inl rfl

variable (f : WireFrame)

def masked : Bool := decide (f.key ≠ [])

def second : UInt8 := maskBit f.masked (UInt8.ofNat f.short.val)

def opcode : UInt8 := f.first &&& 0x0F

def bytes : List UInt8 := f.first :: f.second :: (f.extension ++ f.key ++ f.payload)

/-- The frames one behind the other. -/
def frames (fs : List WireFrame) : List UInt8 := fs.flatMap bytes

/-- What `DoOpen` takes for the key and the extended length, which it expects the other way round,
is that. -/
def Readable : Prop := f.extension ++ f.key = f.key ++ f.extension

variable {f}

theorem masked_iff : f.second &&& 0x80 ≠ 0 ↔ f.masked = true := by
  rw [second, maskBit]
  cases f.masked with
  | false => simpa using (shortLen_table f.short).2.2.1
  | true => simpa using (shortLen_table f.short).2.2.2

theorem short_eq : 0x7F &&& f.second = UInt8.ofNat f.short.val := by
  rw [second, maskBit]
  split_ifs
  · exact (shortLen_table f.short).2.1
  · exact (shortLen_table f.short).1

theorem key_length : (if f.second &&& 0x80 ≠ 0 then wsMaskLen else 0) = f.key.length := by
  by_cases hkey : f.key = []
  · rw [if_neg (by rw [masked_iff, masked]; simpa using hkey), hkey, List.length_nil]
  · rw [if_pos (by rw [masked_iff, masked]; simpa using hkey), f.key_eq.resolve_left hkey]

theorem headerLen_eq : Con.headerLen f.second + f.payload.length = f.bytes.length := by
  rw [Con.headerLen, key_length, short_eq, ← f.extension_eq, bytes]
  simp only [List.length_cons, List.length_append]
  omega

theorem tookHeader_eq (hread : f.Readable) (con : Con cacheSize) (rest : List UInt8) :
    (con.tookHeader f.first f.second (f.extension ++ f.key ++ f.payload ++ rest)).frame.opcode =
      f.opcode ∧
      (con.tookHeader f.first f.second (f.extension ++ f.key ++ f.payload ++ rest)).frame.len
        = f.payload.length := by
  refine ⟨rfl, ?_⟩
  simp only [Con.tookHeader, key_length, short_eq, ← f.extension_eq]
  rw [hread, List.append_assoc, List.append_assoc, List.drop_left, List.take_left, f.payload_eq,
    UInt8.toNat_ofNat', Nat.mod_eq_of_lt (Nat.lt_trans f.short.isLt (by decide))]

/-- **The parser takes a frame**, its payload being at an offset, and then what follows it. -/
theorem drains_wireFrame {s : Reading cacheSize} (hstate : s.con.state = .open) (hread : f.Readable)
    (rest : List UInt8) : ∃ (c : Con cacheSize) (d : Decoded), c.frame.opcode = f.opcode ∧
      d.opcode = f.opcode ∧ d.len = f.payload.length ∧
      d.offset = s.cursor + (f.bytes.length - f.payload.length) ∧
      ∀ {es : List Decoded} {σ : Option (Reading cacheSize)} {l : List UInt8},
        Drains (parser cacheSize) (some s) (f.bytes ++ rest) es σ l ↔ ∃ es', es = d :: es' ∧
          Drains (parser cacheSize)
            ((c.dispatch f.payload d.offset).map fun c' ↦ ⟨c', s.cursor + f.bytes.length⟩)
            rest es' σ l := by
  have hlen := f.headerLen_eq
  obtain ⟨t, ht⟩ : ∃ t, t = f.extension ++ f.key ++ f.payload ++ rest := ⟨_, rfl⟩
  have hbytes : f.bytes ++ rest = f.first :: f.second :: t := by
    rw [ht, bytes]
    simp only [List.cons_append, List.append_assoc]
  obtain ⟨hopcode, hpayload⟩ := tookHeader_eq hread s.con rest
  rw [← ht] at hopcode hpayload
  have hle : Con.headerLen f.second ≤ (f.first :: f.second :: t).length := by
    rw [← hbytes, List.length_append]
    omega
  have hdrop : (f.bytes ++ rest).drop (Con.headerLen f.second) = f.payload ++ rest := by
    have hheader : Con.headerLen f.second = (f.extension ++ f.key).length + 1 + 1 := by
      rw [bytes, List.length_cons, List.length_cons, List.length_append] at hlen
      omega
    rw [hbytes, ht, hheader, List.drop_succ_cons, List.drop_succ_cons, List.append_assoc,
      List.drop_left]
  have hstep₁ : (parser cacheSize).step (some s) (f.bytes ++ rest)
      = some ⟨some ⟨s.con.tookHeader f.first f.second t, s.cursor + Con.headerLen f.second⟩,
        Con.headerLen f.second, none⟩ := by
    rw [hbytes, parser_step, step_open hstate, Reading.takeHeader, if_pos hle]
  have hstep₂ : (parser cacheSize).step
      (some ⟨s.con.tookHeader f.first f.second t, s.cursor + Con.headerLen f.second⟩)
        (f.payload ++ rest)
        = some ⟨((s.con.tookHeader f.first f.second t).dispatch f.payload
          (s.cursor + Con.headerLen f.second)).map fun c' ↦ ⟨c', s.cursor + f.bytes.length⟩,
            f.payload.length,
            some ((s.con.tookHeader f.first f.second t).decodedAt
              (s.cursor + Con.headerLen f.second))⟩ := by
    rw [parser_step, step_openData rfl, Reading.takePayload]
    simp only [hpayload, List.take_left]
    rw [if_pos (by simp), ← hlen, Nat.add_assoc]
  have hoffset : s.cursor + (f.bytes.length - f.payload.length)
    = s.cursor + Con.headerLen f.second := by omega
  refine ⟨s.con.tookHeader f.first f.second t,
    (s.con.tookHeader f.first f.second t).decodedAt (s.cursor + Con.headerLen f.second), hopcode,
    hopcode, hpayload, hoffset.symm, fun {es σ l} ↦ ?_⟩
  rw [Drains.iff_of_step hstep₁]
  simp only [hdrop, Option.toList_none, List.nil_append, exists_eq_left']
  rw [Drains.iff_of_step hstep₂]
  simp only [List.drop_left, Option.toList_some, List.singleton_append]
  rfl

end WireFrame

end Coypu
