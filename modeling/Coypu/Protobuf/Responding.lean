import Coypu.Library.Bytes
import Coypu.Protobuf.OutStream
import Coypu.Protobuf.ProtoManager
import Mathlib.Logic.Function.Basic

/-!
# Responses

`WriteResponse` puts a response into the write buffer of a connection in three steps: a byte that
says that it is not compressed, its length, and the response itself, which protobuf writes in place.
The result of the first `Push` is not looked at, and nothing that was put there is taken back when a
later step fails. So there must be room for all three, or for nothing at all.

protobuf is a parameter (`ResponseLib`), which is taken to ask for cells, to fail where it gets
none, and to give back what it does not need (`ResponseLib.Lawful`).
-/

set_option autoImplicit false

namespace Coypu

open FlatMemory BipBuf

/-- What the manager is given: a response as it is on the wire, and the function that writes it to a
stream. -/
structure ResponseLib (Resp : Type) where
  encode : Resp → List UInt8
  serialize : Resp → BufZeroCopyOutputStream .int UInt8 → Bool × BufZeroCopyOutputStream .int UInt8

/-- The function writes what is on the wire. -/
def ResponseLib.Lawful {Resp : Type} (lib : ResponseLib Resp) : Prop :=
  ∀ (resp : Resp) (t : BufZeroCopyOutputStream .int UInt8), t.buf.Wf →
    BufZeroCopyOutputStream.Writes t (lib.encode resp) (lib.serialize resp t).1
      (lib.serialize resp t).2

/-- What `WriteResponse` returns, and whether it asks for the descriptor to be written to. -/
structure Responded where
  ret : ℤ
  setWrite : Bool
deriving DecidableEq

/-- The managers' connections, of which `WriteResponse` uses the write buffer. -/
structure ProtoResponder where
  connections : ℕ → Option (BipBuf .int UInt8)

namespace ProtoResponder

variable {Resp : Type} (lib : ResponseLib Resp) (m : ProtoResponder) (fd : ℕ) (resp : Resp)

/-- `WriteResponse` of a connection. -/
def respond (writeBuf : BipBuf .int UInt8) : Responded × BipBuf .int UInt8 :=
  let size := Bytes.encode 4 (lib.encode resp).length
  let o := writeBuf.pushBlock (some fun _ ↦ 0) 1
  let p := o.buf.pushBlock (some fun i ↦ size.getD i 0) 4
  if p.ret = false then (⟨-1, false⟩, p.buf)
  else
    let r := lib.serialize resp ⟨p.buf, 0⟩
    if r.1 = false then (⟨-2, false⟩, r.2.buf) else (⟨0, true⟩, r.2.buf)

/-- `WriteResponse`. -/
def writeResponse : Responded × ProtoResponder :=
  match m.connections fd with
  | none => (⟨-1, false⟩, m)
  | some writeBuf =>
    ((respond lib resp writeBuf).1,
      ⟨Function.update m.connections fd (some (respond lib resp writeBuf).2)⟩)

/-- What is written to the peer. -/
def frame : List UInt8 := [0] ++ Bytes.encode 4 (lib.encode resp).length ++ lib.encode resp

/-- What waits to be written, for each descriptor. -/
def waiting (m : ProtoResponder) (fd : ℕ) : Option (List UInt8) :=
  (m.connections fd).map BipBuf.contents

/-- Either the whole response waits to be written behind what waited before, or nothing was
changed. -/
def AllOrNothing : Prop :=
  if (m.writeResponse lib fd resp).1.ret = 0 then
    ∃ l, m.waiting fd = some l ∧ (m.writeResponse lib fd resp).2.waiting
      = Function.update m.waiting fd (some (l ++ frame lib resp))
  else (m.writeResponse lib fd resp).2.waiting = m.waiting

/-! ## One connection -/

variable {lib} {m} {fd} {resp} {b : BipBuf .int UInt8}

theorem respond_of_full (hfree : b.free = 0) : respond lib resp b = (⟨-1, false⟩, b) := by
  rw [respond]
  simp only [pushBlock_of_no_room (b := b) (fun _ ↦ 0) (n := 1) (by omega)]
  rw [pushBlock_of_no_room (b := b) _ (n := 4) (by omega), if_pos rfl]

variable (lib) (resp) in
theorem respond_of_short (h : b.Wf) (hone : 1 ≤ b.free) (hfree : b.free < 5) :
    (respond lib resp b).1.ret = -1 ∧ (respond lib resp b).2.Wf ∧
      (respond lib resp b).2.contents = b.contents ++ [0] := by
  obtain ⟨-, hwf, hcontents, hfree'⟩ := pushBlock_of_room h (fun _ ↦ 0) Nat.one_pos hone
  rw [respond]
  simp only
  rw [pushBlock_of_no_room _ (n := 4) (by omega), if_pos rfl]
  exact ⟨rfl, hwf, hcontents⟩

variable (resp) in
/-- With room for both the response is written behind them, as far as there is room for it. -/
theorem respond_of_room (hlib : lib.Lawful) (h : b.Wf) (hfree : 5 ≤ b.free) :
    ((respond lib resp b).1.ret = 0 ↔ (lib.encode resp).length ≤ b.free - 5) ∧
      (respond lib resp b).2.Wf ∧
      (respond lib resp b).2.contents = b.contents ++
        ([0] ++ Bytes.encode 4 (lib.encode resp).length
        ++ (lib.encode resp).take (b.free - 5)) := by
  obtain ⟨-, hwf, hcontents, hfree'⟩ := pushBlock_of_room h (fun _ ↦ 0) Nat.one_pos (by omega)
  have hsize := Bytes.length_encode 4 (lib.encode resp).length
  obtain ⟨hret, hwf', hcontents', hfree''⟩ := pushBlock_of_room hwf
    (fun i ↦ (Bytes.encode 4 (lib.encode resp).length).getD i 0) (n := 4) (by omega) (by omega)
  have hload := load_getD (Bytes.encode 4 (lib.encode resp).length) 0
  rw [hsize] at hload
  rw [hload, hcontents] at hcontents'
  have hrest : b.free - 1 - 4 = b.free - 5 := by omega
  rw [respond]
  simp only
  rw [if_neg (fun hno ↦ Bool.false_ne_true (hno.symm.trans hret))]
  -- the response is written behind the five bytes
  obtain ⟨hwf'', hwritten, hok⟩ := (hlib resp ⟨_, 0⟩ hwf').contents hwf'
  simp only [hcontents', hfree'', hfree', hrest] at hwritten hok
  rw [← hok]
  have happend : b.contents ++ load (fun _ ↦ 0) 0 1 ++ Bytes.encode 4 (lib.encode resp).length
      ++ (lib.encode resp).take (b.free - 5) = b.contents ++
        ([0] ++ Bytes.encode 4 (lib.encode resp).length
        ++ (lib.encode resp).take (b.free - 5)) := by
    simp [load]
  rw [happend] at hwritten
  split_ifs with hfails
  · exact ⟨iff_of_false (by simp) (fun hdone ↦ Bool.false_ne_true (hfails.symm.trans hdone)), hwf'',
      hwritten⟩
  · exact ⟨iff_of_true rfl (eq_true_of_ne_false hfails), hwf'', hwritten⟩

/-- The response is written whole, or the buffer is left as it was. -/
def RespondsWhole (lib : ResponseLib Resp) (resp : Resp) (b : BipBuf .int UInt8) : Prop :=
  (respond lib resp b).2.contents
    = if (respond lib resp b).1.ret = 0 then b.contents ++ frame lib resp else b.contents

theorem respondsWhole_iff (hlib : lib.Lawful) (h : b.Wf) :
    RespondsWhole lib resp b ↔ b.full = true ∨ 5 + (lib.encode resp).length ≤ b.free := by
  have hlen := h.rep.length_le
  have hfull : b.full = true ↔ b.free = 0 := by
    rw [h.rep.full_eq h.bounded, decide_eq_true_iff, h.rep.free_eq]
    omega
  rw [hfull, RespondsWhole]
  rcases Nat.lt_or_ge b.free 5 with hlt | hge
  · rcases Nat.eq_zero_or_pos b.free with hzero | hpos
    · rw [respond_of_full hzero]
      exact iff_of_true rfl (Or.inl hzero)
    · obtain ⟨hret, -, hcontents⟩ := respond_of_short lib resp h hpos hlt
      -- the first byte stays in the buffer
      rw [hret, hcontents, if_neg (by decide)]
      refine iff_of_false (fun heq ↦ ?_) (by omega)
      exact absurd (congrArg List.length heq) (by simp)
  · obtain ⟨hret, -, hcontents⟩ := respond_of_room resp hlib h hge
    rw [hcontents]
    by_cases hfits : (lib.encode resp).length ≤ b.free - 5
    · rw [if_pos (hret.mpr hfits), List.take_of_length_le hfits]
      exact iff_of_true rfl (Or.inr (by omega))
    · rw [if_neg (fun h0 ↦ hfits (hret.mp h0))]
      refine iff_of_false (fun heq ↦ ?_) (by omega)
      exact absurd (congrArg List.length heq) (by simp)

/-! ## The manager -/

/-- Every write buffer is well-formed. -/
def Wf (m : ProtoResponder) : Prop := ∀ fd b, m.connections fd = some b → b.Wf

theorem waiting_set (fd : ℕ) (b : BipBuf .int UInt8) :
    (⟨Function.update m.connections fd (some b)⟩ : ProtoResponder).waiting
      = Function.update m.waiting fd (some b.contents) := by
  funext i
  rw [waiting]
  simp only
  by_cases hi : i = fd
  · rw [hi, Function.update_self, Function.update_self, Option.map_some]
  · rw [Function.update_of_ne hi, Function.update_of_ne hi, waiting]

theorem allOrNothing_of_some (hsome : m.connections fd = some b) :
    m.AllOrNothing lib fd resp ↔ RespondsWhole lib resp b := by
  have hwaiting : m.waiting fd = some b.contents := by rw [waiting, hsome, Option.map_some]
  rw [AllOrNothing, writeResponse, RespondsWhole]
  simp only [hsome]
  rw [waiting_set, hwaiting]
  split_ifs
  · constructor
    · rintro ⟨l, hl, heq⟩
      have hself := congrFun heq fd
      rw [Function.update_self, Function.update_self, Option.some.injEq] at hself
      rw [hself, Option.some.inj hl]
    · intro heq
      exact ⟨b.contents, rfl, by rw [heq]⟩
  · constructor
    · intro heq
      have hself := congrFun heq fd
      rw [Function.update_self, hwaiting] at hself
      exact Option.some.inj hself
    · intro heq
      rw [heq, ← hwaiting, Function.update_eq_self]

/-- **Where a response is written whole or not at all.** A call with a descriptor that is not
registered changes nothing. For any other, the response is put behind what waits in the write
buffer, or the buffer is left as it was, exactly if the buffer is full or has room for the five
bytes in front and the response. -/
theorem allOrNothing_iff (hlib : lib.Lawful) (h : m.Wf) :
    m.AllOrNothing lib fd resp ↔
      ∀ b, m.connections fd = some b → b.full = true ∨ 5 + (lib.encode resp).length ≤ b.free := by
  rcases Option.eq_none_or_eq_some (m.connections fd) with hnone | ⟨b, hsome⟩
  · rw [AllOrNothing, writeResponse, hnone]
    exact iff_of_true rfl fun b hb ↦ absurd hb (by simp)
  · rw [allOrNothing_of_some hsome, respondsWhole_iff hlib (h fd b hsome)]
    constructor
    · rintro hcondition b' hb'
      obtain rfl : b = b' := Option.some.inj (hsome.symm.trans hb')
      exact hcondition
    · intro hcondition
      exact hcondition b hsome

/-- A writer of lists that asks for cells only as long as there are items left. -/
def writeLoop : ℕ → List UInt8 → BufZeroCopyOutputStream .int UInt8 →
    Bool × BufZeroCopyOutputStream .int UInt8
  | 0, l, t => (l.isEmpty, t)
  | fuel + 1, l, t =>
    if l = [] then (true, t)
    else
      match t.next with
      | (none, t') => (false, t')
      | (some r, t') =>
        if l.length ≤ r.len then (true, (t'.poke r.start l).backUp (r.len - l.length))
        else writeLoop fuel (l.drop r.len) (t'.poke r.start (l.take r.len))

/-- Responses that are byte strings. -/
def byteLib : ResponseLib (List UInt8) where
  encode l := l
  serialize l t := writeLoop l.length l t

theorem writes_writeLoop {fuel : ℕ} {l : List UInt8} {t : BufZeroCopyOutputStream .int UInt8}
    (h : t.buf.Wf) (hfuel : l.length ≤ fuel) :
    BufZeroCopyOutputStream.Writes t l (writeLoop fuel l t).1 (writeLoop fuel l t).2 := by
  induction fuel generalizing l t with
  | zero =>
    obtain rfl : l = [] := List.length_eq_zero_iff.mp (Nat.le_zero.mp hfuel)
    exact .done t
  | succ fuel ih =>
    rw [writeLoop]
    by_cases hl : l = []
    · rw [if_pos hl, hl]
      exact .done t
    rw [if_neg hl]
    by_cases hf : t.buf.full = true
    · have hrefused : BufZeroCopyOutputStream.Writes t l false t.next.2 :=
        .refused (by rw [BufZeroCopyOutputStream.next_of_full hf]) hl
      simp only [BufZeroCopyOutputStream.next_of_full hf] at hrefused ⊢
      exact hrefused
    · have hf' := Bool.eq_false_iff.mpr hf
      have hnext := BufZeroCopyOutputStream.next_of_not_full hf'
      have hsome : t.next.1 = some ⟨t.buf.head, t.buf.freeRun⟩ := by rw [hnext]
      simp only [hnext]
      split_ifs with hle
      · have hlast := BufZeroCopyOutputStream.Writes.last hsome hle
        rwa [hnext] at hlast
      · -- a region has at least one cell, so what is left gets shorter
        have hpos := (BipBuf.freeRun_le h hf').1
        have hrest := ih (l := l.drop t.buf.freeRun)
          (t := t.next.2.poke t.buf.head (l.take t.buf.freeRun))
          (by rw [hnext]; exact (BipBuf.pushDirect_keeping h).wf.poke _ _)
          (by rw [List.length_drop]; omega)
        have hmore := BufZeroCopyOutputStream.Writes.more hsome (Nat.le_of_not_le hle) hrest
        rwa [hnext] at hmore

theorem byteLib_lawful : byteLib.Lawful := fun _ _ h ↦ writes_writeLoop h (Nat.le_refl _)

/-- The one connection of a manager, with a given write buffer. -/
def single (b : BipBuf .int UInt8) : ProtoResponder := ⟨fun fd ↦ if fd = 3 then some b else none⟩

/-- A write buffer as a connection has it, with `n` bytes in front of the end of the array. -/
def filledTo (n : ℕ) : BipBuf .int UInt8 :=
  { BipBuf.new (fun _ ↦ 7) ProtoConnection.capacity with head := n }

theorem filledTo_wf {n : ℕ} (hn : n < 65536) : (filledTo n).Wf :=
  ⟨hn, ProtoConnection.capacity.pos, fun hf ↦ absurd hf Bool.false_ne_true⟩

/-- An empty write buffer has room for a response of three bytes. -/
theorem allOrNothing_empty : (single (filledTo 0)).AllOrNothing byteLib 3 [1, 2, 3] := by
  refine (allOrNothing_iff byteLib_lawful fun fd b hb ↦ ?_).mpr fun b hb ↦ ?_
  · obtain ⟨-, hb⟩ := Option.ite_none_right_eq_some.mp hb
    exact Option.some.inj hb ▸ filledTo_wf (by decide)
  · obtain rfl : filledTo 0 = b := Option.some.inj hb
    exact Or.inr (by decide)

/-- Three bytes are free in a write buffer: the first byte of the response is put there, and stays
there when the call fails. -/
theorem not_allOrNothing_of_short :
    (filledTo 65533).free = 3 ∧ ¬(single (filledTo 65533)).AllOrNothing byteLib 3 [1, 2, 3] := by
  refine ⟨by decide, fun h ↦ ?_⟩
  have hwhole := (allOrNothing_of_some rfl).mp h
  rcases (respondsWhole_iff byteLib_lawful (filledTo_wf (by decide))).mp hwhole with hfull | hroom
  · exact absurd hfull (by decide)
  · exact absurd hroom (by decide)

end ProtoResponder

end Coypu
