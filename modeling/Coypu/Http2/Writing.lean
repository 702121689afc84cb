import Coypu.Buf.Writev
import Coypu.Http2.Manager
import Coypu.Store.MultiPositionedStreamLog

/-!
# Writing to a client

What is to be sent to a client waits in two places, the write buffer of its connection and the
publish log. `Write` of both managers sends from the write buffer, or from the log if the buffer is
empty, and returns `0` if there is nothing left in the place it sent from. The loop then waits for
no more than reading.

The log is forgotten when the transport takes the whole write buffer.
-/

set_option autoImplicit false

namespace Coypu

open FlatMemory Transport

/-! ## The write buffer -/

namespace BipBuf

variable {b : BipBuf .uint64 UInt8}

/-- The transport takes exactly as many bytes as there are. -/
def TakesAll (b : BipBuf .uint64 UInt8) (cb : Writer) : Prop :=
  cb.run (b.writevRegions.map Region.len) = b.available

theorem Wf.isEmpty_eq_true_iff (h : b.Wf) : b.isEmpty = true ↔ b.available = 0 := by
  rw [h.rep.isEmpty_eq, List.isEmpty_iff, h.rep.available_eq, List.length_eq_zero_iff]

/-- Behind a `Writev` that does not fail the buffer is empty exactly if the transport took all.
Where the items end with the array, the length that is offered is wrong, and the transport may take
another number. -/
theorem Wf.writev_isEmpty_iff (h : b.Wf) (cb : Writer) (hcap : b.capacity < 2 ^ 31)
    (hav : b.available ≠ 0) :
    0 ≤ (b.writev cb).ret ∧ (b.writev cb).buf.isEmpty = true ↔ b.TakesAll cb := by
  have havail := h.rep.available_eq
  have hret : (b.writev cb).ret = cb.run (b.writevRegions.map Region.len) := by
    rw [writev_eq hav]
    rfl
  have htail := h.tail_lt
  unfold TakesAll
  rw [← hret]
  by_cases hfits : b.LengthsFit
  · obtain ⟨hwf, -, hsum, hcontents⟩ := h.writev cb fun _ ↦ hfits
    have hrun := cb.run_le (b.writevRegions.map Region.len)
    rw [writev_loads hav] at hsum
    rw [hsum, ← hret] at hrun
    rw [hwf.rep.isEmpty_eq, List.isEmpty_iff, hcontents, List.drop_eq_nil_iff, ← havail]
    omega
  · -- the items end with the array
    have hhead : b.head = 0 := by
      unfold LengthsFit at hfits
      omega
    have hrest : b.available = b.capacity - b.tail := by
      unfold available
      split_ifs with hfull
      · rw [← h.full_eq hfull, hhead, Nat.sub_zero]
      · rw [available, if_neg hfull] at hav
        split_ifs at hav
        omega
      · omega
    rw [hret, writev_eq hav, BipBuf.drained]
    have hint := cb.run_lt (b.writevRegions.map Region.len)
    by_cases hpos : 0 < cb.run (b.writevRegions.map Region.len)
    · have hmove : b.writevMove (cb.run (b.writevRegions.map Region.len))
          = b.tail + (cb.run (b.writevRegions.map Region.len)).toNat := by
        rw [BipBuf.writevMove, if_neg (by omega), if_neg (by omega)]
        obtain ⟨n, hn⟩ := Int.eq_ofNat_of_zero_le (Int.le_of_lt hpos)
        rw [hn, Int.toNat_natCast]
        exact_mod_cast CapacityType.ofInt_natCast (T := .uint64) (n := b.tail + n)
          (show b.tail + n < 2 ^ 63 by omega)
      simp only [if_pos hpos, hmove]
      rw [isEmpty, clearFull_full, clearFull_tail, clearFull_head, wrapTail_head, wrapTail_tail]
      simp only [Bool.not_false, Bool.and_true, decide_eq_true_iff, hhead]
      split_ifs <;> omega
    · have hself : b.wrapTail = b := if_neg (by omega)
      have hempty := h.isEmpty_eq_true_iff.not.mpr hav
      simp only [if_neg hpos, hself]
      refine iff_of_false (fun hand ↦ hempty hand.2) fun htakes ↦ ?_
      omega

end BipBuf

/-! ## `Write` -/

/-- What `Write` returns, the write buffer and the publish log it leaves, and the bytes the
transport took. -/
structure WriteOut (publishSize : ℕ) where
  ret : ℤ
  writeBuf : BipBuf .uint64 UInt8
  publish : Option (MultiPositionedStreamLog publishSize)
  bytes : List UInt8

variable {cacheSize publishSize : ℕ}

/-- `Write` of a connection with this write buffer. -/
def writeOut (writeBuf : BipBuf .uint64 UInt8)
    (publish : Option (MultiPositionedStreamLog publishSize))
    (fd : ℕ) (find : ℕ → Bool) (cb : Writer) : WriteOut publishSize :=
  if writeBuf.isEmpty = false then
    let o := writeBuf.writev cb
    ⟨if o.ret < 0 then o.ret else if o.buf.isEmpty then 0 else 1, o.buf, publish,
      writeBuf.accepted o⟩
  else
    match publish with
    | none => ⟨0, writeBuf, none, []⟩
    | some m =>
      let r := m.writev (m.availableAt fd) fd find cb
      ⟨if r.1 < 0 then r.1 else if r.2.2.isEmptyAt fd then 0 else 1, writeBuf, some r.2.2,
        (gather m.stream.data r.2.1).take r.1.toNat⟩

/-- `HTTP2GRPCManager::Write`. -/
def H2Connection.write (con : H2Connection)
    (publish : Option (MultiPositionedStreamLog publishSize))
    (fd : ℕ) (find : ℕ → Bool) (cb : Writer) :
    ℤ × H2Connection × Option (MultiPositionedStreamLog publishSize) :=
  let r := writeOut con.writeBuf publish fd find cb
  (r.ret, { con with writeBuf := r.writeBuf }, r.publish)

theorem Con.write_eq (con : Con cacheSize) (publish : Option (MultiPositionedStreamLog publishSize))
    (fd : ℕ) (find : ℕ → Bool) (cb : Writer) : con.write publish fd find cb =
      ⟨(writeOut con.writeBuf publish fd find cb).ret,
        { con with writeBuf := (writeOut con.writeBuf publish fd find cb).writeBuf },
        (writeOut con.writeBuf publish fd find cb).publish,
        (writeOut con.writeBuf publish fd find cb).bytes⟩ := by
  unfold Con.write writeOut
  by_cases hempty : con.writeBuf.isEmpty = false
  · rw [if_pos hempty, if_pos hempty]
  · rw [if_neg hempty, if_neg hempty]
    cases publish with
    | none => rfl
    | some m => rfl

/-- The publish log holds nothing unsent for the descriptor. -/
def AllSent (publish : Option (MultiPositionedStreamLog publishSize)) (fd : ℕ) : Prop :=
  ∀ m, publish = some m → m.isEmptyAt fd = true

/-- `Write` returns `0` only if there is nothing left to send. -/
def DropsInterest (ret : ℤ) (writeBuf : BipBuf .uint64 UInt8)
    (publish : Option (MultiPositionedStreamLog publishSize)) (fd : ℕ) : Prop :=
  ret = 0 → writeBuf.isEmpty = true ∧ AllSent publish fd

/-- The write buffer is empty, or the transport does not take exactly what it holds, or nothing is
unsent in the publish log. -/
def NothingBehind (writeBuf : BipBuf .uint64 UInt8)
    (publish : Option (MultiPositionedStreamLog publishSize)) (fd : ℕ) (cb : Writer) : Prop :=
  writeBuf.isEmpty = true ∨ ¬writeBuf.TakesAll cb ∨ AllSent publish fd

theorem writeOut_dropsInterest_iff {writeBuf : BipBuf .uint64 UInt8}
    (publish : Option (MultiPositionedStreamLog publishSize)) (fd : ℕ) (find : ℕ → Bool)
    (cb : Writer) (hwf : writeBuf.Wf) (hcap : writeBuf.capacity < 2 ^ 31) :
    DropsInterest (writeOut writeBuf publish fd find cb).ret
      (writeOut writeBuf publish fd find cb).writeBuf
      (writeOut writeBuf publish fd find cb).publish fd ↔ NothingBehind writeBuf publish fd cb := by
  unfold writeOut NothingBehind
  by_cases hempty : writeBuf.isEmpty = true
  · rw [if_neg (by simp [hempty])]
    refine iff_of_true ?_ (Or.inl hempty)
    cases publish with
    | none => exact fun _ ↦ ⟨hempty, fun m hm ↦ absurd hm.symm (Option.some_ne_none m)⟩
    | some m =>
      intro hret
      refine ⟨hempty, fun m' hm' ↦ ?_⟩
      rw [← Option.some.inj hm']
      dsimp only at hret
      split_ifs at hret with hneg hsent
      · omega
      · exact hsent
      · omega
  · have hav : writeBuf.available ≠ 0 := fun hzero ↦ hempty (hwf.isEmpty_eq_true_iff.mpr hzero)
    have hiff := hwf.writev_isEmpty_iff cb hcap hav
    rw [if_pos (Bool.eq_false_iff.mpr hempty), or_iff_right hempty, ← hiff]
    generalize writeBuf.writev cb = o
    change ((if o.ret < 0 then o.ret else if o.buf.isEmpty then 0 else 1) = 0 →
      o.buf.isEmpty = true ∧ AllSent publish fd) ↔ _
    constructor
    · intro h
      by_cases hall : 0 ≤ o.ret ∧ o.buf.isEmpty = true
      · refine Or.inr (h ?_).2
        rw [if_neg (by omega), if_pos hall.2]
      · exact Or.inl hall
    · intro h hret
      split_ifs at hret with hneg hbuf
      · omega
      · exact ⟨hbuf, h.resolve_left (not_not.mpr ⟨by omega, hbuf⟩)⟩
      · omega

/-- **Write interest is dropped with nothing left to send** exactly if the transport does not empty
the write buffer while the publish log has something unsent. -/
theorem write_dropsInterest_iff (con : Con cacheSize) (con₂ : H2Connection)
    (publish : Option (MultiPositionedStreamLog publishSize)) (fd : ℕ) (find : ℕ → Bool)
    (cb : Writer) (hwf : con.writeBuf.Wf) (hcap : con.writeBuf.capacity = WebSocket.bufferCapacity)
    (hwf₂ : con₂.writeBuf.Wf) (hcap₂ : con₂.writeBuf.capacity = H2Connection.capacity.val) :
    (DropsInterest (con.write publish fd find cb).ret (con.write publish fd find cb).con.writeBuf
        (con.write publish fd find cb).publish fd ↔ NothingBehind con.writeBuf publish fd cb) ∧
    (DropsInterest (con₂.write publish fd find cb).1 (con₂.write publish fd find cb).2.1.writeBuf
        (con₂.write publish fd find cb).2.2 fd ↔ NothingBehind con₂.writeBuf publish fd cb) := by
  constructor
  · rw [Con.write_eq]
    exact writeOut_dropsInterest_iff publish fd find cb hwf (by rw [hcap]; decide)
  · exact writeOut_dropsInterest_iff publish fd find cb hwf₂ (by rw [hcap₂]; decide)

/-- A server connection with a pong in its write buffer. -/
def ponging : Con 2 :=
  { Con.registerConnection true [] none false false false WebSocket.zeroedData with
    writeBuf := ((Con.registerConnection true [] none false false false
      WebSocket.zeroedData : Con 2).writeBuf.pushBlock (some fun _ ↦ 0x8A) 2).buf }

/-- A connection with the header of a frame in its write buffer. -/
def acknowledging : H2Connection :=
  { H2Connection.new (PositionedLog.createAnonStore 128) with
    writeBuf := ((H2Connection.new (PositionedLog.createAnonStore 128)).writeBuf.pushBlock
      (some fun _ ↦ 0) 9).buf }

/-- A log of ten bytes that descriptor 3 reads from its beginning. -/
def published : MultiPositionedStreamLog 2 :=
  ((((MultiPositionedStreamLog.new
    (LogRWStream.new 2 4096 LogRWStream.smallPage_pos (fun _ ↦ 0) 0
      LogRWStream.beginning_lt)).push
      (List.replicate 10 7) none).register 3 MultiPositionedStreamLog.unset).mark 3 0).2

theorem ponging_wf : ponging.writeBuf.Wf :=
  have h := BipBuf.pushBlock_refines (BipBuf.rep_new _ _) (BipBuf.bounded_new _ _) (fun _ ↦ 0x8A) 2
  h.rep.wf (h.bounded (BipBuf.bounded_new _ _))

theorem acknowledging_wf : acknowledging.writeBuf.Wf :=
  have h := BipBuf.pushBlock_refines (BipBuf.rep_new _ _) (BipBuf.bounded_new _ _) (fun _ ↦ 0) 9
  h.rep.wf (h.bounded (BipBuf.bounded_new _ _))

/-- A transport that takes one byte leaves both waiting to write. -/
theorem write_dropsInterest_ponging :
    DropsInterest (ponging.write (some published) 3 (fun _ ↦ true)
      (Writer.atMost 1 (by decide))).ret
        (ponging.write (some published) 3 (fun _ ↦ true) (Writer.atMost 1 (by decide))).con.writeBuf
        (ponging.write (some published) 3 (fun _ ↦ true) (Writer.atMost 1 (by decide))).publish 3 ∧
    DropsInterest
        (acknowledging.write (some published) 3 (fun _ ↦ true) (Writer.atMost 1 (by decide))).1
        (acknowledging.write (some published) 3 (fun _ ↦ true)
          (Writer.atMost 1 (by decide))).2.1.writeBuf
        (acknowledging.write (some published) 3 (fun _ ↦ true)
          (Writer.atMost 1 (by decide))).2.2 3 := by
  have h := write_dropsInterest_iff ponging acknowledging (some published) 3 (fun _ ↦ true)
    (Writer.atMost 1 (by decide)) ponging_wf rfl acknowledging_wf rfl
  exact ⟨h.1.mpr (Or.inr (Or.inl (by unfold BipBuf.TakesAll; decide +kernel))),
    h.2.mpr (Or.inr (Or.inl (by unfold BipBuf.TakesAll; decide +kernel)))⟩

/-- The pong is sent, ten published bytes are not, and the loop waits no more to write. -/
theorem not_dropsInterest_of_pong :
    ¬∀ (con : Con 2) (publish : Option (MultiPositionedStreamLog 2)) (fd : ℕ) (find : ℕ → Bool)
      (cb : Writer), con.writeBuf.Wf → DropsInterest (con.write publish fd find cb).ret
        (con.write publish fd find cb).con.writeBuf (con.write publish fd find cb).publish fd := by
  intro h
  have hsent := h ponging (some published) 3 (fun _ ↦ true) (Writer.atMost 2 (by decide)) ponging_wf
    (by decide +kernel)
  exact absurd (hsent.2 published rfl) (by decide +kernel)

end Coypu
