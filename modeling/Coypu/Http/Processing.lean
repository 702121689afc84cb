import Coypu.Http.WebSocket

/-!
# What reading frames changes

`DoOpen` and `DoOpenData` change the buffer they read from, the frame and the state, and write one
thing: the answer to a ping, by `Queue`. `Processed` says so for a whole `Read` of an open
connection, as a rule: what a sequence of answers keeps, the `Read` keeps.
-/

set_option autoImplicit false

namespace Coypu

open WebSocket

namespace Con

variable {cacheSize : ℕ} {con con' : Con cacheSize} {β : Type*} [FrameSource β] {buf buf' : β}
  {computeKey : List UInt8 → Option (List UInt8)}

/-- The write buffer with the answer to a ping behind what it holds, if there is room for it. -/
def answer (con : Con cacheSize) (writeBuf : BipBuf .uint64 UInt8) (data : List UInt8) :
    BipBuf .uint64 UInt8 :=
  ({ con with writeBuf := writeBuf, state := .open }.queue .pong data).2.writeBuf

/-- The write buffers that a connection can come to by answering pings. -/
inductive Answered (con : Con cacheSize) : BipBuf .uint64 UInt8 → Prop where
  | refl : Answered con con.writeBuf
  | pong {writeBuf : BipBuf .uint64 UInt8} (h : Answered con writeBuf) (data : List UInt8)
    (hlen : data.length ≤ 1024) : Answered con (con.answer writeBuf data)

/-- A connection after frames were read. -/
structure Processed (con con' : Con cacheSize) : Prop where
  head_eq : con'.head = con.head
  mask_eq : con'.mask = con.mask
  masked_eq : con'.masked = con.masked
  server_eq : con'.server = con.server
  key_eq : con'.key = con.key
  asserts_eq : con'.asserts = con.asserts
  answered : con.Answered con'.writeBuf
  state_ne : con.state ≠ .connecting → con'.state ≠ .connecting

theorem Processed.refl (con : Con cacheSize) : con.Processed con :=
  ⟨rfl, rfl, rfl, rfl, rfl, rfl, .refl, id⟩

theorem answer_congr (hmask : con'.mask = con.mask) (hmasked : con'.masked = con.masked)
    (writeBuf : BipBuf .uint64 UInt8) (data : List UInt8) :
    con'.answer writeBuf data = con.answer writeBuf data := by
  unfold answer queue pushPayload
  rw [hmask, hmasked]
  simp only
  split_ifs <;> rfl

theorem Answered.trans {writeBuf : BipBuf .uint64 UInt8} (h : con.Answered con'.writeBuf)
    (hmask : con'.mask = con.mask) (hmasked : con'.masked = con.masked)
    (h' : con'.Answered writeBuf) : con.Answered writeBuf := by
  induction h' with
  | refl => exact h
  | pong _ data hlen ih =>
    rw [answer_congr hmask hmasked]
    exact ih.pong data hlen

theorem Processed.trans {con'' : Con cacheSize} (h : con.Processed con')
    (h' : con'.Processed con'') : con.Processed con'' where
  head_eq := h'.head_eq.trans h.head_eq
  mask_eq := h'.mask_eq.trans h.mask_eq
  masked_eq := h'.masked_eq.trans h.masked_eq
  server_eq := h'.server_eq.trans h.server_eq
  key_eq := h'.key_eq.trans h.key_eq
  asserts_eq := h'.asserts_eq.trans h.asserts_eq
  answered := h.answered.trans h.mask_eq h.masked_eq h'.answered
  state_ne hne := h'.state_ne (h.state_ne hne)

theorem doOpen_processed (con : Con cacheSize) (buf : β) : con.Processed (con.doOpen buf).2.2 := by
  unfold doOpen
  simp only
  by_cases havail : 2 ≤ FrameSource.available buf % 2 ^ 32
  · rw [if_pos havail]
    cases FrameSource.peak buf 1 with
    | none => exact .refl con
    | some peaklen =>
      simp only
      split_ifs
      all_goals first
        | exact .refl con
        | exact ⟨rfl, rfl, rfl, rfl, rfl, rfl, .refl, fun _ ↦ WSClientState.noConfusion⟩
  · rw [if_neg havail]
    exact .refl con

theorem queue_processed {code : WSOPCode} {data : List UInt8}
    (hanswer : con.Answered (con.queue code data).2.writeBuf) :
    con.Processed (con.queue code data).2 := by
  revert hanswer
  unfold queue
  simp only
  split_ifs <;> intro hanswer <;> exact ⟨rfl, rfl, rfl, rfl, rfl, rfl, hanswer, fun h ↦ h⟩

theorem doPing_processed {offset : ℕ} {r : ℤ} (hstate : con.state = .open)
    (h : con.doPing buf offset = some (r, buf', con')) : con.Processed con' := by
  unfold doPing at h
  split_ifs at h with hsmall
  cases hun : con.unmaskFrame buf offset with
  | none =>
    rw [hun] at h
    exact absurd h (by simp)
  | some b =>
    rw [hun] at h
    simp only at h
    split_ifs at h with hbig hends
    obtain ⟨-, -, rfl⟩ : (1 : ℤ) = r ∧ _ = buf' ∧ _ = con' := by simpa using h
    refine queue_processed ?_
    have hsame : { con with writeBuf := con.writeBuf, state := .open } = con := by rw [← hstate]
    generalize hdata : filledTo (con.pingData con.calls) con.frame.len
      ((FrameSource.popAt b offset con.frame.len).1.getD []) = data at hends ⊢
    have hlen : data.length = con.frame.len := by
      rw [← hdata]
      exact length_filledTo _ _ _
    by_cases hqueued : (con.queue .pong data).1 = true
    · have hshort : data.length ≤ 1024 := by
        by_contra hlong
        exact hends (Or.inr ⟨by omega, hqueued⟩)
      have hpong : con.Answered (con.answer con.writeBuf data) := .pong .refl _ hshort
      rw [answer, hsame] at hpong
      exact hpong
    · -- nothing is queued
      have hnone : (con.queue .pong data).2 = con := by
        revert hqueued
        unfold queue
        simp only
        split_ifs <;> simp
      rw [hnone]
      exact .refl

theorem doOpenData_processed {r : ℤ} (h : con.doOpenData buf = some (r, buf', con')) :
    con.Processed con' := by
  have hopen : con.Processed { con with state := .open } :=
    ⟨rfl, rfl, rfl, rfl, rfl, rfl, .refl, fun _ ↦ WSClientState.noConfusion⟩
  unfold doOpenData at h
  simp only at h
  split_ifs at h
  · obtain ⟨b, -, h⟩ := Option.map_eq_some_iff.mp h
    obtain ⟨-, -, rfl⟩ : (1 : ℤ) = r ∧ _ = buf' ∧ _ = con' := by simpa using h
    exact ⟨rfl, rfl, rfl, rfl, rfl, rfl, .refl, fun _ ↦ WSClientState.noConfusion⟩
  · obtain ⟨-, -, rfl⟩ : (1 : ℤ) = r ∧ _ = buf' ∧ _ = con' := by simpa using h
    exact hopen
  · exact hopen.trans (doPing_processed rfl h)
  · obtain ⟨-, -, rfl⟩ : (1 : ℤ) = r ∧ _ = buf' ∧ _ = con' := by simpa using h
    exact ⟨rfl, rfl, rfl, rfl, rfl, rfl, .refl, fun _ ↦ WSClientState.noConfusion⟩
  · obtain ⟨-, -, rfl⟩ : (1 : ℤ) = r ∧ _ = buf' ∧ _ = con' := by simpa using h
    exact hopen
  · obtain ⟨-, -, rfl⟩ : (0 : ℤ) = r ∧ _ = buf' ∧ _ = con' := by simpa using h
    exact .refl con

theorem Processed.source (h : con.Processed con') (httpBuf : BipBuf .uint64 UInt8)
    (stream : Option (PositionedStream cacheSize)) :
    con.Processed { con' with httpBuf := httpBuf, stream := stream } :=
  ⟨h.head_eq, h.mask_eq, h.masked_eq, h.server_eq, h.key_eq, h.asserts_eq, h.answered, h.state_ne⟩

theorem openSource_processed (con : Con cacheSize) : con.Processed con.openSource.2 := by
  unfold openSource
  cases con.stream with
  | none => exact (doOpen_processed con con.httpBuf).source _ _
  | some stream => exact (doOpen_processed con stream).source _ _

theorem dataSource_processed {r : ℤ} (h : con.dataSource = some (r, con')) :
    con.Processed con' := by
  unfold dataSource at h
  cases hstream : con.stream with
  | none =>
    rw [hstream] at h
    obtain ⟨⟨r', buf', c'⟩, hdata, h⟩ := Option.map_eq_some_iff.mp h
    obtain ⟨-, rfl⟩ : r' = r ∧ _ = con' := by simpa using h
    exact (doOpenData_processed hdata).source _ _
  | some stream =>
    rw [hstream] at h
    obtain ⟨⟨r', buf', c'⟩, hdata, h⟩ := Option.map_eq_some_iff.mp h
    obtain ⟨-, rfl⟩ : r' = r ∧ _ = con' := by simpa using h
    exact (doOpenData_processed hdata).source _ _

theorem processData_processed {b : Bool} (h : con.processData = some (b, con')) :
    con.Processed con' := by
  unfold processData at h
  obtain ⟨⟨r, c⟩, hdata, h⟩ := Option.map_eq_some_iff.mp h
  obtain ⟨-, rfl⟩ : _ = b ∧ c = con' := by simpa using h
  exact dataSource_processed hdata

theorem processState_processed {b : Bool} (hstate : con.state ≠ .connecting)
    (h : con.processState computeKey = some (b, con')) : con.Processed con' := by
  unfold processState at h
  cases hs : con.state with
  | connecting => exact absurd hs hstate
  | «open» =>
    rw [hs] at h
    simp only at h
    split_ifs at h
    · obtain ⟨-, rfl⟩ : false = b ∧ _ = con' := by simpa using h
      exact openSource_processed con
    · exact (openSource_processed con).trans (processData_processed h)
  | openData =>
    rw [hs] at h
    exact processData_processed h
  | closing =>
    rw [hs] at h
    obtain ⟨-, rfl⟩ : false = b ∧ _ = con' := by simpa using h
    exact ⟨rfl, rfl, rfl, rfl, rfl, rfl, .refl, fun _ ↦ WSClientState.noConfusion⟩
  | unknown | closed =>
    rw [hs] at h
    obtain ⟨-, rfl⟩ : false = b ∧ con = con' := by simpa using h
    exact .refl con

/-- The induction is on the rounds. -/
theorem processAll_processed {rounds : ℕ} (hstate : con.state ≠ .connecting)
    (h : processAll computeKey rounds con = some con') : con.Processed con' := by
  induction rounds generalizing con with
  | zero => exact absurd h (by simp [processAll])
  | succ rounds ih =>
    rw [processAll] at h
    cases hone : con.processState computeKey with
    | none =>
      rw [hone] at h
      exact absurd h (by simp)
    | some r =>
      obtain ⟨b, c⟩ := r
      have hfirst := processState_processed hstate hone
      rw [hone] at h
      cases b with
      | true => exact hfirst.trans (ih (hfirst.state_ne hstate) h)
      | false =>
        obtain rfl : c = con' := by simpa using h
        exact hfirst

/-- **A read of a connection that is not connecting** reads frames and answers pings. -/
theorem read_processed {ret : ℤ} {rounds : ℕ} {cb : Transport.Reader UInt8}
    (hstate : con.state ≠ .connecting) (h : con.read computeKey rounds cb = some (ret, con')) :
    con.Processed con' := by
  have hsource : con.Processed (con.readvSource cb).2 := by
    unfold readvSource
    split
    · split_ifs
      · exact (Processed.refl con).source _ _
      · exact (Processed.refl con).source _ _
    · exact (Processed.refl con).source _ _
  have hne := hsource.state_ne hstate
  unfold read at h
  simp only at h
  rw [if_neg hne] at h
  split_ifs at h
  · obtain ⟨-, rfl⟩ : (-3 : ℤ) = ret ∧ _ = con' := by simpa using h
    exact hsource
  · obtain ⟨c, hall, h⟩ := Option.map_eq_some_iff.mp h
    obtain ⟨-, rfl⟩ : (0 : ℤ) = ret ∧ c = con' := by simpa using h
    exact hsource.trans (processAll_processed hne hall)

end Con

end Coypu
