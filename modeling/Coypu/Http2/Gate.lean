import Coypu.Http2.Answering
import Coypu.Http2.Delimiting

/-!
# The preface

A connection reads frames exactly if the preface has arrived (`Gated`). The `Read` that completes
the first bytes puts what is behind the preface into the stream, or returns an error (`Decides`).
Both hold in every run of the manager, however the bytes are cut: before the preface is taken the
items of the buffer begin with the array, so that what is behind it is in one piece.
-/

set_option autoImplicit false

namespace Coypu

open Http2 Transport

namespace H2Connection

variable {con : H2Connection} {arrived : List UInt8}

/-- The state of a connection that reads frames. -/
def ReadsFrames (con : H2Connection) : Prop := con.state = .readFrameHeader ∨ con.state = .readFrame

/-- A connection reads frames exactly if what has arrived begins with the preface. Before that it
waits for it, and nothing has gone to the stream. A connection with another preface is closed. -/
def Gated (arrived : List UInt8) (con : H2Connection) : Prop :=
  ¬Refused arrived → (con.ReadsFrames ↔ http2Hdr <+: arrived) ∧
    (¬http2Hdr <+: arrived → con.state = .connecting ∧ con.stream.received = [])

/-- What makes a connection gated. -/
def AtGate (arrived : List UInt8) (con : H2Connection) : Prop :=
  con.Connecting arrived ∨ (http2Hdr <+: arrived ∧ con.ReadsFrames) ∨ Refused arrived

theorem Connecting.received_eq (h : con.Connecting arrived) : con.stream.received = [] := by
  rw [h.stream_eq]
  rfl

theorem Connecting.not_prefix (h : con.Connecting arrived) : ¬http2Hdr <+: arrived := by
  intro hpre
  have hlen := hpre.length_le
  rw [length_http2Hdr] at hlen
  exact absurd h.length_lt (Nat.not_lt.mpr hlen)

theorem ReadsFrames.ne_connecting (h : con.ReadsFrames) : con.state ≠ .connecting := by
  rcases h with h | h <;> rw [h] <;> decide

theorem AtGate.gated (h : con.AtGate arrived) : con.Gated arrived := by
  intro hnot
  rcases h with h | ⟨hpre, h⟩ | h
  · refine ⟨iff_of_false (fun hreads ↦ hreads.ne_connecting h.state_eq) h.not_prefix, fun _ ↦ ?_⟩
    exact ⟨h.state_eq, h.received_eq⟩
  · exact ⟨iff_of_true h hpre, fun hnpre ↦ absurd hpre hnpre⟩
  · exact absurd h hnot

theorem Framed.atGate (h : con.Framed arrived) : con.AtGate arrived :=
  h.imp id (Or.imp (fun h ↦ ⟨h.1, h.2.position.imp And.left And.left⟩) id)

theorem ReadsFrames.receive (h : con.ReadsFrames) (cb : Reader UInt8) :
    (con.receive cb).2.ReadsFrames := by
  have hstream : con.state = .readFrameHeader ∨ con.state = .readFrame := h
  rw [H2Connection.receive]
  simp only [if_pos hstream, if_neg h.ne_connecting]
  split_ifs <;> exact h

theorem AtGate.receive (h : con.AtGate arrived) (cb : Reader UInt8) :
    (con.receive cb).2.AtGate (arrived ++ con.delivered cb) := by
  rcases h with h | ⟨hpre, h⟩ | h
  · exact (Framed.receive (Or.inl h) cb fun hpre ↦ absurd hpre h.not_prefix).atGate
  · exact Or.inr (Or.inl ⟨hpre.trans (List.prefix_append _ _), h.receive cb⟩)
  · exact Or.inr (Or.inr (h.append _))

end H2Connection

namespace GrpcFeed

variable {σ Req Resp : Type} {lib : GrpcLib σ Req Resp} {s : GrpcFeed σ Req}

/-- The `Read` that completes the first bytes of a connection. Behind the preface the stream gets
what is there, and nothing of it is read yet; another preface is an error, and nothing goes to the
stream. -/
def Decides (lib : GrpcLib σ Req Resp) (s : GrpcFeed σ Req) (op : GrpcOp) : Prop :=
  ∀ fd cb con con', op = .receive fd cb → s.manager.connections fd = some con →
    (s.step lib op).1.manager.connections fd = some con' → con.state = .connecting →
      ¬H2Connection.Refused (s.arrived fd) →
        (http2Hdr <+: (s.step lib op).1.arrived fd → (s.step lib op).2 = some (0, []) ∧
          con'.state = .readFrameHeader ∧ con'.stream.curOffset = 0 ∧
            con'.stream.received = ((s.step lib op).1.arrived fd).drop http2InitSize) ∧
        (H2Connection.Refused ((s.step lib op).1.arrived fd) → con'.stream.received = [] ∧
          ∃ ret < 0, ∀ rounds, s.manager.read lib rounds fd cb
            = some (ret, (s.step lib op).1.manager))

/-- What holds of a step, as far as prefaces go. -/
def PrefaceGate (lib : GrpcLib σ Req Resp) (s : GrpcFeed σ Req) (op : GrpcOp) : Prop :=
  (∀ fd con, (s.step lib op).1.manager.connections fd = some con →
    con.Gated ((s.step lib op).1.arrived fd)) ∧ s.Decides lib op

/-- The invariant: every connection is at the gate or behind it. -/
def AtGates (s : GrpcFeed σ Req) : Prop :=
  ∀ fd con, s.manager.connections fd = some con → con.AtGate (s.arrived fd)

theorem readsFrames_processFrames {c c' : GrpcCall σ Req} {ret : ℤ} (h : c.con.ReadsFrames)
    (heq : c.processFrames lib = some (ret, c')) : c'.con.ReadsFrames := by
  have hframe {c₁ : GrpcCall σ Req} (h₁ : c₁.con.ReadsFrames)
      (heq₁ : c₁.processFrame lib = some (ret, c')) : c'.con.ReadsFrames := by
    rcases (GrpcCall.processFrame_emits heq₁).2 with rfl | hstate
    · exact h₁
    · exact Or.inl hstate
  rcases h with h | h
  · rw [GrpcCall.processFrames, h] at heq
    simp only at heq
    split_ifs at heq
    · obtain ⟨r, -, hr⟩ := Option.bind_eq_some_iff.mp heq
      cases hl : r.1 with
      | none =>
        rw [hl] at hr
        obtain ⟨-, rfl⟩ := Prod.ext_iff.mp (Option.some.inj hr)
        exact Or.inl h
      | some l =>
        rw [hl] at hr
        exact hframe (Or.inr rfl) hr
    · obtain ⟨-, rfl⟩ := Prod.ext_iff.mp (Option.some.inj heq)
      exact Or.inl h
  · rw [GrpcCall.processFrames, h] at heq
    exact hframe (Or.inr h) heq

theorem AtGates.step (h : s.AtGates) (op : GrpcOp) : AtGates (s.step lib op).1 := by
  refine forall_step (P := fun con l ↦ con.AtGate l) h op H2Connection.framed_new.atGate
    (fun fd cb con _ hcon ↦ (h fd con hcon).receive cb) fun fd con ret c' _ hcon hcall ↦ ?_
  rcases h fd con hcon with hgate | ⟨hpre, hreads⟩ | hrefused
  · rw [GrpcCall.processFrames, HTTP2GRPCManager.call, hgate.state_eq] at hcall
    obtain ⟨-, rfl⟩ := Prod.ext_iff.mp (Option.some.inj hcall)
    exact Or.inl hgate
  · exact Or.inr (Or.inl ⟨hpre, readsFrames_processFrames hreads hcall⟩)
  · exact Or.inr (Or.inr hrefused)

theorem AtGates.decides (h : s.AtGates) (op : GrpcOp) : s.Decides lib op := by
  rintro fd cb con con' rfl hcon hcon' hstate hnot
  have hstep : s.step lib (.receive fd cb)
      = (⟨s.manager.set fd (some (con.receive cb).2),
          Function.update s.arrived fd (s.arrived fd ++ con.delivered cb)⟩,
        some ((con.receive cb).1, [])) := by
    rw [GrpcFeed.step, HTTP2GRPCManager.step, arrive]
    simp only [hcon]
  rw [hstep] at hcon' ⊢
  simp only [HTTP2GRPCManager.set, Function.update_self] at hcon'
  obtain rfl := Option.some.inj hcon'
  simp only [Function.update_self]
  have hgate : con.Connecting (s.arrived fd) := by
    rcases h fd con hcon with hgate | ⟨-, hreads⟩ | hrefused
    · exact hgate
    · exact absurd hstate hreads.ne_connecting
    · exact absurd hrefused hnot
  rcases hgate.receive_cases cb with hafter | hafter | ⟨hrefused, hneg, hstream⟩
  · refine ⟨fun hpre ↦ absurd hpre hafter.not_prefix, fun hrefused ↦ ?_⟩
    exact absurd hafter.length_lt (Nat.not_lt.mpr hrefused.1)
  · refine ⟨fun _ ↦ ⟨by rw [hafter.ret_eq], hafter.state_eq, hafter.curOffset_eq,
      hafter.received_eq⟩,
      fun hrefused ↦ ?_⟩
    exact absurd hafter.preface hrefused.2
  · refine ⟨fun hpre ↦ absurd hpre hrefused.2,
      fun _ ↦ ⟨by rw [hstream]; rfl, _, hneg, fun rounds ↦ ?_⟩⟩
    rw [HTTP2GRPCManager.read, HTTP2GRPCManager.step]
    simp only [hcon, Option.bind_some, if_pos hneg]

/-- **The preface gate is exact** in every run, however what arrives is cut. -/
theorem run_prefaceGate (lib : GrpcLib σ Req Resp) (inflater : σ) (request : Req)
    (ops : List GrpcOp) : Run.Steps (step lib) (PrefaceGate lib) (new inflater request) ops := by
  refine Run.Steps.of_invariant (P := AtGates) (fun s op hs _ ↦ hs.step op) (fun s op hs _ ↦ ?_)
    (fun fd con hcon ↦ absurd hcon (by simp [new, HTTP2GRPCManager.new])) (Run.steps_true _ _)
  exact ⟨fun fd con hcon ↦ (hs.step op fd con hcon).gated, hs.decides op⟩

end GrpcFeed

end Coypu
