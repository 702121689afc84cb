import Coypu.Http2.Interleaving
import Coypu.Protobuf.Dispatching
import Coypu.Protobuf.Merging

/-!
# Requests of interleaved clients

The request of a manager is one for all connections, and each message is merged into what the one
before has left. So a callback is handed fields that the client did not send, where it sent less
than the one before it (`handOwn_iff`). The same holds of the proto socket.
-/

set_option autoImplicit false

namespace Coypu

open Http2 Transport ZeroCopy

/-- The requests among some events. -/
def handedOf {Req : Type} (events : List (GrpcEvent Req)) : List Req :=
  events.filterMap fun
    | .handed request => some request
    | .header _ | .decoded _ | .sent _ => none

/-! ## One call -/

namespace H2Connection

variable {α β : Type}

/-- What is read of a message in `DATA` that is handed over. -/
def dataMessage (asserts : Bool) (read : ℕ → Program (α × Bool)) (con : H2Connection) : Option α :=
  if con.lastPathMatch = true then
    (con.stream.pop 5).bind fun r ↦
      let data := r.1.getD [0, 0, 0, 0, 0]
      if asserts = true ∧ data.headD 0 ≠ 0 then none
      else ((read (Bytes.decode (data.drop 1))).run (LogZeroCopyInputStream.source asserts 128)
        (.new r.2 r.2.curOffset)).bind fun q ↦ if asserts = true ∧
          q.1.2 = false then none else some q.1.1
  else none

/-- What is read of the message that the next `ProcessFrames` hands over, if it does. -/
def message (asserts : Bool) (read : ℕ → Program (α × Bool)) (con : H2Connection) : Option α :=
  con.atPayload.bind fun con ↦
    if con.hdr.type = H2FrameType.data.value then con.dataMessage asserts read else none

variable {asserts : Bool} {read : ℕ → Program (α × Bool)} {con : H2Connection}

theorem dataMessage_map (f : α → β) :
    con.dataMessage asserts (fun n ↦ (read n).map fun q ↦ (f q.1, q.2))
      = (con.dataMessage asserts read).map f := by
  rw [dataMessage, dataMessage]
  split_ifs
  · cases con.stream.pop 5 with
    | none => rfl
    | some r =>
      rw [Option.bind_some, Option.bind_some]
      simp only [Program.run_map]
      split_ifs
      · rfl
      · generalize (read _).run (LogZeroCopyInputStream.source asserts 128) _ = o
        cases o with
        | none => rfl
        | some q =>
          rw [Option.map_some, Option.bind_some, Option.bind_some]
          split_ifs <;> rfl
  · rfl

theorem message_map (f : α → β) :
    con.message asserts (fun n ↦ (read n).map fun q ↦ (f q.1, q.2))
      = (con.message asserts read).map f := by
  rw [message, message]
  cases con.atPayload with
  | none => rfl
  | some con =>
    rw [Option.bind_some, Option.bind_some, dataMessage_map]
    split_ifs <;> rfl

end H2Connection

namespace GrpcCall

variable {σ Req Resp : Type} {lib : GrpcLib σ Req Resp} {c c' : GrpcCall σ Req}

theorem Effects.handed_eq (h : Effects lib c c') : handedOf c'.events = handedOf c.events :=
  h.filterMap_events (fun _ ↦ rfl) fun _ ↦ rfl

theorem headersFrame_handed {n : ℕ} (heq : c.headersFrame lib n = some c') :
    handedOf c'.events = handedOf c.events := by
  rw [headersFrame_eq (le_of_headersFrame heq)] at heq
  obtain ⟨r, -, heq⟩ := Option.bind_eq_some_iff.mp heq
  obtain ⟨block, -, heq⟩ := Option.bind_eq_some_iff.mp heq
  obtain ⟨q, -, rfl⟩ := Option.map_eq_some_iff.mp heq
  simp [emit, handedOf, withCon, withStream]

theorem dataFrame_handed (heq : c.dataFrame lib = some c') :
    handedOf c'.events
      = handedOf c.events ++ (c.con.dataMessage lib.asserts (lib.mergeFrom c.request)).toList := by
  rw [H2Connection.dataMessage]
  rw [dataFrame] at heq
  obtain ⟨r, hpop, heq⟩ := Option.bind_eq_some_iff.mp heq
  simp only at heq
  rw [hpop, Option.bind_some]
  simp only
  split_ifs at heq ⊢ with hmatch hbyte
  · obtain ⟨q, hrun, hq⟩ := Option.bind_eq_some_iff.mp heq
    split_ifs at hq with hparsed
    have hrun' : (lib.mergeFrom c.request (Bytes.decode ((r.1.getD [0, 0, 0, 0, 0]).drop 1))).run
        (LogZeroCopyInputStream.source lib.asserts 128) (.new r.2 r.2.curOffset) = some q := hrun
    rw [hrun', Option.bind_some, if_neg hparsed, (respond_effects hq).handed_eq]
    exact List.filterMap_append
  -- the data of another path are skipped
  · rw [(mismatchFrame_effects heq).handed_eq, Option.toList_none, List.append_nil]
    rfl

/-- **What a call hands over.** -/
theorem processFrames_handed {r : ℤ × GrpcCall σ Req} (heq : c.processFrames lib = some r) :
    handedOf r.2.events
      = handedOf c.events ++ (c.con.message lib.asserts (lib.mergeFrom c.request)).toList := by
  rw [H2Connection.message]
  cases hcon : c.con.atPayload with
  | none =>
    rw [(processFrames_of_not_atPayload hcon heq).handed_eq, Option.bind_none, Option.toList_none,
      List.append_nil]
  | some con =>
    obtain ⟨c₁, hbefore, rfl, hcall⟩ := processFrames_of_atPayload lib hcon
    rw [hcall] at heq
    obtain ⟨c₂, hframe, rfl⟩ := Option.map_eq_some_iff.mp heq
    rw [(finish_effects lib).handed_eq, Option.bind_some, ← hbefore.handed_eq,
      ← hbefore.keeps_state.2.1]
    -- of the frames only `DATA` hand over a request
    rcases frame_cases hframe with ⟨htype, hheaders⟩ | ⟨htype, hdata⟩ | ⟨-, htype, heffects⟩
    · have hother : ¬c₁.con.hdr.type = H2FrameType.data.value := by
        rw [htype]
        decide
      rw [if_neg hother, headersFrame_handed hheaders, Option.toList_none, List.append_nil]
    · rw [if_pos htype, dataFrame_handed hdata]
    · rw [if_neg htype, heffects.handed_eq, Option.toList_none, List.append_nil]

end GrpcCall

/-! ## Runs -/

namespace HTTP2GRPCManager

variable {σ Resp : Type} {lib : GrpcLib σ CoypuRequest Resp}
  {read : ℕ → Program (List CoypuRequest.Field × Bool)} {m : HTTP2GRPCManager σ CoypuRequest}
  {op : GrpcOp}

/-- A call hands over what it would hand over if no request had been there before. -/
def HandsOwn (lib : GrpcLib σ CoypuRequest Resp) (m : HTTP2GRPCManager σ CoypuRequest)
    (op : GrpcOp) : Prop :=
  ∀ fd con, op = .processFrames fd → m.connections fd = some con →
    con.message lib.asserts (lib.mergeFrom m.request) = con.message lib.asserts
      (lib.mergeFrom .empty) ∧ ∀ r, (m.step lib op).2 = some r →
        handedOf r.2 = (con.message lib.asserts (lib.mergeFrom .empty)).toList

/-- The message that is handed over carries all that the request has. -/
def Covers (lib : GrpcLib σ CoypuRequest Resp) (read : ℕ → Program (List CoypuRequest.Field × Bool))
    (m : HTTP2GRPCManager σ CoypuRequest) : GrpcOp → Prop
  | .processFrames fd => ∀ con ∈ m.connections fd, ∀ fields ∈ con.message lib.asserts read,
      m.request.Covered fields
  | .registerConnection _ | .unregister _ | .receive _ _ => True

instance : DecidablePred (m.Covers lib read)
  | .processFrames _ => inferInstanceAs (Decidable (∀ con ∈ m.connections _, ∀ fields ∈ _, _))
  | .registerConnection _ | .unregister _ | .receive _ _ => .isTrue trivial

theorem step_handed {fd : ℕ} {con : H2Connection} (hcon : m.connections fd = some con)
    {r : ℤ × List (GrpcEvent CoypuRequest)} (hr : (m.step lib (.processFrames fd)).2 = some r) :
    handedOf r.2 = (con.message lib.asserts (lib.mergeFrom m.request)).toList := by
  cases hcall : (m.call con).processFrames lib with
  | none =>
    rw [step_of_none hcon hcall] at hr
    exact absurd hr (by simp)
  | some q =>
    rw [step_of_some hcon hcall] at hr
    obtain rfl := Option.some.inj hr
    exact GrpcCall.processFrames_handed hcall

/-- A call hands over a request of its own bytes exactly if these carry all that the request before
has. -/
theorem handsOwn_iff (hlib : MergesFields lib.mergeFrom read) :
    m.HandsOwn lib op ↔ m.Covers lib read op := by
  cases op with
  | registerConnection | unregister | receive =>
    exact iff_of_true (fun _ _ hop ↦ by cases hop) trivial
  | processFrames fd =>
    rw [Covers]
    cases hcon : m.connections fd with
    | none =>
      refine iff_of_true (fun fd' con hop hcon' ↦ ?_) (fun con hmem ↦ absurd hmem (by simp))
      obtain rfl := GrpcOp.processFrames.inj hop
      rw [hcon] at hcon'
      exact absurd hcon' (by simp)
    | some con =>
      have hmerges (request : CoypuRequest) : con.message lib.asserts (lib.mergeFrom request)
          = (con.message lib.asserts read).map request.mergeAll := by
        rw [funext (hlib request), H2Connection.message_map]
      have hown : con.message lib.asserts (lib.mergeFrom m.request)
          = con.message lib.asserts (lib.mergeFrom .empty) ↔
            ∀ fields ∈ con.message lib.asserts read, m.request.Covered fields := by
        rw [hmerges, hmerges]
        cases con.message lib.asserts read with
        | none => simp
        | some fields => simpa using m.request.mergeAll_eq_iff fields
      constructor
      · intro h con' hmem
        obtain rfl := Option.some.inj hmem
        exact hown.mp (h fd con rfl hcon).1
      · intro h fd' con' hop hcon'
        obtain rfl := GrpcOp.processFrames.inj hop
        obtain rfl := Option.some.inj (hcon.symm.trans hcon')
        have heq := hown.mpr (h con rfl)
        refine ⟨heq, fun r hr ↦ ?_⟩
        rw [step_handed hcon hr, heq]

theorem steps_handsOwn_iff (hlib : MergesFields lib.mergeFrom read) {ops : List GrpcOp} :
    Run.Steps (step lib) (HandsOwn lib) m ops ↔ Run.Steps (step lib) (Covers lib read) m ops :=
  Run.steps_iff_of_invariant (P := fun _ ↦ True) (fun _ _ _ _ ↦ trivial)
    (fun _ _ _ ↦ handsOwn_iff hlib) trivial

end HTTP2GRPCManager

/-- **Where a request is as its own bytes say.** In each step of a run of either manager the request
that is handed to the callback is the one that its message gives when it is merged into an empty
one, whatever requests came before, exactly if in each step the message carries all that the request
before has. -/
theorem run_handsOwn_iff {σ Resp : Type} {protoLib : ProtoLib CoypuRequest}
    {grpcLib : GrpcLib σ CoypuRequest Resp}
    {read read' : ℕ → Program (List CoypuRequest.Field × Bool)}
    (hproto : MergesFields protoLib.mergeFrom read) (hgrpc : MergesFields grpcLib.mergeFrom read')
    (inflater : σ) (protoOps : List ProtoOp) (grpcOps : List GrpcOp) :
    (Run.Steps (ProtoManager.step protoLib) (ProtoManager.HandsOwn protoLib)
        (.new .empty) protoOps ↔
      Run.Steps (ProtoManager.step protoLib) (ProtoManager.Covers protoLib read)
        (.new .empty) protoOps) ∧
    (Run.Steps (HTTP2GRPCManager.step grpcLib) (HTTP2GRPCManager.HandsOwn grpcLib)
        (.new inflater .empty) grpcOps ↔
      Run.Steps (HTTP2GRPCManager.step grpcLib) (HTTP2GRPCManager.Covers grpcLib read')
        (.new inflater .empty) grpcOps) :=
  ⟨ProtoManager.steps_handsOwn_iff hproto, HTTP2GRPCManager.steps_handsOwn_iff hgrpc⟩

/-! ## Two clients -/

/-- The decoders of headers and of requests. Responses are empty. -/
def GrpcLib.wire : GrpcLib Hpack.Table CoypuRequest Unit where
  asserts := true
  path := GrpcBlocks.indexing.path
  inflate := GrpcBlocks.indexing.inflate
  inflateEnd := GrpcBlocks.indexing.inflateEnd
  deflate := GrpcBlocks.indexing.deflate
  mergeFrom := ProtoLib.wire.mergeFrom
  cb request := ((), request)
  serialize _ := []

theorem GrpcLib.wire_merges : MergesFields wire.mergeFrom readRequest := ProtoLib.wire_merges

/-- A request for five levels of a book. -/
def fiveLevels : List UInt8 := [8, 1, 0x12, 8, 0x0a, 2, 97, 98, 0x10, 1, 0x18, 5]

/-- A request for another book, without levels. -/
def noLevels : List UInt8 := [8, 1, 0x12, 6, 0x0a, 2, 99, 100, 0x10, 1]

/-- Two clients of the proto socket, one behind the other. -/
def protoClients (first second : List UInt8) (h : (protoFrame first).length < 2 ^ 31)
    (h' : (protoFrame second).length < 2 ^ 31) : List ProtoOp :=
  [.register 3, .read 3 (Reader.ofList (protoFrame first) h), .register 4,
    .read 4 (Reader.ofList (protoFrame second) h')]

/-- The second client asks for more than the first. -/
def asksMore : List ProtoOp := protoClients noLevels fiveLevels (by decide) (by decide)

/-- The second client asks for less than the first. -/
def asksLess : List ProtoOp := protoClients fiveLevels noLevels (by decide) (by decide)

/-- A client of the gRPC server sends an empty request, behind the headers of its stream. -/
def emptyRequest (fd : ℕ) : List GrpcOp :=
  GrpcBlocks.opening fd (ascii "/c") (by decide) ++
    [.receive fd (Reader.ofList ([0, 0, 5, H2FrameType.data.value, 1, 0, 0, 0, 1] ++ protoFrame [])
      (by decide)),
      .processFrames fd]

theorem run_handsOwn_asksMore :
    Run.Steps (ProtoManager.step ProtoLib.wire) (ProtoManager.HandsOwn ProtoLib.wire)
      (.new .empty) asksMore ∧
      Run.Steps (HTTP2GRPCManager.step GrpcLib.wire) (HTTP2GRPCManager.HandsOwn GrpcLib.wire)
        (.new (.empty 4096) .empty) (emptyRequest 3 ++ emptyRequest 4) := by
  have hboth := run_handsOwn_iff ProtoLib.wire_merges GrpcLib.wire_merges (.empty 4096) asksMore
    (emptyRequest 3 ++ emptyRequest 4)
  have hproto : Run.Steps (ProtoManager.step ProtoLib.wire)
    (ProtoManager.Covers ProtoLib.wire readRequest)
      (.new .empty) asksMore := by decide +kernel
  have hgrpc : Run.Steps (HTTP2GRPCManager.step GrpcLib.wire)
    (HTTP2GRPCManager.Covers GrpcLib.wire readRequest)
      (.new (.empty 4096) .empty) (emptyRequest 3 ++ emptyRequest 4) := by decide +kernel
  exact ⟨hboth.1.mpr hproto, hboth.2.mpr hgrpc⟩

/-- A client that asks for no levels behind one that asks for five is handed over with five. -/
theorem not_handsOwn_of_asksLess :
    ((Run.run (ProtoManager.step ProtoLib.wire) (.new .empty) asksLess).2.getLast?.join.map
        ProtoManager.requestsOf = some [⟨1, some ⟨ascii "cd", 1, 5⟩⟩]) ∧
      CoypuRequest.empty.mergeAll (wireRequest noLevels).1 = ⟨1, some ⟨ascii "cd", 1, 0⟩⟩ ∧
      ¬∀ ops, Run.Steps (ProtoManager.step ProtoLib.wire) (ProtoManager.HandsOwn ProtoLib.wire)
        (.new .empty) ops := by
  have hcovers : ¬Run.Steps (ProtoManager.step ProtoLib.wire)
    (ProtoManager.Covers ProtoLib.wire readRequest)
      (.new .empty) asksLess := by decide +kernel
  refine ⟨by decide +kernel, by decide, fun h ↦ hcovers ?_⟩
  exact (ProtoManager.steps_handsOwn_iff ProtoLib.wire_merges).mp (h asksLess)

end Coypu
