import Coypu.Http2.Consuming
import Coypu.Http2.Preface

/-!
# Frames follow each other

Each frame is read where the one before it ends, by the length in its header. The payload of a frame
is taken by lengths that are inside it, so that this holds as long as they fit (`GrpcFeed.Meets`).
The invariant is `H2Connection.Framed`.

The bytes that arrive on each connection are tracked beside the manager (`GrpcFeed`).
-/

set_option autoImplicit false

namespace Coypu

open Http2 Transport

/-! ## One call -/

namespace H2Connection

variable {Req : Type}

/-- The header that `ProcessFrames` looks at, which it may have to read first, and where the payload
begins. -/
def nextFrame (con : H2Connection) : Option (H2Header × ℕ) :=
  match con.state with
  | .readFrameHeader =>
    if http2FrameHdrSize ≤ con.stream.available then
      some ((H2Header.ofBytes
        (frameFormat.header con.stream.received con.stream.curOffset)).clearBit,
        con.stream.curOffset + http2FrameHdrSize)
    else none
  | .readFrame => some (con.hdr, con.stream.curOffset)
  | .unknown | .connecting | .preHttp | .closed => none

/-- A call keeps to the frames of `l`: a header that it reads begins where the frames before it end,
and if it completes the frame, the position is behind the header and the length that it gives. -/
structure Delimits (l : List UInt8) (con con' : H2Connection)
    (events : List (GrpcEvent Req)) : Prop where
  received_eq : con.stream.received = l
  header : ∀ bytes, .header bytes ∈ events →
    con.stream.curOffset = frameFormat.start l con.frameCount ∧
      bytes = frameFormat.header l (frameFormat.start l con.frameCount)
  complete : con'.frameCount ≠ con.frameCount → con'.frameCount = con.frameCount + 1 ∧
    con'.stream.curOffset = frameFormat.start l con.frameCount + http2FrameHdrSize
      + (H2Header.ofBytes (frameFormat.header l (frameFormat.start l con.frameCount))).length

end H2Connection

namespace GrpcCall

variable {σ Req Resp : Type} {lib : GrpcLib σ Req Resp} {decode : Req → List UInt8 → Option Req}
  {c c' : GrpcCall σ Req} {l : List UInt8} {ret : ℤ}

/-- The lengths in the payload of the frame that the call completes fit the length of the frame. -/
def NextFits (lib : GrpcLib σ Req Resp) (decode : Req → List UInt8 → Option Req)
    (c : GrpcCall σ Req) : Prop :=
  ∀ r ∈ c.con.nextFrame, r.2 + r.1.length ≤ c.con.stream.log.available →
    Fits lib decode
      (c.withCon { c.con with hdr := r.1, stream := { c.con.stream with curOffset := r.2 } })
      ((c.con.stream.received.drop r.2).take r.1.length)

instance (c : GrpcCall σ Req) : Decidable (NextFits lib decode c) :=
  inferInstanceAs (Decidable (∀ r ∈ c.con.nextFrame, _ → _))

theorem processFrame_atFrame (hdec : lib.Decodes decode) (h : c.con.AtFrame l)
    (hstate : c.con.state = .readFrame) (hok : NextFits lib decode c)
    (heq : c.processFrame lib = some (ret, c')) :
    c'.con.AtFrame l ∧ (∀ bytes, .header bytes ∈ c'.events → .header bytes ∈ c.events) ∧
      (c' = c ∨ c'.con.frameCount = c.con.frameCount + 1 ∧
        c'.con.stream.curOffset = c.con.stream.curOffset + c.con.hdr.length) := by
  obtain ⟨k, hahead⟩ := h.ahead
  obtain ⟨hoffset, hhdr⟩ : c.con.stream.curOffset
      = frameFormat.start l c.con.frameCount + http2FrameHdrSize ∧ c.con.hdr
        = (H2Header.ofBytes
          (frameFormat.header l (frameFormat.start l c.con.frameCount))).clearBit := by
    rcases h.position with ⟨hstate', -⟩ | ⟨-, hboth⟩
    · rw [hstate] at hstate'
      exact absurd hstate' (by decide)
    · exact hboth
  rw [processFrame, hahead.available_eq] at heq
  simp only at heq
  split_ifs at heq with hlen
  · obtain ⟨c₂, hframe, hr⟩ := Option.map_eq_some_iff.mp heq
    obtain rfl : _ = c' := congrArg Prod.snd hr
    have hcount : CInt.toUnsigned 32 (c.con.frameCount + 1 : ℕ) = c.con.frameCount + 1 :=
      CInt.toUnsigned_natCast h.frameCount_lt
    have hend := hahead.offset_eq
    have hfits := hok (c.con.hdr, c.con.stream.curOffset) (by
      rw [H2Connection.nextFrame, hstate]
      rfl) (by simp only; omega)
    simp only [hahead.drop_received] at hfits
    have hmoved := frame_moved (c := c.withCon { c.con with
      frameCount := CInt.toUnsigned 32 (c.con.frameCount + 1 : ℕ) }) hdec hahead hlen hfits hframe
    have hcount' := hmoved.frameCount_eq.trans hcount
    have hoffset' := hmoved.curOffset
    have hlength : c.con.hdr.length
        = frameFormat.length (frameFormat.header l (frameFormat.start l c.con.frameCount)) := by
      rw [hhdr]
      rfl
    -- one frame more, and the next one begins where this one ends
    refine ⟨⟨hmoved.received.trans h.received_eq, ⟨_, hmoved.ahead⟩, Or.inl ⟨rfl, ?_⟩⟩,
      fun _ hmem ↦ (frame_emits hframe).of_header_mem hmem, Or.inr ⟨hcount', hoffset'⟩⟩
    show c₂.con.stream.curOffset = frameFormat.start l c₂.con.frameCount
    rw [hcount', Delimited.Format.start_succ, ← hlength, hoffset']
    exact congrArg (· + c.con.hdr.length) hoffset
  · obtain ⟨-, rfl⟩ := Prod.ext_iff.mp (Option.some.inj heq)
    exact ⟨h, fun _ ↦ id, Or.inl rfl⟩

/-- **A call keeps to the frames.** -/
theorem processFrames_atFrame (hdec : lib.Decodes decode) (h : c.con.AtFrame l)
    (hevents : c.events = []) (hok : NextFits lib decode c)
    (heq : c.processFrames lib = some (ret, c')) :
    c'.con.AtFrame l ∧ c.con.Delimits l c'.con c'.events := by
  obtain ⟨k, hahead⟩ := h.ahead
  rcases h.position with ⟨hstate, hoffset⟩ | ⟨hstate, hoffset, hhdr⟩
  · rw [processFrames, hstate, hahead.available_eq] at heq
    simp only at heq
    split_ifs at heq with hlen
    · obtain ⟨r, cache, hpop, hahead', hr⟩ := hahead.pop hlen
      rw [hpop, hr (by decide), Option.bind_some] at heq
      simp only at heq
      have htake : k.take http2FrameHdrSize
          = frameFormat.header l (frameFormat.start l c.con.frameCount) := by
        rw [Delimited.Format.header, ← hoffset, ← h.received_eq, hahead.drop_received]
        rfl
      set c₁ := (c.withCon { c.con with
        stream := c.con.stream.moved http2FrameHdrSize cache,
        hdr := (H2Header.ofBytes (k.take http2FrameHdrSize)).clearBit
        state := .readFrame }).emit (.header (k.take http2FrameHdrSize)) with hc₁
      have hframe : c₁.con.AtFrame l := by
        refine ⟨h.received_eq, ⟨_, hahead'⟩, Or.inr ⟨rfl, ?_, ?_⟩⟩
        · exact congrArg (· + http2FrameHdrSize) hoffset
        · exact congrArg (fun bytes ↦ (H2Header.ofBytes bytes).clearBit) htake
      -- the frame that fits is the one of the header just read
      have hok' : NextFits lib decode c₁ := by
        intro r hr hle
        obtain rfl : _ = r := Option.some.inj hr
        refine hok _ ?_ hle
        rw [H2Connection.nextFrame, hstate]
        simp only
        rw [hahead.available_eq, if_pos hlen, Delimited.Format.header, hahead.drop_received]
        rfl
      obtain ⟨hafter, hmem, hcases⟩ := processFrame_atFrame hdec hframe rfl hok' heq
      refine ⟨hafter, h.received_eq, fun bytes hbytes ↦ ?_, fun hne ↦ ?_⟩
      · have hfirst := hmem bytes hbytes
        rw [hc₁, emit, withCon] at hfirst
        simp only [hevents, List.nil_append, List.mem_singleton, GrpcEvent.header.injEq] at hfirst
        exact ⟨hoffset, hfirst.trans htake⟩
      · rcases hcases with rfl | ⟨hcount, hcur⟩
        · exact absurd rfl hne
        · refine ⟨hcount, hcur.trans ?_⟩
          rw [← htake, ← hoffset]
          rfl
    · obtain ⟨-, rfl⟩ := Prod.ext_iff.mp (Option.some.inj heq)
      refine ⟨h, h.received_eq, fun bytes hbytes ↦ ?_, fun hne ↦ absurd rfl hne⟩
      rw [hevents] at hbytes
      exact absurd hbytes (List.not_mem_nil)
  · rw [processFrames, hstate] at heq
    obtain ⟨hafter, hmem, hcases⟩ := processFrame_atFrame hdec h hstate hok heq
    refine ⟨hafter, h.received_eq, fun bytes hbytes ↦ ?_, fun hne ↦ ?_⟩
    · have hfirst := hmem bytes hbytes
      rw [hevents] at hfirst
      exact absurd hfirst (List.not_mem_nil)
    · rcases hcases with rfl | ⟨hcount, hcur⟩
      · exact absurd rfl hne
      · refine ⟨hcount, hcur.trans ?_⟩
        rw [hoffset, hhdr]
        rfl

end GrpcCall

/-! ## Runs -/

/-- A manager, and what arrived on each of its connections. -/
structure GrpcFeed (σ Req : Type) where
  manager : HTTP2GRPCManager σ Req
  arrived : ℕ → List UInt8

namespace GrpcFeed

variable {σ Req Resp : Type}

def new (inflater : σ) (request : Req) : GrpcFeed σ Req := ⟨.new inflater request, fun _ ↦ []⟩

/-- What has arrived after a step. On a new connection nothing has. -/
def arrive (s : GrpcFeed σ Req) : GrpcOp → ℕ → List UInt8
  | .registerConnection fd =>
    match s.manager.connections fd with
    | none => Function.update s.arrived fd []
    | some _ => s.arrived
  | .receive fd cb =>
    match s.manager.connections fd with
    | none => s.arrived
    | some con => Function.update s.arrived fd (s.arrived fd ++ con.delivered cb)
  | .unregister _ | .processFrames _ => s.arrived

def step (lib : GrpcLib σ Req Resp) (s : GrpcFeed σ Req) (op : GrpcOp) :
    GrpcFeed σ Req × Option (ℤ × List (GrpcEvent Req)) :=
  (⟨(s.manager.step lib op).1, s.arrive op⟩, (s.manager.step lib op).2)

/-- A call that returns, for a connection that has sent the preface, keeps to the frames behind
it. -/
def Delimits (lib : GrpcLib σ Req Resp) (s : GrpcFeed σ Req) (op : GrpcOp) : Prop :=
  ∀ fd con con' r, op = .processFrames fd → http2Hdr <+: s.arrived fd →
    s.manager.connections fd = some con → (s.step lib op).2 = some r →
      (s.step lib op).1.manager.connections fd = some con' →
        con.Delimits ((s.arrived fd).drop http2InitSize) con' r.2

/-- Bytes arrive behind fewer than `2³²` others, and the lengths in a payload fit. -/
def Meets (lib : GrpcLib σ Req Resp) (decode : Req → List UInt8 → Option Req) (s : GrpcFeed σ Req) :
    GrpcOp → Prop
  | .receive fd _ => ∀ con ∈ s.manager.connections fd, http2Hdr <+: s.arrived fd →
      con.state = .readFrameHeader ∨ con.state = .readFrame → con.stream.log.available < 2 ^ 32
  | .processFrames fd => ∀ con ∈ s.manager.connections fd, http2Hdr <+: s.arrived fd →
      (s.manager.call con).NextFits lib decode
  | .registerConnection _ | .unregister _ => True

instance (lib : GrpcLib σ Req Resp) (decode : Req → List UInt8 → Option Req) (s : GrpcFeed σ Req) :
    DecidablePred (s.Meets lib decode)
  | .receive _ _ => inferInstanceAs (Decidable (∀ con ∈ s.manager.connections _, _ → _ → _))
  | .processFrames _ => inferInstanceAs (Decidable (∀ con ∈ s.manager.connections _, _ → _))
  | .registerConnection _ | .unregister _ => .isTrue trivial

/-- Where the connections stand. -/
def Inv (s : GrpcFeed σ Req) : Prop :=
  ∀ fd con, s.manager.connections fd = some con → con.Framed (s.arrived fd)

theorem inv_new (inflater : σ) (request : Req) : (new inflater request).Inv :=
  fun _ _ hcon ↦ absurd hcon (by simp [new, HTTP2GRPCManager.new])

variable {lib : GrpcLib σ Req Resp} {decode : Req → List UInt8 → Option Req} {s : GrpcFeed σ Req}

theorem framed_processFrames (hdec : lib.Decodes decode) {con : H2Connection} {l : List UInt8}
    (h : con.Framed l) {m : HTTP2GRPCManager σ Req}
    (hok : http2Hdr <+: l → (m.call con).NextFits lib decode) {ret : ℤ} {c' : GrpcCall σ Req}
    (heq : (m.call con).processFrames lib = some (ret, c')) :
    c'.con.Framed l ∧
      (http2Hdr <+: l → con.Delimits (l.drop http2InitSize) c'.con c'.events) := by
  rcases h with h | ⟨hpre, h⟩ | h
  · refine ⟨Or.inl ?_, fun hpre ↦ ?_⟩
    · rw [GrpcCall.processFrames, HTTP2GRPCManager.call, h.state_eq] at heq
      obtain ⟨-, rfl⟩ := Prod.ext_iff.mp (Option.some.inj heq)
      exact h
    · have hlen := hpre.length_le
      rw [H2Connection.length_http2Hdr] at hlen
      exact absurd h.length_lt (Nat.not_lt.mpr hlen)
  · obtain ⟨hafter, hdelimits⟩ :=
      GrpcCall.processFrames_atFrame (c := m.call con) hdec h rfl (hok hpre) heq
    exact ⟨Or.inr (Or.inl ⟨hpre, hafter⟩), fun _ ↦ hdelimits⟩
  · exact ⟨Or.inr (Or.inr h), fun hpre ↦ absurd hpre h.2⟩

variable (lib) in
theorem processFrames_cases {fd : ℕ} {con : H2Connection}
    (hcon : s.manager.connections fd = some con) : (s.step lib (.processFrames fd) = (s, none)) ∨
      ∃ ret c', (s.manager.call con).processFrames lib = some (ret, c') ∧
        s.step lib (.processFrames fd) = (⟨{ s.manager.set fd (some c'.con) with
          inflater := c'.inflater, request := c'.request }, s.arrived⟩, some (ret, c'.events)) := by
  cases hcall : (s.manager.call con).processFrames lib with
  | none =>
    refine Or.inl ?_
    rw [step, HTTP2GRPCManager.step_of_none hcon hcall]
    rfl
  | some r =>
    refine Or.inr ⟨r.1, r.2, rfl, ?_⟩
    rw [step, HTTP2GRPCManager.step_of_some hcon hcall]
    rfl

/-- **What holds of a connection and of the bytes that arrived on it** holds after a step, if it
holds of a new connection, and after a `Read` and a call. -/
theorem forall_step {P : H2Connection → List UInt8 → Prop}
    (h : ∀ fd con, s.manager.connections fd = some con → P con (s.arrived fd)) (op : GrpcOp)
    (hnew : P (.new (PositionedLog.createAnonStore 128)) [])
    (hreceive : ∀ fd cb con, op = .receive fd cb → s.manager.connections fd = some con →
      P (con.receive cb).2 (s.arrived fd ++ con.delivered cb))
    (hprocess : ∀ fd con ret c', op = .processFrames fd → s.manager.connections fd = some con →
      (s.manager.call con).processFrames lib = some (ret, c') → P c'.con (s.arrived fd)) :
    ∀ fd con, (s.step lib op).1.manager.connections fd = some con →
      P con ((s.step lib op).1.arrived fd) := by
  have hset (fd : ℕ) {con : H2Connection} {l : List UInt8} (hcon : P con l) (fd' : ℕ)
      (con' : H2Connection)
      (hcon' : Function.update s.manager.connections fd (some con) fd' = some con') :
      P con' (Function.update s.arrived fd l fd') := by
    by_cases hfd : fd' = fd
    · subst hfd
      rw [Function.update_self] at hcon' ⊢
      rwa [← Option.some.inj hcon']
    · rw [Function.update_of_ne hfd] at hcon' ⊢
      exact h fd' con' hcon'
  cases op with
  | registerConnection fd =>
    rw [GrpcFeed.step, HTTP2GRPCManager.step, arrive]
    cases hcon : s.manager.connections fd with
    | none => exact hset fd hnew
    | some con => exact h
  | unregister fd =>
    intro fd' con' hcon'
    rw [GrpcFeed.step, HTTP2GRPCManager.step, arrive] at hcon' ⊢
    cases hcon : s.manager.connections fd with
    | none =>
      rw [hcon] at hcon'
      exact h fd' con' hcon'
    | some con =>
      rw [hcon] at hcon'
      simp only [HTTP2GRPCManager.set, Function.update_apply] at hcon'
      split_ifs at hcon'
      exact h fd' con' hcon'
  | receive fd cb =>
    rw [GrpcFeed.step, HTTP2GRPCManager.step, arrive]
    cases hcon : s.manager.connections fd with
    | none => exact h
    | some con => exact hset fd (hreceive fd cb con rfl hcon)
  | processFrames fd =>
    cases hcon : s.manager.connections fd with
    | none =>
      rw [GrpcFeed.step, HTTP2GRPCManager.step, arrive, hcon]
      exact h
    | some con =>
      rcases processFrames_cases lib hcon with hnone | ⟨ret, c', hcall, hsome⟩
      · rw [hnone]
        exact h
      · have hafter := hset fd (hprocess fd con ret c' rfl hcon hcall)
        rw [Function.update_eq_self] at hafter
        rw [hsome]
        exact hafter

theorem Inv.step (hdec : lib.Decodes decode) (h : s.Inv) {op : GrpcOp}
    (hok : s.Meets lib decode op) : Inv (s.step lib op).1 := by
  refine forall_step (P := fun con l ↦ con.Framed l) h op H2Connection.framed_new
    (fun fd cb con hop hcon ↦ ?_)
    fun fd con ret c' hop hcon hcall ↦ ?_
  · subst hop
    exact (h fd con hcon).receive cb (hok con hcon)
  · subst hop
    exact (framed_processFrames hdec (h fd con hcon) (hok con hcon) hcall).1

theorem Inv.delimits (hdec : lib.Decodes decode) (h : s.Inv) {op : GrpcOp}
    (hok : s.Meets lib decode op) : s.Delimits lib op := by
  rintro fd con con' r rfl hpre hcon hr hcon'
  rcases processFrames_cases lib hcon with hnone | ⟨ret, c', hcall, hsome⟩
  · rw [hnone] at hr
    exact absurd hr (by simp)
  · rw [hsome] at hr hcon'
    rw [← Option.some.inj hr]
    simp only [HTTP2GRPCManager.set, Function.update_self] at hcon'
    rw [← Option.some.inj hcon']
    exact (framed_processFrames hdec (h fd con hcon) (hok con hcon) hcall).2 hpre

/-- **Frames are delimited by their lengths** while the lengths in their payloads fit. -/
theorem run_delimits (hdec : lib.Decodes decode) {inflater : σ} {request : Req} {ops : List GrpcOp}
    (hok : Run.Steps (step lib) (Meets lib decode) (new inflater request) ops) :
    Run.Steps (step lib) (Delimits lib) (new inflater request) ops :=
  Run.Steps.of_invariant (fun _ _ hs hok ↦ hs.step hdec hok) (fun _ _ hs hok ↦ hs.delimits hdec hok)
    (inv_new inflater request) hok

/-- `l` arrives behind the preface, in one piece. -/
def arriving (l : List UInt8) (h : (http2Hdr ++ l).length < 2 ^ 31) : List GrpcOp :=
  [.registerConnection 3, .receive 3 (Reader.ofList (http2Hdr ++ l) h)]

/-- Settings, a ping and the data of a request for another path. -/
def threeFrames : List UInt8 :=
  [0, 0, 6, 4, 0, 0, 0, 0, 0, 0, 3, 0, 0, 0, 100] ++ [0, 0, 8, 6, 0, 0, 0, 0, 0, 1, 2, 3, 4, 5, 6,
    7, 8]
    ++ [0, 0, 7, 0, 1, 0, 0, 0, 1, 0, 0, 0, 0, 2, 8, 1]

theorem run_delimits_threeFrames :
    Run.Steps (step (GrpcLib.plain true)) (Delimits (GrpcLib.plain true)) (new () [])
      (arriving threeFrames (by decide) ++ List.replicate 3 (.processFrames 3)) :=
  run_delimits (GrpcLib.plain_decodes true) (by decide +kernel)

/-- The data of a frame without payload are taken from the header of the next one. -/
theorem not_delimits_of_emptyData : ¬∀ ops : List GrpcOp,
    Run.Steps (step (GrpcLib.plain true)) (Delimits (GrpcLib.plain true)) (new () []) ops := by
  intro h
  obtain ⟨-, hlast⟩ := Run.steps_concat.mp
    (h (arriving (List.replicate 18 0) (by decide) ++ [.processFrames 3]))
  generalize hs : (Run.run (step (GrpcLib.plain true)) (new () [])
    (arriving (List.replicate 18 0) (by decide))).1 = s at hlast
  have hbefore : (s.manager.connections 3).map (·.frameCount) = some 0 := by
    rw [← hs]
    decide +kernel
  have hafter : ((s.step (GrpcLib.plain true) (.processFrames 3)).1.manager.connections 3).map
      (fun con ↦ (con.frameCount, con.stream.curOffset)) = some (1, 14) := by
    rw [← hs]
    decide +kernel
  have hreturns : (s.step (GrpcLib.plain true) (.processFrames 3)).2.isSome = true := by
    rw [← hs]
    decide +kernel
  have harrived : s.arrived 3 = http2Hdr ++ List.replicate 18 0 := by
    rw [← hs]
    decide +kernel
  obtain ⟨con, hcon, hcount⟩ := Option.map_eq_some_iff.mp hbefore
  obtain ⟨con', hcon', hmoved⟩ := Option.map_eq_some_iff.mp hafter
  obtain ⟨r, hr⟩ := Option.isSome_iff_exists.mp hreturns
  obtain ⟨hcount', hoffset⟩ := Prod.mk.inj hmoved
  have hdelimits :=
    hlast 3 con con' r rfl (by rw [harrived]; exact List.prefix_append _ _) hcon hr hcon'
  have hcomplete := (hdelimits.complete (by rw [hcount', hcount]; decide)).2
  rw [hoffset, hcount, harrived] at hcomplete
  exact absurd hcomplete (by decide)

end GrpcFeed

end Coypu
