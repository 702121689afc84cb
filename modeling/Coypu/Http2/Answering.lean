import Coypu.Http2.Delimiting

/-!
# The stream of an answer

The frames of an answer have the identifier of the header that was read last, as it is after the bit
that is reserved was cleared (`HTTP2GRPCManager.Heads`). The identifier is in the order of the
network then, and what is cleared is the top bit of the integer over it, which on the host is that
of its last byte. So the answer is on the stream of the request if and only if that bit was clear
(`networkId_eq_iff`).

The header that was read last is tracked beside the manager (`GrpcTrace`).
-/

set_option autoImplicit false

namespace Coypu

open Http2

namespace H2Header

/-- The stream identifier in the order of the network, without the bit that is reserved. -/
def networkId (hdr : H2Header) : ℕ := Bytes.decode (Bytes.encode 4 hdr.id).reverse % 2 ^ 31

theorem decode_four (a b c d : UInt8) :
    Bytes.decode [a, b, c, d]
      = a.toNat * 2 ^ 24 + b.toNat * 2 ^ 16 + c.toNat * 2 ^ 8 + d.toNat := by
  simp only [Bytes.decode, List.foldl_cons, List.foldl_nil]
  omega

theorem networkId_eq {hdr : H2Header} {a b c d : UInt8} (h : hdr.id = Bytes.decode [d, c, b, a]) :
    hdr.networkId = Bytes.decode [a, b, c, d] % 2 ^ 31 := by
  have hencode : Bytes.encode 4 (Bytes.decode [d, c, b, a]) = [d, c, b, a] :=
    Bytes.encode_decode [d, c, b, a]
  rw [networkId, h, hencode]
  rfl

theorem exists_bytes {id : ℕ} (h : id < 2 ^ 32) : ∃ a b c d, id = Bytes.decode [d, c, b, a] :=
  ⟨_, _, _, _, (Bytes.decode_encode (n := 4) h).symm⟩

theorem clearBit_decode (a b c d : UInt8) :
    Bytes.decode [d, c, b, a] &&& (2 ^ 31 - 1)
      = Bytes.decode [UInt8.ofNat (d.toNat % 128), c, b, a] := by
  have hd : (UInt8.ofNat (d.toNat % 128)).toNat = d.toNat % 128 :=
    UInt8.toNat_ofNat_of_lt' (Nat.lt_trans (Nat.mod_lt _ (by decide)) (by decide))
  have ha := a.toNat_lt
  have hb := b.toNat_lt
  have hc := c.toNat_lt
  rw [Nat.and_two_pow_sub_one_eq_mod, decode_four, decode_four, hd]
  omega

/-- **Which identifiers survive.** The bit that is cleared has the value 128 in the order of the
network. -/
theorem networkId_eq_iff {request sent : H2Header} (hrequest : request.id < 2 ^ 32)
    (h : sent.id = request.clearBit.id) :
    sent.networkId = request.networkId ↔ request.networkId % 256 < 128 := by
  obtain ⟨a, b, c, d, hid⟩ := exists_bytes hrequest
  have hsent : sent.id = Bytes.decode [UInt8.ofNat (d.toNat % 128), c, b, a] := by
    rw [h, clearBit, hid]
    exact clearBit_decode a b c d
  have hd : (UInt8.ofNat (d.toNat % 128)).toNat = d.toNat % 128 :=
    UInt8.toNat_ofNat_of_lt' (Nat.lt_trans (Nat.mod_lt _ (by decide)) (by decide))
  have hlt := d.toNat_lt
  rw [networkId_eq hid, networkId_eq hsent, decode_four, decode_four, hd]
  omega

theorem id_ofBytes_lt (l : List UInt8) : (ofBytes l).id < 2 ^ 32 := by
  have hlt := Bytes.decode_lt ((l.drop 5).take 4).reverse
  refine Nat.lt_of_lt_of_le hlt ?_
  rw [List.length_reverse]
  exact Nat.pow_le_pow_right (by decide) (List.length_take_le _ _)

end H2Header

theorem H2Connection.receive_readFrame {con : H2Connection} {cb : Transport.Reader UInt8}
    (h : (con.receive cb).2.state = .readFrame) :
    con.state = .readFrame ∧ (con.receive cb).2.hdr = con.hdr := by
  have hconnecting (con' : H2Connection) (hstate : con'.state = .connecting) :
      con'.processConnecting.2.state ≠ .readFrame := by
    rw [processConnecting]
    split_ifs
    · cases hret : (con'.httpBuf.pop http2InitSize false).ret with
      | none => simp [hret, hstate]
      | some priHdr =>
        simp only [hret]
        split_ifs <;> simp [hstate]
    · simp [hstate]
  have hstate : (con.receive cb).2.state = con.state ∧ (con.receive cb).2.hdr = con.hdr ∨
      (con.receive cb).2.state ≠ .readFrame := by
    rw [receive]
    split_ifs with _ _ hconn _ hconn
    · exact Or.inl ⟨rfl, rfl⟩
    · exact Or.inr (hconnecting _ hconn)
    · exact Or.inl ⟨rfl, rfl⟩
    · exact Or.inl ⟨rfl, rfl⟩
    · exact Or.inr (hconnecting _ hconn)
    · exact Or.inl ⟨rfl, rfl⟩
  rcases hstate with ⟨hstate, hhdr⟩ | hstate
  · exact ⟨hstate ▸ h, hhdr⟩
  · exact absurd h hstate

/-! ## One call -/

namespace GrpcCall

variable {σ Req Resp : Type} {lib : GrpcLib σ Req Resp} {c c' : GrpcCall σ Req} {ret : ℤ}

theorem processFrame_emits (heq : c.processFrame lib = some (ret, c')) :
    Emits c c' ∧ (c' = c ∨ c'.con.state = .readFrameHeader) := by
  rw [processFrame] at heq
  simp only at heq
  split_ifs at heq
  · obtain ⟨c₂, hframe, hr⟩ := Option.map_eq_some_iff.mp heq
    obtain rfl : _ = c' := congrArg Prod.snd hr
    have hcount : Emits c (c.withCon { c.con with
        frameCount := CInt.toUnsigned 32 (c.con.frameCount + 1 : ℕ) }) := .of_events_eq rfl rfl
    exact ⟨(hcount.trans (frame_emits hframe)).trans (.of_events_eq rfl rfl), Or.inr rfl⟩
  · obtain ⟨-, rfl⟩ := Prod.mk.inj (Option.some.inj heq)
    exact ⟨.of_events_eq rfl rfl, Or.inl rfl⟩

/-- What a call may do: go on with the frame whose header it has, read a header and begin with the
frame, or nothing. -/
theorem processFrames_cases (heq : c.processFrames lib = some (ret, c')) :
    (c.con.state = .readFrame ∧ c.processFrame lib = some (ret, c')) ∨
      (∃ (l : List UInt8) (c₁ : GrpcCall σ Req), c.con.state = .readFrameHeader ∧
        c₁.con.state = .readFrame ∧
        c₁.con.hdr = (H2Header.ofBytes l).clearBit ∧ c₁.events = c.events ++ [.header l] ∧
          c₁.processFrame lib = some (ret, c')) ∨
      (c.con.state ≠ .readFrame ∧ c'.con.state ≠ .readFrame ∧ c'.events = c.events) := by
  rw [processFrames] at heq
  cases hstate : c.con.state with
  | readFrameHeader =>
    rw [hstate] at heq
    simp only at heq
    split_ifs at heq
    · obtain ⟨⟨data, stream⟩, -, hr⟩ := Option.bind_eq_some_iff.mp heq
      cases data with
      | none =>
        obtain ⟨-, rfl⟩ := Prod.mk.inj (Option.some.inj hr)
        refine Or.inr (Or.inr ⟨by simp, ?_, rfl⟩)
        simp [withCon, hstate]
      | some l => exact Or.inr (Or.inl ⟨l, _, rfl, rfl, rfl, rfl, hr⟩)
    · obtain ⟨-, rfl⟩ := Prod.mk.inj (Option.some.inj heq)
      exact Or.inr (Or.inr ⟨by simp, by simp [hstate], rfl⟩)
  | readFrame =>
    rw [hstate] at heq
    exact Or.inl ⟨rfl, heq⟩
  | unknown | connecting | preHttp | closed =>
    rw [hstate] at heq
    obtain ⟨-, rfl⟩ := Prod.mk.inj (Option.some.inj heq)
    exact Or.inr (Or.inr ⟨by simp, by simp [hstate], rfl⟩)

end GrpcCall

/-! ## Runs -/

def GrpcEvent.header? {Req : Type} : GrpcEvent Req → Option (List UInt8)
  | .header l => some l
  | .decoded _ | .handed _ | .sent _ => none

/-- A manager, and the bytes of the last header that was read of each connection. -/
structure GrpcTrace (σ Req : Type) where
  manager : HTTP2GRPCManager σ Req
  last : ℕ → List UInt8

namespace GrpcTrace

variable {σ Req Resp : Type}

def new (inflater : σ) (request : Req) : GrpcTrace σ Req := ⟨.new inflater request, fun _ ↦ []⟩

/-- The headers that were read last, behind a step. -/
def follow (s : GrpcTrace σ Req) (events : List (GrpcEvent Req)) : GrpcOp → ℕ → List UInt8
  | .processFrames fd =>
    Function.update s.last fd ((events.findSome? GrpcEvent.header?).getD (s.last fd))
  | .registerConnection _ | .unregister _ | .receive _ _ => s.last

def step (lib : GrpcLib σ Req Resp) (s : GrpcTrace σ Req) (op : GrpcOp) :
    GrpcTrace σ Req × Option (ℤ × List (GrpcEvent Req)) :=
  let r := s.manager.step lib op
  (⟨r.1, s.follow (r.2.elim [] Prod.snd) op⟩, r.2)

/-- In the step a frame was sent in answer to the data of a request, given by their headers. -/
def Answered (lib : GrpcLib σ Req Resp) (s : GrpcTrace σ Req) (op : GrpcOp)
    (request sent : H2Header) : Prop :=
  ∃ fd r, op = .processFrames fd ∧ (s.step lib op).2 = some r ∧ .sent sent ∈ r.2 ∧
    request = H2Header.ofBytes ((s.step lib op).1.last fd) ∧ request.type = H2FrameType.data.value

/-- Answers are on the stream of their request. -/
def OnStream (lib : GrpcLib σ Req Resp) (s : GrpcTrace σ Req) (op : GrpcOp) : Prop :=
  ∀ request sent, s.Answered lib op request sent → sent.networkId = request.networkId

/-- Where a frame is read, its header is that which was read last. -/
def Heads (s : GrpcTrace σ Req) : Prop := ∀ fd con, s.manager.connections fd = some con →
  con.state = .readFrame → con.hdr = (H2Header.ofBytes (s.last fd)).clearBit

theorem heads_new (inflater : σ) (request : Req) : (new inflater request).Heads :=
  fun _ _ hcon ↦ absurd hcon (by simp [new, HTTP2GRPCManager.new])

variable {lib : GrpcLib σ Req Resp} {s : GrpcTrace σ Req}

theorem findSome?_of_emits {c c' : GrpcCall σ Req} (h : c.Emits c') {l : List UInt8} :
    (c'.events.findSome? GrpcEvent.header?).getD l =
    (c.events.findSome? GrpcEvent.header?).getD l := by
  obtain ⟨events, hof, hevents⟩ := h.events_eq
  have hnone : events.findSome? GrpcEvent.header? = none := by
    rw [List.findSome?_eq_none_iff]
    intro event hmem
    cases event with
    | header bytes => exact (hof _ hmem).elim
    | decoded fields => rfl
    | handed request => rfl
    | sent hdr => rfl
  rw [hevents, List.findSome?_append, hnone, Option.or_none]

theorem Heads.processFrames (h : s.Heads) {fd : ℕ} {con : H2Connection}
    (hcon : s.manager.connections fd = some con) {ret : ℤ} {c' : GrpcCall σ Req}
    (heq : (s.manager.call con).processFrames lib = some (ret, c')) {l : List UInt8}
    (hl : l = (c'.events.findSome? GrpcEvent.header?).getD (s.last fd)) :
    (c'.con.state = .readFrame → c'.con.hdr = (H2Header.ofBytes l).clearBit) ∧
      ∀ sent, .sent sent ∈ c'.events → (H2Header.ofBytes l).type = H2FrameType.data.value →
        sent.id = (H2Header.ofBytes l).clearBit.id := by
  have hframe {c₁ : GrpcCall σ Req} (hhdr : c₁.con.hdr = (H2Header.ofBytes l).clearBit)
      (hevents : ∀ sent, .sent sent ∉ c₁.events) (hr : c₁.processFrame lib = some (ret, c')) :
      (c'.con.state = .readFrame → c'.con.hdr = (H2Header.ofBytes l).clearBit) ∧
        ∀ sent, .sent sent ∈ c'.events → (H2Header.ofBytes l).type = H2FrameType.data.value →
          sent.id = (H2Header.ofBytes l).clearBit.id := by
    obtain ⟨events, hof, heq'⟩ := (GrpcCall.processFrame_emits hr).1.events_eq
    refine ⟨fun _ ↦ (GrpcCall.processFrame_emits hr).1.hdr_eq.trans hhdr, fun sent hmem hdata ↦ ?_⟩
    rw [heq'] at hmem
    rcases List.mem_append.mp hmem with hmem | hmem
    · exact absurd hmem (hevents sent)
    · have hid := hof _ hmem
      rw [hhdr] at hid
      exact hid hdata
  rcases GrpcCall.processFrames_cases heq with ⟨hstate, hr⟩ | ⟨bytes, c₁, -, -, hhdr, hevents, hr⟩ |
    ⟨-, hstate, hevents⟩
  · rw [findSome?_of_emits (GrpcCall.processFrame_emits hr).1] at hl
    exact hframe (by rw [hl]; exact h fd con hcon hstate) (by simp [HTTP2GRPCManager.call]) hr
  · rw [findSome?_of_emits (GrpcCall.processFrame_emits hr).1, hevents] at hl
    obtain rfl : l = bytes := hl
    exact hframe hhdr (by simp [hevents, HTTP2GRPCManager.call]) hr
  · refine ⟨fun hread ↦ absurd hread hstate, fun sent hmem ↦ ?_⟩
    rw [hevents] at hmem
    exact absurd hmem (by simp [HTTP2GRPCManager.call])

theorem Heads.set (h : s.Heads) (fd : ℕ) (con : H2Connection) (l : List UInt8)
    (hcon : con.state = .readFrame → con.hdr = (H2Header.ofBytes l).clearBit) :
    Heads ⟨s.manager.set fd (some con), Function.update s.last fd l⟩ := by
  intro fd' con' hcon' hstate
  change Function.update s.manager.connections fd (some con) fd' = some con' at hcon'
  change con'.hdr = (H2Header.ofBytes (Function.update s.last fd l fd')).clearBit
  by_cases hfd : fd' = fd
  · subst hfd
    rw [Function.update_self] at hcon' ⊢
    obtain rfl := Option.some.inj hcon'
    exact hcon hstate
  · rw [Function.update_of_ne hfd] at hcon' ⊢
    exact h fd' con' hcon' hstate

variable (lib) in
theorem step_processFrames {fd : ℕ} {con : H2Connection}
    (hcon : s.manager.connections fd = some con) : (s.step lib (.processFrames fd) = (s, none)) ∨
      ∃ ret c', (s.manager.call con).processFrames lib = some (ret, c') ∧
        s.step lib (.processFrames fd) = (⟨{ s.manager.set fd (some c'.con) with
          inflater := c'.inflater, request := c'.request }, Function.update s.last fd
            ((c'.events.findSome? GrpcEvent.header?).getD (s.last fd))⟩,
              some (ret, c'.events)) := by
  cases hcall : (s.manager.call con).processFrames lib with
  | none =>
    refine Or.inl ?_
    rw [step, HTTP2GRPCManager.step_of_none hcon hcall]
    exact congrArg (fun last ↦ ((⟨s.manager, last⟩ : GrpcTrace σ Req), none))
      (Function.update_eq_self fd s.last)
  | some r =>
    refine Or.inr ⟨r.1, r.2, rfl, ?_⟩
    rw [step, HTTP2GRPCManager.step_of_some hcon hcall]
    rfl

/-- Which answers are on the stream of their request. -/
def OnStreamIff (lib : GrpcLib σ Req Resp) (s : GrpcTrace σ Req) (op : GrpcOp) : Prop :=
  ∀ request sent, s.Answered lib op request sent →
    (sent.networkId = request.networkId ↔ request.networkId % 256 < 128)

theorem Heads.processFrames_step (h : s.Heads) (fd : ℕ) :
    Heads (s.step lib (.processFrames fd)).1 ∧ s.OnStreamIff lib (.processFrames fd) := by
  cases hcon : s.manager.connections fd with
  | none =>
    constructor
    · rw [GrpcTrace.step, HTTP2GRPCManager.step]
      simp only [hcon, follow, Option.elim_some, List.findSome?_nil, Option.getD_none]
      rw [Function.update_eq_self]
      exact h
    · rintro request sent ⟨fd', r, hop, hr, hmem, -⟩
      obtain rfl := GrpcOp.processFrames.inj hop
      rw [GrpcTrace.step, HTTP2GRPCManager.step, hcon] at hr
      rw [← Option.some.inj hr] at hmem
      exact absurd hmem (by simp)
  | some con =>
    rcases step_processFrames lib hcon with hnone | ⟨ret, c', hcall, hsome⟩
    · refine ⟨hnone ▸ h, ?_⟩
      rintro request sent ⟨fd', r, -, hr, -⟩
      rw [hnone] at hr
      exact absurd hr (by simp)
    -- the identifier of the answer is that of the header read last
    · obtain ⟨hhdr, hsent⟩ := h.processFrames hcon hcall rfl
      refine ⟨hsome ▸ h.set fd c'.con _ hhdr, ?_⟩
      rintro request sent ⟨fd', r, hop, hr, hmem, hrequest, hdata⟩
      obtain rfl := GrpcOp.processFrames.inj hop
      rw [hsome] at hr hrequest
      rw [← Option.some.inj hr] at hmem
      simp only [Function.update_self] at hrequest
      rw [hrequest] at hdata ⊢
      exact H2Header.networkId_eq_iff (H2Header.id_ofBytes_lt _) (hsent sent hmem hdata)

theorem Heads.step (h : s.Heads) (op : GrpcOp) :
    Heads (s.step lib op).1 ∧ s.OnStreamIff lib op := by
  have hother (hop : ∀ fd, op ≠ .processFrames fd) : s.OnStreamIff lib op := by
    rintro request sent ⟨fd, r, hfd, -⟩
    exact absurd hfd (hop fd)
  cases op with
  | registerConnection fd =>
    refine ⟨?_, hother (by simp)⟩
    rw [GrpcTrace.step, HTTP2GRPCManager.step]
    cases hcon : s.manager.connections fd with
    | none =>
      have hset := h.set fd (.new (PositionedLog.createAnonStore 128)) (s.last fd)
        (fun hstate ↦ absurd hstate (by decide))
      rwa [Function.update_eq_self] at hset
    | some con => exact h
  | unregister fd =>
    refine ⟨fun fd' con' hcon' hstate ↦ ?_, hother (by simp)⟩
    rw [GrpcTrace.step, HTTP2GRPCManager.step] at hcon' ⊢
    cases hcon : s.manager.connections fd with
    | none =>
      rw [hcon] at hcon'
      exact h fd' con' hcon' hstate
    | some con =>
      rw [hcon] at hcon'
      simp only [HTTP2GRPCManager.set, Function.update_apply] at hcon'
      split_ifs at hcon'
      exact h fd' con' hcon' hstate
  | receive fd cb =>
    refine ⟨?_, hother (by simp)⟩
    rw [GrpcTrace.step, HTTP2GRPCManager.step]
    cases hcon : s.manager.connections fd with
    | none => exact h
    | some con =>
      have hset := h.set fd (con.receive cb).2 (s.last fd) fun hstate ↦ by
        obtain ⟨hread, hhdr⟩ := H2Connection.receive_readFrame hstate
        rw [hhdr]
        exact h fd con hcon hread
      rwa [Function.update_eq_self] at hset
  | processFrames fd => exact h.processFrames_step fd

/-- **An answer is on the stream of its request** if and only if the bit of value 128 of the
identifier is clear. -/
theorem run_onStream_iff (lib : GrpcLib σ Req Resp) (inflater : σ) (request : Req)
    (ops : List GrpcOp) : Run.Steps (step lib) (OnStreamIff lib) (new inflater request) ops :=
  Run.Steps.of_invariant (fun _ op hs _ ↦ (Heads.step hs op).1)
    (fun _ op hs _ ↦ (Heads.step hs op).2)
    (heads_new inflater request) (Run.steps_true _ ops)

/-- The data of a request on stream 128, for which there is no path. -/
def onStream128 : List UInt8 := [0, 0, 5, 0, 1, 0, 0, 0, 128, 0, 0, 0, 0, 0]

/-- The answer to a request on stream 128 is on stream 0. -/
theorem not_onStream_of_128 : ¬∀ ops : List GrpcOp, Run.Steps (step (GrpcLib.plain true))
    (OnStream (GrpcLib.plain true)) (new () []) ops := by
  intro h
  obtain ⟨-, hlast⟩ := Run.steps_concat.mp
    (h (GrpcFeed.arriving onStream128 (by decide) ++ [.processFrames 3]))
  generalize hs : (Run.run (step (GrpcLib.plain true)) (new () [])
    (GrpcFeed.arriving onStream128 (by decide))).1 = s at hlast
  have hevents : ((s.step (GrpcLib.plain true) (.processFrames 3)).2.map
      fun r ↦ r.2.contains (.sent ⟨[0, 0, 13], 1, 5, 0⟩)) = some true := by
    rw [← hs]
    decide +kernel
  have hrequest : (s.step (GrpcLib.plain true) (.processFrames 3)).1.last 3
      = [0, 0, 5, 0, 1, 0, 0, 0, 128] := by
    rw [← hs]
    decide +kernel
  obtain ⟨r, hr, hmem⟩ := Option.map_eq_some_iff.mp hevents
  have hid := hlast _ _ ⟨3, r, rfl, hr, List.contains_iff_mem.mp hmem, rfl, by rw [hrequest]; rfl⟩
  rw [hrequest] at hid
  exact absurd hid (by decide)

end GrpcTrace

end Coypu
