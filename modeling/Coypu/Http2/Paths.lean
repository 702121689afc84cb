import Coypu.Http2.Answering
import Coypu.Http2.Merging

/-!
# The path of a request

Whether data are handed to the callback goes by one flag of the connection, which the last field
sets that looks like a path (`foldl_pathMatch`). A field looks like one if its name agrees with
`:path` up to the shorter length, and it matches if its value agrees so with the path of the
service. The flag is not cleared by a header list without such a field, and not kept by stream. So
the path is checked as long as a flag that is set goes with the path among the fields of the stream
itself (`Admitted`).

The header lists of each connection are tracked beside the manager, with their streams
(`GrpcHeaders`).
-/

set_option autoImplicit false

namespace Coypu

open Http2

/-! ## The fields of a block -/

namespace GrpcLib

variable {σ Req Resp : Type} (lib : GrpcLib σ Req Resp)

/-- The name agrees with `:path` up to the shorter length. -/
def looksLikePath (field : Field) : Bool :=
  GrpcCall.strncmpEq (min field.1.length 5) field.1 (ascii ":path")

/-- The value agrees with the path of the service up to the shorter length. -/
def agreesWithPath (field : Field) : Bool :=
  GrpcCall.strncmpEq (min field.2.length lib.path.length) field.2 lib.path

/-- The last of some fields that looks like a path agrees with that of the service. -/
def Agrees (fields : List Field) : Prop :=
  (fields.filter looksLikePath).getLast?.any lib.agreesWithPath = true

instance (fields : List Field) : Decidable (lib.Agrees fields) :=
  inferInstanceAs (Decidable (_ = _))

theorem foldl_pathMatch (fields : List Field) (m : Bool) :
    fields.foldl (GrpcCall.pathMatch lib) m
      = (fields.filter looksLikePath).getLast?.elim m lib.agreesWithPath := by
  induction fields using List.reverseRecOn with
  | nil => rfl
  | append_singleton fields field ih =>
    rw [List.foldl_append, ih, List.filter_append]
    by_cases hname : looksLikePath field = true
    · have hone : [field].filter looksLikePath = [field] := List.filter_cons_of_pos hname
      rw [hone, List.getLast?_concat]
      exact if_pos hname
    · have hnone : [field].filter looksLikePath = [] := List.filter_cons_of_neg hname
      rw [hnone, List.append_nil]
      exact if_neg hname

theorem agrees_iff (fields : List Field) :
    lib.Agrees fields ↔ fields.foldl (GrpcCall.pathMatch lib) false = true := by
  rw [foldl_pathMatch, Agrees]
  cases (fields.filter looksLikePath).getLast? <;> rfl

end GrpcLib

namespace GrpcCall

variable {σ Req Resp : Type} {lib : GrpcLib σ Req Resp} {c c' : GrpcCall σ Req}

theorem inflateLoop_match {fuel : ℕ} {s : σ} {m : Bool} {block : List UInt8} {fields : List Field}
    {q : σ × Bool × List Field} (h : inflateLoop lib fuel s m block fields = some q) :
    ∃ new, q.2.2 = fields ++ new ∧ q.2.1 = new.foldl (pathMatch lib) m := by
  induction fuel generalizing s m block fields with
  | zero => exact absurd h (by simp [inflateLoop])
  | succ fuel ih =>
    rw [inflateLoop] at h
    simp only at h
    have hone : (lib.inflate s block).emit.elim m (pathMatch lib m)
        = (lib.inflate s block).emit.toList.foldl (pathMatch lib) m := by
      cases (lib.inflate s block).emit <;> rfl
    rw [hone] at h
    split_ifs at h
    · obtain rfl := Option.some.inj h
      exact ⟨[], (List.append_nil fields).symm, rfl⟩
    · obtain rfl := Option.some.inj h
      exact ⟨_, rfl, rfl⟩
    · obtain rfl := Option.some.inj h
      exact ⟨_, rfl, rfl⟩
    · obtain ⟨new, hfields, hmatch⟩ := ih h
      refine ⟨(lib.inflate s block).emit.toList ++ new, ?_, ?_⟩
      · rw [hfields, List.append_assoc]
      · rw [hmatch, List.foldl_append]

/-- **The flag behind a call** is that of the fields that it decodes. -/
theorem processFrames_match {r : ℤ × GrpcCall σ Req} (hevents : c.events = [])
    (heq : c.processFrames lib = some r) :
    r.2.con.lastPathMatch
      = (decodedOf r.2.events).flatten.foldl (pathMatch lib) c.con.lastPathMatch := by
  have hnil : decodedOf c.events = [] := by rw [hevents]; rfl
  cases hblock : c.con.headerBlock lib with
  | none =>
    have hkeeps := processFrames_keeps hblock heq
    rw [hkeeps.match_eq, hkeeps.decoded_eq, hnil]
    rfl
  | some block =>
    cases hq : lib.inflateBlock c.inflater c.con.lastPathMatch block with
    | none =>
      -- a block that is not inflated to its end is not left
      obtain ⟨con, hcon, hhead⟩ := Option.bind_eq_some_iff.mp hblock
      split_ifs at hhead with hheaders
      obtain ⟨p, hpop, hblockOf⟩ := Option.bind_eq_some_iff.mp hhead
      obtain ⟨c₁, hbefore, rfl, hcall⟩ := processFrames_of_atPayload lib hcon
      have hkeeps := hbefore.keeps
      rw [← hkeeps.inflater_eq, ← hkeeps.match_eq] at hq
      have hinflate : (c₁.withStream p.2).inflateHeaderBlock lib block = none :=
        congrArg (Option.map _) hq
      rw [hcall, frame, if_pos hheaders.1, headersFrame_eq hheaders.2, hpop, Option.bind_some,
        hblockOf, Option.bind_some, hinflate] at heq
      exact absurd heq (by simp)
    | some q =>
      obtain ⟨r', hcall, -, hmatch, hdecoded⟩ := processFrames_of_headerBlock hblock hq
      obtain rfl := Option.some.inj (hcall.symm.trans heq)
      obtain ⟨new, hfields, hfold⟩ := inflateLoop_match hq
      rw [hmatch, hdecoded, hnil, hfold, hfields]
      simp

/-! ## Data -/

/-- The answer to data of another path. -/
def notFound (lib : GrpcLib σ Req Resp) (c : GrpcCall σ Req) : BipBuf .uint64 UInt8 :=
  (c.sendHeaderFrame lib [(ascii ":status", ascii "404")]
    (H2Flags.endHeaders.value ||| H2Flags.endStream.value)).con.writeBuf

theorem notFound_congr (hbuf : c'.con.writeBuf = c.con.writeBuf)
    (hid : c'.con.hdr.id = c.con.hdr.id) : notFound lib c' = notFound lib c := by
  rw [notFound, notFound, sendHeaderFrame, sendHeaderFrame]
  cases lib.deflate [(ascii ":status", ascii "404")] with
  | none => exact hbuf
  | some data =>
    simp only [sendFrame]
    rw [sendAll_writeBuf, sendAll_writeBuf, hbuf, hid]

theorem dataFrame_of_mismatch (hmatch : c.con.lastPathMatch = false)
    (heq : c.dataFrame lib = some c') : c'.con.writeBuf = notFound lib c := by
  obtain ⟨r, -, hr⟩ := Option.bind_eq_some_iff.mp heq
  simp only [hmatch, Bool.false_eq_true, if_false] at hr
  rw [mismatchFrame] at hr
  split_ifs at hr
  rw [← Option.some.inj hr]
  exact notFound_congr rfl rfl

theorem dataFrame_of_match (hmatch : c.con.lastPathMatch = true) (heq : c.dataFrame lib = some c') :
    handedOf c'.events ≠ [] := by
  rcases dataFrame_cases heq with ⟨hfalse, -⟩ | ⟨r, -, -, hr⟩
  · exact absurd (hfalse.symm.trans hmatch) Bool.false_ne_true
  · obtain ⟨q, -, hq⟩ := Option.bind_eq_some_iff.mp hr
    split_ifs at hq
    rw [(respond_effects hq).handed_eq]
    simp [emit, handedOf]

/-- **A call that handles data** answers with 404, or hands over a request, as the flag says. -/
theorem processFrames_data {con : H2Connection} {r : ℤ × GrpcCall σ Req} (hevents : c.events = [])
    (hcon : c.con.atPayload = some con) (hdata : con.hdr.type = H2FrameType.data.value)
    (heq : c.processFrames lib = some r) :
    (c.con.lastPathMatch = false → handedOf r.2.events = [] ∧
        r.2.con.writeBuf = notFound lib (c.withCon con)) ∧
      (c.con.lastPathMatch = true → handedOf r.2.events ≠ []) := by
  obtain ⟨c₁, hbefore, rfl, hcall⟩ := processFrames_of_atPayload lib hcon
  have hflag := hbefore.keeps_state.2.2
  have hnone : handedOf c₁.events = [] := by
    rw [hbefore.handed_eq, hevents]
    rfl
  have hheaders : ¬c₁.con.hdr.type = H2FrameType.headers.value := by
    rw [hdata]
    decide
  rw [hcall, frame, if_neg hheaders, if_pos hdata] at heq
  obtain ⟨c₂, hframe, rfl⟩ := Option.map_eq_some_iff.mp heq
  rw [← hflag, (finish_effects lib).handed_eq]
  constructor
  · intro hmatch
    refine ⟨?_, (dataFrame_of_mismatch hmatch hframe).trans (notFound_congr rfl rfl)⟩
    rcases dataFrame_cases hframe with ⟨-, heffects⟩ | ⟨-, htrue, -⟩
    · rw [heffects.handed_eq, hnone]
    · exact absurd (hmatch.symm.trans htrue) Bool.false_ne_true
  · intro hmatch
    exact dataFrame_of_match hmatch hframe

end GrpcCall

/-! ## Runs -/

/-- The bytes of the header that the next call has, given those that were read last. -/
def H2Connection.headerBytes (con : H2Connection) (last : List UInt8) : List UInt8 :=
  match con.state with
  | .readFrameHeader => ((con.stream.pop http2FrameHdrSize).bind Prod.fst).getD last
  | .unknown | .connecting | .preHttp | .readFrame | .closed => last

/-- A manager with the headers that were read last, and the header lists of each connection, each
with its stream. -/
structure GrpcHeaders (σ Req : Type) where
  trace : GrpcTrace σ Req
  lists : ℕ → List (ℕ × List Field)

namespace GrpcHeaders

variable {σ Req Resp : Type}

def new (inflater : σ) (request : Req) : GrpcHeaders σ Req := ⟨.new inflater request, fun _ ↦ []⟩

/-- The stream of a header. -/
def streamOf (bytes : List UInt8) : ℕ := (H2Header.ofBytes bytes).networkId

/-- The header lists behind a step. A new connection has none. -/
def decode (s : GrpcHeaders σ Req) (events : List (GrpcEvent Req)) :
    GrpcOp → ℕ → List (ℕ × List Field)
  | .registerConnection fd =>
    match s.trace.manager.connections fd with
    | none => Function.update s.lists fd []
    | some _ => s.lists
  | .processFrames fd =>
    match s.trace.manager.connections fd with
    | none => s.lists
    | some con => Function.update s.lists fd (s.lists fd ++
        (decodedOf events).map (streamOf (con.headerBytes (s.trace.last fd)), ·))
  | .unregister _ | .receive _ _ => s.lists

def step (lib : GrpcLib σ Req Resp) (s : GrpcHeaders σ Req) (op : GrpcOp) :
    GrpcHeaders σ Req × Option (ℤ × List (GrpcEvent Req)) :=
  let r := s.trace.step lib op
  (⟨r.1, s.decode (r.2.elim [] Prod.snd) op⟩, r.2)

/-- All fields that a connection has sent. -/
def sent (s : GrpcHeaders σ Req) (fd : ℕ) : List Field := (s.lists fd).flatMap Prod.snd

/-- The fields of one stream. -/
def own (s : GrpcHeaders σ Req) (fd stream : ℕ) : List Field :=
  ((s.lists fd).filter (·.1 = stream)).flatMap Prod.snd

/-- Data whose stream has not sent the path of the service are not handed to the callback, and are
answered with 404. -/
def Serves (lib : GrpcLib σ Req Resp) (s : GrpcHeaders σ Req) (op : GrpcOp) : Prop :=
  ∀ fd con con₁ con' r, op = .processFrames fd → s.trace.manager.connections fd = some con →
    con.atPayload = some con₁ → con₁.hdr.type = H2FrameType.data.value →
    (s.step lib op).2 = some r → (s.step lib op).1.trace.manager.connections fd = some con' →
    (ascii ":path", lib.path) ∉ s.own fd (streamOf (con.headerBytes (s.trace.last fd))) →
      handedOf r.2 = [] ∧
        con'.writeBuf = GrpcCall.notFound lib ((s.trace.manager.call con).withCon con₁)

/-- If the last field of the connection that looks like a path agrees with that of the service, the
stream of the data has sent this. -/
def Admitted (lib : GrpcLib σ Req Resp) (s : GrpcHeaders σ Req) : GrpcOp → Prop
  | .processFrames fd => ∀ con ∈ s.trace.manager.connections fd, ∀ con₁ ∈ con.atPayload,
      con₁.hdr.type = H2FrameType.data.value → lib.Agrees (s.sent fd) →
        (ascii ":path", lib.path) ∈ s.own fd (streamOf (con.headerBytes (s.trace.last fd)))
  | .registerConnection _ | .unregister _ | .receive _ _ => True

instance (lib : GrpcLib σ Req Resp) (s : GrpcHeaders σ Req) : DecidablePred (s.Admitted lib)
  | .processFrames _ => inferInstanceAs (Decidable (∀ con ∈ s.trace.manager.connections _,
      ∀ con₁ ∈ con.atPayload, _ → _ → _))
  | .registerConnection _ | .unregister _ | .receive _ _ => .isTrue trivial

/-- The flag of a connection is that of the fields that it has sent. -/
def Flagged (lib : GrpcLib σ Req Resp) (s : GrpcHeaders σ Req) : Prop :=
  ∀ fd con, s.trace.manager.connections fd = some con →
    con.lastPathMatch = (s.sent fd).foldl (GrpcCall.pathMatch lib) false

variable {lib : GrpcLib σ Req Resp} {s : GrpcHeaders σ Req} {op : GrpcOp}

theorem receive_lastPathMatch (con : H2Connection) (cb : Transport.Reader UInt8) :
    (con.receive cb).2.lastPathMatch = con.lastPathMatch := by
  have hconnecting (con : H2Connection) :
      con.processConnecting.2.lastPathMatch = con.lastPathMatch := by
    rw [H2Connection.processConnecting]
    split_ifs
    · cases hret : (con.httpBuf.pop http2InitSize false).ret with
      | none => simp [hret]
      | some priHdr =>
        simp only [hret]
        split_ifs <;> rfl
    · rfl
  rw [H2Connection.receive]
  split_ifs <;> first | rfl | exact (hconnecting _).trans rfl

theorem step_of_call {fd : ℕ} {con : H2Connection} {r : ℤ × GrpcCall σ Req}
    (hcon : s.trace.manager.connections fd = some con)
    (hcall : (s.trace.manager.call con).processFrames lib = some r) :
    (s.step lib (.processFrames fd)).2 = some (r.1, r.2.events) ∧
      (s.step lib (.processFrames fd)).1.trace.manager.connections
        = Function.update s.trace.manager.connections fd (some r.2.con) ∧
      (s.step lib (.processFrames fd)).1.sent
        = Function.update s.sent fd (s.sent fd ++ (decodedOf r.2.events).flatten) := by
  have hstep := HTTP2GRPCManager.step_of_some hcon hcall
  rw [step, GrpcTrace.step, hstep]
  refine ⟨rfl, rfl, funext fun fd' ↦ ?_⟩
  simp only [sent, decode, hcon, Option.elim_some, Function.update_apply]
  split_ifs
  · rw [List.flatMap_append, List.flatMap_map, List.flatMap_id']
  · rfl

theorem step_of_no_call (lib : GrpcLib σ Req Resp) (s : GrpcHeaders σ Req) (fd : ℕ)
    (hcall : ∀ con ∈ s.trace.manager.connections fd,
      (s.trace.manager.call con).processFrames lib = none) :
    (s.step lib (.processFrames fd)).1.trace.manager = s.trace.manager ∧
      (s.step lib (.processFrames fd)).1.sent = s.sent := by
  rw [step, GrpcTrace.step]
  cases hcon : s.trace.manager.connections fd with
  | none =>
    rw [HTTP2GRPCManager.step, hcon]
    refine ⟨rfl, funext fun fd' ↦ ?_⟩
    simp only [sent, decode, hcon]
  | some con =>
    rw [HTTP2GRPCManager.step_of_none hcon (hcall con hcon)]
    refine ⟨rfl, funext fun fd' ↦ ?_⟩
    simp [sent, decode, hcon, decodedOf]

/-- A call of `ProcessFrames` follows the fields that it decodes. -/
theorem Flagged.processFrames (h : s.Flagged lib) (fd : ℕ) :
    Flagged lib (s.step lib (.processFrames fd)).1 := by
  cases hcon : s.trace.manager.connections fd with
  | none =>
    obtain ⟨hmanager, hsent⟩ := step_of_no_call lib s fd fun con hmem ↦ by
      rw [hcon] at hmem
      exact absurd hmem (by simp)
    rw [Flagged, hmanager, hsent]
    exact h
  | some con =>
    cases hcall : (s.trace.manager.call con).processFrames lib with
    | none =>
      obtain ⟨hmanager, hsent⟩ := step_of_no_call lib s fd fun con' hmem ↦ by
        obtain rfl := Option.some.inj (hcon.symm.trans hmem)
        exact hcall
      rw [Flagged, hmanager, hsent]
      exact h
    | some r =>
      obtain ⟨-, hconnections, hsent⟩ := step_of_call hcon hcall
      intro fd' con' hcon'
      rw [hconnections, Function.update_apply] at hcon'
      rw [hsent, Function.update_apply]
      split_ifs at hcon' ⊢ with hfd
      · have hflag : con.lastPathMatch = _ := h fd con hcon
        rw [← Option.some.inj hcon', List.foldl_append, ← hflag]
        exact GrpcCall.processFrames_match rfl hcall
      · exact h fd' con' hcon'

theorem Flagged.step (h : s.Flagged lib) : Flagged lib (s.step lib op).1 := by
  cases op with
  | registerConnection fd =>
    rw [GrpcHeaders.step, GrpcTrace.step, HTTP2GRPCManager.step, decode]
    cases hcon : s.trace.manager.connections fd with
    | none =>
      intro fd' con' hcon'
      simp only [HTTP2GRPCManager.set, Function.update_apply] at hcon'
      rw [sent]
      simp only [Function.update_apply]
      split_ifs at hcon' ⊢ with hfd
      · rw [← Option.some.inj hcon']
        rfl
      · exact h fd' con' hcon'
    | some con => exact h
  | unregister fd =>
    intro fd' con' hcon'
    rw [GrpcHeaders.step, GrpcTrace.step, HTTP2GRPCManager.step] at hcon' ⊢
    cases hcon : s.trace.manager.connections fd with
    | none =>
      rw [hcon] at hcon'
      exact h fd' con' hcon'
    | some con =>
      rw [hcon] at hcon'
      simp only [HTTP2GRPCManager.set, Function.update_apply] at hcon'
      split_ifs at hcon'
      exact h fd' con' hcon'
  | receive fd cb =>
    rw [GrpcHeaders.step, GrpcTrace.step, HTTP2GRPCManager.step]
    cases hcon : s.trace.manager.connections fd with
    | none => exact h
    | some con =>
      intro fd' con' hcon'
      simp only [HTTP2GRPCManager.set, Function.update_apply] at hcon'
      split_ifs at hcon' with hfd
      · subst hfd
        rw [← Option.some.inj hcon', receive_lastPathMatch]
        exact h fd' con hcon
      · exact h fd' con' hcon'
  | processFrames fd => exact h.processFrames fd

/-- **The data of a step** are handed over if and only if the flag is set. -/
theorem Flagged.serves (h : s.Flagged lib) (hadmitted : s.Admitted lib op) : s.Serves lib op := by
  rintro fd con con₁ con' r rfl hcon hpayload hdata hr hcon' hown
  cases hcall : (s.trace.manager.call con).processFrames lib with
  | none =>
    rw [GrpcHeaders.step, GrpcTrace.step, HTTP2GRPCManager.step_of_none hcon hcall] at hr
    exact absurd hr (by simp)
  | some q =>
    obtain ⟨hevents, hconnections, -⟩ := step_of_call hcon hcall
    rw [hevents] at hr
    rw [hconnections, Function.update_self] at hcon'
    rw [← Option.some.inj hr, ← Option.some.inj hcon']
    refine (GrpcCall.processFrames_data rfl hpayload hdata hcall).1
      (Bool.eq_false_iff.mpr fun hflag ↦ ?_)
    have hagrees : lib.Agrees (s.sent fd) :=
      (lib.agrees_iff _).mpr ((h fd con hcon).symm.trans hflag)
    exact hown (hadmitted con hcon con₁ hpayload hdata hagrees)

theorem Flagged.admitted (h : s.Flagged lib) (hreturns : (s.step lib op).2.isSome = true)
    (hserves : s.Serves lib op) : s.Admitted lib op := by
  cases op with
  | registerConnection | unregister | receive => trivial
  | processFrames fd =>
    intro con hcon con₁ hpayload hdata hagrees
    by_contra hown
    cases hcall : (s.trace.manager.call con).processFrames lib with
    | none =>
      rw [GrpcHeaders.step, GrpcTrace.step, HTTP2GRPCManager.step_of_none hcon hcall] at hreturns
      exact absurd hreturns (by simp)
    | some q =>
      obtain ⟨hevents, hconnections, -⟩ := step_of_call hcon hcall
      have hnone := (hserves fd con con₁ q.2.con _ rfl hcon hpayload hdata hevents
        (by rw [hconnections, Function.update_self]) hown).1
      have hflag : con.lastPathMatch = true :=
        (h fd con hcon).trans ((lib.agrees_iff _).mp hagrees)
      exact (GrpcCall.processFrames_data rfl hpayload hdata hcall).2 hflag hnone

theorem flagged_new (inflater : σ) (request : Req) : (new inflater request).Flagged lib :=
  fun _ _ hcon ↦ absurd hcon (by simp [new, GrpcTrace.new, HTTP2GRPCManager.new])

/-- Data that are handed over although their stream has not sent the path are against the rule. -/
theorem steps_admitted (lib : GrpcLib σ Req Resp) {ops : List GrpcOp} (h : s.Flagged lib)
    (hreturns : Run.Steps (step lib) (fun s op ↦ (s.step lib op).2.isSome = true) s ops)
    (hserves : Run.Steps (step lib) (Serves lib) s ops) :
    Run.Steps (step lib) (Admitted lib) s ops :=
  Run.Steps.of_invariant (P := Flagged lib) (fun _ _ hs _ ↦ hs.step)
    (fun _ _ hs hok ↦ hs.admitted hok.1 hok.2) h (Run.steps_and.mpr ⟨hreturns, hserves⟩)

/-- **Where only the path of the service is served.** In each step of a run data whose stream has
not sent the path are answered with 404, and not handed over, if in each step the stream of the data
has sent it wherever the last field of the connection that looks like a path agrees with it. Of the
runs in which each call returns, it is so in no others. -/
theorem run_serves (lib : GrpcLib σ Req Resp) (inflater : σ) (request : Req) (ops : List GrpcOp) :
    (Run.Steps (step lib) (Admitted lib) (new inflater request) ops →
        Run.Steps (step lib) (Serves lib) (new inflater request) ops) ∧
      (Run.Steps (step lib) (fun s op ↦ (s.step lib op).2.isSome = true)
        (new inflater request) ops →
        Run.Steps (step lib) (Serves lib) (new inflater request) ops →
          Run.Steps (step lib) (Admitted lib) (new inflater request) ops) := by
  refine ⟨fun hok ↦ ?_, steps_admitted lib (flagged_new inflater request)⟩
  exact Run.Steps.of_invariant (P := Flagged lib) (fun _ _ hs _ ↦ hs.step)
    (fun _ _ hs hadmitted ↦ hs.serves hadmitted) (flagged_new inflater request) hok

/-- A service whose path has two characters. -/
def shortPath : GrpcLib Hpack.Table CoypuRequest Unit := { GrpcLib.wire with path := ascii "/c" }

theorem run_serves_shortPath :
    Run.Steps (step shortPath) (Serves shortPath) (new (.empty 4096) .empty) (emptyRequest 3) :=
  (run_serves shortPath (.empty 4096) .empty (emptyRequest 3)).1 (by decide +kernel)

/-- The requests that a run hands over, of the service with the long path. -/
def handedIn (ops : List GrpcOp) : List CoypuRequest :=
  (Run.run (step GrpcLib.wire) (new (.empty 4096) .empty) ops).2.flatMap
    fun r ↦ r.elim [] fun r ↦ handedOf r.2

/-- A path of which only the first two characters were sent is served. -/
theorem not_serves_of_prefix :
    handedIn (emptyRequest 3) = [.empty] ∧ ¬∀ ops : List GrpcOp,
      Run.Steps (step GrpcLib.wire) (Serves GrpcLib.wire) (new (.empty 4096) .empty) ops := by
  refine ⟨by decide +kernel, fun h ↦ ?_⟩
  have hadmitted := steps_admitted GrpcLib.wire (flagged_new (Hpack.Table.empty 4096)
    CoypuRequest.empty) (by decide +kernel) (h (emptyRequest 3))
  revert hadmitted
  decide +kernel

end GrpcHeaders

end Coypu
