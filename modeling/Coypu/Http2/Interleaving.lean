import Coypu.Http2.Sending
import Coypu.Library.Hpack

/-!
# Headers of interleaved connections

The connections of a manager share one inflater, and so one table. What a header block refers to is
looked for among what all the connections have sent, where its sender counts only what it has sent
itself.

The blocks of each connection are tracked beside the manager (`GrpcBlocks`). The inflater is taken
to be a decoder of RFC 7541 (`GrpcLib.Inflates`).
-/

set_option autoImplicit false

namespace Coypu

open Http2 Transport

/-! ## The inflater -/

namespace GrpcLib

variable {σ Req Resp : Type}

/-- What `inflate_header_block` does with an inflater: the inflater behind the block, whether the
path matches, and the fields. -/
def inflateBlock (lib : GrpcLib σ Req Resp) (inflater : σ) (lastPathMatch : Bool)
    (block : List UInt8) : Option (σ × Bool × List Field) :=
  GrpcCall.inflateLoop lib (block.length + 1) inflater lastPathMatch block []

/-- An inflater that was given some blocks, and no others. -/
def fed (lib : GrpcLib σ Req Resp) (inflater : σ) (blocks : List (List UInt8)) : σ :=
  blocks.foldl (fun s block ↦ (lib.inflateBlock s false block).elim s Prod.fst) inflater

/-- What a call for the next field of a block gives. -/
def inflated (block : List UInt8) :
    Hpack.Table × Option (List UInt8 × Option Hpack.Entry) → Inflated Hpack.Table
  | (t, none) => ⟨t, -523, none, false⟩
  | (t, some (rest, e)) => ⟨t, (block.length - rest.length : ℕ), e, e.isNone⟩

/-- The inflater decodes header blocks, and has no state but its table. -/
structure Inflates (lib : GrpcLib Hpack.Table Req Resp) (coding : Hpack.Coding) : Prop where
  inflate_eq : ∀ t block, lib.inflate t block = inflated block (coding.next block.length t block)
  inflateEnd_eq : ∀ t, lib.inflateEnd t = t

variable {lib : GrpcLib Hpack.Table Req Resp} {coding : Hpack.Coding}

theorem Inflates.inflateLoop_eq (hlib : lib.Inflates coding) {fuel : ℕ} {t : Hpack.Table}
    {lastPathMatch : Bool}
    {block : List UInt8} {fields : List Field} (hfuel : block.length < fuel) :
    GrpcCall.inflateLoop lib fuel t lastPathMatch block fields
      = some ((coding.decodeBlock t block).1,
      (coding.decodeBlock t block).2.foldl (GrpcCall.pathMatch lib) lastPathMatch,
      fields ++ (coding.decodeBlock t block).2) := by
  induction fuel generalizing t lastPathMatch block fields with
  | zero => exact absurd hfuel (Nat.not_lt_zero _)
  | succ fuel ih =>
    rw [GrpcCall.inflateLoop, hlib.inflate_eq]
    generalize hnext : coding.next block.length t block = q
    obtain ⟨u, o⟩ := q
    -- an error, the end of the block, or a field and the bytes behind it
    rcases coding.next_cases t (Nat.le_refl block.length) with
      ⟨hnone, hdecode⟩ | ⟨hend, hdecode⟩ | ⟨rest, e, hsome, hsuffix, hne, hdecode⟩
    · rw [hnext] at hnone hdecode
      obtain rfl : o = none := hnone
      rw [hdecode, List.append_nil]
      rfl
    · rw [hnext] at hend hdecode
      obtain rfl : o = some ([], none) := hend
      rw [hdecode, List.append_nil]
      simp only [inflated, hlib.inflateEnd_eq]
      rw [if_neg (by omega), if_pos Option.isNone_none, Option.toList_none, List.append_nil]
      rfl
    · rw [hnext] at hsome hdecode
      obtain rfl : o = some (rest, some e) := hsome
      have hblock := hsuffix.trans (List.tail_suffix block)
      have hdrop : block.drop (block.length - rest.length) = rest :=
        (List.suffix_iff_eq_drop.mp hblock).symm
      have hlt : rest.length < fuel := by
        have hle := hsuffix.length_le
        have hpos := List.length_pos_iff.mpr hne
        rw [List.length_tail] at hle
        omega
      simp only [inflated, Int.toNat_natCast, hdrop]
      rw [if_neg (by omega), if_neg (by simp), if_neg (by simp), ih hlt, hdecode]
      simp

/-- **A block is decoded** by the table that is found. -/
theorem Inflates.inflateBlock_eq (hlib : lib.Inflates coding) (t : Hpack.Table)
    (lastPathMatch : Bool) (block : List UInt8) :
    lib.inflateBlock t lastPathMatch block = some ((coding.decodeBlock t block).1,
      (coding.decodeBlock t block).2.foldl (GrpcCall.pathMatch lib) lastPathMatch,
      (coding.decodeBlock t block).2) := hlib.inflateLoop_eq (Nat.lt_succ_self _)

end GrpcLib

/-! ## One call -/

/-- The fields of the header blocks among some events. -/
def decodedOf {Req : Type} (events : List (GrpcEvent Req)) : List (List Field) :=
  events.filterMap fun
    | .decoded fields => some fields
    | .header _ | .handed _ | .sent _ => none

/-- The header block that the next `ProcessFrames` inflates. -/
def H2Connection.headerBlock {σ Req Resp : Type} (con : H2Connection) (lib : GrpcLib σ Req Resp) :
    Option (List UInt8) :=
  con.atPayload.bind fun con ↦
    if con.hdr.type = H2FrameType.headers.value ∧ con.hdr.length ≤ lib.maxHeaders then
      (con.stream.pop con.hdr.length).bind fun r ↦ GrpcCall.blockOf con.hdr.length r.1
    else none

/-- The header block of a call, if it has one, is decoded as by a given inflater, and whether the
path matches is as this says. -/
def H2Connection.DecodesAs {σ Req Resp : Type} (lib : GrpcLib σ Req Resp) (inflater : σ)
    (con con' : H2Connection) (decoded : List (List Field)) : Prop :=
  match con.headerBlock lib with
  | none => decoded = [] ∧ con'.lastPathMatch = con.lastPathMatch
  | some block => ∃ q, lib.inflateBlock inflater con.lastPathMatch block = some q ∧
      decoded = [q.2.2] ∧ con'.lastPathMatch = q.2.1

/-- What is decoded so goes by the connection and the inflater, and by nothing else. -/
theorem H2Connection.DecodesAs.unique {σ Req Resp : Type} {lib : GrpcLib σ Req Resp} {inflater : σ}
    {con con₁ con₂ : H2Connection} {l₁ l₂ : List (List Field)}
    (h₁ : con.DecodesAs lib inflater con₁ l₁) (h₂ : con.DecodesAs lib inflater con₂ l₂) :
    l₁ = l₂ ∧ con₁.lastPathMatch = con₂.lastPathMatch := by
  rw [DecodesAs] at h₁ h₂
  cases hblock : con.headerBlock lib with
  | none =>
    rw [hblock] at h₁ h₂
    exact ⟨h₁.1.trans h₂.1.symm, h₁.2.trans h₂.2.symm⟩
  | some block =>
    rw [hblock] at h₁ h₂
    obtain ⟨q₁, hq₁, hl₁, hmatch₁⟩ := h₁
    obtain ⟨q₂, hq₂, hl₂, hmatch₂⟩ := h₂
    obtain rfl := Option.some.inj (hq₁.symm.trans hq₂)
    exact ⟨hl₁.trans hl₂.symm, hmatch₁.trans hmatch₂.symm⟩

namespace GrpcCall

section Keeps

variable {σ Req Resp : Type} {lib : GrpcLib σ Req Resp} {c c' c'' : GrpcCall σ Req}

/-- No header is decoded. -/
structure Keeps (c c' : GrpcCall σ Req) : Prop where
  inflater_eq : c'.inflater = c.inflater
  match_eq : c'.con.lastPathMatch = c.con.lastPathMatch
  decoded_eq : decodedOf c'.events = decodedOf c.events

theorem Keeps.trans (h : Keeps c c') (h' : Keeps c' c'') : Keeps c c'' :=
  ⟨h'.inflater_eq.trans h.inflater_eq, h'.match_eq.trans h.match_eq,
    h'.decoded_eq.trans h.decoded_eq⟩

theorem Effects.keeps (h : Effects lib c c') : Keeps c c' :=
  ⟨h.keeps_state.1, h.keeps_state.2.2, h.filterMap_events (fun _ ↦ rfl) fun _ ↦ rfl⟩

theorem dataFrame_keeps (heq : c.dataFrame lib = some c') : Keeps c c' := by
  rcases dataFrame_cases heq with ⟨-, heffects⟩ | ⟨r, -, -, hr⟩
  · exact heffects.keeps
  · obtain ⟨q, -, hq⟩ := Option.bind_eq_some_iff.mp hr
    split_ifs at hq
    have hhanded : Keeps c
      (({ c.withStream q.2.stream with request := (lib.cb q.1.1).2 } : GrpcCall σ Req).emit
        (.handed q.1.1)) := ⟨rfl, rfl, by simp [emit, withStream, withCon, decodedOf]⟩
    exact hhanded.trans (respond_effects hq).keeps

/-- Without a header block, nothing is decoded. -/
theorem processFrames_keeps (h : c.con.headerBlock lib = none) {r : ℤ × GrpcCall σ Req}
    (heq : c.processFrames lib = some r) : Keeps c r.2 := by
  cases hcon : c.con.atPayload with
  | none => exact (processFrames_of_not_atPayload hcon heq).keeps
  | some con =>
    obtain ⟨c₁, hbefore, rfl, hcall⟩ := processFrames_of_atPayload lib hcon
    rw [hcall] at heq
    obtain ⟨c₂, hframe, rfl⟩ := Option.map_eq_some_iff.mp heq
    refine (hbefore.keeps.trans ?_).trans (finish_effects lib).keeps
    rcases frame_cases hframe with ⟨htype, hheaders⟩ | ⟨-, hdata⟩ | ⟨-, -, heffects⟩
    · have hlen := le_of_headersFrame hheaders
      rw [headersFrame_eq hlen] at hheaders
      obtain ⟨q, hpop, hheaders⟩ := Option.bind_eq_some_iff.mp hheaders
      obtain ⟨block, hblock, -⟩ := Option.bind_eq_some_iff.mp hheaders
      rw [H2Connection.headerBlock, hcon, Option.bind_some, if_pos ⟨htype, hlen⟩, hpop,
        Option.bind_some, hblock] at h
      exact absurd h (by simp)
    · exact dataFrame_keeps hdata
    · exact heffects.keeps

/-- **A header block is inflated**, and the call returns. -/
theorem processFrames_of_headerBlock {block : List UInt8} (h : c.con.headerBlock lib = some block)
    {q : σ × Bool × List Field}
    (hq : lib.inflateBlock c.inflater c.con.lastPathMatch block = some q) :
    ∃ r, c.processFrames lib = some r ∧ r.2.inflater = q.1 ∧ r.2.con.lastPathMatch = q.2.1 ∧
      decodedOf r.2.events = decodedOf c.events ++ [q.2.2] := by
  obtain ⟨con, hcon, h⟩ := Option.bind_eq_some_iff.mp h
  split_ifs at h with hheaders
  obtain ⟨p, hpop, hblock⟩ := Option.bind_eq_some_iff.mp h
  obtain ⟨c₁, hbefore, rfl, hcall⟩ := processFrames_of_atPayload lib hcon
  have hkeeps := hbefore.keeps
  rw [← hkeeps.inflater_eq, ← hkeeps.match_eq] at hq
  have hinflate : (c₁.withStream p.2).inflateHeaderBlock lib block
      = some (({ c₁.withStream p.2 with inflater := q.1 }.withCon
        { (c₁.withStream p.2).con with lastPathMatch := q.2.1 }).emit (.decoded q.2.2)) :=
    congrArg (Option.map _) hq
  have hframe : c₁.frame lib c₁.con.hdr.length
      = some (({ c₁.withStream p.2 with inflater := q.1 }.withCon
        { (c₁.withStream p.2).con with lastPathMatch := q.2.1 }).emit (.decoded q.2.2)) := by
    rw [frame, if_pos hheaders.1, headersFrame_eq hheaders.2, hpop, Option.bind_some, hblock,
      Option.bind_some, hinflate]
  refine ⟨_, by rw [hcall, hframe, Option.map_some], rfl, rfl, ?_⟩
  rw [← hkeeps.decoded_eq]
  exact List.filterMap_append

end Keeps

/-- A call decodes as by another table exactly if what its block refers to is alike there. -/
theorem decodesAs_iff {Req Resp : Type} {lib : GrpcLib Hpack.Table Req Resp} {coding : Hpack.Coding}
    (hlib : lib.Inflates coding) {c : GrpcCall Hpack.Table Req} {r : ℤ × GrpcCall Hpack.Table Req}
    (hevents : c.events = []) (heq : c.processFrames lib = some r) (t : Hpack.Table) :
    c.con.DecodesAs lib t r.2.con (decodedOf r.2.events) ↔ ∀ block ∈ c.con.headerBlock lib,
      coding.Alike c.inflater t (coding.representations block.length block) := by
  have hnil : decodedOf c.events = [] := by rw [hevents]; rfl
  rw [H2Connection.DecodesAs]
  cases hblock : c.con.headerBlock lib with
  | none =>
    have hkeeps := processFrames_keeps hblock heq
    exact iff_of_true ⟨hkeeps.decoded_eq.trans hnil, hkeeps.match_eq⟩ fun block hmem ↦ absurd hmem
      (by simp)
  | some block =>
    obtain ⟨r', hcall, -, hmatch, hdecoded⟩ := processFrames_of_headerBlock hblock
      (hlib.inflateBlock_eq c.inflater c.con.lastPathMatch block)
    obtain rfl := Option.some.inj (hcall.symm.trans heq)
    have hown := hlib.inflateBlock_eq t c.con.lastPathMatch block
    rw [hmatch, hdecoded, hnil, List.nil_append]
    constructor
    · rintro ⟨q, hq, hfields, -⟩ block' hmem
      obtain rfl := Option.some.inj hmem
      obtain rfl := Option.some.inj (hown.symm.trans hq)
      exact Hpack.Coding.decode_eq_iff.mp (List.cons.inj hfields).1
    · intro halike
      have hfields := Hpack.Coding.decode_eq_iff.mpr (halike block rfl)
      exact ⟨_, hown, congrArg (fun fields ↦ [fields]) hfields,
        congrArg (List.foldl (pathMatch lib) c.con.lastPathMatch) hfields⟩

end GrpcCall

/-! ## Runs -/

/-- A manager, and the header blocks that each of its connections has sent. -/
structure GrpcBlocks (σ Req : Type) where
  manager : HTTP2GRPCManager σ Req
  blocks : ℕ → List (List UInt8)

namespace GrpcBlocks

variable {σ Req Resp : Type}

def new (inflater : σ) (request : Req) : GrpcBlocks σ Req := ⟨.new inflater request, fun _ ↦ []⟩

/-- What has been sent behind a step. On a new connection nothing has. -/
def send (lib : GrpcLib σ Req Resp) (s : GrpcBlocks σ Req) : GrpcOp → ℕ → List (List UInt8)
  | .registerConnection fd =>
    match s.manager.connections fd with
    | none => Function.update s.blocks fd []
    | some _ => s.blocks
  | .processFrames fd =>
    match s.manager.connections fd with
    | none => s.blocks
    | some con => Function.update s.blocks fd (s.blocks fd ++ (con.headerBlock lib).toList)
  | .unregister _ | .receive _ _ => s.blocks

def step (lib : GrpcLib σ Req Resp) (s : GrpcBlocks σ Req) (op : GrpcOp) :
    GrpcBlocks σ Req × Option (ℤ × List (GrpcEvent Req)) :=
  (⟨(s.manager.step lib op).1, s.send lib op⟩, (s.manager.step lib op).2)

/-- A call decodes as an inflater does that was given the blocks of the same connection only. -/
def Isolated (lib : GrpcLib σ Req Resp) (inflater : σ) (s : GrpcBlocks σ Req)
    (op : GrpcOp) : Prop :=
  ∀ fd con con' r, op = .processFrames fd → s.manager.connections fd = some con →
    (s.step lib op).2 = some r → (s.step lib op).1.manager.connections fd = some con' →
      con.DecodesAs lib (lib.fed inflater (s.blocks fd)) con' (decodedOf r.2)

variable (lib : GrpcLib σ Req Resp) in
theorem isolated_processFrames {s : GrpcBlocks σ Req} {inflater : σ} {fd : ℕ} {con : H2Connection}
    (hcon : s.manager.connections fd = some con) :
    s.Isolated lib inflater (.processFrames fd) ↔ ∀ r, (s.manager.call con).processFrames lib
      = some r →
      con.DecodesAs lib (lib.fed inflater (s.blocks fd)) r.2.con (decodedOf r.2.events) := by
  constructor
  · intro h r hcall
    have hstep := HTTP2GRPCManager.step_of_some hcon hcall
    exact h fd con r.2.con (r.1, r.2.events) rfl hcon (congrArg Prod.snd hstep)
      (by rw [step, hstep]; exact Function.update_self fd _ _)
  · intro h fd' con₁ con' r hop hcon₁ hr hcon'
    obtain rfl := GrpcOp.processFrames.inj hop
    obtain rfl := Option.some.inj (hcon.symm.trans hcon₁)
    cases hcall : (s.manager.call con).processFrames lib with
    | none =>
      rw [step, HTTP2GRPCManager.step_of_none hcon hcall] at hr
      exact absurd hr (by simp)
    | some q =>
      rw [step, HTTP2GRPCManager.step_of_some hcon hcall] at hr hcon'
      obtain rfl := Option.some.inj hr
      obtain rfl := Option.some.inj ((Function.update_self fd _ _).symm.trans hcon')
      exact h q hcall

variable {lib : GrpcLib Hpack.Table Req Resp} {coding : Hpack.Coding} {t : Hpack.Table}
  {s : GrpcBlocks Hpack.Table Req} {op : GrpcOp}

/-- What a header block refers to is alike in the table of the manager and in that of its
connection. -/
def Resolves (lib : GrpcLib Hpack.Table Req Resp) (coding : Hpack.Coding) (t : Hpack.Table)
    (s : GrpcBlocks Hpack.Table Req) : GrpcOp → Prop
  | .processFrames fd => ∀ con ∈ s.manager.connections fd, ∀ block ∈ con.headerBlock lib,
      coding.Alike s.manager.inflater (lib.fed t (s.blocks fd))
        (coding.representations block.length block)
  | .registerConnection _ | .unregister _ | .receive _ _ => True

instance : DecidablePred (Resolves lib coding t s)
  | .processFrames _ => inferInstanceAs
    (Decidable (∀ con ∈ s.manager.connections _, ∀ block ∈ con.headerBlock lib, _))
  | .registerConnection _ | .unregister _ | .receive _ _ => .isTrue trivial

/-- A step decodes the headers of a connection as they would be without the others exactly if what
its block refers to is alike. -/
theorem isolated_iff (hlib : lib.Inflates coding) :
    s.Isolated lib t op ↔ s.Resolves lib coding t op := by
  cases op with
  | registerConnection | unregister | receive =>
    exact iff_of_true (fun _ _ _ _ hop ↦ by cases hop) trivial
  | processFrames fd =>
    rw [Resolves]
    cases hcon : s.manager.connections fd with
    | none =>
      refine iff_of_true (fun fd' con con' r hop hcon' ↦ ?_) (fun con hmem ↦ absurd hmem (by simp))
      obtain rfl := GrpcOp.processFrames.inj hop
      rw [hcon] at hcon'
      exact absurd hcon' (by simp)
    | some con =>
      rw [isolated_processFrames lib hcon]
      constructor
      · intro h con₁ hcon₁ block hblock
        obtain rfl := Option.some.inj hcon₁
        -- a call with a header block returns
        obtain ⟨r, hcall, -⟩ := GrpcCall.processFrames_of_headerBlock
          (c := s.manager.call con) hblock
          (hlib.inflateBlock_eq s.manager.inflater con.lastPathMatch block)
        exact (GrpcCall.decodesAs_iff hlib rfl hcall _).mp (h r hcall) block hblock
      · intro h r hcall
        exact (GrpcCall.decodesAs_iff hlib rfl hcall _).mpr (h con rfl)

/-- **Where the headers of a connection go by its own frames.** In each step of a run a header block
is decoded as it would be by an inflater of its connection alone, and the path matches or does not
as this says, exactly if in each step the block refers to nothing that the shared table has
otherwise than the table of its connection. -/
theorem run_isolated_iff (hlib : lib.Inflates coding) (t : Hpack.Table) (request : Req)
    (ops : List GrpcOp) :
    Run.Steps (step lib) (Isolated lib t) (new t request) ops ↔
      Run.Steps (step lib) (Resolves lib coding t) (new t request) ops :=
  Run.steps_iff_of_invariant (P := fun _ ↦ True) (fun _ _ _ _ ↦ trivial)
    (fun _ _ _ ↦ isolated_iff hlib) trivial

/-! ## Two connections -/

/-- The coding of RFC 7541, without Huffman codes. -/
def rfc : Hpack.Coding := Hpack.rfc7541 (fun _ ↦ none) 4096

/-- The small library, with an inflater. -/
def indexing : GrpcLib Hpack.Table (List UInt8) (List UInt8) where
  asserts := true
  path := (GrpcLib.plain true).path
  inflate t block := GrpcLib.inflated block (rfc.next block.length t block)
  inflateEnd := id
  deflate := (GrpcLib.plain true).deflate
  mergeFrom := (GrpcLib.plain true).mergeFrom
  cb := (GrpcLib.plain true).cb
  serialize := (GrpcLib.plain true).serialize

theorem indexing_inflates : indexing.Inflates rfc := ⟨fun _ _ ↦ rfl, fun _ ↦ rfl⟩

/-- A `HEADERS` frame. -/
def headersOf (block : List UInt8) : List UInt8 :=
  [0, 0, UInt8.ofNat block.length, H2FrameType.headers.value, 4, 0, 0, 0, 1] ++ block

/-- A connection sends the preface and a path of two characters, to be kept in the table. -/
def opening (fd : ℕ) (path : List UInt8)
    (h : (http2Hdr ++ headersOf ([0x44, 2] ++ path)).length < 2 ^ 31) :
    List GrpcOp :=
  [.registerConnection fd, .receive fd
    (Reader.ofList (http2Hdr ++ headersOf ([0x44, 2] ++ path)) h),
    .processFrames fd]

/-- The first connection refers to the newest entry of the table. -/
def again : List GrpcOp := [.receive 3 (Reader.ofList (headersOf [0xbe]) (by decide)),
    .processFrames 3]

/-- The fields that the last step of a run decodes. -/
def lastDecoded (ops : List GrpcOp) : List (List Field) :=
  (Run.run (step indexing) (new (.empty 4096) []) ops).2.getLast?.join.elim [] fun r ↦ decodedOf r.2

/-- Another connection sends the same path in between, to be kept, too. -/
theorem run_isolated_again :
    Run.Steps (step indexing) (Isolated indexing (.empty 4096)) (new (.empty 4096) [])
      (opening 3 (ascii "/c") (by decide) ++ opening 4 (ascii "/c") (by decide) ++ again) :=
  (run_isolated_iff indexing_inflates (.empty 4096) [] _).mpr (by decide +kernel)

/-- The frame of another connection in between changes the path of the first one. -/
theorem not_isolated_of_other :
    lastDecoded (opening 3 (ascii "/c") (by decide) ++ again) = [[(ascii ":path", ascii "/c")]] ∧
      lastDecoded
        (opening 3 (ascii "/c") (by decide) ++ opening 4 (ascii "/q") (by decide) ++ again)
        = [[(ascii ":path", ascii "/q")]] ∧
      ¬∀ ops : List GrpcOp,
        Run.Steps (step indexing) (Isolated indexing (.empty 4096)) (new (.empty 4096) []) ops := by
  refine ⟨by decide +kernel, by decide +kernel, fun h ↦ ?_⟩
  have hsteps :=
    h (opening 3 (ascii "/c") (by decide) ++ opening 4 (ascii "/q") (by decide) ++ again)
  have hresolves := (Run.steps_iff_of_invariant (P := fun _ ↦ True) (fun _ _ _ _ ↦ trivial)
    (fun _ _ _ ↦ isolated_iff indexing_inflates) trivial).mp hsteps
  revert hresolves
  decide +kernel

end GrpcBlocks

end Coypu
