import Coypu.Http2.Manager

/-!
# What a frame takes

Each type of frame takes its payload in its own way. Where the lengths in the payload fit the length
of the frame (`GrpcCall.Fits`), it takes all of the payload and no more (`frame_moved`).
-/

set_option autoImplicit false

namespace Coypu

open Http2

/-- The decoder merges the bytes of a message into a request, which gives `decode`, and says where
they are no message. -/
structure GrpcLib.Decodes {σ Req Resp : Type} (lib : GrpcLib σ Req Resp)
    (decode : Req → List UInt8 → Option Req) : Prop where
  merged : ∀ {request request' : Req} {l : List UInt8}, decode request l = some request' →
    (lib.mergeFrom request l.length).Takes l (· = (request', true))
  refused : ∀ {request : Req} {l : List UInt8}, decode request l = none →
    (lib.mergeFrom request l.length).Sees l (·.2 = false)

namespace GrpcCall

variable {σ Req Resp : Type} {lib : GrpcLib σ Req Resp} {c c' c'' : GrpcCall σ Req} {l : List UInt8}
  {n k : ℕ}

/-- The stream is `n` bytes further, and `l` is ahead. -/
structure Moved (c c' : GrpcCall σ Req) (n : ℕ) (l : List UInt8) : Prop where
  stream_eq : ∃ cache, c'.con.stream = c.con.stream.moved n cache
  ahead : c'.con.stream.Ahead l
  hdr_eq : c'.con.hdr = c.con.hdr
  frameCount_eq : c'.con.frameCount = c.con.frameCount

theorem Moved.trans {l' : List UInt8} (h : Moved c c' n l) (h' : Moved c' c'' k l') :
    Moved c c'' (n + k) l' := by
  obtain ⟨cache, hstream⟩ := h.stream_eq
  obtain ⟨cache', hstream'⟩ := h'.stream_eq
  refine ⟨⟨cache', ?_⟩, h'.ahead, h'.hdr_eq.trans h.hdr_eq, h'.frameCount_eq.trans h.frameCount_eq⟩
  rw [hstream', hstream, PositionedLog.moved_moved]

theorem Moved.refl (h : c.con.stream.Ahead l) : Moved c c 0 l :=
  ⟨⟨c.con.stream.log.cache, rfl⟩, h, rfl, rfl⟩

theorem Moved.received (h : Moved c c' n l) : c'.con.stream.received = c.con.stream.received := by
  obtain ⟨cache, hstream⟩ := h.stream_eq
  rw [hstream, PositionedLog.moved_received]

theorem Moved.curOffset (h : Moved c c' n l) :
    c'.con.stream.curOffset = c.con.stream.curOffset + n := by
  obtain ⟨cache, hstream⟩ := h.stream_eq
  rw [hstream, PositionedLog.moved_curOffset]

/-! ## Sending -/

/-- Frames of one stream were sent, and nothing else was done. -/
structure Sending (id : ℕ) (c c' : GrpcCall σ Req) : Prop where
  con_eq : ∃ b, c'.con = { c.con with writeBuf := b }
  inflater_eq : c'.inflater = c.inflater
  request_eq : c'.request = c.request
  events_eq : ∃ hdrs : List H2Header, (∀ hdr ∈ hdrs, hdr.id = id) ∧
    c'.events = c.events ++ hdrs.map .sent

variable {id : ℕ}

theorem Sending.refl (c : GrpcCall σ Req) : Sending id c c :=
  ⟨⟨c.con.writeBuf, rfl⟩, rfl, rfl, [], by simp, by simp⟩

theorem Sending.trans (h : Sending id c c') (h' : Sending id c' c'') : Sending id c c'' := by
  obtain ⟨⟨b, hcon⟩, hinf, hreq, hdrs, hid, hevents⟩ := h
  obtain ⟨⟨b', hcon'⟩, hinf', hreq', hdrs', hid', hevents'⟩ := h'
  refine ⟨⟨b', by rw [hcon', hcon]⟩, hinf'.trans hinf, hreq'.trans hreq, hdrs ++ hdrs', ?_, ?_⟩
  · exact fun hdr hmem ↦ (List.mem_append.mp hmem).elim (hid hdr) (hid' hdr)
  · rw [hevents', hevents, List.append_assoc, List.map_append]

theorem sending_push (l : List UInt8) : Sending id c (c.push l).2 :=
  ⟨⟨_, rfl⟩, rfl, rfl, [], by simp, by simp [push, withCon]⟩

theorem sending_pushAll (ls : List (List UInt8)) : Sending id c (c.pushAll ls) := by
  induction ls generalizing c with
  | nil => exact .refl c
  | cons l ls ih =>
    rw [pushAll]
    split_ifs
    · exact (sending_push l).trans ih
    · exact sending_push l

theorem sending_sendAll {hdr : H2Header} (hhdr : hdr.id = id) (ls : List (List UInt8)) :
    Sending id c (c.sendAll hdr ls) := by
  rw [sendAll]
  split_ifs
  · have hemit : Sending id (c.push hdr.toBytes).2 ((c.push hdr.toBytes).2.emit (.sent hdr)) :=
      ⟨⟨_, rfl⟩, rfl, rfl, [hdr], by simpa using hhdr, rfl⟩
    exact ((sending_push hdr.toBytes).trans hemit).trans (sending_pushAll ls)
  · exact sending_push hdr.toBytes

theorem sending_sendFrame {hdr : H2Header} (hhdr : hdr.id = id) (data : List UInt8) :
    Sending id c (c.sendFrame hdr data) := sending_sendAll hhdr _

theorem sending_sendGRPCFrame {hdr : H2Header} (hhdr : hdr.id = id) (data : List UInt8) :
    Sending id c (c.sendGRPCFrame hdr data) := sending_sendAll hhdr _

variable (lib) in
/-- The headers of a header frame have the stream of the last header that was read. -/
theorem sending_sendHeaderFrame (fields : List Field) (flags : UInt8) :
    Sending c.con.hdr.id c (c.sendHeaderFrame lib fields flags) := by
  rw [sendHeaderFrame]
  cases lib.deflate fields with
  | none => exact .refl c
  | some data =>
    refine sending_sendFrame ?_ data
    rfl

theorem Sending.hdr_eq (h : Sending id c c') : c'.con.hdr = c.con.hdr := by
  obtain ⟨b, hcon⟩ := h.con_eq
  rw [hcon]

theorem Sending.moved (h : Sending id c c') (hahead : c.con.stream.Ahead l) : Moved c c' 0 l := by
  obtain ⟨b, hcon⟩ := h.con_eq
  refine ⟨⟨c.con.stream.log.cache, ?_⟩, ?_, ?_, ?_⟩ <;> rw [hcon]
  · rfl
  · exact hahead

variable (lib) in
/-- The header, the data and the trailing header of an answer have one stream. -/
theorem sending_answer (begin trailer : List Field) (flags flags' : UInt8) {data : H2Header}
    (s : List UInt8) (hdata : data.id = (c.sendHeaderFrame lib begin flags).con.hdr.id) :
    Sending c.con.hdr.id c
      (((c.sendHeaderFrame lib begin flags).sendGRPCFrame data s).sendHeaderFrame lib
      trailer flags') := by
  have hbegin := sending_sendHeaderFrame (c := c) lib begin flags
  have hgrpc : Sending c.con.hdr.id (c.sendHeaderFrame lib begin flags)
      ((c.sendHeaderFrame lib begin flags).sendGRPCFrame data s) :=
    sending_sendGRPCFrame (hdata.trans (congrArg H2Header.id hbegin.hdr_eq)) s
  have hend := sending_sendHeaderFrame lib
    (c := (c.sendHeaderFrame lib begin flags).sendGRPCFrame data s) trailer flags'
  rw [hgrpc.hdr_eq, hbegin.hdr_eq] at hend
  exact (hbegin.trans hgrpc).trans hend

/-- A request is handed to the callback, and the frames of its answer have its stream. -/
theorem respond_sending {request : Req} (heq : c.respond lib request = some c') :
    Sending c.con.hdr.id
      (({ c with request := (lib.cb request).2 } : GrpcCall σ Req).emit (.handed request)) c' := by
  rw [respond] at heq
  simp only at heq
  split_ifs at heq
  obtain rfl := Option.some.inj heq
  exact sending_answer lib
    (c := ({ c with request := (lib.cb request).2 } : GrpcCall σ Req).emit
      (.handed request)) _ _ _ _ _ rfl

/-! ## Events -/

/-- What a frame with a header may do. None reads a header, and the frames that are sent in answer
to data have its stream. -/
def EventOf (hdr : H2Header) : GrpcEvent Req → Prop
  | .header _ => False
  | .decoded _ => hdr.type = H2FrameType.headers.value
  | .handed _ => hdr.type = H2FrameType.data.value
  | .sent sent => hdr.type = H2FrameType.data.value → sent.id = hdr.id

/-- Events of the frame were added. -/
structure Emits (c c' : GrpcCall σ Req) : Prop where
  hdr_eq : c'.con.hdr = c.con.hdr
  events_eq : ∃ events, (∀ event ∈ events, EventOf c.con.hdr event) ∧ c'.events = c.events ++ events

theorem Emits.of_events_eq (hhdr : c'.con.hdr = c.con.hdr) (h : c'.events = c.events) :
    Emits c c' :=
  ⟨hhdr, [], by simp, by rw [h, List.append_nil]⟩

theorem Emits.trans (h : Emits c c') (h' : Emits c' c'') : Emits c c'' := by
  obtain ⟨hhdr, events, hof, hevents⟩ := h
  obtain ⟨hhdr', events', hof', hevents'⟩ := h'
  refine ⟨hhdr'.trans hhdr, events ++ events', fun event hmem ↦ ?_, ?_⟩
  · rw [hhdr] at hof'
    exact (List.mem_append.mp hmem).elim (hof event) (hof' event)
  · rw [hevents', hevents, List.append_assoc]

theorem Emits.of_header_mem (h : Emits c c') {bytes : List UInt8}
    (hmem : .header bytes ∈ c'.events) : .header bytes ∈ c.events := by
  obtain ⟨events, hof, hevents⟩ := h.events_eq
  rw [hevents] at hmem
  exact (List.mem_append.mp hmem).resolve_right (hof _)

theorem emits_withStream (stream : AnonStreamType) : Emits c (c.withStream stream) :=
  .of_events_eq rfl rfl

/-- A frame that is no data may send any, one that is sends frames of its stream. -/
theorem Sending.emits (h : Sending id c c')
    (hid : c.con.hdr.type = H2FrameType.data.value → id = c.con.hdr.id) :
    Emits c c' := by
  obtain ⟨hdrs, hhdrs, hevents⟩ := h.events_eq
  refine ⟨h.hdr_eq, hdrs.map .sent, fun event hmem ↦ ?_, hevents⟩
  obtain ⟨hdr, hhdr, rfl⟩ := List.mem_map.mp hmem
  exact fun hdata ↦ (hhdrs hdr hhdr).trans (hid hdata)

theorem popValue_emits {value : List UInt8} (heq : c.popValue lib n = some (value, c')) :
    Emits c c' := by
  obtain ⟨r, -, hr⟩ := Option.bind_eq_some_iff.mp heq
  split_ifs at hr
  obtain ⟨-, rfl⟩ := Prod.mk.inj (Option.some.inj hr)
  exact emits_withStream _

theorem inflateHeaderBlock_emits {block : List UInt8}
    (htype : c.con.hdr.type = H2FrameType.headers.value)
    (heq : c.inflateHeaderBlock lib block = some c') : Emits c c' := by
  obtain ⟨r, -, rfl⟩ := Option.map_eq_some_iff.mp heq
  exact ⟨rfl, [.decoded r.2.2], by simpa [EventOf] using htype, rfl⟩

theorem headersFrame_emits (htype : c.con.hdr.type = H2FrameType.headers.value)
    (heq : c.headersFrame lib n = some c') : Emits c c' := by
  have hblock (stream : AnonStreamType) (block : List UInt8)
      (hr : (c.withStream stream).inflateHeaderBlock lib block = some c') : Emits c c' :=
    (emits_withStream stream).trans (inflateHeaderBlock_emits htype hr)
  rw [headersFrame] at heq
  by_cases hbig : lib.maxHeaders < n
  · rw [if_pos hbig] at heq
    exact absurd heq (by simp)
  rw [if_neg hbig] at heq
  obtain ⟨⟨data, stream⟩, -, hr⟩ := Option.bind_eq_some_iff.mp heq
  cases data with
  | some data => exact hblock stream data hr
  | none =>
    by_cases hzero : n = 0
    · exact hblock stream [] ((if_pos hzero).symm.trans hr)
    · exact absurd ((if_neg hzero).symm.trans hr) (by simp)

theorem respond_emits {request : Req} (htype : c.con.hdr.type = H2FrameType.data.value)
    (heq : c.respond lib request = some c') : Emits c c' := by
  have hhanded : Emits c
      (({ c with request := (lib.cb request).2 } : GrpcCall σ Req).emit (.handed request)) :=
    ⟨rfl, [.handed request], by simpa [EventOf] using htype, rfl⟩
  exact hhanded.trans ((respond_sending heq).emits fun _ ↦ rfl)

theorem requestFrame_emits (htype : c.con.hdr.type = H2FrameType.data.value)
    (heq : c.requestFrame lib n = some c') : Emits c c' := by
  obtain ⟨r, -, hr⟩ := Option.bind_eq_some_iff.mp heq
  split_ifs at hr
  have hrespond := respond_emits (c := c.withStream r.2.stream) htype hr
  exact (emits_withStream r.2.stream).trans hrespond

theorem mismatchFrame_emits (heq : c.mismatchFrame lib n = some c') : Emits c c' := by
  rw [mismatchFrame] at heq
  split_ifs at heq
  obtain rfl := Option.some.inj heq
  exact (emits_withStream _).trans ((sending_sendHeaderFrame lib _ _).emits fun _ ↦ rfl)

theorem dataFrame_emits (htype : c.con.hdr.type = H2FrameType.data.value)
    (heq : c.dataFrame lib = some c') : Emits c c' := by
  obtain ⟨r, -, hr⟩ := Option.bind_eq_some_iff.mp heq
  simp only at hr
  split_ifs at hr
  · exact (emits_withStream r.2).trans (requestFrame_emits (c := c.withStream r.2) htype hr)
  · exact (emits_withStream r.2).trans (mismatchFrame_emits hr)

theorem goawayFrame_emits (heq : c.goawayFrame lib n = some c') : Emits c c' := by
  obtain ⟨r, hr, heq⟩ := Option.bind_eq_some_iff.mp heq
  obtain ⟨r', hr', heq⟩ := Option.bind_eq_some_iff.mp heq
  obtain ⟨q, -, rfl⟩ := Option.map_eq_some_iff.mp heq
  exact ((popValue_emits hr).trans (popValue_emits hr')).trans (emits_withStream _)

theorem windowUpdateFrame_emits (heq : c.windowUpdateFrame lib n = some c') : Emits c c' := by
  rw [windowUpdateFrame] at heq
  split_ifs at heq
  obtain ⟨r, hr, rfl⟩ := Option.map_eq_some_iff.mp heq
  exact (popValue_emits hr).trans (.of_events_eq rfl rfl)

theorem settingsLoop_emits {fuel i : ℕ} (heq : settingsLoop lib n fuel i c = some c') :
    Emits c c' := by
  induction fuel generalizing i c with
  | zero => exact absurd heq (by simp [settingsLoop])
  | succ fuel ih =>
    rw [settingsLoop] at heq
    split_ifs at heq
    · obtain ⟨r, hr, heq⟩ := Option.bind_eq_some_iff.mp heq
      obtain ⟨r', hr', heq⟩ := Option.bind_eq_some_iff.mp heq
      exact ((popValue_emits hr).trans (popValue_emits hr')).trans (ih heq)
    · exact .of_events_eq (congrArg (·.con.hdr) (Option.some.inj heq).symm)
        (congrArg (·.events) (Option.some.inj heq).symm)

theorem settingsFrame_emits (htype : c.con.hdr.type ≠ H2FrameType.data.value)
    (heq : c.settingsFrame lib n = some c') : Emits c c' := by
  have hsend {c : GrpcCall σ Req} (hdr : H2Header)
      (htype : c.con.hdr.type ≠ H2FrameType.data.value) :
      Emits c (c.sendFrame hdr []) := (sending_sendFrame rfl []).emits fun hdata ↦
        absurd hdata htype
  have hfirst : Emits c
      (if c.con.frameCount = 1 then c.sendFrame (H2Header.new .settings) [] else c) := by
    split_ifs
    · exact hsend _ htype
    · exact .of_events_eq rfl rfl
  rw [settingsFrame] at heq
  simp only at heq
  split_ifs at heq hfirst
  all_goals
    obtain ⟨c₂, hloop, rfl⟩ := Option.map_eq_some_iff.mp heq
    have hboth := hfirst.trans (settingsLoop_emits hloop)
    exact hboth.trans (hsend _ (by rwa [hboth.hdr_eq]))

/-- **What a frame does** goes by its type. -/
theorem frame_emits (heq : c.frame lib n = some c') : Emits c c' := by
  rw [frame] at heq
  split_ifs at heq with hheaders hdata
  · exact headersFrame_emits hheaders heq
  · exact dataFrame_emits hdata heq
  · exact goawayFrame_emits heq
  · exact windowUpdateFrame_emits heq
  · exact settingsFrame_emits hdata heq
  · obtain rfl := Option.some.inj heq
    exact emits_withStream _

/-! ## Taking -/

variable (lib) in
theorem popValue_moved (h : c.con.stream.Ahead l) (hpos : 0 < n) (hn : n ≤ l.length) :
    ∃ c', c.popValue lib n = some (l.take n, c') ∧ Moved c c' n (l.drop n) := by
  obtain ⟨r, cache, hpop, hahead, hr⟩ := h.pop hn
  refine ⟨c.withStream (c.con.stream.moved n cache), ?_, ⟨cache, rfl⟩, hahead, rfl, rfl⟩
  rw [popValue, hpop, hr hpos, Option.bind_some, if_neg (by simp), Option.getD_some]

theorem inflateHeaderBlock_moved {block : List UInt8} (h : c.con.stream.Ahead l)
    (heq : c.inflateHeaderBlock lib block = some c') : Moved c c' 0 l := by
  obtain ⟨r, -, rfl⟩ := Option.map_eq_some_iff.mp heq
  exact ⟨⟨c.con.stream.log.cache, rfl⟩, h, rfl, rfl⟩

theorem withStream_moved {cache : OneShotCache}
    (hahead : (c.con.stream.moved n cache).Ahead (l.drop n)) :
    Moved c (c.withStream (c.con.stream.moved n cache)) n (l.drop n) :=
      ⟨⟨cache, rfl⟩, hahead, rfl, rfl⟩

theorem headersFrame_moved (h : c.con.stream.Ahead l) (hn : n ≤ l.length)
    (heq : c.headersFrame lib n = some c') : Moved c c' n (l.drop n) := by
  obtain ⟨r, cache, hpop, hahead, -⟩ := h.pop hn
  have hmoved := withStream_moved (c := c) hahead
  rw [headersFrame] at heq
  by_cases hbig : lib.maxHeaders < n
  · rw [if_pos hbig] at heq
    exact absurd heq (by simp)
  rw [if_neg hbig, hpop, Option.bind_some] at heq
  cases r with
  | some data => exact hmoved.trans (inflateHeaderBlock_moved hahead heq)
  | none =>
    by_cases hzero : n = 0
    · simp only [if_pos hzero] at heq
      exact hmoved.trans (inflateHeaderBlock_moved hahead heq)
    · simp only [if_neg hzero] at heq
      exact absurd heq (by simp)

theorem settingsLoop_moved {fuel i : ℕ} (h : c.con.stream.Ahead l) (hi : n - i ≤ l.length)
    (hdvd : (n - i) % 6 = 0) (heq : settingsLoop lib n fuel i c = some c') :
    Moved c c' (n - i) (l.drop (n - i)) := by
  induction fuel generalizing i c l with
  | zero => exact absurd heq (by simp [settingsLoop])
  | succ fuel ih =>
    rw [settingsLoop] at heq
    split_ifs at heq with hlt
    · obtain ⟨c₁, hpop, hmoved⟩ := popValue_moved lib (n := 2) h (by omega) (by omega)
      obtain ⟨c₂, hpop', hmoved'⟩ := popValue_moved lib (n := 4) hmoved.ahead (by omega)
        (by rw [List.length_drop]; omega)
      rw [hpop, Option.bind_some, hpop', Option.bind_some] at heq
      have hsix : n - i = 2 + (4 + (n - (i + 6))) := by omega
      have hrest := ih hmoved'.ahead (by rw [List.drop_drop, List.length_drop]; omega)
        (by omega) heq
      rw [List.drop_drop, List.drop_drop] at hrest
      rw [hsix]
      exact hmoved.trans (hmoved'.trans hrest)
    · obtain rfl := Option.some.inj heq
      have hzero : n - i = 0 := by omega
      rw [hzero, List.drop_zero]
      exact .refl h

theorem settingsFrame_moved (h : c.con.stream.Ahead l) (hn : n ≤ l.length)
    (hok : n % 6 = 0 ∨ lib.asserts = true) (heq : c.settingsFrame lib n = some c') :
    Moved c c' n (l.drop n) := by
  have hfirst : Sending 0 c
      (if c.con.frameCount = 1 then c.sendFrame (H2Header.new .settings) [] else c) := by
    split_ifs
    · refine sending_sendFrame ?_ _
      rfl
    · exact .refl c
  rw [settingsFrame] at heq
  generalize (if c.con.frameCount = 1 then c.sendFrame (H2Header.new .settings) [] else c) = c₁
    at heq hfirst
  have hmoved := hfirst.moved h
  by_cases hsix : n % 6 = 0
  · simp only [hsix, ne_eq, not_true_eq_false, and_false, if_false] at heq
    obtain ⟨c₂, hloop, rfl⟩ := Option.map_eq_some_iff.mp heq
    have hloop' := settingsLoop_moved hmoved.ahead (i := 0) hn hsix hloop
    have hack : Sending 0 c₂ (c₂.sendFrame { H2Header.new .settings with flags := 0x1 } []) := by
      refine sending_sendFrame ?_ _
      rfl
    have hall := (hmoved.trans hloop').trans (hack.moved hloop'.ahead)
    rwa [Nat.sub_zero, Nat.zero_add, Nat.add_zero] at hall
  · rw [if_pos ⟨hok.resolve_left hsix, hsix⟩] at heq
    exact absurd heq (by simp)

theorem windowUpdateFrame_moved (h : c.con.stream.Ahead l) (hn : n ≤ l.length)
    (hok : n = 4 ∨ lib.asserts = true) (heq : c.windowUpdateFrame lib n = some c') :
    Moved c c' n (l.drop n) := by
  rw [windowUpdateFrame] at heq
  by_cases hfour : n = 4
  · obtain ⟨c₁, hpop, hmoved⟩ := popValue_moved lib (n := 4) h (by omega) (by omega)
    rw [if_neg (fun hne ↦ hne.2 hfour), hpop] at heq
    obtain rfl := Option.some.inj heq
    rw [hfour]
    exact ⟨hmoved.stream_eq, hmoved.ahead, hmoved.hdr_eq, hmoved.frameCount_eq⟩
  · rw [if_pos ⟨hok.resolve_left hfour, hfour⟩] at heq
    exact absurd heq (by simp)

theorem goawayFrame_moved (h : c.con.stream.Ahead l) (hn : n ≤ l.length) (hok : 8 ≤ n ∧ n ≤ 1032)
    (heq : c.goawayFrame lib n = some c') : Moved c c' n (l.drop n) := by
  obtain ⟨c₁, hpop, hmoved⟩ := popValue_moved lib (n := 4) h (by omega) (by omega)
  obtain ⟨c₂, hpop', hmoved'⟩ := popValue_moved lib (n := 4) hmoved.ahead (by omega)
    (by rw [List.length_drop]; omega)
  have hlen : min 1024 (CInt.toUnsigned 32 ((n : ℤ) - 8)) = n - 8 := by
    rw [CInt.toUnsigned_of_mem (by omega) (by omega)]
    omega
  have hboth := hmoved.trans hmoved'
  obtain ⟨r, cache, hpop'', hahead, -⟩ := hboth.ahead.pop (n := n - 8)
    (by rw [List.length_drop, List.length_drop]; omega)
  rw [goawayFrame, hpop, Option.bind_some, hpop', Option.bind_some, hlen, hpop''] at heq
  obtain rfl := Option.some.inj heq
  have hall := hboth.trans (withStream_moved hahead)
  have hsum : 4 + 4 + (n - 8) = n := by omega
  have hsum' : 4 + (4 + (n - 8)) = n := by omega
  rwa [List.drop_drop, List.drop_drop, hsum, hsum'] at hall

theorem mismatchFrame_moved (h : c.con.stream.Ahead l) (hn : n ≤ l.length)
    (heq : c.mismatchFrame lib n = some c') : Moved c c' n (l.drop n) := by
  obtain ⟨hskip, hahead⟩ := h.skip hn
  rw [mismatchFrame, hskip] at heq
  simp only at heq
  rw [if_neg (by simp)] at heq
  obtain rfl := Option.some.inj heq
  have hsent := sending_sendHeaderFrame lib
    (c := c.withStream (c.con.stream.moved n c.con.stream.log.cache))
    [(ascii ":status", ascii "404")]
    (H2Flags.endHeaders.value ||| H2Flags.endStream.value)
  have hall := (withStream_moved (c := c) hahead).trans (hsent.moved hahead)
  rwa [Nat.add_zero] at hall

theorem respond_moved {request : Req} (h : c.con.stream.Ahead l)
    (heq : c.respond lib request = some c') : Moved c c' 0 l := by
  have hmoved := (respond_sending heq).moved h
  exact ⟨hmoved.stream_eq, hmoved.ahead, hmoved.hdr_eq, hmoved.frameCount_eq⟩

variable {decode : Req → List UInt8 → Option Req}

/-- A message that is decoded is handed to the callback; one that is not ends the process where this
is asserted. -/
theorem requestFrame_cases (hdec : lib.Decodes decode) (h : c.con.stream.Ahead l)
    (hoffset : c.con.stream.curOffset < 2 ^ 31) (hn : n ≤ l.length)
    (hok : (decode c.request (l.take n)).isSome = true ∨ lib.asserts = true)
    (heq : c.requestFrame lib n = some c') : ∃ request cache,
      decode c.request (l.take n) = some request ∧ (c.con.stream.moved n cache).Ahead (l.drop n) ∧
      (c.withStream (c.con.stream.moved n cache)).respond lib request = some c' := by
  have hlen : (l.take n).length = n := by rw [List.length_take, Nat.min_eq_left hn]
  rw [requestFrame] at heq
  cases hmessage : decode c.request (l.take n) with
  | none =>
    have hrefused := hdec.refused hmessage
    rw [hlen] at hrefused
    obtain ⟨a, t, hrun, ha⟩ := LogZeroCopyInputStream.run_of_sees h hoffset hn hrefused lib.asserts
    rw [hmessage] at hok
    rw [hrun, Option.bind_some, if_pos ⟨hok.resolve_left (by simp), ha⟩] at heq
    exact absurd heq (by simp)
  | some request =>
    have hmerged := hdec.merged hmessage
    rw [hlen] at hmerged
    obtain ⟨a, t, hrun, rfl, ht⟩ :=
      LogZeroCopyInputStream.run_of_takes h hoffset hn hmerged lib.asserts
    rw [hrun, Option.bind_some, if_neg (by simp), ht] at heq
    exact ⟨request, _, rfl, (h.skip hn).2, heq⟩

/-- The length of a message, from the five bytes in front of it. -/
def grpcLen (l : List UInt8) : ℕ := Bytes.decode ((l.take 5).drop 1)

/-- `DATA` that holds one message, as long as it says. -/
def DataFits (lib : GrpcLib σ Req Resp) (decode : Req → List UInt8 → Option Req)
    (c : GrpcCall σ Req) (payload : List UInt8) : Prop :=
  5 ≤ payload.length ∧ grpcLen payload = payload.length - 5 ∧ (c.con.lastPathMatch = true →
    c.con.stream.curOffset + 5 < 2 ^ 31 ∧
      ((decode c.request (payload.drop 5)).isSome = true ∨ lib.asserts = true))

instance (payload : List UInt8) : Decidable (DataFits lib decode c payload) :=
  inferInstanceAs (Decidable (_ ∧ _))

theorem dataFrame_moved (hdec : lib.Decodes decode) (h : c.con.stream.Ahead l) (hn : n ≤ l.length)
    (hok : DataFits lib decode c (l.take n)) (heq : c.dataFrame lib = some c') :
    Moved c c' n (l.drop n) := by
  obtain ⟨hfive, hgrpc, hmatch⟩ := hok
  rw [List.length_take, Nat.min_eq_left hn] at hfive hgrpc
  obtain ⟨r, cache, hpop, hahead, hr⟩ := h.pop (n := 5) (by omega)
  have hmoved := withStream_moved (c := c) hahead
  have hdata : Bytes.decode ((l.take 5).drop 1) = n - 5 := by
    rw [← hgrpc, grpcLen, List.take_take, Nat.min_eq_left hfive]
  have hsum : 5 + (n - 5) = n := by omega
  rw [dataFrame, hpop, hr (by omega), Option.bind_some, Option.getD_some] at heq
  simp only [hdata] at heq
  by_cases hpath : c.con.lastPathMatch = true
  · obtain ⟨hoffset, hdecode⟩ := hmatch hpath
    rw [if_pos hpath] at heq
    split_ifs at heq with hcompressed
    have hrest : (l.drop 5).take (n - 5) = (l.take n).drop 5 := by rw [List.drop_take]
    obtain ⟨request, cache', -, hahead', hrespond⟩ := requestFrame_cases hdec hmoved.ahead hoffset
      (by rw [List.length_drop]; omega) (by rw [hrest]; exact hdecode) heq
    have hall := hmoved.trans ((withStream_moved hahead').trans (respond_moved hahead' hrespond))
    rwa [List.drop_drop, Nat.add_zero, hsum] at hall
  · rw [if_neg hpath] at heq
    have hall := hmoved.trans
      (mismatchFrame_moved hmoved.ahead (by rw [List.length_drop]; omega) heq)
    rwa [List.drop_drop, hsum] at hall

/-- The lengths in a payload fit the length of its frame. -/
def Fits (lib : GrpcLib σ Req Resp) (decode : Req → List UInt8 → Option Req) (c : GrpcCall σ Req)
    (payload : List UInt8) : Prop :=
  if c.con.hdr.type = H2FrameType.headers.value then True
  else if c.con.hdr.type = H2FrameType.data.value then DataFits lib decode c payload
  else if c.con.hdr.type = H2FrameType.goaway.value then 8 ≤ payload.length ∧ payload.length ≤ 1032
  else if c.con.hdr.type = H2FrameType.windowUpdate.value then
    payload.length = 4 ∨ lib.asserts = true
  else if c.con.hdr.type = H2FrameType.settings.value then
    payload.length % 6 = 0 ∨ lib.asserts = true
  else True

instance (payload : List UInt8) : Decidable (Fits lib decode c payload) :=
  inferInstanceAs (Decidable (ite _ _ (ite _ _ (ite _ _ (ite _ _ (ite _ _ _))))))

/-- **A frame takes its payload** and no more, if the lengths in it fit. -/
theorem frame_moved (hdec : lib.Decodes decode) (h : c.con.stream.Ahead l) (hn : n ≤ l.length)
    (hok : Fits lib decode c (l.take n)) (heq : c.frame lib n = some c') :
    Moved c c' n (l.drop n) := by
  have hlen : (l.take n).length = n := by rw [List.length_take, Nat.min_eq_left hn]
  rw [Fits, hlen] at hok
  rw [frame] at heq
  split_ifs at heq hok with hheaders hdata hgoaway hwindow hsettings
  · exact headersFrame_moved h hn heq
  · exact dataFrame_moved hdec h hn hok heq
  · exact goawayFrame_moved h hn hok heq
  · exact windowUpdateFrame_moved h hn hok heq
  · exact settingsFrame_moved h hn hok heq
  · obtain ⟨hskip, hahead⟩ := h.skip hn
    rw [hskip] at heq
    obtain rfl := Option.some.inj heq
    exact withStream_moved hahead

end GrpcCall

/-! ## A small library -/

/-- Messages are as they are on the wire, where merging is appending. Header fields are encoded
without Huffman codes and without indexing; none are decoded. -/
def GrpcLib.plain (asserts : Bool) : GrpcLib Unit (List UInt8) (List UInt8) where
  asserts := asserts
  path := ascii "/coypu.msg.CoypuService/RequestData"
  inflate _ _ := ⟨(), -523, none, false⟩
  inflateEnd := id
  deflate fields := some (fields.flatMap fun field ↦ 0 :: UInt8.ofNat field.1.length :: field.1
    ++ UInt8.ofNat field.2.length :: field.2)
  mergeFrom request n := (ZeroCopy.take n).map fun l ↦ (request ++ l, true)
  cb request := (request, request)
  serialize := id

theorem GrpcLib.plain_decodes (asserts : Bool) :
    (plain asserts).Decodes fun request l ↦ some (request ++ l) where
  merged {request request' l} h := by
    obtain rfl := Option.some.inj h
    exact ((ZeroCopy.consumes_take l).map fun a ha ↦ by rw [ha]).takes
  refused h := absurd h (by simp)

end Coypu
