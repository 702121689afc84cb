import Coypu.Http.HeadText
import Coypu.Http.Source

/-!
# How a head is cut into packets

Each call of `HandleHTTP` begins anew: it takes the first line it finds for the first line of the
head. So it matters where a head is cut into packets. A cut inside the first line does no harm, as
no line is taken yet. A cut behind it and before the blank line does: the next field is taken for
the first line.

`Uncut` says that there is no such cut. Then a connection ends with the same head and the same bytes
in the HTTP buffer, whatever the other cuts are (`receive_of_uncut`). A cut that is excluded leaves
a colon in the method, unless the connection had opened before the blank line came
(`receive_of_cut`).
-/

set_option autoImplicit false

namespace Coypu

open Transport WebSocket

/-- What one `Read` gets. -/
structure Packet where
  bytes : List UInt8
  bytes_ne : bytes ≠ []
  length_lt : bytes.length < 2 ^ 31

namespace Packet

/-- The bytes of a list of packets. -/
def sent (ps : List Packet) : List UInt8 := ps.flatMap bytes

theorem sent_cons (p : Packet) (ps : List Packet) : sent (p :: ps) = p.bytes ++ sent ps :=
  List.flatMap_cons

theorem eq_nil_of_sent {ps : List Packet} (h : sent ps = []) : ps = [] := by
  cases ps with
  | nil => rfl
  | cons p ps =>
    rw [sent_cons, List.append_eq_nil_iff] at h
    exact absurd h.1 p.bytes_ne

end Packet

open Packet

/-! ## Cuts -/

namespace HttpHead

/-- The lines that are complete in the beginning of a list of lines, and the piece behind them. -/
theorem cut_line {line tail d rest : List UInt8} (hline : lf ∉ line)
    (h : d ++ rest = line ++ lf :: tail) :
    (lf ∉ d ∧ d.length ≤ line.length) ∨ ∃ d', d = line ++ lf :: d' ∧ d' ++ rest = tail := by
  rcases List.append_eq_append_iff.mp h with ⟨a, rfl, -⟩ | ⟨a, rfl, ha⟩
  · left
    exact ⟨fun hmem ↦ hline (List.mem_append_left _ hmem), by simp⟩
  · cases a with
    | nil =>
      left
      rw [List.append_nil]
      exact ⟨hline, Nat.le_refl _⟩
    | cons b a =>
      right
      obtain ⟨rfl, htail⟩ := List.cons.inj ha
      exact ⟨a, rfl, htail.symm⟩

/-- The fields that are complete, and the piece behind them; or all, with the blank line. -/
theorem cut_fields {fs : List HeaderField} {d rest : List UInt8}
    (h : d ++ rest = Head.unlines (fieldLines fs)) :
    (∃ fs₁ fs₂ r, fs = fs₁ ++ fs₂ ∧ d = Head.unlines (fs₁.map HeaderField.line) ++ r ∧
      r ++ rest = Head.unlines (fieldLines fs₂) ∧ lf ∉ r) ∨
    (d = Head.unlines (fieldLines fs) ∧ rest = []) := by
  induction fs generalizing d with
  | nil =>
    have hcr : lf ∉ [cr] := by decide
    rcases cut_line hcr h with ⟨hd, -⟩ | ⟨d', rfl, hd'⟩
    · exact Or.inl ⟨[], [], d, rfl, rfl, h, hd⟩
    · obtain ⟨rfl, rfl⟩ := List.append_eq_nil_iff.mp hd'
      exact Or.inr ⟨rfl, rfl⟩
  | cons f fs ih =>
    have hbytes : Head.unlines (fieldLines (f :: fs)) = f.line ++ lf :: Head.unlines
      (fieldLines fs) := by
      simp [fieldLines, Head.unlines]
    rw [hbytes] at h ⊢
    rcases cut_line f.lf_not_mem_line h with ⟨hd, -⟩ | ⟨d', rfl, hd'⟩
    · exact Or.inl ⟨[], f :: fs, d, rfl, rfl, by rw [h, hbytes], hd⟩
    · rcases ih hd' with ⟨fs₁, fs₂, r, rfl, rfl, hrest, hr⟩ | ⟨rfl, rfl⟩
      · exact Or.inl ⟨f :: fs₁, fs₂, r, rfl, by simp [Head.unlines], hrest, hr⟩
      · exact Or.inr ⟨rfl, rfl⟩

/-- More than the blank line is to come as long as there are fields. -/
theorem two_lt_of_fields {fs : List HeaderField} (hfs : fs ≠ []) {r rest : List UInt8}
    (h : r ++ rest = Head.unlines (fieldLines fs)) (hr : lf ∉ r) : 2 < rest.length := by
  obtain ⟨f, fs, rfl⟩ := List.exists_cons_of_ne_nil hfs
  have hbytes : Head.unlines (fieldLines (f :: fs)) = f.line ++ lf :: Head.unlines
    (fieldLines fs) := by
    simp [fieldLines, Head.unlines]
  have htwo : 2 ≤ (Head.unlines (fieldLines fs)).length := by simp [fieldLines, Head.unlines]
  rw [hbytes] at h
  have hlen := congrArg List.length h
  rcases cut_line f.lf_not_mem_line h with ⟨-, hle⟩ | ⟨r', rfl, -⟩
  · simp only [List.length_append, List.length_cons] at hlen
    omega
  · exact absurd (by simp) hr

end HttpHead

/-- No cut lies behind the first line and before the blank line, and one inside the blank line is of
no matter. -/
def Con.Uncut {cacheSize : ℕ} (con : Con cacheSize) (computeKey : List UInt8 → Option (List UInt8))
    (h : HttpHead) (ps : List Packet) : Prop :=
  ∀ before after, ps = before ++ after → after ≠ [] →
    (sent before).length ≤ h.firstLine.length ∨ (sent after).length ≤ 2 ∧
      (con.Accepts computeKey (Head.known con.server h h.fields) → con.stream = none)

namespace Con

variable {cacheSize : ℕ} {con c : Con cacheSize} {computeKey : List UInt8 → Option (List UInt8)}
  {h : HttpHead} {head : Head} {r : List UInt8} {ps : List Packet}

/-- One `Read` for each packet. -/
def receive (computeKey : List UInt8 → Option (List UInt8)) (rounds : ℕ) :
    Con cacheSize → List Packet → Option (Con cacheSize)
  | con, [] => some con
  | con, p :: ps => (con.read computeKey rounds (Reader.ofList p.bytes p.length_lt)).bind fun s ↦
      receive computeKey rounds s.2 ps

/-! ## Reads before the blank line -/

/-- A connection `c` that was `con` and waits for the rest of a line. -/
structure Waits (con c : Con cacheSize) (head : Head) (r : List UInt8) : Prop where
  state_eq : c.state = .connecting
  head_eq : c.head = head
  rep : c.httpBuf.Rep r
  capacity_eq : c.httpBuf.capacity = bufferCapacity
  server_eq : c.server = con.server
  key_eq : c.key = con.key
  stream_eq : c.stream = con.stream

theorem Fresh.waits (hfresh : con.Fresh) : con.Waits con Head.empty [] :=
  ⟨hfresh.state_eq, hfresh.head_eq, hfresh.rep, hfresh.capacity_eq, rfl, rfl, rfl⟩

theorem Waits.accepts_iff (hw : con.Waits c head r) (head' : Head) :
    c.Accepts computeKey head' ↔ con.Accepts computeKey head' := by
  unfold Accepts
  rw [hw.server_eq, hw.key_eq]

/-- The lines in the buffer are taken, and `ProcessState` looks at the head. -/
theorem Waits.read (hw : con.Waits c head r) (computeKey : List UInt8 → Option (List UInt8))
    (rounds : ℕ) (p : Packet)
    (hfit : (r ++ p.bytes).length ≤ bufferCapacity) {head' : Head} {ks : List (List UInt8)}
    (hlines : Head.handleLines con.server true head ((r ++ p.bytes).splitOn lf)
      = some (0, head', ks)) :
    ∃ c', con.Waits c' head' ([lf].intercalate ks) ∧
      c.read computeKey (rounds + 1) (Reader.ofList p.bytes p.length_lt)
        = some (0, c'.connect computeKey) := by
  rw [List.length_append] at hfit
  rw [← hw.server_eq, ← hw.head_eq] at hlines
  obtain ⟨httpBuf, hrep, hcap, -, hread⟩ := read_ofList computeKey hw.state_eq hw.rep
    (by rw [hw.capacity_eq]; decide) p.bytes_ne p.length_lt (by rwa [hw.capacity_eq]) hlines
  exact ⟨{ c with httpBuf := httpBuf, head := head' },
    ⟨hw.state_eq, rfl, hrep, hcap.trans hw.capacity_eq, hw.server_eq, hw.key_eq,
    hw.stream_eq⟩, hread rounds⟩

theorem Waits.receive_cons (hw : con.Waits c head r)
    (computeKey : List UInt8 → Option (List UInt8)) (rounds : ℕ) (p : Packet) (ps : List Packet)
    (hfit : (r ++ p.bytes).length ≤ bufferCapacity) {head' : Head} {ks : List (List UInt8)}
    (hlines : Head.handleLines con.server true head ((r ++ p.bytes).splitOn lf)
      = some (0, head', ks)) (hno : ¬con.Accepts computeKey head') :
    ∃ c', con.Waits c' head' ([lf].intercalate ks) ∧
      c.receive computeKey (rounds + 1) (p :: ps) = c'.receive computeKey (rounds + 1) ps := by
  obtain ⟨c', hw', hread⟩ := hw.read computeKey rounds p hfit hlines
  refine ⟨c', hw', ?_⟩
  rw [receive, hread, Option.bind_some, connect_of_not_accepts]
  rwa [hw'.accepts_iff, hw'.head_eq]

/-! ## The end of the head -/

theorem append_eq_blank {d rest : List UInt8} (hd : d ≠ []) (h : d ++ rest = [cr, lf]) :
    (d = [cr] ∧ rest = [lf]) ∨ (d = [cr, lf] ∧ rest = []) := by
  rcases List.append_eq_cons_iff.mp h with ⟨hnil, -⟩ | ⟨d', rfl, h'⟩
  · exact absurd hnil hd
  · rcases List.append_eq_cons_iff.mp h'.symm with ⟨rfl, rfl⟩ | ⟨d'', rfl, h''⟩
    · exact Or.inl ⟨rfl, rfl⟩
    · obtain ⟨rfl, rfl⟩ := List.append_eq_nil_iff.mp h''.symm
      exact Or.inr ⟨rfl, rfl⟩

/-- The head is known and the HTTP buffer is empty. -/
def Ends (con c : Con cacheSize) (h : HttpHead) : Prop :=
  c.head = Head.known con.server h h.fields ∧ c.httpBuf.Rep []

/-- There is nothing to copy from an empty buffer, and nothing to copy to without a stream. -/
theorem copyToStream_httpBuf (h : c.httpBuf.Rep [] ∨ c.stream = none) :
    c.copyToStream.httpBuf = c.httpBuf := by
  unfold copyToStream
  cases hstream : c.stream with
  | none => rfl
  | some stream =>
    rcases h with hrep | hnone
    · simp only [hrep.available_eq, List.length_nil, BipBuf.popAll, Nat.lt_irrefl, if_false,
        if_true]
    · exact absurd (hstream.symm.trans hnone) (by simp)

theorem opened_httpBuf (h : c.httpBuf.Rep [] ∨ c.stream = none) :
    c.opened.httpBuf = c.httpBuf := by
  unfold opened
  by_cases hopen : c.onOpen = true
  · simp only [hopen, if_true]
    exact copyToStream_httpBuf h
  · simp only [hopen]
    exact copyToStream_httpBuf h

/-- An empty buffer is not changed when the connection opens, and no buffer is without a stream. -/
theorem connect_httpBuf (computeKey : List UInt8 → Option (List UInt8))
    (h : c.httpBuf.Rep [] ∨ c.stream = none) :
    (c.connect computeKey).httpBuf = c.httpBuf := by
  unfold connect
  by_cases hserver : c.server = true
  · rw [if_pos hserver]
    cases serverKey computeKey c.head with
    | none => rfl
    | some newKey => exact opened_httpBuf h
  · rw [if_neg hserver]
    split_ifs
    · exact opened_httpBuf h
    · rfl

theorem opened_stream_of_none (h : c.stream = none) : c.opened.stream = none := by
  have hcopy : ∀ c' : Con cacheSize, c'.stream = none → c'.copyToStream.stream = none :=
    fun c' h' ↦ by
    unfold copyToStream
    rw [h']
    exact h'
  unfold opened
  by_cases hopen : c.onOpen = true
  · simp only [hopen, if_true]
    exact hcopy _ h
  · simp only [hopen]
    exact hcopy _ h

theorem connect_stream_of_none (h : c.stream = none) : (c.connect computeKey).stream = none := by
  unfold connect
  by_cases hserver : c.server = true
  · rw [if_pos hserver]
    cases serverKey computeKey c.head with
    | none => exact h
    | some newKey => exact opened_stream_of_none h
  · rw [if_neg hserver]
    split_ifs
    · exact opened_stream_of_none h
    · exact h

theorem connect_head : (c.connect computeKey).head = c.head := by
  by_cases hacc : c.Accepts computeKey c.head
  · exact (connect_of_accepts hacc).2
  · rw [connect_of_not_accepts hacc]

/-- A connection that does not accept the head takes the blank line. The induction is on the
packets. -/
theorem Waits.receive_blank (hw : con.Waits c head r) (rounds : ℕ) (hr : r.length < 2)
    (hrest : r ++ sent ps = [cr, lf]) (hno : ¬con.Accepts computeKey head) :
    ∃ c', c.receive computeKey (rounds + 1) ps = some c' ∧ c'.head = head ∧ c'.httpBuf.Rep [] := by
  induction ps generalizing c r with
  | nil =>
    rw [sent, List.flatMap_nil, List.append_nil] at hrest
    rw [hrest] at hr
    exact absurd hr (by decide)
  | cons p ps ih =>
    rw [sent_cons, ← List.append_assoc] at hrest
    have hne : r ++ p.bytes ≠ [] := by simp [p.bytes_ne]
    rcases append_eq_blank hne hrest with ⟨hd, hrest'⟩ | ⟨hd, hrest'⟩
    · obtain ⟨c', hw', hreceive⟩ := hw.receive_cons computeKey rounds p ps (by rw [hd]; decide)
        (by rw [hd]; exact Head.handleLines_piece true [cr]) hno
      obtain ⟨c'', hc''⟩ := ih hw' (by decide) (by rw [hrest']; rfl)
      exact ⟨c'', by rwa [hreceive]⟩
    · obtain ⟨c', hw', hreceive⟩ := hw.receive_cons computeKey rounds p ps (by rw [hd]; decide)
        (by rw [hd]; exact Head.handleLines_blank true (List.cons_ne_nil [] [])) hno
      refine ⟨c', ?_, hw'.head_eq, hw'.rep⟩
      rw [hreceive, eq_nil_of_sent hrest', receive]

theorem processState_short (hstate : c.state = .open) (hstream : c.stream = none)
    (hrep : c.httpBuf.Rep [cr]) : c.processState computeKey = some (false, c) := by
  have hopen : c.doOpen c.httpBuf = (1, c.httpBuf, c) := doOpen_of_short hrep (by decide)
  unfold processState openSource
  rw [hstate, hstream]
  simp only [hopen]
  rw [if_pos (Or.inr (by rw [hstate]; exact WSClientState.noConfusion))]

theorem openSource_blank (hstream : c.stream = none) (hrep : c.httpBuf.Rep [cr, lf]) :
    ∃ c', c.openSource = (2, c') ∧ c'.state = .openData ∧ c'.stream = none ∧ c'.head = c.head ∧
      c'.frame.len = 10 ∧ c'.httpBuf.Rep [] := by
  have hholds : LawfulFrameSource.Holds c.httpBuf [cr, lf] := hrep
  obtain ⟨buf, hbuf, hopen⟩ := doOpen_of_le (c := c) hholds (by decide)
  unfold openSource
  rw [hstream]
  simp only [hopen]
  exact ⟨_, rfl, rfl, hstream, rfl, rfl, hbuf⟩

theorem processState_blank (computeKey : List UInt8 → Option (List UInt8))
    (hstate : c.state = .open) (hstream : c.stream = none) (hrep : c.httpBuf.Rep [cr, lf]) :
    ∃ c', c.processState computeKey = some (false, c') ∧ c'.head = c.head ∧ c'.httpBuf.Rep [] := by
  obtain ⟨c', hsource, hstate', hstream', hhead, hlen, hbuf⟩ := openSource_blank hstream hrep
  have hholds : LawfulFrameSource.Holds c'.httpBuf [] := hbuf
  have hwait : c'.doOpenData c'.httpBuf = some (0, c'.httpBuf, c') :=
    doOpenData_of_lt hholds (by rw [hlen]; decide)
  have hdata : c'.dataSource = some (0, c') := by
    unfold dataSource
    rw [hstream', hwait]
    rfl
  refine ⟨c', ?_, hhead, hbuf⟩
  unfold processState
  rw [hstate, hsource]
  simp only
  rw [if_neg (by simp [hstate']), processData, hdata]
  rfl

theorem read_opened (hstate : c.state = .open) (hstream : c.stream = none) (hrep : c.httpBuf.Rep r)
    (hcap : c.httpBuf.capacity = bufferCapacity) (rounds : ℕ) (p : Packet)
    (hfit : (r ++ p.bytes).length ≤ bufferCapacity) :
    ∃ httpBuf, httpBuf.Rep (r ++ p.bytes) ∧ httpBuf.capacity = bufferCapacity ∧
      c.read computeKey rounds (Reader.ofList p.bytes p.length_lt)
        = (processAll computeKey rounds { c with httpBuf := httpBuf }).map fun c' ↦ (0, c') := by
  rw [List.length_append] at hfit
  obtain ⟨hpos, hread⟩ := BipBuf.readv_ofList hrep (by rw [hcap]; decide) p.bytes_ne p.length_lt
    (by rwa [hcap])
  refine ⟨_, hread, (BipBuf.readv_capacity _).trans hcap, ?_⟩
  unfold read readvSource
  rw [hstream]
  simp only
  rw [if_neg (Int.not_lt.mpr (Int.le_of_lt hpos)),
    if_neg (by rw [hstate]; exact WSClientState.noConfusion), ← hstream]

/-- A connection that has accepted it, and reads frames from the HTTP buffer, takes the blank line
for the header of a frame. -/
theorem receive_opened (computeKey : List UInt8 → Option (List UInt8)) (hstate : c.state = .open)
    (hstream : c.stream = none) (hrep : c.httpBuf.Rep r)
    (hcap : c.httpBuf.capacity = bufferCapacity) (rounds : ℕ) (hr : r.length < 2)
    (hrest : r ++ sent ps = [cr, lf]) :
    ∃ c', c.receive computeKey (rounds + 1) ps = some c' ∧ c'.head = c.head ∧
      c'.httpBuf.Rep [] := by
  induction ps generalizing c r with
  | nil =>
    rw [sent, List.flatMap_nil, List.append_nil] at hrest
    rw [hrest] at hr
    exact absurd hr (by decide)
  | cons p ps ih =>
    rw [sent_cons, ← List.append_assoc] at hrest
    have hne : r ++ p.bytes ≠ [] := by simp [p.bytes_ne]
    rcases append_eq_blank hne hrest with ⟨hd, hrest'⟩ | ⟨hd, hrest'⟩
    · obtain ⟨httpBuf, hrep', hcap', hread⟩ := read_opened hstate hstream hrep hcap (rounds + 1) p
        (by rw [hd]; decide)
      rw [hd] at hrep'
      have hone : processAll computeKey (rounds + 1) { c with httpBuf := httpBuf }
          = some { c with httpBuf := httpBuf } := by
        rw [processAll,
          processState_short (c := { c with httpBuf := httpBuf }) hstate hstream hrep']
      obtain ⟨c'', hc''⟩ := ih (c := { c with httpBuf := httpBuf }) hstate hstream hrep' hcap'
        (by decide) (by rw [hrest']; rfl)
      exact ⟨c'', by rwa [receive, hread, hone]⟩
    · obtain ⟨httpBuf, hrep', hcap', hread⟩ := read_opened hstate hstream hrep hcap (rounds + 1) p
        (by rw [hd]; decide)
      rw [hd] at hrep'
      obtain ⟨c', hprocess, hhead, hend⟩ := processState_blank computeKey
        (c := { c with httpBuf := httpBuf }) hstate hstream hrep'
      have hone : processAll computeKey (rounds + 1) { c with httpBuf := httpBuf } = some c' := by
        rw [processAll, hprocess]
      refine ⟨c', ?_, hhead, hend⟩
      rw [receive, hread, hone, eq_nil_of_sent hrest']
      rfl

/-! ## Whole heads -/

/-- **Cuts that do no harm.** The induction is on the packets; before the first line is complete,
all that was received is in the buffer. -/
theorem Waits.receive_of_uncut (hw : con.Waits c Head.empty r) (rounds : ℕ)
    (hfit : h.bytes.length ≤ bufferCapacity) (hr : lf ∉ r) (hrest : r ++ sent ps = h.bytes)
    (huncut : ∀ before after, ps = before ++ after → after ≠ [] →
      (r ++ sent before).length ≤ h.firstLine.length ∨ (sent after).length ≤ 2 ∧
        (con.Accepts computeKey (Head.known con.server h h.fields) → con.stream = none)) :
    ∃ c', c.receive computeKey (rounds + 1) ps = some c' ∧ con.Ends c' h := by
  induction ps generalizing c r with
  | nil =>
    rw [sent, List.flatMap_nil, List.append_nil] at hrest
    exact absurd (by simp [hrest, HttpHead.bytes]) hr
  | cons p ps ih =>
    rw [sent_cons, ← List.append_assoc] at hrest
    have hfit' : (r ++ p.bytes).length ≤ bufferCapacity := by
      rw [← hrest, List.length_append] at hfit
      omega
    rcases HttpHead.cut_line h.lf_not_mem_firstLine hrest with ⟨hd, -⟩ | ⟨d, hd, hfields⟩
    · -- no line is complete yet
      obtain ⟨c', hw', hreceive⟩ := hw.receive_cons computeKey rounds p ps hfit'
        (by rw [List.splitOn_eq_singleton hd]; exact Head.handleLines_piece true _)
        not_accepts_empty
      obtain ⟨c'', hc''⟩ := ih (by simpa using hw') hd hrest fun before after hps hafter ↦ by
        have hcut := huncut (p :: before) after (by rw [hps, List.cons_append]) hafter
        rwa [sent_cons, ← List.append_assoc] at hcut
      exact ⟨c'', by rwa [hreceive]⟩
    rcases HttpHead.cut_fields hfields with ⟨fs₁, fs₂, r', hfs, rfl, hrest', hr'⟩ | ⟨rfl, hnil⟩
    · -- the first line is taken, so only the blank line may be missing
      have hps : ps ≠ [] := fun hps ↦ by
        rw [hps, sent, List.flatMap_nil, List.append_nil] at hrest'
        exact absurd (by simp [hrest', HttpHead.fieldLines, Head.unlines]) hr'
      have hsent : sent ps ≠ [] := fun hsent ↦ hps (eq_nil_of_sent hsent)
      obtain ⟨htwo, hstream⟩ := (huncut [p] ps rfl hps).resolve_left fun hle ↦ by
        have hone : r ++ sent [p] = h.firstLine ++ lf ::
          (Head.unlines (fs₁.map HeaderField.line) ++ r') := by
          rw [sent_cons, sent, List.flatMap_nil, List.append_nil, hd]
        rw [hone, List.length_append, List.length_cons] at hle
        omega
      obtain rfl : fs₂ = [] := by
        by_contra hne
        have := HttpHead.two_lt_of_fields hne hrest' hr'
        omega
      rw [List.append_nil] at hfs
      have hblank : r' ++ sent ps = [cr, lf] := hrest'
      have hshort : r'.length < 2 := by
        have hlen := congrArg List.length hblank
        have hpos := List.length_pos_iff.mpr hsent
        rw [List.length_append, List.length_cons, List.length_singleton] at hlen
        omega
      have hlines : Head.handleLines con.server true Head.empty ((r ++ p.bytes).splitOn lf)
          = some (0, Head.known con.server h h.fields, [r']) := by
        rw [hd, List.splitOn_append_cons_self_of_not_mem h.lf_not_mem_firstLine,
          Head.splitOn_fields fs₁ hr', Head.handleLines_known _ _ _ (List.cons_ne_nil _ _),
          Head.handleLines_piece, hfs]
      obtain ⟨c', hw', hread⟩ := hw.read computeKey rounds p hfit' hlines
      have hrep : c'.httpBuf.Rep r' := by simpa using hw'.rep
      rw [receive, hread, Option.bind_some]
      -- if the connection opens here, it takes the rest of the blank line for a frame
      by_cases hacc : con.Accepts computeKey (Head.known con.server h h.fields)
      · have hnone := hw'.stream_eq.trans (hstream hacc)
        have hacc' : c'.Accepts computeKey c'.head := by rwa [hw'.accepts_iff, hw'.head_eq]
        have hbuf := connect_httpBuf computeKey (Or.inr hnone)
        obtain ⟨c'', hreceive, hhead, hend⟩ := receive_opened computeKey
          (connect_of_accepts hacc').1 (connect_stream_of_none hnone) (by rwa [hbuf])
          (by rw [hbuf, hw'.capacity_eq]) rounds hshort hblank
        exact ⟨c'', hreceive, by rw [hhead, connect_head, hw'.head_eq], hend⟩
      · rw [connect_of_not_accepts (by rwa [hw'.accepts_iff, hw'.head_eq])]
        have hw'' : con.Waits c' (Head.known con.server h h.fields) r' := by simpa using hw'
        exact hw''.receive_blank rounds hshort hblank hacc
    · -- all is there
      have hlines : Head.handleLines con.server true Head.empty ((r ++ p.bytes).splitOn lf)
          = some (0, Head.known con.server h h.fields, [[]]) := by
        rw [hd, List.splitOn_append_cons_self_of_not_mem h.lf_not_mem_firstLine,
          Head.splitOn_fieldLines, Head.handleLines_known _ _ _ (List.cons_ne_nil _ _),
          Head.handleLines_blank _ (List.cons_ne_nil _ _)]
      obtain ⟨c', hw', hread⟩ := hw.read computeKey rounds p hfit' hlines
      refine ⟨c'.connect computeKey, ?_, ?_, ?_⟩
      · rw [receive, hread, Option.bind_some, eq_nil_of_sent hnil, receive]
      · rw [connect_head, hw'.head_eq]
      · rw [connect_httpBuf computeKey (Or.inl hw'.rep)]
        exact hw'.rep

/-! ## Cuts between the lines -/

/-- What the connection has for a method, or a version, holds a colon already, or a field is still
to be taken for the first line. From then on it is never accepted. The induction is on the
packets. -/
theorem Waits.receive_fields {fs : List HeaderField} (hw : con.Waits c head r) (rounds : ℕ)
    (hfit : (r ++ sent ps).length ≤ bufferCapacity) (hr : lf ∉ r)
    (hrest : r ++ sent ps = Head.unlines (HttpHead.fieldLines fs))
    (hno : ¬con.Accepts computeKey head) (hcolon : fs ≠ [] ∨ colon ∈ head.startPart con.server) :
    ∃ c', c.receive computeKey (rounds + 1) ps = some c' ∧
      colon ∈ c'.head.startPart con.server := by
  induction ps generalizing c r head fs with
  | nil =>
    rw [sent, List.flatMap_nil, List.append_nil] at hrest
    exact absurd (by simp [hrest, HttpHead.fieldLines, Head.unlines]) hr
  | cons p ps ih =>
    rw [sent_cons, ← List.append_assoc] at hrest hfit
    have hfit' : (r ++ p.bytes).length ≤ bufferCapacity := by
      rw [List.length_append] at hfit
      omega
    rcases HttpHead.cut_fields hrest with ⟨fs₁, fs₂, r', rfl, hd, hrest', hr'⟩ | ⟨hd, hnil⟩
    · have hlines : Head.handleLines con.server true head ((r ++ p.bytes).splitOn lf)
          = some (0, Head.retaken con.server head fs₁, [r']) := by
        rw [hd, Head.splitOn_fields fs₁ hr']
        exact Head.handleLines_retaken _ _ _ (List.cons_ne_nil _ _) fun is_uri head' ↦
          Head.handleLines_piece is_uri r'
      have hno' : ¬con.Accepts computeKey (Head.retaken con.server head fs₁) := by
        cases fs₁ with
        | nil => exact hno
        | cons f fs₁ =>
          intro hacc
          exact Head.colon_not_mem_of_accepts hacc
            (Head.colon_mem_retaken _ _ (Or.inl (List.cons_ne_nil _ _)))
      have hcolon' : fs₂ ≠ [] ∨
        colon ∈ (Head.retaken con.server head fs₁).startPart con.server := by
        cases fs₁ with
        | nil => exact hcolon
        | cons f fs₁ => exact Or.inr (Head.colon_mem_retaken _ _ (Or.inl (List.cons_ne_nil _ _)))
      obtain ⟨c', hw', hreceive⟩ := hw.receive_cons computeKey rounds p ps hfit' hlines hno'
      have hw'' : con.Waits c' (Head.retaken con.server head fs₁) r' := by simpa using hw'
      have hfit'' : (r' ++ sent ps).length ≤ bufferCapacity := by
        rw [hd] at hfit
        simp only [List.length_append] at hfit ⊢
        omega
      obtain ⟨c'', hc''⟩ := ih hw'' hfit'' hr' hrest' hno' hcolon'
      exact ⟨c'', by rwa [hreceive]⟩
    · have hlines : Head.handleLines con.server true head ((r ++ p.bytes).splitOn lf)
          = some (0, Head.retaken con.server head fs, [[]]) := by
        rw [hd, Head.splitOn_fieldLines]
        exact Head.handleLines_retaken _ _ _ (List.cons_ne_nil _ _) fun is_uri head' ↦
          Head.handleLines_blank is_uri (List.cons_ne_nil _ _)
      have hmem := Head.colon_mem_retaken con.server head hcolon
      obtain ⟨c', hw', hreceive⟩ := hw.receive_cons computeKey rounds p ps hfit' hlines fun hacc ↦
        Head.colon_not_mem_of_accepts hacc hmem
      refine ⟨c', ?_, by rwa [hw'.head_eq]⟩
      rw [hreceive, eq_nil_of_sent hnil, receive]

/-- **Cuts that do harm**, unless the head is accepted before its last field. -/
theorem Waits.receive_of_cut (hw : con.Waits c Head.empty r) (rounds : ℕ)
    (hfit : h.bytes.length ≤ bufferCapacity) (hr : lf ∉ r) (hrest : r ++ sent ps = h.bytes)
    (hlate : ∀ fs₁ fs₂, h.fields = fs₁ ++ fs₂ → fs₂ ≠ [] →
      ¬con.Accepts computeKey (Head.known con.server h fs₁))
    {before after : List Packet} (hps : ps = before ++ after)
    (hfirst : h.firstLine.length < (r ++ sent before).length) (hblank : 2 < (sent after).length) :
    ∃ c', c.receive computeKey (rounds + 1) ps = some c' ∧
      colon ∈ c'.head.startPart con.server := by
  induction ps generalizing c r before with
  | nil =>
    rw [sent, List.flatMap_nil, List.append_nil] at hrest
    exact absurd (by simp [hrest, HttpHead.bytes]) hr
  | cons p ps ih =>
    have hbefore := hrest
    rw [sent_cons, ← List.append_assoc] at hrest
    have hfit' : (r ++ p.bytes).length ≤ bufferCapacity := by
      rw [← hrest, List.length_append] at hfit
      omega
    cases before with
    | nil =>
      -- a line feed lies in what was received before
      rw [sent, List.flatMap_nil, List.append_nil] at hfirst
      rcases HttpHead.cut_line h.lf_not_mem_firstLine hbefore with ⟨-, hle⟩ | ⟨d, rfl, -⟩
      · omega
      · exact absurd (by simp) hr
    | cons q before =>
      obtain ⟨rfl, hps'⟩ : p = q ∧ ps = before ++ after := List.cons.inj hps
      rw [sent_cons, ← List.append_assoc] at hfirst
      rcases HttpHead.cut_line h.lf_not_mem_firstLine hrest with ⟨hd, -⟩ | ⟨d, hd, hfields⟩
      · obtain ⟨c', hw', hreceive⟩ := hw.receive_cons computeKey rounds p ps hfit'
          (by rw [List.splitOn_eq_singleton hd]; exact Head.handleLines_piece true _)
          not_accepts_empty
        obtain ⟨c'', hc''⟩ := ih (by simpa using hw') hd hrest hps' hfirst
        exact ⟨c'', by rwa [hreceive]⟩
      have htwo : 2 < (sent ps).length := by
        rw [hps', sent, List.flatMap_append, List.length_append]
        exact Nat.lt_of_lt_of_le hblank (Nat.le_add_left _ _)
      rcases HttpHead.cut_fields hfields with ⟨fs₁, fs₂, r', hfs, rfl, hrest', hr'⟩ | ⟨-, hnil⟩
      · have hne : fs₂ ≠ [] := fun hne ↦ by
          have hlen := congrArg List.length hrest'
          rw [hne, List.length_append] at hlen
          have : (Head.unlines (HttpHead.fieldLines [])).length = 2 := rfl
          omega
        have hlines : Head.handleLines con.server true Head.empty ((r ++ p.bytes).splitOn lf)
            = some (0, Head.known con.server h fs₁, [r']) := by
          rw [hd, List.splitOn_append_cons_self_of_not_mem h.lf_not_mem_firstLine,
            Head.splitOn_fields fs₁ hr', Head.handleLines_known _ _ _ (List.cons_ne_nil _ _),
            Head.handleLines_piece]
        have hno := hlate fs₁ fs₂ hfs hne
        obtain ⟨c', hw', hreceive⟩ := hw.receive_cons computeKey rounds p ps hfit' hlines hno
        have hw'' : con.Waits c' (Head.known con.server h fs₁) r' := by simpa using hw'
        have hfit'' : (r' ++ sent ps).length ≤ bufferCapacity := by
          rw [← hrest, hd] at hfit
          simp only [List.length_append, List.length_cons] at hfit ⊢
          omega
        obtain ⟨c'', hc''⟩ := hw''.receive_fields rounds hfit'' hr' hrest' hno (Or.inl hne)
        exact ⟨c'', by rwa [hreceive]⟩
      · rw [hnil] at htwo
        exact absurd htwo (by decide)

/-! ## Two ways to cut a head -/

/-- A connection ends with the same head and the same bytes in the HTTP buffer. -/
def Agree (con : Con cacheSize) (computeKey : List UInt8 → Option (List UInt8)) (rounds : ℕ)
    (ps qs : List Packet) : Prop :=
  ∃ c d, con.receive computeKey rounds ps = some c ∧ con.receive computeKey rounds qs = some d ∧
    c.head = d.head ∧ c.httpBuf.contents = d.httpBuf.contents

/-- The head is not accepted before its last field, and if it is then, frames are read from the HTTP
buffer. -/
def AcceptsLate (con : Con cacheSize) (computeKey : List UInt8 → Option (List UInt8))
    (h : HttpHead) : Prop :=
  (∀ fs₁ fs₂, h.fields = fs₁ ++ fs₂ → fs₂ ≠ [] →
    ¬con.Accepts computeKey (Head.known con.server h fs₁)) ∧
  (con.Accepts computeKey (Head.known con.server h h.fields) → con.stream = none)

theorem Fresh.receive_of_uncut (hfresh : con.Fresh) (rounds : ℕ)
    (hfit : h.bytes.length ≤ bufferCapacity) (hps : sent ps = h.bytes)
    (huncut : con.Uncut computeKey h ps) :
    ∃ c, con.receive computeKey (rounds + 1) ps = some c ∧ con.Ends c h :=
  hfresh.waits.receive_of_uncut rounds hfit List.not_mem_nil hps huncut

/-- A cut that does harm shows in the method, or in the version on a client. -/
theorem Fresh.not_agree_of_cut (hfresh : con.Fresh) (rounds : ℕ)
    (hfit : h.bytes.length ≤ bufferCapacity) {ps qs : List Packet} (hps : sent ps = h.bytes)
    (hqs : sent qs = h.bytes) (huncut : con.Uncut computeKey h qs)
    (hlate : ∀ fs₁ fs₂, h.fields = fs₁ ++ fs₂ → fs₂ ≠ [] →
      ¬con.Accepts computeKey (Head.known con.server h fs₁))
    (before after : List Packet) (heq : ps = before ++ after)
    (hfirst : h.firstLine.length < (sent before).length) (hblank : 2 < (sent after).length) :
    ¬con.Agree computeKey (rounds + 1) ps qs := by
  rintro ⟨c, d, hc, hd, hhead, -⟩
  obtain ⟨c', hc', hcolon⟩ := hfresh.waits.receive_of_cut rounds hfit List.not_mem_nil hps hlate heq
    hfirst hblank
  obtain ⟨d', hd', hends, -⟩ := hfresh.receive_of_uncut rounds hfit hqs huncut
  obtain rfl : c' = c := Option.some.inj (hc'.symm.trans hc)
  obtain rfl : d' = d := Option.some.inj (hd'.symm.trans hd)
  rw [hhead, hends] at hcolon
  exact Head.colon_not_mem_known h h.fields hcolon

/-- **A head is parsed the same however it is cut**, if no cut lies between its lines. Where the
head is not accepted early there is no other way. -/
theorem receive_agrees (hfresh : con.Fresh) (rounds : ℕ) (hfit : h.bytes.length ≤ bufferCapacity)
    {ps qs : List Packet} (hps : sent ps = h.bytes) (hqs : sent qs = h.bytes)
    (huncut : con.Uncut computeKey h qs) :
    (con.Uncut computeKey h ps → con.Agree computeKey (rounds + 1) ps qs) ∧
    (con.AcceptsLate computeKey h →
      (con.Agree computeKey (rounds + 1) ps qs ↔ con.Uncut computeKey h ps)) := by
  have hagree : con.Uncut computeKey h ps → con.Agree computeKey (rounds + 1) ps qs :=
    fun huncut' ↦ by
    obtain ⟨c, hc, hhead, hbuf⟩ := hfresh.receive_of_uncut rounds hfit hps huncut'
    obtain ⟨d, hd, hhead', hbuf'⟩ := hfresh.receive_of_uncut rounds hfit hqs huncut
    exact ⟨c, d, hc, hd, hhead.trans hhead'.symm, hbuf.contents_eq.trans hbuf'.contents_eq.symm⟩
  refine ⟨hagree, fun hlate ↦ ⟨fun hsame before after heq _ ↦ ?_, hagree⟩⟩
  by_contra hcut
  obtain ⟨hfirst, hblank⟩ := not_or.mp hcut
  exact hfresh.not_agree_of_cut rounds hfit hps hqs huncut hlate.1 before after heq (by omega)
    (Nat.lt_of_not_le fun hle ↦ hblank ⟨hle, hlate.2⟩) hsame

/-- A request of one field. -/
def shortRequest : HttpHead where
  start := ⟨ascii "GET", by decide, by decide +kernel⟩
  second := ascii "/a"
  third := ascii "HTTP/1.1"
  fields := [⟨⟨ascii "Host", by decide, by decide +kernel⟩, ascii " b", by decide, by decide⟩]
  second_ne := by decide +kernel
  lf_not_mem := by decide
  length_lt := by decide

theorem length_shortRequest : shortRequest.bytes.length = 28 := by decide

/-- The request in one packet. -/
def wholeRequest : List Packet := [⟨shortRequest.bytes, by decide, by decide⟩]

/-- The request in two packets. -/
def cutRequest (n : ℕ) (hpos : 0 < n) (hlt : n < 28) : List Packet :=
  [⟨shortRequest.bytes.take n,
      List.length_pos_iff.mp (by rw [List.length_take, length_shortRequest]; omega),
      by rw [List.length_take, length_shortRequest]; omega⟩,
    ⟨shortRequest.bytes.drop n,
      List.length_pos_iff.mp (by rw [List.length_drop, length_shortRequest]; omega),
      by rw [List.length_drop, length_shortRequest]; omega⟩]

theorem sent_cutRequest {n : ℕ} (hpos : 0 < n) (hlt : n < 28) :
    sent (cutRequest n hpos hlt) = shortRequest.bytes := by
  simp [sent, cutRequest]

theorem uncut_whole (con : Con cacheSize) (computeKey : List UInt8 → Option (List UInt8)) :
    con.Uncut computeKey shortRequest wholeRequest := by
  intro before after heq hafter
  left
  cases before with
  | nil => exact Nat.zero_le _
  | cons p before =>
    have hnil := (List.cons.inj heq).2
    exact absurd (List.append_eq_nil_iff.mp hnil.symm).2 hafter

/-- A server without a stream. -/
def requestServer : Con 1 := .registerConnection true [] none false false false WebSocket.zeroedData

theorem requestServer_fresh : requestServer.Fresh := registerConnection_fresh _ _ _ _ _ _ _

/-- A cut in the first line. -/
theorem receive_agrees_of_short :
    (requestServer.Uncut (fun _ ↦ some []) shortRequest (cutRequest 5 (by decide) (by decide)) →
      requestServer.Agree (fun _ ↦ some []) 1 (cutRequest 5 (by decide) (by decide)) wholeRequest) ∧
    (requestServer.AcceptsLate (fun _ ↦ some []) shortRequest →
      (requestServer.Agree (fun _ ↦ some []) 1 (cutRequest 5 (by decide) (by decide)) wholeRequest ↔
        requestServer.Uncut (fun _ ↦ some []) shortRequest
          (cutRequest 5 (by decide) (by decide)))) :=
  receive_agrees requestServer_fresh 0 (by decide) (sent_cutRequest _ _)
    (by simp [sent, wholeRequest])
    (uncut_whole _ _)

/-- A cut behind the first line. -/
theorem not_agree_of_second_packet :
    sent (cutRequest 17 (by decide) (by decide)) = sent wholeRequest ∧
      ¬requestServer.Agree (fun _ ↦ some []) 1
        (cutRequest 17 (by decide) (by decide)) wholeRequest := by
  have hwhole : sent wholeRequest = shortRequest.bytes := by simp [sent, wholeRequest]
  refine ⟨(sent_cutRequest _ _).trans hwhole.symm, ?_⟩
  refine requestServer_fresh.not_agree_of_cut 0 (by decide) (sent_cutRequest _ _) hwhole
    (uncut_whole _ _) (fun fs₁ fs₂ heq hne ↦ ?_) [_] [_] rfl (by decide) (by decide)
  -- the only field comes last
  cases fs₁ with
  | nil => decide
  | cons f fs₁ =>
    have hnil := (List.cons.inj heq).2
    exact absurd (List.append_eq_nil_iff.mp hnil.symm).2 hne

end Con

end Coypu
