import Coypu.Http.Decoding
import Coypu.Http.Handover
import Coypu.Http.WireFrames

/-!
# Frames that wait

A `Read` of an open connection takes every frame of which all bytes have arrived. The `Read` that
opens the connection does not: `ProcessState` returns `false` in state `CONNECTING`, and the loop
ends. So frames in the same packet as the end of the head wait for the next `Read`
(`not_run_noneWaits_of_pong`). In the runs in which there are none, no frame ever waits
(`run_noneWaits`).
-/

set_option autoImplicit false

namespace Coypu

open FlatMemory Incremental Transport WebSocket

variable {cacheSize : ℕ}

/-- The operation code and the length. -/
def WireFrame.kind (f : WireFrame) : UInt8 × ℕ := (f.opcode, f.payload.length)

def Decoded.kind (d : Decoded) : UInt8 × ℕ := (d.opcode, d.len)

/-! ## Frames and the parser -/

/-- A parser that has not come to a close has found all frames that are complete. -/
theorem kind_prefix_of_drains {s₀ s' : Reading cacheSize} {l l' : List UInt8} {es : List Decoded}
    {fs : List WireFrame} (hopen : s₀.con.state = .open)
    (h : Drains (parser cacheSize) (some s₀) l es (some s') l') (hsends : s'.con.Sends)
    (hread : ∀ f ∈ fs, f.Readable) (hpre : WireFrame.frames fs <+: l) :
    fs.map WireFrame.kind <+: es.map Decoded.kind := by
  induction fs generalizing s₀ l es with
  | nil => exact List.nil_prefix
  | cons f fs ih =>
    obtain ⟨t, rfl⟩ := hpre
    rw [WireFrame.frames, List.flatMap_cons, ← WireFrame.frames, List.append_assoc] at h
    obtain ⟨c, d, hopcode, hd, hsize, -, hdrains⟩ :=
      WireFrame.drains_wireFrame hopen (hread f List.mem_cons_self) (WireFrame.frames fs ++ t)
    obtain ⟨es', rfl, hrest⟩ := hdrains.mp h
    rw [List.map_cons, List.map_cons, Decoded.kind, hd, hsize, ← WireFrame.kind]
    refine List.prefix_cons_inj _ |>.mpr ?_
    cases hdispatch : c.dispatch f.payload d.offset with
    | none =>
      rw [hdispatch] at hrest
      exact absurd (hrest.unique (.wait rfl)).2.1 (by simp)
    | some c' =>
      rw [hdispatch] at hrest
      have hstate := (Con.dispatch_state hdispatch).2
      by_cases hclose : c.frame.opcode = WSOPCode.close.value
      · -- behind a close there are no frames
        rw [if_pos hclose] at hstate
        have hwait : (⟨c', s₀.cursor + f.bytes.length⟩ : Reading cacheSize).step
          (WireFrame.frames fs ++ t) = none := by
          rw [Reading.step, hstate]
        obtain ⟨-, hs', -⟩ := hrest.unique (.wait hwait)
        rw [Option.some.inj hs', Con.Sends, hstate] at hsends
        exact absurd hsends (by decide)
      · rw [if_neg hclose] at hstate
        exact ih hstate hrest (fun f hf ↦ hread f (List.mem_cons_of_mem _ hf))
          (List.prefix_append _ _)

theorem sends_or_closing_of_drains {σ σ' : Option (Reading cacheSize)} {l l' : List UInt8}
    {es : List Decoded} (h : Drains (parser cacheSize) σ l es σ' l')
    (hs : ∀ s ∈ σ, s.con.Sends ∨ s.con.state = .closing) :
    ∀ s ∈ σ', s.con.Sends ∨ s.con.state = .closing := by
  refine h.invariant (I := fun σ ↦ ∀ s ∈ σ, s.con.Sends ∨ s.con.state = .closing)
    (Q := fun _ ↦ True)
    (fun σ l m _ hstep _ s' hs' ↦ ?_) (fun _ _ ↦ trivial) hs
  obtain ⟨s, rfl, hstep'⟩ := Option.bind_eq_some_iff.mp hstep
  rcases Reading.step_cases hstep' with ⟨-, h₀, h₁, t, -, -, rfl⟩ | ⟨-, -, rfl⟩
  · rw [← Option.some.inj hs']
    exact Or.inl (Or.inr rfl)
  · obtain ⟨c, hc, rfl⟩ := Option.map_eq_some_iff.mp hs'
    have hstate := (Con.dispatch_state hc).2
    split_ifs at hstate
    · exact Or.inr hstate
    · exact Or.inl (Or.inl hstate)

/-! ## Reads before and behind -/

namespace Con

variable {con : Con cacheSize}

theorem arriving_connecting (h : con.state = .connecting) (cb : Reader UInt8) :
    con.arriving cb = con.httpBuf.delivered cb := by
  rw [arriving, h]
  cases con.stream with
  | none => rfl
  | some p => exact if_neg (by decide)

/-- A connection that connects decodes no frames. -/
theorem readDecoded_connecting (h : con.state = .connecting)
    (computeKey : List UInt8 → Option (List UInt8)) (rounds : ℕ) (cb : Reader UInt8) :
    con.readDecoded computeKey rounds cb = [] := by
  rw [readDecoded, readvSource_connecting h]
  split_ifs
  · rfl
  · cases rounds with
    | zero => rfl
    | succ rounds => simp only [allDecoded, roundDecoded, processState, h, Option.toList_none,
      List.nil_append]

theorem read_closed {computeKey : List UInt8 → Option (List UInt8)} {rounds : ℕ} {cb : Reader UInt8}
    {r : ℤ × Con cacheSize} (h : con.state = .closing ∨ con.state = .closed)
    (hread : con.read computeKey rounds cb = some r) :
    r.2.state = .closing ∨ r.2.state = .closed := by
  have hsource : (con.readvSource cb).2.state = con.state := by
    unfold readvSource
    split
    · split_ifs <;> rfl
    · rfl
  have hne : ¬(con.readvSource cb).2.state = .connecting := by
    rw [hsource]
    rcases h with h | h <;> rw [h] <;> decide
  unfold read at hread
  simp only [if_neg hne] at hread
  split_ifs at hread
  · rw [← Option.some.inj hread]
    exact hsource ▸ h
  · obtain ⟨c, hall, rfl⟩ := Option.map_eq_some_iff.mp hread
    cases rounds with
    | zero => exact absurd hall (by simp [processAll])
    | succ rounds =>
      rw [← hsource] at h
      rcases h with h | h
      · simp only [processAll, processState, h] at hall
        rw [← Option.some.inj hall]
        exact Or.inr rfl
      · simp only [processAll, processState, h] at hall
        rw [← Option.some.inj hall]
        exact Or.inr h

end Con

/-! ## Runs -/

namespace Reception

section

variable (computeKey : List UInt8 → Option (List UInt8)) (rounds : ℕ) (head : List UInt8)
  (fs : List WireFrame)

/-- A `Read`, as long as the program runs. -/
def step (r : Option (Reception cacheSize)) (cb : Reader UInt8) :
    Option (Reception cacheSize) × Unit :=
  (r.bind fun r ↦ r.read computeKey rounds cb, ())

/-- On an open connection all frames are decoded that have arrived behind the head. -/
def NoneWaits (r : Reception cacheSize) : Prop :=
  r.con.state = .open ∨ r.con.state = .openData →
    ∀ n, head ++ WireFrame.frames (fs.take n) <+: r.arrived →
    (fs.take n).map WireFrame.kind <+: r.decoded.map Decoded.kind

/-- If a `Read` opens the connection, what it leaves in the HTTP buffer is what came behind the
head. It is in one piece, and no frame in it is complete. -/
def OpensClear (r : Reception cacheSize) (cb : Reader UInt8) : Prop :=
  ∀ p q, r.con.stream = some p → r.con.Opens computeKey rounds cb q →
    r.arrived ++ r.con.arriving cb = head ++ q.2.1.contents ∧ Con.InOnePiece q.2.1 p ∧
      ∀ n, WireFrame.frames (fs.take n) <+: q.2.1.contents → fs.take n = []

/-- A piece of the head and the frames arrives, and the connection opens with no complete frame. -/
def Gathers (r : Option (Reception cacheSize)) (cb : Reader UInt8) : Prop :=
  ∀ r₀ ∈ r, r₀.arrived ++ r₀.con.arriving cb <+: head ++ WireFrame.frames fs ∧
    r₀.OpensClear computeKey rounds head fs cb

/-- An open connection is where the parser is. It began at `s₀` behind the head, `behind` has
arrived since, and `l` is unread. -/
structure Goes (p₀ p : PositionedStream cacheSize) (s₀ s : Reading cacheSize)
    (behind l : List UInt8) (r : Reception cacheSize) : Prop where
  start_open : s₀.con.state = .open
  follows : Follows p s l r.con
  sends : s.con.Sends
  flat : p.Flat
  pageSize_eq : p.log.pageSize = p₀.log.pageSize
  available_eq : p.log.available = p₀.log.available + behind.length
  short : l.length ≤ (if s.con.state = .openData then s.con.frame.len else 0) + 2 ^ 31
  length_le : l.length ≤ behind.length
  arrived_eq : r.arrived = head ++ behind
  carries : ∀ {k : List UInt8} {es : List Decoded} {σ : Option (Reading cacheSize)}
    {l' : List UInt8},
    Drains (parser cacheSize) (some s) (l ++ k) es σ l' →
      Drains (parser cacheSize) (some s₀) (behind ++ k) (r.decoded ++ es) σ l'

/-- A connection connects, or it is open and no frame waits, or it is closed. -/
def Holds (p₀ : PositionedStream cacheSize) (r : Reception cacheSize) : Prop :=
  (r.con.state = .connecting ∧ r.decoded = [] ∧
    Handshake.Attached p₀ ⟨some r.con, r.arrived⟩) ∨
  ((∃ p s₀ s behind l, r.Goes head p₀ p s₀ s behind l) ∧ r.NoneWaits head fs) ∨
  r.con.state = .closing ∨ r.con.state = .closed

end

variable {computeKey : List UInt8 → Option (List UInt8)} {rounds : ℕ} {head : List UInt8}
  {fs : List WireFrame}
  {r r' : Reception cacheSize} {cb : Reader UInt8} {p₀ p : PositionedStream cacheSize}
  {s₀ s : Reading cacheSize}
  {behind l : List UInt8}

theorem Holds.noneWaits (h : r.Holds head fs p₀) : r.NoneWaits head fs := by
  rcases h with ⟨hstate, -⟩ | ⟨-, hnone⟩ | hstate
  · exact fun hopen ↦ absurd hopen (by rw [hstate]; decide)
  · exact hnone
  · exact fun hopen ↦ absurd hopen
      (by rcases hstate with hstate | hstate <;> rw [hstate] <;> decide)

theorem Goes.read (h : r.Goes head p₀ p s₀ s behind l) (hnone : r.NoneWaits head fs)
    (hread : ∀ f ∈ fs, f.Readable) (hfits : p₀.Fits (WireFrame.frames fs).length)
    (hrounds : (WireFrame.frames fs).length + 1 < rounds)
    (hchunk : r.arrived ++ r.con.arriving cb <+: head ++ WireFrame.frames fs)
    (hr : r.read computeKey rounds cb = some r') : r'.Holds head fs p₀ := by
  obtain ⟨k, hk⟩ : ∃ k, PositionedStream.deliveredAt p.log.pageSize p.log.available cb = k :=
    ⟨_, rfl⟩
  have harriving : r.con.arriving cb = k := (h.follows.arriving_eq h.sends h.flat cb).trans hk
  rw [harriving, h.arrived_eq, List.append_assoc, List.prefix_append_right_inj] at hchunk
  have hlen := hchunk.length_le
  have hle := h.length_le
  rw [List.length_append] at hlen
  obtain ⟨hpages, hlt⟩ := hfits
  have havail := h.available_eq
  have hfuel : (l ++ k).length + 1 < rounds := by
    rw [List.length_append]
    omega
  obtain ⟨p', hflat', hpage, havail', -, hcases⟩ :=
    read_cases computeKey h.follows h.sends h.short h.flat cb hk
    ⟨by rw [h.pageSize_eq]; omega, by omega⟩ hfuel
  obtain ⟨q, hq, rfl⟩ := Option.map_eq_some_iff.mp hr
  rw [hq, Option.map_some] at hcases
  rcases hcases with ⟨-, rfl, hdecoded, con', hcon', hfollows⟩ | ⟨-, σ, l', hdrains, hσ⟩
  · -- nothing has arrived
    obtain rfl : q.2 = con' := Option.some.inj hcon'
    have hstate : q.2.state = r.con.state := by
      obtain ⟨data, hcon, -⟩ := h.follows
      obtain ⟨data', hcon', -⟩ := hfollows
      rw [hcon, hcon']
    refine Or.inr (Or.inl ⟨⟨p', s₀, s, behind, l, h.start_open, hfollows, h.sends, hflat',
      hpage.trans h.pageSize_eq, by rw [havail', List.length_nil, Nat.add_zero, havail], h.short,
        hle, ?_, ?_⟩, ?_⟩)
    · simp only [harriving, List.append_nil, h.arrived_eq]
    · simp only [hdecoded, List.append_nil]
      exact h.carries
    · simp only [NoneWaits, harriving, hdecoded, List.append_nil, hstate]
      exact hnone
  · cases σ with
    | none => exact absurd hσ (by simp)
    | some s' =>
      obtain ⟨con', hcon', hfollows⟩ := hσ
      obtain rfl : q.2 = con' := Option.some.inj hcon'
      have hstate : q.2.state = s'.con.state := by
        obtain ⟨data', hcon', -⟩ := hfollows
        rw [hcon']
      have hwaits : s'.step l' = none := hdrains.waits
      -- the connection goes on reading, or a frame has closed it
      by_cases hsends : s'.con.Sends
      · have hshort := Reading.short_of_waits hwaits hsends
        have hall := h.carries hdrains
        refine Or.inr (Or.inl ⟨⟨p', s₀, s', behind ++ k, l', h.start_open, hfollows, hsends, hflat',
          hpage.trans h.pageSize_eq, ?_, by omega, ?_, ?_, ?_⟩, ?_⟩)
        · rw [havail', havail, List.length_append, Nat.add_assoc]
        · have hsuffix := hdrains.suffix.length_le
          rw [List.length_append] at hsuffix ⊢
          omega
        · simp only [harriving, h.arrived_eq, List.append_assoc]
        · intro k' es' σ' l'' hdrains'
          have hboth := h.carries (k := k ++ k')
            (by rw [← List.append_assoc]; exact hdrains.append hdrains')
          rwa [← List.append_assoc, ← List.append_assoc] at hboth
        · intro _ n hn
          simp only [harriving, h.arrived_eq, List.append_assoc, List.prefix_append_right_inj] at hn
          exact kind_prefix_of_drains h.start_open hall hsends
            (fun f hf ↦ hread f (List.mem_of_mem_take hf)) hn
      · have hclosing := sends_or_closing_of_drains hdrains
          (fun s hs ↦ Or.inl (Option.some.inj hs ▸ h.sends)) s' rfl
        exact Or.inr (Or.inr (Or.inl (hstate.trans (hclosing.resolve_left hsends))))

theorem goes_of_opens (hattached : Handshake.Attached p₀ ⟨some r.con, r.arrived⟩)
    (hdecoded : r.decoded = []) (hunread : p₀.curOffset = p₀.log.available) (hflat : p₀.Flat)
    (hfits : p₀.Fits (WireFrame.frames fs).length)
    (hchunk : r.arrived ++ r.con.arriving cb <+: head ++ WireFrame.frames fs)
    {q : ℤ × BipBuf .uint64 UInt8 × Head} (hopens : r.con.Opens computeKey rounds cb q)
    (hclear : r.OpensClear computeKey rounds head fs cb) :
    Reception.Holds head fs p₀ ⟨{ r.con with httpBuf := q.2.1, head := q.2.2 }.connect computeKey,
      r.arrived ++ r.con.arriving cb, r.decoded ++ r.con.readDecoded computeKey rounds cb⟩ := by
  have hstream := hattached.stream_eq r.con rfl hopens.state_eq
  obtain ⟨harrived, hpiece, hnone⟩ := hclear p₀ q hstream hopens
  obtain ⟨ls, l, hrep, hcap, -⟩ := hattached.consistent r.con rfl hopens.state_eq
  obtain ⟨taken, ks, -, -, -, hrep', hcap', -⟩ :=
    Handshake.afterLines_cases hrep hcap hopens.afterLines_eq
  obtain ⟨k, hk⟩ : ∃ k, q.2.1.contents = k := ⟨_, rfl⟩
  have hrepk : q.2.1.Rep k := by
    rw [← hk, hrep'.contents_eq]
    exact hrep'
  obtain ⟨p, hp, hreceives⟩ := (Con.copyToStream_receives_iff
    { r.con with httpBuf := q.2.1, head := q.2.2 } hrepk hstream hflat.position_eq).mpr hpiece
  rw [hk] at harrived hnone
  rw [harrived, List.prefix_append_right_inj] at hchunk
  have hlen := hchunk.length_le
  obtain ⟨hpages, hlt⟩ := hfits
  have havail := hreceives.available_eq
  obtain ⟨con, hcon⟩ : ∃ con : Con cacheSize,
      con = { r.con with httpBuf := q.2.1, head := q.2.2 }.connect computeKey := ⟨_, rfl⟩
  have hopen : con.state = .open := by
    rw [hcon]
    exact hopens.connect_eq.1
  have hconp : con.stream = some p := by
    rw [hcon, hopens.connect_eq.2]
    exact hp
  have hfind : ∀ offset, p.find offset = true := fun offset ↦ by
    rw [hreceives.find_eq]
    exact hflat.found offset
  -- the parser begins behind the head, with what was left in the HTTP buffer
  have hfollows : Follows p ⟨con, p.curOffset⟩ k con := by
    refine ⟨p.log.data, ?_, ?_, ?_, ?_, fun _ _ _ ↦ hfind _, fun _ _ _ ↦ hfind _⟩
    · change con = { con with stream := some p }
      rw [← hconp]
    · have hload := hreceives.load_eq
      rw [havail, load_add, Nat.zero_add] at hload
      change load p.log.data p.curOffset k.length = k
      rw [hreceives.curOffset_eq, hunread]
      exact (List.append_inj hload (by simp)).2
    · change p.curOffset + k.length = p.log.available
      rw [hreceives.curOffset_eq, hunread, havail]
    · change p.log.available < 2 ^ 32 * p.log.pageSize
      rw [hreceives.pageSize_eq]
      omega
  rw [← hcon, harrived, hdecoded, Con.readDecoded_connecting hopens.state_eq]
  refine Or.inr
    (Or.inl ⟨⟨p, ⟨con, p.curOffset⟩, ⟨con, p.curOffset⟩, k, k, hopen, hfollows, Or.inl hopen,
    ⟨hfind, hreceives.position_eq⟩, hreceives.pageSize_eq, havail, ?_, Nat.le_refl _, rfl,
      fun h ↦ h⟩, ?_⟩)
  · have hbound := hrepk.length_le
    rw [hcap'] at hbound
    exact Nat.le_add_left_of_le (Nat.le_trans hbound hcap)
  · intro _ n hn
    rw [hnone n ((List.prefix_append_right_inj head).mp hn)]
    exact List.nil_prefix

/-- **The step lemma.** -/
theorem Holds.step (h : r.Holds head fs p₀) (hunread : p₀.curOffset = p₀.log.available)
    (hflat : p₀.Flat) (hread : ∀ f ∈ fs, f.Readable) (hfits : p₀.Fits (WireFrame.frames fs).length)
    (hrounds : (WireFrame.frames fs).length + 1 < rounds)
    (hchunk : r.arrived ++ r.con.arriving cb <+: head ++ WireFrame.frames fs)
    (hclear : r.OpensClear computeKey rounds head fs cb)
    (hr : r.read computeKey rounds cb = some r') : r'.Holds head fs p₀ := by
  rcases h with ⟨hstate, hdecoded, hattached⟩ | ⟨⟨p, s₀, s, behind, l, hgoes⟩, hnone⟩ | hclosed
  · obtain ⟨q, hq, rfl⟩ := Option.map_eq_some_iff.mp hr
    have hstep : ((⟨some r.con, r.arrived⟩ : Handshake cacheSize).step computeKey
        (.read rounds cb : ConOp 0)).1 = ⟨some q.2, r.arrived ++ r.con.arriving cb⟩ := by
      rw [Handshake.step, Con.arriving_connecting hstate]
      simp only [hq, Option.map_some, if_pos hstate]
    by_cases hstate' : q.2.state = .connecting
    · refine Or.inl ⟨hstate', ?_, ?_⟩
      · rw [hdecoded, Con.readDecoded_connecting hstate, List.append_nil]
      · rw [← hstep]
        exact hattached.step _
    · obtain ⟨rounds', cb', q', hop, hopens, hq'⟩ := Handshake.exists_opens
        (s := ⟨some r.con, r.arrived⟩) rfl hstate (congrArg Handshake.con hstep) hstate'
      obtain ⟨rfl, rfl⟩ := ConOp.read.inj hop
      rw [hq']
      exact goes_of_opens hattached hdecoded hunread hflat hfits hchunk hopens hclear
  · exact hgoes.read hnone hread hfits hrounds hchunk hr
  · obtain ⟨q, hq, rfl⟩ := Option.map_eq_some_iff.mp hr
    exact Or.inr (Or.inr (Con.read_closed hclosed hq))

/-- **No complete frame waits** in a run in which none is there when the connection opens. -/
theorem run_noneWaits {con : Con cacheSize} (hfresh : con.Fresh) (hstream : con.stream = some p)
    (hunread : p.curOffset = p.log.available) (hflat : p.Flat)
    (hfits : p.Fits (WireFrame.frames fs).length) (hread : ∀ f ∈ fs, f.Readable)
    (hrounds : (WireFrame.frames fs).length + 1 < rounds) {cbs : List (Reader UInt8)}
    (hok : Run.Steps (step computeKey rounds) (Gathers computeKey rounds head fs)
      (some ⟨con, [], []⟩) cbs) :
    Run.Throughout (step computeKey rounds) (fun r ↦ ∀ r₀ ∈ r, NoneWaits head fs r₀)
      (some ⟨con, [], []⟩) cbs := by
  refine Run.Throughout.mono (P := fun r ↦ ∀ r₀ ∈ r, Holds head fs p r₀)
    (fun r h r₀ hr₀ ↦ (h r₀ hr₀).noneWaits)
    (Run.Throughout.of_step (fun r cb h hgathers ↦ ?_) ?_ hok)
  · rintro r' hr'
    obtain ⟨r₀, rfl, hr⟩ := Option.bind_eq_some_iff.mp hr'
    obtain ⟨hchunk, hclear⟩ := hgathers r₀ rfl
    exact (h r₀ rfl).step hunread hflat hread hfits hrounds hchunk hclear hr
  · intro r₀ hr₀
    obtain rfl := Option.some.inj hr₀
    exact Or.inl ⟨hfresh.state_eq, rfl, Handshake.attached_of_fresh hfresh hstream⟩

/-- A pong without a payload. -/
def pong : WireFrame := ⟨0x8A, 0, [], [], [], rfl, WireFrame.key_nil, rfl⟩

theorem take_pong {n : ℕ} {l : List UInt8} (h : WireFrame.frames ([pong].take n) <+: l)
    (hl : l.length < 2) : [pong].take n = [] := by
  cases n with
  | zero => rfl
  | succ n =>
    have hlen := h.length_le
    rw [List.take_succ_cons, List.take_nil] at hlen
    exact absurd (Nat.lt_of_le_of_lt hlen hl) (by decide)

section Packets

open Handshake

/-- A server gets a request, and then a pong. -/
theorem run_noneWaits_request :
    Run.Throughout (step (fun _ ↦ some []) 20) (fun r ↦ ∀ r₀ ∈ r, NoneWaits request [pong] r₀)
      (some ⟨attachedServer, [], []⟩)
      [Reader.ofList request (by decide +kernel), Reader.ofList [0x8A, 0] (by decide)] := by
  have hattached : Attached (PositionedStream.ofList 1 [] (by decide)) (new attachedServer) :=
    attached_of_fresh attachedServer_fresh rfl
  have hfirst : Holds request [pong] (PositionedStream.ofList 1 [] (by decide)) ⟨attachedServer, [],
    []⟩ :=
    Or.inl ⟨attachedServer_fresh.state_eq, rfl, hattached⟩
  have hflat : (PositionedStream.ofList 1 [] (by decide)).Flat := ⟨fun _ ↦ rfl, rfl⟩
  have hfits : (PositionedStream.ofList 1 [] (by decide)).Fits (WireFrame.frames [pong]).length :=
    ⟨by decide +kernel, by decide +kernel⟩
  have hread : ∀ f ∈ [pong], f.Readable := fun f hf ↦ by
    rw [List.mem_singleton.mp hf]
    exact List.append_nil _
  have hdelivered : attachedServer.arriving (Reader.ofList request (by decide +kernel))
    = request := by
    rw [Con.arriving_connecting attachedServer_fresh.state_eq]
    exact delivered_server (by decide +kernel) (by decide +kernel)
  have hchunk : ([] : List UInt8) ++ attachedServer.arriving
    (Reader.ofList request (by decide +kernel))
      <+: request ++ WireFrame.frames [pong] := by
    rw [hdelivered]
    exact List.prefix_append _ _
  obtain ⟨httpBuf, head, hleft, -, hopens⟩ :=
    opens_of_taken attachedServer attachedServer_fresh.state_eq rfl rfl
    attachedServer_fresh.rep attachedServer_fresh.capacity_eq (by decide +kernel)
      (by decide +kernel)
    (by decide +kernel) taken_request
  have hclear : OpensClear (fun _ ↦ some []) 20 request [pong] ⟨attachedServer, [], []⟩
      (Reader.ofList request (by decide +kernel)) := by
    intro p q hp hq
    obtain rfl := Option.some.inj ((hopens 0).afterLines_eq.symm.trans hq.afterLines_eq)
    refine ⟨?_, Or.inl hleft.available_eq, fun n hn ↦ take_pong hn ?_⟩
    · rw [hdelivered, hleft.contents_eq, List.append_nil, List.nil_append]
    · rw [hleft.contents_eq]
      decide
  refine run_noneWaits attachedServer_fresh rfl rfl hflat hfits hread (by decide +kernel)
    ⟨?_, ?_, trivial⟩
  · intro r hr
    obtain rfl := Option.some.inj hr
    exact ⟨hchunk, hclear⟩
  · rintro r hr
    -- behind the first read the connection is open, and nothing is unread
    simp only [step, Option.bind_some, Option.mem_def] at hr
    have hholds := hfirst.step rfl hflat hread hfits (by decide +kernel) hchunk hclear hr
    rw [Reception.read, (hopens 19).read_eq, Option.map_some, hdelivered] at hr
    obtain rfl := Option.some.inj hr
    have hopen := (hopens 0).connect_eq.1
    rcases hholds with ⟨hstate, -⟩ | ⟨⟨p, s₀, s, behind, l, hgoes⟩, -⟩ | hstate
    · exact absurd (hopen.symm.trans hstate) (by decide)
    · have harrived : [] ++ request = request ++ behind := hgoes.arrived_eq
      obtain rfl : behind = [] := by simpa using harrived
      have havail := hgoes.available_eq
      have hpage := hgoes.pageSize_eq
      refine ⟨?_, fun p q _ hq ↦ absurd (hopen.symm.trans hq.state_eq) (by decide)⟩
      rw [hgoes.follows.arriving_eq hgoes.sends hgoes.flat, havail, hpage]
      exact ⟨[], by rw [List.append_nil]; rfl⟩
    · exact absurd hstate (by rw [hopen]; decide)

/-- A server gets a request and a pong in one packet, and the pong waits. -/
theorem not_run_noneWaits_of_pong :
    ¬Run.Throughout (step (fun _ ↦ some []) 20) (fun r ↦ ∀ r₀ ∈ r, NoneWaits request [pong] r₀)
      (some ⟨attachedServer, [], []⟩) [Reader.ofList requestPong length_requestPong_lt] := by
  rintro ⟨-, hlast⟩
  obtain ⟨httpBuf, head, -, -, hopens⟩ :=
    opens_of_taken attachedServer attachedServer_fresh.state_eq rfl rfl
    attachedServer_fresh.rep attachedServer_fresh.capacity_eq (by decide +kernel)
      (by decide +kernel)
    (by decide +kernel) taken_requestPong
  have hopen := (hopens 0).connect_eq.1
  have hdelivered : attachedServer.arriving (Reader.ofList requestPong (by decide +kernel))
    = requestPong := by
    rw [Con.arriving_connecting attachedServer_fresh.state_eq]
    exact delivered_server (by decide +kernel) (by decide +kernel)
  have hread : (step (fun _ ↦ some []) 20 (some ⟨attachedServer, [], []⟩)
      (Reader.ofList requestPong (by decide +kernel))).1
        = some ⟨({ attachedServer with httpBuf := httpBuf, head := head } : Con 1).connect fun _ ↦
          some [], requestPong, []⟩ := by
    rw [step, Option.bind_some, Reception.read, (hopens 19).read_eq, Option.map_some, hdelivered,
      Con.readDecoded_connecting attachedServer_fresh.state_eq]
    rfl
  rw [hread] at hlast
  have hnone := hlast _ rfl (Or.inl hopen) 1 (List.prefix_refl _)
  exact absurd (List.prefix_nil.mp hnone) (by decide)

end Packets

end Reception

end Coypu
