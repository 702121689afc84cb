import Coypu.Http.Parsing

/-!
# Read boundaries

An open connection with a stream decodes the same frames from a byte string however it is cut into
`Read`s (`readAll_agree`). Between two `Read`s it is where the parser waits, and the parser does not
depend on the pieces.

The stream is taken as a flat log: every page is found, and nothing is behind the end
(`PositionedStream.Flat`).
-/

set_option autoImplicit false

namespace Coypu

open FlatMemory Incremental Transport WebSocket

variable {cacheSize : ℕ}

/-! ## The stream -/

namespace PositionedStream

/-- A flat log. -/
structure Flat (p : PositionedStream cacheSize) : Prop where
  found : ∀ offset, p.find offset = true
  position_eq : p.log.position = p.log.available

/-- There is room for `n` bytes, whose pages have 32-bit numbers. -/
structure Fits (p : PositionedStream cacheSize) (n : ℕ) : Prop where
  pages_lt : p.log.available + n < 2 ^ 32 * p.log.pageSize
  position_lt : p.log.available + n < 2 ^ 63

/-- What is delivered to a writer at `position`: up to the end of its page. -/
def deliveredAt (pageSize position : ℕ) (cb : Reader UInt8) : List UInt8 :=
  (cb.run [pageSize - position % pageSize]).bytes

variable {p : PositionedStream cacheSize} {l : List UInt8} {n : ℕ}

theorem Unread.readv (h : p.Unread l) (hflat : p.Flat) (cb : Reader UInt8)
    (hfits : p.Fits (deliveredAt p.log.pageSize p.log.available cb).length) :
    (p.readv cb).2.Unread (l ++ deliveredAt p.log.pageSize p.log.available cb) ∧
      (p.readv cb).2.Flat ∧ (p.readv cb).2.curOffset = p.curOffset ∧
      (p.readv cb).2.log.pageSize = p.log.pageSize ∧
      (p.readv cb).2.log.available
        = p.log.available + (deliveredAt p.log.pageSize p.log.available cb).length ∧
      ((p.readv cb).1 < 0 → deliveredAt p.log.pageSize p.log.available cb = []) := by
  have hend := h.available_eq
  have hret := (cb.ret_cases [p.log.pageSize - p.log.position % p.log.pageSize])
  obtain ⟨hpages, hlt⟩ := hfits
  have hread : p.readv cb =
    ((cb.run [p.log.pageSize - p.log.available % p.log.pageSize]).ret, { p with
      log := { p.log with
        data := store p.log.data p.log.position (deliveredAt p.log.pageSize p.log.available cb)
        position := p.log.position + (deliveredAt p.log.pageSize p.log.available cb).length
        available := p.log.available + (deliveredAt p.log.pageSize p.log.available cb).length
        available_le := Nat.add_le_add_right p.log.available_le _
        position_lt := by rw [hflat.position_eq]; exact hlt } }) := by
    have hroom : p.log.position +
      (cb.run [p.log.pageSize - p.log.position % p.log.pageSize]).bytes.length
        < 2 ^ 63 := by
      rw [hflat.position_eq]
      exact hlt
    rw [PositionedStream.readv, LogRWStream.readv]
    simp only [dif_pos hroom]
    simp only [deliveredAt, hflat.position_eq]
  rw [hflat.position_eq] at hret
  rw [hread]
  refine ⟨⟨?_, ?_, hpages, fun _ _ _ ↦ hflat.found _, fun _ _ _ ↦ hflat.found _⟩,
    ⟨hflat.found, congrArg (· + _) hflat.position_eq⟩, rfl, rfl, rfl, fun hneg ↦ ?_⟩
  · have hself := load_store_self p.log.data p.log.position
      (deliveredAt p.log.pageSize p.log.available cb)
    have hbefore : p.curOffset + l.length = p.log.position := by rw [hend, hflat.position_eq]
    change load (store p.log.data p.log.position _) p.curOffset (l ++ _).length = _
    rw [List.length_append, load_add, load_store_of_disjoint (by omega), h.load_eq, hbefore, hself]
  · rw [List.length_append, ← Nat.add_assoc]
    exact congrArg (· + _) hend
  · rcases hret with ⟨-, hnil⟩ | ⟨hpos, -⟩
    · exact hnil
    · exact absurd hneg (by simp only; omega)

end PositionedStream

/-! ## Receiving -/

namespace Con

variable (con : Con cacheSize)

/-- What a `Read` gets. -/
def arriving (cb : Reader UInt8) : List UInt8 :=
  match con.stream with
  | some p =>
    if con.state = .open ∨ con.state = .openData then
      PositionedStream.deliveredAt p.log.pageSize p.log.position cb
    else con.httpBuf.delivered cb
  | none => con.httpBuf.delivered cb

/-- The frames that a `Read` decodes on an open connection. -/
def readDecoded (computeKey : List UInt8 → Option (List UInt8)) (rounds : ℕ) (cb : Reader UInt8) :
    List Decoded :=
  if (con.readvSource cb).1 < 0 then [] else (con.readvSource cb).2.allDecoded computeKey rounds

end Con

/-- A connection, the bytes that it received and the frames that it decoded. -/
structure Reception (cacheSize : ℕ) where
  con : Con cacheSize
  arrived : List UInt8
  decoded : List Decoded

namespace Reception

/-- A `Read`. -/
def read (computeKey : List UInt8 → Option (List UInt8)) (rounds : ℕ) (r : Reception cacheSize)
    (cb : Reader UInt8) : Option (Reception cacheSize) :=
  (r.con.read computeKey rounds cb).map fun q ↦
    ⟨q.2, r.arrived ++ r.con.arriving cb, r.decoded ++ r.con.readDecoded computeKey rounds cb⟩

/-- Several. -/
def readAll (computeKey : List UInt8 → Option (List UInt8)) (rounds : ℕ) :
    Reception cacheSize → List (Reader UInt8) → Option (Reception cacheSize)
  | r, [] => some r
  | r, cb :: cbs => (r.read computeKey rounds cb).bind fun r ↦ readAll computeKey rounds r cbs

/-- The offset of the next byte. -/
def cursor (r : Reception cacheSize) : Option ℕ := r.con.stream.map PositionedStream.currentOffset

end Reception

/-- What several `Read`s deliver to a stream whose writer is at `position`. -/
def arrivals (pageSize : ℕ) : ℕ → List (Reader UInt8) → List UInt8
  | _, [] => []
  | position, cb :: cbs => PositionedStream.deliveredAt pageSize position cb
      ++ arrivals pageSize
        (position + (PositionedStream.deliveredAt pageSize position cb).length) cbs

/-- The frames in a byte string, for a connection at an offset. -/
def framesOf (con : Con cacheSize) (cursor : ℕ) (l : List UInt8) : List Decoded :=
  ((parser cacheSize).drain (l.length + 2) (some ⟨con, cursor⟩) l).1

/-! ### Where the parser stands -/

variable {s s' : Reading cacheSize} {σ σ' : Option (Reading cacheSize)} {l l' : List UInt8}
  {es : List Decoded} {m : Move (Option (Reading cacheSize)) Decoded}

/-- A parser that reads frames goes on to do so, unless one of them is a close. -/
theorem Reading.sends_step (hstep : s.step l = some m)
    (hclose : ∀ d ∈ m.found, d.opcode ≠ WSOPCode.close.value) (hstate : m.state = some s') :
    s'.con.Sends := by
  rcases Reading.step_cases hstep with ⟨-, h₀, h₁, t, -, -, rfl⟩ | ⟨-, -, rfl⟩
  · rw [← Option.some.inj hstate]
    exact Or.inr rfl
  · obtain ⟨c, hc, rfl⟩ := Option.map_eq_some_iff.mp hstate
    have hopcode : s.con.frame.opcode ≠ WSOPCode.close.value := hclose _ rfl
    have hopen := (Con.dispatch_state hc).2
    rw [if_neg hopcode] at hopen
    exact Or.inl hopen

theorem sends_of_drains (h : Drains (parser cacheSize) σ l es σ' l')
    (hclose : ∀ d ∈ es, d.opcode ≠ WSOPCode.close.value) (hs : ∀ s ∈ σ, s.con.Sends) :
    ∀ s ∈ σ', s.con.Sends := by
  refine h.invariant (I := fun σ ↦ ∀ s ∈ σ, s.con.Sends)
    (fun σ l m _ hstep hfound s' hs' ↦ ?_) hclose hs
  obtain ⟨s, rfl, hstep'⟩ := Option.bind_eq_some_iff.mp hstep
  exact Reading.sends_step hstep' hfound hs'

theorem Reading.short_of_waits (hwaits : s.step l = none) (hsends : s.con.Sends) :
    l.length < (if s.con.state = .openData then s.con.frame.len else 0) + 14 := by
  rcases hsends with hopen | hdata
  · rw [step_open hopen] at hwaits
    rw [hopen, if_neg (by decide)]
    rcases l with _ | ⟨h₀, _ | ⟨h₁, t⟩⟩
    · decide
    · simp
    · rw [Reading.takeHeader] at hwaits
      split_ifs at hwaits with hlen
      have hheader : Con.headerLen h₁ ≤ 14 := by
        unfold Con.headerLen Con.extended wsMaskLen
        split_ifs <;> omega
      omega
  · rw [step_openData hdata, Reading.takePayload] at hwaits
    rw [if_pos hdata]
    split_ifs at hwaits with hlen
    omega

/-! ### Runs -/

variable {computeKey : List UInt8 → Option (List UInt8)} {p : PositionedStream cacheSize}
  {con : Con cacheSize} {rounds : ℕ}

theorem Follows.arriving_eq (h : Follows p s l con) (hsends : s.con.Sends) (hflat : p.Flat)
    (cb : Reader UInt8) :
    con.arriving cb = PositionedStream.deliveredAt p.log.pageSize p.log.available cb := by
  obtain ⟨data, rfl, -⟩ := h
  have hsends' : s.con.state = .open ∨ s.con.state = .openData := hsends
  rw [Con.arriving]
  simp only [if_pos hsends']
  rw [← hflat.position_eq]
  rfl

theorem read_cases (computeKey : List UInt8 → Option (List UInt8)) (h : Follows p s l con)
    (hsends : s.con.Sends)
    (hbound : l.length ≤ (if s.con.state = .openData then s.con.frame.len else 0) + 2 ^ 31)
    (hflat : p.Flat) (cb : Reader UInt8) {k : List UInt8}
    (hk : PositionedStream.deliveredAt p.log.pageSize p.log.available cb = k)
    (hfits : p.Fits k.length) (hrounds : (l ++ k).length + 1 < rounds) :
    ∃ p' : PositionedStream cacheSize, p'.Flat ∧ p'.log.pageSize = p.log.pageSize ∧
      p'.log.available = p.log.available + k.length ∧ con.arriving cb = k ∧
        (((con.readvSource cb).1 < 0 ∧ k = [] ∧ con.readDecoded computeKey rounds cb = [] ∧
          ∃ con', (con.read computeKey rounds cb).map Prod.snd = some con' ∧ Follows p' s l con') ∨
        (0 ≤ (con.readvSource cb).1 ∧ Parses p' s (l ++ k) (con.readDecoded computeKey rounds cb)
          ((con.read computeKey rounds cb).map Prod.snd))) := by
  have harriving := h.arriving_eq hsends hflat cb
  obtain ⟨data, rfl, hunread⟩ := h
  have hflat' : (p.placed data s.cursor).Flat := ⟨hflat.found, hflat.position_eq⟩
  have hfits' : (p.placed data s.cursor).Fits (PositionedStream.deliveredAt
      (p.placed data s.cursor).log.pageSize (p.placed data s.cursor).log.available cb).length := by
    change (p.placed data s.cursor).Fits
      (PositionedStream.deliveredAt p.log.pageSize p.log.available cb).length
    rw [hk]
    exact ⟨hfits.pages_lt, hfits.position_lt⟩
  obtain ⟨hunread', hflat'', hcursor, hpage, havail, hneg⟩ := hunread.readv hflat' cb hfits'
  change ((p.placed data s.cursor).readv cb).2.Unread
    (l ++ PositionedStream.deliveredAt p.log.pageSize p.log.available cb) at hunread'
  change _ = p.log.available +
    (PositionedStream.deliveredAt p.log.pageSize p.log.available cb).length at havail
  change _ → PositionedStream.deliveredAt p.log.pageSize p.log.available cb = [] at hneg
  rw [hk] at hunread' havail hneg
  have hlt : k.length < 2 ^ 31 := by
    rw [← hk]
    exact cb.length_bytes_lt _
  have hsends' : s.con.state = .open ∨ s.con.state = .openData := hsends
  have hsource : ({ s.con with stream := some (p.placed data s.cursor) } :
    Con cacheSize).readvSource cb
      = (((p.placed data s.cursor).readv cb).1,
        { s.con with stream := some ((p.placed data s.cursor).readv cb).2 }) := by
    rw [Con.readvSource]
    simp only [if_pos hsends']
  have hconnecting : ¬s.con.state = .connecting := by
    rcases hsends with hstate | hstate <;> rw [hstate] <;> decide
  generalize hp' : ((p.placed data s.cursor).readv cb).2 = p'
    at hunread' hflat'' hcursor hpage havail hsource
  -- behind the `Readv` the bytes that arrived are unread as well
  have hfollows : Follows p' s (l ++ k) { s.con with stream := some p' } := by
    have hplaced : p'.placed p'.log.data s.cursor = p' := by
      change p'.curOffset = s.cursor at hcursor
      rw [← hcursor]
      rfl
    exact ⟨p'.log.data, by rw [hplaced], by rwa [hplaced]⟩
  refine ⟨p', hflat'', hpage, havail, harriving.trans hk, ?_⟩
  rw [Con.read, Con.readDecoded, hsource]
  by_cases hfailed : ((p.placed data s.cursor).readv cb).1 < 0
  · left
    simp only [if_pos hfailed, Option.map_some]
    rw [hneg hfailed, List.append_nil] at hfollows
    exact ⟨hfailed, hneg hfailed, trivial, _, rfl, hfollows⟩
  · refine Or.inr ⟨Int.not_lt.mp hfailed, ?_⟩
    simp only [if_neg hfailed, if_neg hconnecting, Option.map_map]
    have hshort : s.Short (l ++ k) := by
      unfold Reading.Short
      rw [List.length_append]
      omega
    have hfuel : (l ++ k).length + (if s.con.state = .openData then 1 else 0) < rounds := by
      split_ifs <;> omega
    convert processAll_parses computeKey hfollows hsends hshort hfuel using 1
    cases Con.processAll computeKey rounds { s.con with stream := some p' } <;> rfl

theorem read_parses (computeKey : List UInt8 → Option (List UInt8)) (h : Follows p s l con)
    (hsends : s.con.Sends) (hwaits : s.step l = none)
    (hflat : p.Flat) (cb : Reader UInt8) {k : List UInt8}
    (hk : PositionedStream.deliveredAt p.log.pageSize p.log.available cb = k)
    (hfits : p.Fits k.length) (hrounds : (l ++ k).length + 1 < rounds) :
    ∃ p' : PositionedStream cacheSize, p'.Flat ∧ p'.log.pageSize = p.log.pageSize ∧
      p'.log.available = p.log.available + k.length ∧ con.arriving cb = k ∧
        Parses p' s (l ++ k) (con.readDecoded computeKey rounds cb)
          ((con.read computeKey rounds cb).map Prod.snd) := by
  have hbefore := Reading.short_of_waits hwaits hsends
  obtain ⟨p', hflat', hpage, havail, harriving, hread⟩ :=
    read_cases computeKey h hsends (by omega) hflat cb hk hfits hrounds
  refine ⟨p', hflat', hpage, havail, harriving, ?_⟩
  rcases hread with ⟨-, rfl, hdecoded, con', hcon', hfollows⟩ | ⟨-, hparses⟩
  · rw [hdecoded, hcon', List.append_nil]
    exact .wait hfollows hwaits
  · exact hparses

/-- **A sequence of `Read`s is the parser** on what they deliver. -/
theorem readAll_drains (computeKey : List UInt8 → Option (List UInt8))
    {σ' : Option (Reading cacheSize)} {k : List UInt8} {cbs : List (Reader UInt8)}
    {r : Reception cacheSize} (h : Follows p s l r.con) (hsends : s.con.Sends)
    (hwaits : s.step l = none) (hflat : p.Flat)
    (hk : arrivals p.log.pageSize p.log.available cbs = k)
    (hfits : p.Fits k.length) (hrounds : (l ++ k).length + 1 < rounds)
    (hdrains : Drains (parser cacheSize) (some s) (l ++ k) es σ' l')
    (hclose : ∀ d ∈ es, d.opcode ≠ WSOPCode.close.value) :
    (σ' = none → r.readAll computeKey rounds cbs = none) ∧
      ∀ s' ∈ σ', ∃ con', r.readAll computeKey rounds cbs
        = some ⟨con', r.arrived ++ k, r.decoded ++ es⟩ ∧ ∃ p', Follows p' s' l' con' := by
  induction cbs generalizing p s l r k es with
  | nil =>
    obtain rfl : [] = k := hk
    rw [List.append_nil] at hdrains
    obtain ⟨rfl, rfl, rfl⟩ := hdrains.unique (.wait hwaits)
    refine ⟨fun hnone ↦ absurd hnone (by simp), fun s' hs' ↦ ?_⟩
    rw [← Option.some.inj hs']
    exact ⟨r.con, by rw [Reception.readAll, List.append_nil, List.append_nil], p, h⟩
  | cons cb cbs ih =>
    rw [arrivals] at hk
    generalize hk₁ : PositionedStream.deliveredAt p.log.pageSize p.log.available cb = k₁ at hk
    obtain ⟨k₂, hk₂⟩ : ∃ k₂, arrivals p.log.pageSize (p.log.available + k₁.length) cbs = k₂ :=
      ⟨_, rfl⟩
    rw [hk₂] at hk
    obtain rfl := hk
    obtain ⟨hpages, hlt⟩ := hfits
    rw [List.length_append] at hpages hlt
    rw [← List.append_assoc] at hdrains hrounds
    have hfuel : (l ++ k₁).length + 1 < rounds := by
      rw [List.length_append] at hrounds
      omega
    obtain ⟨p', hflat', hpage, havail, harriving, s₁, l₁, hdrains₁, hr⟩ :=
      read_parses computeKey h hsends hwaits hflat cb hk₁ ⟨by omega, by omega⟩ hfuel
    -- the frames of all bytes are those of the first piece, and those behind it
    obtain ⟨es₂, rfl, hdrains₂⟩ := hdrains₁.split hdrains
    rw [Reception.readAll, Reception.read]
    cases s₁ with
    | none =>
      obtain ⟨-, rfl, -⟩ := hdrains₂.unique (.wait rfl)
      simp only [Option.map_eq_none_iff] at hr
      refine ⟨fun _ ↦ ?_, fun s' hs' ↦ absurd hs' (by simp)⟩
      simp only [hr, Option.map_none, Option.bind_none]
    | some s₁ =>
      obtain ⟨con₁, hread, hfollows⟩ := hr
      obtain ⟨q, hq, rfl⟩ := Option.map_eq_some_iff.mp hread
      have hsends₁ := sends_of_drains hdrains₁ (fun d hd ↦ hclose d (List.mem_append_left _ hd))
        (fun s hs ↦ Option.some.inj hs ▸ hsends) s₁ rfl
      have hlen := hdrains₁.suffix.length_le
      have hrest :=
        ih (r := ⟨q.2, r.arrived ++ k₁, r.decoded ++ r.con.readDecoded computeKey rounds cb⟩)
        hfollows hsends₁
        hdrains₁.waits hflat' (by rw [hpage, havail, hk₂])
          ⟨by rw [hpage, havail]; omega, by rw [havail]; omega⟩
        (by rw [List.length_append] at hrounds ⊢; omega) hdrains₂
        fun d hd ↦ hclose d (List.mem_append_right _ hd)
      rw [hq, Option.map_some, Option.bind_some, harriving]
      simpa only [List.append_assoc] using hrest

/-! ### Pings -/

/-- The room that the answer to a ping needs: `WriteFrame` of a server asks for four bytes more than
it uses. -/
def pongRoom (len : ℕ) : ℕ := 2 + (extension len).length + wsMaskLen + len

/-- Every ping among the frames is short, and there is room for the answer behind those before
it. -/
def Answerable (masked : Bool) : ℕ → List Decoded → Prop
  | _, [] => True
  | free, d :: ds =>
    if d.opcode = WSOPCode.ping.value then
      d.len < 1024 ∧ pongRoom d.len ≤ free ∧
        Answerable masked (free - (pongRoom d.len - if masked then 0 else wsMaskLen)) ds
    else Answerable masked free ds

instance Answerable.decidable (masked : Bool) :
    (free : ℕ) → (ds : List Decoded) → Decidable (Answerable masked free ds)
  | _, [] => .isTrue trivial
  | free, d :: ds =>
    have := decidable masked (free - (pongRoom d.len - if masked then 0 else wsMaskLen)) ds
    have := decidable masked free ds
    inferInstanceAs (Decidable (if d.opcode = WSOPCode.ping.value then
      d.len < 1024 ∧ pongRoom d.len ≤ free ∧
        Answerable masked (free - (pongRoom d.len - if masked then 0 else wsMaskLen)) ds
    else Answerable masked free ds))

/-- There is room for `free` bytes in the write buffer. -/
structure Queues (masked : Bool) (free : ℕ) (con : Con cacheSize) : Prop where
  buffers : ∃ w, con.writeBuf.Buffers bufferCapacity w ∧ w.length + free = bufferCapacity
  mask_len : con.mask.length = wsMaskLen
  masked_eq : con.masked = masked

variable {masked : Bool} {free : ℕ}

theorem Queues.dispatch (h : Queues masked free con) (k : List UInt8) (offset : ℕ)
    (hping : con.frame.opcode ≠ WSOPCode.ping.value) :
    ∃ c, con.dispatch k offset = some c ∧ Queues masked free c := by
  unfold Con.dispatch
  simp only [if_neg hping]
  split_ifs <;> exact ⟨_, rfl, h.buffers, h.mask_len, h.masked_eq⟩

theorem Queues.dispatch_ping (h : Queues masked free con) {k : List UInt8} (offset : ℕ)
    (hlen : con.frame.len = k.length) (hping : con.frame.opcode = WSOPCode.ping.value)
    (hshort : con.frame.len < 1024) (hroom : pongRoom con.frame.len ≤ free) :
    ∃ c, con.dispatch k offset = some c ∧
      Queues masked (free - (pongRoom con.frame.len - if masked then 0 else wsMaskLen)) c := by
  obtain ⟨w, hbuf, hfree⟩ := h.buffers
  obtain ⟨data, hdata⟩ : ∃ data, (if con.frame.masked then Bytes.xorMask con.frame.mask 0 k else k)
    = data :=
    ⟨_, rfl⟩
  have hsize : data.length = con.frame.len := by
    rw [← hdata, hlen]
    split_ifs <;> simp
  unfold pongRoom at hroom ⊢
  have hwire : (({ con with state := .open } : Con cacheSize).wire .pong data).length
      = 2 + (extension con.frame.len).length + wsMaskLen + con.frame.len
        - if masked then 0 else wsMaskLen := by
    unfold Con.wire header
    rw [List.length_append, List.length_append, ← h.masked_eq, hsize]
    cases con.masked with
    | false => simp [hsize]; omega
    | true => simp [hsize, h.mask_len]; omega
  have hfits : HasRoom con.writeBuf.free data.length con.masked := by
    rw [hbuf.free_eq, hsize]
    unfold HasRoom
    unfold wsMaskLen at hroom
    split_ifs <;> omega
  have hsends : ({ con with state := .open } : Con cacheSize).Sends := Or.inl rfl
  obtain ⟨hqueued, hbuffers, hcon⟩ := Con.queue_of_room .pong hsends hbuf (by decide) hfits
    fun _ ↦ by omega
  unfold Con.dispatch
  simp only [if_pos hping, hdata, hqueued]
  rw [if_neg (by rw [hping]; decide), if_neg (Nat.not_lt.mpr (con.le_maxPing hshort)),
    if_neg (by simp)]
  refine ⟨_, rfl, ⟨_, hbuffers, ?_⟩, ?_, ?_⟩
  · rw [List.length_append, hwire]
    omega
  · rw [hcon]
    exact h.mask_len
  · rw [hcon]
    exact h.masked_eq

theorem isSome_of_drains (h : Drains (parser cacheSize) σ l es σ' l')
    (hs : ∃ s, σ = some s ∧ Queues masked free s.con) (hanswers : Answerable masked free es) :
    ∃ s', σ' = some s' := by
  induction h generalizing free with
  | wait =>
    obtain ⟨s, rfl, -⟩ := hs
    exact ⟨s, rfl⟩
  | next hstep _ ih =>
    obtain ⟨s, rfl, hq⟩ := hs
    rcases Reading.step_cases hstep with ⟨-, h₀, h₁, t, -, -, rfl⟩ | ⟨-, hlen, rfl⟩
    · exact ih ⟨_, rfl, hq.buffers, hq.mask_len, hq.masked_eq⟩ hanswers
    · rw [Option.toList_some, List.singleton_append, Answerable] at hanswers
      by_cases hping : s.con.frame.opcode = WSOPCode.ping.value
      · rw [if_pos (show (s.con.decodedAt s.cursor).opcode = WSOPCode.ping.value from hping)]
          at hanswers
        obtain ⟨hshort, hroom, hrest⟩ := hanswers
        obtain ⟨c, hc, hq'⟩ := hq.dispatch_ping s.cursor
          (List.length_take_of_le hlen).symm hping hshort hroom
        exact ih ⟨_, by rw [hc]; rfl, hq'⟩ hrest
      · rw [if_neg (show ¬(s.con.decodedAt s.cursor).opcode = WSOPCode.ping.value from hping)]
          at hanswers
        obtain ⟨c, hc, hq'⟩ := hq.dispatch (List.take s.con.frame.len _) s.cursor hping
        exact ih ⟨_, by rw [hc]; rfl, hq'⟩ hanswers

/-! ### Two ways of cutting -/

theorem parser_measure {σ : Option (Reading cacheSize)} {l : List UInt8}
    {m : Move (Option (Reading cacheSize)) Decoded} (h : (parser cacheSize).step σ l = some m) :
    (m.state.elim 0 fun s ↦ if s.con.state = .openData then 1 else 0)
      < (σ.elim 0 fun s ↦ if s.con.state = .openData then 1 else 0) + m.taken := by
  obtain ⟨s, rfl, hstep⟩ := Option.bind_eq_some_iff.mp h
  rcases Reading.step_cases hstep with ⟨-, h₀, h₁, t, -, -, rfl⟩ | ⟨hstate, -, rfl⟩
  · have htwo := two_le_headerLen h₁
    simp only [Option.elim_some, Con.tookHeader, if_true]
    omega
  · simp only [Option.elim_some, hstate, if_true]
    cases hc : s.con.dispatch (List.take s.con.frame.len l) s.cursor with
    | none =>
      simp only [Option.map_none, Option.elim_none]
      omega
    | some c =>
      have hafter := (Con.dispatch_state hc).2
      have hne : c.state ≠ .openData := by
        rw [hafter]
        split_ifs <;> decide
      simp only [Option.map_some, Option.elim_some, if_neg hne]
      omega

theorem drains_framesOf (con : Con cacheSize) (cursor : ℕ) (l : List UInt8) :
    ∃ σ' l', Drains (parser cacheSize) (some ⟨con, cursor⟩) l (framesOf con cursor l) σ' l' := by
  refine ⟨_, _, (parser cacheSize).drains_drain
    (fun σ ↦ σ.elim 0 fun s ↦ if s.con.state = .openData then 1 else 0) parser_measure ?_⟩
  simp only [Option.elim_some]
  split_ifs <;> omega

/-- **Decoding does not depend on read boundaries.** -/
theorem readAll_agree {l₀ k : List UInt8} {cbs₁ cbs₂ : List (Reader UInt8)}
    (hstate : con.state = .open) (hstream : con.stream = some p) (hunread : p.Unread l₀)
    (hwaits : (⟨con, p.curOffset⟩ : Reading cacheSize).step l₀ = none) (hflat : p.Flat)
    (h₁ : arrivals p.log.pageSize p.log.available cbs₁ = k)
    (h₂ : arrivals p.log.pageSize p.log.available cbs₂ = k) (hfits : p.Fits k.length)
    (hclose : ∀ d ∈ framesOf con p.curOffset (l₀ ++ k), d.opcode ≠ WSOPCode.close.value)
    (hpings : Answerable con.masked con.writeBuf.free (framesOf con p.curOffset (l₀ ++ k)))
    (hwf : con.writeBuf.Wf) (hcap : con.writeBuf.capacity = bufferCapacity)
    (hmask : con.mask.length = wsMaskLen) (hrounds : (l₀ ++ k).length + 1 < rounds) :
    ∃ r₁ r₂, Reception.readAll computeKey rounds ⟨con, [], []⟩ cbs₁ = some r₁ ∧
      Reception.readAll computeKey rounds ⟨con, [], []⟩ cbs₂ = some r₂ ∧
      r₁.arrived = k ∧ r₂.arrived = k ∧ r₁.decoded = r₂.decoded ∧ r₁.con.state = r₂.con.state ∧
      r₁.con.frame = r₂.con.frame ∧ r₁.cursor = r₂.cursor := by
  have hfollows : Follows p ⟨con, p.curOffset⟩ l₀ con := by
    refine ⟨p.log.data, ?_, hunread⟩
    change con = { con with stream := some p }
    rw [← hstream]
  obtain ⟨σ', l', hdrains⟩ := drains_framesOf con p.curOffset (l₀ ++ k)
  have hbuf := hwf.buffers
  rw [hcap] at hbuf
  have hlen := hbuf.rep.length_le
  obtain ⟨s', rfl⟩ := isSome_of_drains hdrains ⟨_, rfl, ⟨_, hbuf, by
    rw [hbuf.free_eq]
    rw [hcap] at hlen
    omega⟩, hmask, rfl⟩ hpings
  have hrun {cbs : List (Reader UInt8)} (hk : arrivals p.log.pageSize p.log.available cbs = k) :=
    (readAll_drains computeKey (r := ⟨con, [], []⟩) hfollows
      (Or.inl hstate) hwaits hflat hk hfits hrounds hdrains
      hclose).2 s' rfl
  obtain ⟨con₁, hread₁, p₁, data₁, rfl, -⟩ := hrun h₁
  obtain ⟨con₂, hread₂, p₂, data₂, rfl, -⟩ := hrun h₂
  exact ⟨_, _, hread₁, hread₂, rfl, rfl, rfl, rfl, rfl, rfl⟩

/-- An open connection of a server with an empty stream. -/
def opening : Con 2 :=
  { Con.registerConnection true []
    (some (PositionedStream.ofList 2 [] PositionedStream.length_nil_lt)) false false true
    WebSocket.zeroedData with
    state := .open }

/-- A ping of two bytes and the beginning of a masked frame, in two pieces and in four. -/
theorem readAll_agree_ping : ∃ r₁ r₂,
    Reception.readAll (fun _ ↦ none) 20 ⟨opening, [], []⟩ [.ofList [0x89, 2, 7] (by decide),
      .ofList [8, 0x82, 0x83, 1] (by decide)] = some r₁ ∧
    Reception.readAll (fun _ ↦ none) 20 ⟨opening, [], []⟩ [.ofList [0x89] (by decide),
      .ofList [2, 7, 8] (by decide), .ofList [0x82, 0x83] (by decide), .ofList [1] (by decide)]
    = some r₂ ∧
    r₁.arrived = [0x89, 2, 7, 8, 0x82, 0x83, 1] ∧ r₂.arrived = [0x89, 2, 7, 8, 0x82, 0x83, 1] ∧
    r₁.decoded = r₂.decoded ∧ r₁.con.state = r₂.con.state ∧ r₁.con.frame = r₂.con.frame ∧
    r₁.cursor = r₂.cursor :=
  readAll_agree rfl rfl (PositionedStream.unread_ofList (by decide)) rfl ⟨fun _ ↦ rfl, rfl⟩
    (by decide +kernel) (by decide +kernel) ⟨by decide +kernel, by decide +kernel⟩
    (by decide +kernel)
    (by decide +kernel) ((BipBuf.rep_new _ _).wf (BipBuf.bounded_new _ _)) rfl rfl (by decide)

end Coypu
