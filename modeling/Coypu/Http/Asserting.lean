import Coypu.Http.Decoding
import Coypu.Http.Opening
import Coypu.Http.Queueing

/-!
# The assertions of the reader

`DoOpenData` asserts two things, both about a ping: that its payload is shorter than the array for
the answer, and that the answer is queued. The peer chooses the length, and how many pings arrive
before the write buffer is written. `PingsFit` counts the room that is left behind each answer; the
assertions hold exactly where it does.

With assertions compiled in, a `Read` of a stream does not return if one of them fails, and returns
otherwise.
-/

set_option autoImplicit false

namespace Coypu

open FlatMemory Incremental Transport WebSocket

variable {cacheSize publishSize : ℕ}

/-! ## The room behind an answer -/

/-- What is free behind a pong that was queued. A key that does not fit is left out, and so are the
last bytes of a payload. -/
def freeBehind (masked : Bool) (free len : ℕ) : ℕ :=
  let rest := free - (2 + (extension len).length)
  (if masked ∧ wsMaskLen ≤ rest then rest - wsMaskLen else rest) - len

instance (free len : ℕ) (masked : Bool) : Decidable (HasRoom free len masked) :=
  inferInstanceAs (Decidable (_ ≤ _))

/-- Every ping is shorter than the array for its answer, and `WriteFrame` finds room for that,
behind the answers to those before it. -/
def PingsFit (masked : Bool) : ℕ → List Decoded → Prop
  | _, [] => True
  | free, d :: ds =>
    if d.opcode = WSOPCode.ping.value then
      d.len < 1024 ∧ HasRoom free d.len masked ∧ PingsFit masked (freeBehind masked free d.len) ds
    else PingsFit masked free ds

instance PingsFit.decidable (masked : Bool) :
    (free : ℕ) → (ds : List Decoded) → Decidable (PingsFit masked free ds)
  | _, [] => .isTrue trivial
  | free, d :: ds =>
    have := decidable masked (freeBehind masked free d.len) ds
    have := decidable masked free ds
    inferInstanceAs (Decidable (if d.opcode = WSOPCode.ping.value then
      d.len < 1024 ∧ HasRoom free d.len masked ∧ PingsFit masked (freeBehind masked free d.len) ds
    else PingsFit masked free ds))

namespace BipBuf

variable {b : BipBuf .uint64 UInt8}

theorem Wf.free_pushList (h : b.Wf) (l : List UInt8) :
    (b.pushList l).free = if l.length ≤ b.free then b.free - l.length else b.free := by
  rcases eq_or_ne l [] with rfl | hne
  · rw [pushList_nil, List.length_nil, if_pos (Nat.zero_le _), Nat.sub_zero]
  by_cases hroom : l.length ≤ b.free
  · rw [if_pos hroom]
    exact (pushBlock_of_room h _ (List.length_pos_iff.mpr hne) hroom).2.2.2
  · rw [if_neg hroom, BipBuf.pushList, pushBlock_of_no_room _ (Nat.not_le.mp hroom)]

theorem Wf.foldl_pushList (h : b.Wf) (ls : List (List UInt8)) :
    (ls.foldl BipBuf.pushList b).Wf ∧ (ls.foldl BipBuf.pushList b).capacity = b.capacity := by
  induction ls generalizing b with
  | nil => exact ⟨h, rfl⟩
  | cons l ls ih =>
    obtain ⟨hwf, hcap⟩ := h.pushList l
    obtain ⟨hwf', hcap'⟩ := ih hwf
    exact ⟨hwf', hcap'.trans hcap⟩

theorem Wf.free_pushMask (h : b.Wf) (mask data : List UInt8) :
    (WebSocket.pushMask mask b data).free = b.free - data.length := by
  rw [WebSocket.pushMask]
  have hlen : data.length = (Bytes.xorMask mask 0 data).length := (Bytes.length_xorMask ..).symm
  rw [hlen]
  generalize Bytes.xorMask mask 0 data = l
  induction l generalizing b with
  | nil => rfl
  | cons x l ih =>
    have hpush := push_refines h.rep h.bounded x
    have hone : (b.push x).buf.free = b.free - 1 := by
      rw [hpush.rep.free_eq, hpush.capacity_eq, h.rep.free_eq]
      split_ifs with hroom
      · rw [List.length_append, List.length_singleton]
        omega
      · omega
    rw [List.foldl_cons, ih (hpush.keeping h).wf, hone, List.length_cons]
    omega

end BipBuf

namespace Con

variable {con : Con cacheSize}

theorem queue_wf (h : con.writeBuf.Wf) (hcap : con.writeBuf.capacity < 2 ^ 32) (code : WSOPCode)
    (data : List UInt8) :
    (con.queue code data).2.writeBuf.Wf ∧
      (con.queue code data).2.writeBuf.capacity = con.writeBuf.capacity := by
  by_cases hsends : con.Sends
  · rw [queue_of_asked hsends hcap]
    split_ifs
    · exact ⟨h, rfl⟩
    obtain ⟨hhdr, hhdrcap⟩ := h.pushList (header code con.masked data.length)
    obtain ⟨hext, hextcap⟩ := hhdr.pushList (extension data.length)
    simp only [call, pushPayload]
    split_ifs
    · obtain ⟨hkey, hkeycap⟩ := hext.pushList con.mask
      obtain ⟨hlast, hlastcap⟩ := hkey.pushMask con.mask data
      exact ⟨hlast, by rw [hlastcap, hkeycap, hextcap, hhdrcap]⟩
    · obtain ⟨hlast, hlastcap⟩ := hext.pushList data
      exact ⟨hlast, by rw [hlastcap, hextcap, hhdrcap]⟩
  · unfold Sends at hsends
    rw [queue, if_neg hsends]
    exact ⟨h, rfl⟩

theorem free_queue (h : con.writeBuf.Wf) (hcap : con.writeBuf.capacity < 2 ^ 32)
    (hmask : con.mask.length = wsMaskLen) (hsends : con.Sends) (code : WSOPCode) {data : List UInt8}
    (hroom : HasRoom con.writeBuf.free data.length con.masked) :
    (con.queue code data).1 = true ∧
      (con.queue code data).2.writeBuf.free =
        freeBehind con.masked con.writeBuf.free data.length := by
  have hfree : con.writeBuf.free < 2 ^ 32 := Nat.lt_of_le_of_lt (Nat.sub_le _ _) hcap
  unfold HasRoom at hroom
  have hask : ¬con.writeBuf.free < asked data.length con.masked := by
    unfold asked frameLen
    rw [Nat.mod_eq_of_lt (by omega)]
    omega
  rw [queue_of_asked hsends hcap, if_neg hask]
  refine ⟨rfl, ?_⟩
  have hheader := h.free_pushList (header code con.masked data.length)
  have htwo : (header code con.masked data.length).length = 2 := rfl
  rw [htwo, if_pos (by omega)] at hheader
  obtain ⟨hhdr, -⟩ := h.pushList (header code con.masked data.length)
  have hextension := hhdr.free_pushList (extension data.length)
  rw [hheader, if_pos (by omega)] at hextension
  obtain ⟨hext, -⟩ := hhdr.pushList (extension data.length)
  simp only [call, pushPayload, freeBehind]
  cases hm : con.masked with
  | false =>
    rw [hm] at hroom hext hextension
    rw [if_neg Bool.false_ne_true, if_neg (fun hand ↦ Bool.false_ne_true hand.1),
      hext.free_pushList, hextension, if_pos (by simp at hroom; omega)]
    omega
  | true =>
    rw [hm] at hext hextension
    obtain ⟨hkey, -⟩ := hext.pushList con.mask
    rw [if_pos rfl, hkey.free_pushMask, hext.free_pushList, hextension, hmask, Nat.sub_sub]
    simp only [true_and]

end Con

/-! ## The frames of a byte string -/

/-- A connection with assertions and so much room in its write buffer. -/
structure Asserts (masked : Bool) (free : ℕ) (con : Con cacheSize) : Prop where
  asserts : con.asserts = true
  wf : con.writeBuf.Wf
  capacity_eq : con.writeBuf.capacity = bufferCapacity
  mask_len : con.mask.length = wsMaskLen
  masked_eq : con.masked = masked
  free_eq : con.writeBuf.free = free

namespace Asserts

variable {masked : Bool} {free : ℕ} {con : Con cacheSize}

theorem capacity_lt (h : Asserts masked free con) : con.writeBuf.capacity < 2 ^ 32 := by
  rw [h.capacity_eq]
  decide

theorem queue {c : Con cacheSize} (h : Asserts masked free c) (hsends : c.Sends) (code : WSOPCode)
    (data : List UInt8) (hlen : data.length < 1024) :
    (HasRoom free data.length masked → (c.queue code data).1 = true ∧
      Asserts masked (freeBehind masked free data.length) (c.queue code data).2) ∧
    (¬HasRoom free data.length masked → c.queue code data = (false, c)) := by
  have hcap := h.capacity_lt
  rw [← h.free_eq, ← h.masked_eq]
  refine ⟨fun hroom ↦ ?_, fun hroom ↦ ?_⟩
  · obtain ⟨hret, hfree⟩ := Con.free_queue h.wf hcap h.mask_len hsends code hroom
    obtain ⟨hwf, hcapacity⟩ := Con.queue_wf h.wf hcap code data
    have hkeeps : (c.queue code data).2.mask = c.mask ∧ (c.queue code data).2.masked = c.masked ∧
        (c.queue code data).2.asserts = c.asserts := by
      unfold Con.queue
      simp only
      split_ifs <;> exact ⟨rfl, rfl, rfl⟩
    exact ⟨hret, hkeeps.2.2.trans h.asserts, hwf, hcapacity.trans h.capacity_eq,
      by rw [hkeeps.1, h.mask_len], hkeeps.2.1, hfree⟩
  · exact Con.queue_of_no_room (Nat.lt_of_le_of_lt (Nat.sub_le _ _) hcap) (by omega) (Or.inr hroom)

/-- The answer to a ping ends the program, or leaves a connection with less room. -/
theorem dispatch_ping (h : Asserts masked free con) {k : List UInt8} (offset : ℕ)
    (hlen : con.frame.len = k.length) (hping : con.frame.opcode = WSOPCode.ping.value) :
    (con.frame.len < 1024 ∧ HasRoom free con.frame.len masked →
      ∃ c, con.dispatch k offset = some c ∧
      Asserts masked (freeBehind masked free con.frame.len) c) ∧
    (¬(con.frame.len < 1024 ∧ HasRoom free con.frame.len masked) →
      con.dispatch k offset = none) := by
  obtain ⟨data, hdata⟩ : ∃ data, (if con.frame.masked then Bytes.xorMask con.frame.mask 0 k else k)
    = data :=
    ⟨_, rfl⟩
  have hsize : data.length = con.frame.len := by
    rw [← hdata, hlen]
    split_ifs <;> simp
  have hne : WSOPCode.ping.value ≠ WSOPCode.textFrame.value := by decide
  have hopen : Asserts masked free ({ con with state := .open } : Con cacheSize) :=
    ⟨h.asserts, h.wf, h.capacity_eq, h.mask_len, h.masked_eq, h.free_eq⟩
  unfold Con.dispatch
  simp only [hping, if_neg hne, if_true, hdata]
  have hmax : con.maxPing < con.frame.len ↔ 1024 ≤ con.frame.len := by
    rw [Con.maxPing, if_pos h.asserts]
    exact Nat.lt_iff_add_one_le
  simp only [hmax]
  by_cases hlong : 1024 ≤ con.frame.len
  · rw [if_pos hlong]
    exact ⟨fun hfits ↦ absurd hfits.1 (Nat.not_lt.mpr hlong), fun _ ↦ rfl⟩
  rw [if_neg hlong]
  obtain ⟨hyes, hno⟩ := hopen.queue (Or.inl rfl) .pong data (by omega)
  rw [hsize] at hyes hno
  by_cases hroom : HasRoom free con.frame.len masked
  · refine ⟨fun _ ↦ ?_, fun hfits ↦ absurd ⟨Nat.not_le.mp hlong, hroom⟩ hfits⟩
    obtain ⟨hret, ha⟩ := hyes hroom
    rw [hret, Bool.not_true, Bool.and_false, if_neg Bool.false_ne_true]
    exact ⟨_, rfl, ha⟩
  · refine ⟨fun hfits ↦ absurd hfits.2 hroom, fun _ ↦ ?_⟩
    rw [hno hroom, h.asserts]
    rfl

theorem dispatch (h : Asserts masked free con) (k : List UInt8) (offset : ℕ)
    (hping : con.frame.opcode ≠ WSOPCode.ping.value) :
    ∃ c, con.dispatch k offset = some c ∧ Asserts masked free c := by
  unfold Con.dispatch
  simp only [if_neg hping]
  split_ifs <;> exact ⟨_, rfl, h.asserts, h.wf, h.capacity_eq, h.mask_len, h.masked_eq, h.free_eq⟩

end Asserts

section Drains

variable {masked : Bool} {free : ℕ} {σ σ' : Option (Reading cacheSize)} {l l' : List UInt8}
  {es : List Decoded}

/-- **The parser comes through if the pings fit.** The induction is on its steps; what it carries is
the room. -/
theorem drains_isSome_iff (h : Drains (parser cacheSize) σ l es σ' l')
    (hs : ∃ s, σ = some s ∧ Asserts masked free s.con) :
    (σ'.isSome ↔ PingsFit masked free es) ∧ ∀ s' ∈ σ', ∃ free', Asserts masked free' s'.con := by
  induction h generalizing free with
  | wait =>
    obtain ⟨s, rfl, ha⟩ := hs
    refine ⟨iff_of_true rfl trivial, fun s' hs' ↦ ⟨free, ?_⟩⟩
    rwa [← Option.some.inj hs']
  | @next _ σ' l _ m es hstep hrest ih =>
    obtain ⟨s, rfl, ha⟩ := hs
    rcases Reading.step_cases hstep with ⟨-, h₀, h₁, t, -, -, rfl⟩ | ⟨-, hlen, rfl⟩
    · exact ih ⟨_, rfl, ha.asserts, ha.wf, ha.capacity_eq, ha.mask_len, ha.masked_eq, ha.free_eq⟩
    · rw [Option.toList_some, List.singleton_append, PingsFit]
      have hopcode : (s.con.decodedAt s.cursor).opcode = s.con.frame.opcode := rfl
      have hdlen : (s.con.decodedAt s.cursor).len = s.con.frame.len := rfl
      rw [hopcode, hdlen]
      by_cases hping : s.con.frame.opcode = WSOPCode.ping.value
      · rw [if_pos hping]
        obtain ⟨hyes, hno⟩ := ha.dispatch_ping s.cursor (List.length_take_of_le hlen).symm hping
        by_cases hfits : s.con.frame.len < 1024 ∧ HasRoom free s.con.frame.len masked
        · obtain ⟨c, hc, ha'⟩ := hyes hfits
          obtain ⟨hiff, hkeeps⟩ := ih ⟨_, by rw [hc]; rfl, ha'⟩
          rw [← and_assoc, and_iff_right hfits]
          exact ⟨hiff, hkeeps⟩
        · rw [hno hfits] at hrest
          obtain ⟨-, rfl, -⟩ := hrest.unique (.wait rfl)
          exact ⟨iff_of_false (by simp) fun hall ↦ hfits ⟨hall.1, hall.2.1⟩,
            fun s' hs' ↦ absurd hs' (by simp)⟩
      · rw [if_neg hping]
        obtain ⟨c, hc, ha'⟩ := ha.dispatch (l.take s.con.frame.len) s.cursor hping
        exact ih ⟨_, by rw [hc]; rfl, ha'⟩

end Drains

/-! ## A read -/

namespace Con

variable {con con' : Con cacheSize} {computeKey : List UInt8 → Option (List UInt8)} {rounds : ℕ}

/-- A connection behind its handshake, with assertions. If it is open, it reads from a flat
stream. -/
structure ReadsOn (con : Con cacheSize) : Prop where
  asserts : Asserts con.masked con.writeBuf.free con
  state_ne : con.state ≠ .connecting
  stream : con.Sends → ∃ p l, con.stream = some p ∧ p.Unread l ∧ p.Flat ∧
    l.length ≤ (if con.state = .openData then con.frame.len else 0) + 2 ^ 31

theorem read_of_not_sends (computeKey : List UInt8 → Option (List UInt8))
    (hstate : con.state ≠ .connecting) (hsends : ¬con.Sends) (hrounds : 0 < rounds)
    (cb : Reader UInt8) :
    ∃ r, con.read computeKey rounds cb = some r ∧ ¬r.2.Sends ∧ r.2.writeBuf = con.writeBuf ∧
      r.2.mask = con.mask ∧ r.2.masked = con.masked ∧ r.2.asserts = con.asserts := by
  obtain ⟨rounds, rfl⟩ := Nat.exists_eq_succ_of_ne_zero (Nat.pos_iff_ne_zero.mp hrounds)
  unfold Sends at hsends
  have hsource : con.readvSource cb
      = ((con.httpBuf.readv cb).ret, { con with httpBuf := (con.httpBuf.readv cb).buf }) := by
    unfold readvSource
    cases con.stream with
    | none => rfl
    | some p => exact if_neg hsends
  unfold read
  rw [hsource]
  simp only [if_neg hstate]
  by_cases hneg : (con.httpBuf.readv cb).ret < 0
  · rw [if_pos hneg]
    exact ⟨_, rfl, hsends, rfl, rfl, rfl, rfl⟩
  rw [if_neg hneg, processAll, processState]
  cases hs : con.state with
  | connecting => exact absurd hs hstate
  | «open» => exact absurd (Or.inl hs) hsends
  | openData => exact absurd (Or.inr hs) hsends
  | unknown | closing | closed => exact ⟨_, rfl, by simp [Sends], rfl, rfl, rfl, rfl⟩

theorem readsOn_of_follows {p : PositionedStream cacheSize} {s : Reading cacheSize} {l : List UInt8}
    {masked : Bool} {free : ℕ} (h : Follows p s l con) (ha : Asserts masked free s.con)
    (hstate : con.state ≠ .connecting) (hflat : p.Flat)
    (hshort : s.con.Sends →
      l.length ≤ (if s.con.state = .openData then s.con.frame.len else 0) + 2 ^ 31) :
    con.ReadsOn := by
  obtain ⟨data, rfl, hunread⟩ := h
  exact ⟨⟨ha.asserts, ha.wf, ha.capacity_eq, ha.mask_len, rfl, rfl⟩, hstate,
    fun hsends ↦ ⟨_, l, rfl, hunread, ⟨hflat.found, hflat.position_eq⟩, hshort hsends⟩⟩

/-- The pings fit that are in the stream or arrive, if the socket gives bytes. -/
def AnswersFit (con : Con cacheSize) (cb : Reader UInt8) : Prop :=
  ∀ p, con.stream = some p → con.Sends → 0 ≤ (con.readvSource cb).1 →
    PingsFit con.masked con.writeBuf.free
      (framesOf con p.curOffset (load p.log.data p.curOffset p.available ++ con.arriving cb))

/-- There are rounds enough for a `Read`, and its pages have 32-bit numbers. -/
def ReadFits (con : Con cacheSize) (rounds : ℕ) (cb : Reader UInt8) : Prop :=
  0 < rounds ∧ (con.Sends → ∀ p, con.stream = some p → p.Fits (con.arriving cb).length ∧
    p.available + (con.arriving cb).length + 1 < rounds)

/-- **A `Read` returns if the pings fit.** -/
theorem ReadsOn.read (h : con.ReadsOn) {cb : Reader UInt8} (hfits : con.ReadFits rounds cb) :
    ((con.read computeKey rounds cb).isSome ↔ con.AnswersFit cb) ∧
      ∀ r, con.read computeKey rounds cb = some r → r.2.ReadsOn := by
  by_cases hsends : con.Sends
  · obtain ⟨p, l, hstream, hunread, hflat, hbound⟩ := h.stream hsends
    obtain ⟨hpages, hrounds⟩ := hfits.2 hsends p hstream
    have hfollows : Follows p ⟨con, p.curOffset⟩ l con := by
      refine ⟨p.log.data, ?_, hunread⟩
      change con = { con with stream := some p }
      rw [← hstream]
    have harriving := hfollows.arriving_eq hsends hflat cb
    have hload := hunread.load_eq
    rw [← hunread.available] at hload
    rw [harriving] at hpages hrounds
    obtain ⟨p', hflat', -, -, -, hcases⟩ :=
      read_cases computeKey hfollows hsends hbound hflat cb rfl hpages
      (by rwa [List.length_append, ← hunread.available])
    unfold AnswersFit
    simp only [hstream, Option.some.injEq, forall_eq', hload, harriving]
    rcases hcases with ⟨hneg, -, -, con', hcon', hfollows'⟩ | ⟨hpos, σ, l', hdrains, hσ⟩
    · obtain ⟨r, hr, rfl⟩ := Option.map_eq_some_iff.mp hcon'
      rw [hr]
      refine ⟨iff_of_true rfl fun _ hpos ↦ absurd hneg (Int.not_lt.mpr hpos), fun r' hr' ↦ ?_⟩
      obtain rfl := Option.some.inj hr'
      exact readsOn_of_follows hfollows' h.asserts
        ((read_processed h.state_ne hr).state_ne h.state_ne) hflat'
        fun _ ↦ hbound
    · obtain ⟨σ₂, l₂, hframes⟩ := drains_framesOf con p.curOffset
        (l ++ PositionedStream.deliveredAt p.log.pageSize p.log.available cb)
      -- what is decoded does not depend on the answers
      obtain ⟨hes, -, -⟩ := hdrains.unique hframes
      obtain ⟨hiff, hkeeps⟩ := drains_isSome_iff hdrains ⟨_, rfl, h.asserts⟩
      rw [hes] at hiff
      have hret : (con.read computeKey rounds cb).isSome = σ.isSome := by
        cases σ with
        | none =>
          rw [Option.map_eq_none_iff.mp hσ]
          rfl
        | some s' =>
          obtain ⟨con', hcon', -⟩ := hσ
          obtain ⟨r, hr, -⟩ := Option.map_eq_some_iff.mp hcon'
          rw [hr]
          rfl
      rw [hret, hiff]
      refine ⟨⟨fun hfit _ _ ↦ hfit, fun hfit ↦ hfit hsends hpos⟩, fun r hr ↦ ?_⟩
      cases σ with
      | none => exact absurd (hr.symm.trans (Option.map_eq_none_iff.mp hσ)) (by simp)
      | some s' =>
        obtain ⟨con', hcon', hfollows'⟩ := hσ
        rw [hr] at hcon'
        obtain rfl : r.2 = con' := Option.some.inj hcon'
        obtain ⟨free', ha⟩ := hkeeps s' rfl
        have hwaits : s'.step l' = none := hdrains.waits
        refine readsOn_of_follows hfollows' ha
          ((read_processed h.state_ne hr).state_ne h.state_ne) hflat'
          fun hsends' ↦ ?_
        have hshort := Reading.short_of_waits hwaits hsends'
        omega
  · obtain ⟨r, hr, hsends', hbuf, hmask, hmasked, hasserts⟩ :=
      read_of_not_sends computeKey h.state_ne hsends hfits.1 cb
    rw [hr]
    refine ⟨iff_of_true rfl fun _ _ hs ↦ absurd hs hsends, fun r' hr' ↦ ?_⟩
    obtain rfl := Option.some.inj hr'
    have ha := h.asserts
    exact ⟨⟨hasserts.trans ha.asserts, hbuf ▸ ha.wf, hbuf ▸ ha.capacity_eq, hmask ▸ ha.mask_len,
      rfl, rfl⟩,
      (read_processed h.state_ne hr).state_ne h.state_ne, fun hs ↦ absurd hs hsends'⟩

theorem ReadsOn.withBuf (h : con.ReadsOn) {writeBuf : BipBuf .uint64 UInt8} (hwf : writeBuf.Wf)
    (hcap : writeBuf.capacity = con.writeBuf.capacity) (key : List UInt8) (calls : List Call) :
    ({ con with writeBuf := writeBuf, key := key, calls := calls } : Con cacheSize).ReadsOn :=
  ⟨⟨h.asserts.asserts, hwf, hcap.trans h.asserts.capacity_eq, h.asserts.mask_len, rfl, rfl⟩,
    h.state_ne, h.stream⟩

theorem ReadsOn.queue (h : con.ReadsOn) (code : WSOPCode) (data : List UInt8) :
    (con.queue code data).2.ReadsOn := by
  have heq : (con.queue code data).2 = { con with
      writeBuf := (con.queue code data).2.writeBuf
      calls := (con.queue code data).2.calls } := by
    unfold Con.queue
    simp only
    split_ifs <;> rfl
  obtain ⟨hwf, hcap⟩ := queue_wf h.asserts.wf h.asserts.capacity_lt code data
  rw [heq]
  exact h.withBuf hwf hcap con.key _

theorem ReadsOn.openStream (h : con.ReadsOn) {key uri host origin : List UInt8}
    (hopen : con.openStream key uri host origin = some con') : con'.ReadsOn := by
  unfold Con.openStream at hopen
  rw [Option.ite_none_right_eq_some] at hopen
  rw [← Option.some.inj hopen.2]
  obtain ⟨hwf, hcap⟩ := h.asserts.wf.foldl_pushList (request key uri host origin)
  generalize (request key uri host origin).foldl BipBuf.pushList con.writeBuf = writeBuf
    at hwf hcap ⊢
  exact h.withBuf hwf hcap key (con.calls ++ [.setWrite])

theorem ReadsOn.write (h : con.ReadsOn) {publish : Option (MultiPositionedStreamLog publishSize)}
    {fd : ℕ} {find : ℕ → Bool} {cb : Writer}
    (hfits : con.writeBuf.isEmpty = false → con.writeBuf.LengthsFit) :
    (con.write publish fd find cb).con.ReadsOn := by
  unfold Con.write
  by_cases hempty : con.writeBuf.isEmpty = false
  · rw [if_pos hempty]
    exact h.withBuf (h.asserts.wf.writev cb fun _ ↦ hfits hempty).1
      (BipBuf.writev_capacity cb) con.key con.calls
  · rw [if_neg hempty]
    cases publish with
    | none => exact h
    | some m => exact h

end Con

/-! ## A run -/

namespace Handshake

variable (computeKey : List UInt8 → Option (List UInt8))

/-- A `Read` returns: no assertion fails. -/
def Returns (s : Handshake cacheSize) : ConOp publishSize → Prop
  | .read rounds cb => ∀ con, s.con = some con → (con.read computeKey rounds cb).isSome
  | _ => True

/-- The pings of a `Read` fit. -/
def AnswersFit (s : Handshake cacheSize) : ConOp publishSize → Prop
  | .read _ cb => ∀ con, s.con = some con → con.AnswersFit cb
  | _ => True

/-- A `Read` goes through all that is there, in a log whose pages have 32-bit numbers, and a `Write`
gets its lengths right. -/
def Proceeds (s : Handshake cacheSize) : ConOp publishSize → Prop
  | .read rounds cb => ∀ con, s.con = some con → con.ReadFits rounds cb
  | .write _ _ _ _ => ∀ con, s.con = some con → con.writeBuf.isEmpty = false →
    con.writeBuf.LengthsFit
  | _ => True

/-- If there is a connection, it reads on. -/
def ReadsOn (s : Handshake cacheSize) : Prop := ∀ con, s.con = some con → con.ReadsOn

variable {computeKey} {s : Handshake cacheSize}

theorem ReadsOn.returns_iff (h : s.ReadsOn) {op : ConOp publishSize} (hproceeds : s.Proceeds op) :
    s.Returns computeKey op ↔ s.AnswersFit op := by
  cases op with
  | read rounds cb =>
    exact forall_congr' fun con ↦ forall_congr' fun hcon ↦
      ((h con hcon).read (hproceeds con hcon)).1
  | stream key uri host origin => exact Iff.rfl
  | queue code data => exact Iff.rfl
  | write publish fd find cb => exact Iff.rfl

theorem ReadsOn.step (h : s.ReadsOn) {op : ConOp publishSize} (hproceeds : s.Proceeds op) :
    (s.step computeKey op).1.ReadsOn := by
  intro con' hcon'
  unfold Handshake.step at hcon'
  cases hcon : s.con with
  | none =>
    rw [hcon] at hcon'
    exact absurd hcon' (by simp [hcon])
  | some con =>
    rw [hcon] at hcon'
    cases op with
    | stream key uri host origin => exact (h con hcon).openStream hcon'
    | read rounds cb =>
      obtain ⟨r, hread, rfl⟩ := Option.map_eq_some_iff.mp hcon'
      exact ((h con hcon).read (hproceeds con hcon)).2 r hread
    | queue code data =>
      obtain rfl : (con.queue code data).2 = con' := by simpa using hcon'
      exact (h con hcon).queue code data
    | write publish fd find cb =>
      obtain rfl : (con.write publish fd find cb).con = con' := by simpa using hcon'
      exact (h con hcon).write (hproceeds con hcon)

/-- **No assertion fails in the runs whose pings fit**, and one does in the others, whatever is
queued and written between the reads. -/
theorem run_asserts_iff {con : Con cacheSize} (hreads : con.ReadsOn)
    {ops : List (ConOp publishSize)}
    (hproceeds : Run.Steps (step computeKey) Proceeds (new con) ops) :
    Run.Steps (step computeKey) (Returns computeKey) (new con) ops ↔
      Run.Steps (step computeKey) AnswersFit (new con) ops :=
  Run.steps_congr_of_invariant (P := ReadsOn) (fun _ _ h hp ↦ h.step hp)
    (fun _ _ h hp ↦ h.returns_iff hp)
    (fun con' hcon' ↦ by
      obtain rfl : con = con' := by simpa [new] using hcon'
      exact hreads) hproceeds

/-- A `Read` of these bytes. -/
def readOf (l : List UInt8) (hlen : l.length < 2 ^ 31) : ConOp 1 :=
  .read (l.length + 2) (Reader.ofList l hlen)

section Opening

variable {l : List UInt8} (hlen : l.length < 2 ^ 31) (hle : l.length ≤ 4096)

theorem readsOn_opening : (new opening).ReadsOn := by
  intro con hcon
  obtain rfl : opening = con := by simpa [new] using hcon
  exact ⟨⟨rfl, (BipBuf.rep_new _ _).wf (BipBuf.bounded_new _ _), rfl, rfl, rfl, rfl⟩, by decide,
    fun _ ↦ ⟨_, [], rfl, PositionedStream.unread_ofList (by decide), ⟨fun _ ↦ rfl, rfl⟩,
      Nat.zero_le _⟩⟩

include hle

theorem arriving_opening : opening.arriving (Reader.ofList l hlen) = l := by
  change ((Reader.ofList l hlen).run [4096]).bytes = l
  rw [Reader.run_ofList hlen (by simpa using hle)]
  rfl

theorem proceeds_opening : (new opening).Proceeds (readOf l hlen) := by
  intro con hcon
  obtain rfl : opening = con := by simpa [new] using hcon
  refine ⟨by omega, fun _ p hp ↦ ?_⟩
  obtain rfl := Option.some.inj hp
  rw [arriving_opening hlen hle]
  refine ⟨⟨?_, ?_⟩, ?_⟩
  · change 0 + l.length < 2 ^ 32 * 4096
    omega
  · change 0 + l.length < 2 ^ 63
    omega
  · change 0 + l.length + 1 < l.length + 2
    omega

theorem answersFit_opening (hne : l ≠ []) :
    opening.AnswersFit (Reader.ofList l hlen) ↔
      PingsFit false bufferCapacity (framesOf opening 0 l) := by
  have harriving := arriving_opening hlen hle
  have hret : 0 ≤ (opening.readvSource (Reader.ofList l hlen)).1 := by
    by_contra hneg
    have hfits := ((proceeds_opening hlen hle opening rfl).2 (Or.inl rfl) _ rfl).1
    have hunread : (PositionedStream.ofList 2 [] (by decide)).Unread [] :=
      PositionedStream.unread_ofList (by decide)
    obtain ⟨-, -, -, -, -, hnone⟩ := hunread.readv ⟨fun _ ↦ rfl, rfl⟩ (Reader.ofList l hlen) hfits
    exact hne (harriving.symm.trans (hnone (Int.not_le.mp hneg)))
  constructor
  · intro hfit
    have hframes := hfit _ rfl (Or.inl rfl) hret
    rwa [harriving] at hframes
  · intro hframes p hp _ _
    obtain rfl := Option.some.inj hp
    rw [harriving]
    exact hframes

end Opening

/-- Two pings, one of them empty. -/
theorem run_asserts_pings : Run.Steps (step fun _ ↦ none) (Returns fun _ ↦ none) (new opening)
    [readOf [0x89, 2, 7, 8, 0x89, 0] (by decide)] := by
  have hproceeds : Run.Steps (step fun _ ↦ none) Proceeds (new opening)
      [readOf [0x89, 2, 7, 8, 0x89, 0] (by decide)] := ⟨proceeds_opening _ (by decide), trivial⟩
  refine (run_asserts_iff (readsOn_opening opening rfl) hproceeds).mpr ⟨fun con hcon ↦ ?_, trivial⟩
  obtain rfl : opening = con := by simpa [new] using hcon
  exact (answersFit_opening _ (by decide) (by decide)).mpr (by decide +kernel)

/-- A ping of 1024 bytes. -/
def longPing : List UInt8 := [0x89, 126, 4, 0] ++ List.replicate 1024 0

/-- Its payload is one byte too long. -/
theorem not_asserts_of_long : ¬Run.Steps (step fun _ ↦ none) (Returns fun _ ↦ none) (new opening)
    [readOf longPing (by decide +kernel)] := by
  intro ⟨hreturns, _⟩
  have hlen : longPing.length < 2 ^ 31 := by decide +kernel
  have hle : longPing.length ≤ 4096 := by decide +kernel
  have hne : longPing ≠ [] := List.cons_ne_nil _ _
  have hfit : opening.AnswersFit (Reader.ofList longPing hlen) :=
    (readsOn_opening.returns_iff (proceeds_opening hlen hle)).mp hreturns opening rfl
  have hframes : framesOf opening 0 longPing = [⟨9, false, [0, 0, 0, 0], 4, 1024⟩] := by
    decide +kernel
  rw [answersFit_opening hlen hle hne, hframes] at hfit
  exact absurd hfit (by decide)

end Handshake

end Coypu
