import Coypu.Library.Delimited
import Coypu.Protobuf.ProtoManager
import Mathlib.Data.List.Forall2

/-!
# Requests on the proto socket

What is unread on a connection are the bytes of the buffer, behind a header that was taken out of it
(`unread`). A `Read` dispatches the first frame of it, if that is complete. This is right for the
bytes that the code can handle (`Handles`): not if there are four bytes of a frame and no more, if
the message is empty, if it is shorter than four bytes and its header was read before, if another
frame is complete, or if the message is split in the array.

The bytes that arrive on each connection and the calls of the callback are tracked beside the
manager (`ProtoFeed`).
-/

set_option autoImplicit false

namespace Coypu

open Transport ZeroCopy

/-- A byte that says that the message is not compressed, its length, and the message. -/
def protoFrame (message : List UInt8) : List UInt8 := 0 :: Bytes.encode 4 message.length ++ message

/-- The length of the message is behind the first byte. -/
def protoFormat : Delimited.Format UInt8 := ⟨5, fun header ↦ Bytes.decode (header.drop 1)⟩

theorem isRecord_protoFrame {message : List UInt8} (h : message.length < 2 ^ 32) :
    protoFormat.IsRecord (protoFrame message) where
  header_le := by simp [protoFrame, protoFormat]
  length_eq := by
    have hlen : Bytes.decode (Bytes.encode 4 message.length) = message.length :=
      Bytes.decode_encode h
    have htake : (Bytes.encode 4 message.length ++ message).take 4
      = Bytes.encode 4 message.length := by
      rw [List.take_append_of_le_length (by simp), List.take_of_length_le (by simp)]
    simp [protoFrame, protoFormat, htake, hlen]
    omega

/-- protobuf takes the bytes of a message and merges them into a request. -/
def ProtoLib.Decodes {Req : Type} (lib : ProtoLib Req)
    (decode : Req → List UInt8 → Option Req) : Prop :=
  ∀ request request' l, decode request l = some request' →
    (lib.mergeFrom request l.length).Consumes l (· = (request', true))

/-- Messages are as they are on the wire, where merging is appending, and the callback does
nothing. -/
def ProtoLib.plain (asserts : Bool) : ProtoLib (List UInt8) where
  asserts := asserts
  mergeFrom request n := (ZeroCopy.take n).map fun l ↦ (request ++ l, true)
  cb := some fun _ request ↦ request

theorem ProtoLib.plain_decodes (asserts : Bool) :
    (plain asserts).Decodes fun request l ↦ some (request ++ l) := by
  intro request request' l h
  obtain rfl := Option.some.inj h
  exact (ZeroCopy.consumes_take l).map fun a ha ↦ by rw [ha]

/-! ## One call -/

namespace ProtoConnection

/-- The header that was taken out of the buffer. -/
def header (con : ProtoConnection) : List UInt8 :=
  if con.gSize = 0 then [] else 0 :: Bytes.encode 4 con.gSize

/-- The bytes of the frame that is being read, and those behind it. -/
def unread (con : ProtoConnection) : List UInt8 := con.header ++ con.readBuf.contents

/-- The length of the message that is unread. -/
def messageLength (con : ProtoConnection) : ℕ := protoFormat.length (con.unread.take 5)

/-- The message is not split in the array, or the buffer is full when it is handed out. A header in
front of it may be. -/
def Unsplit (con : ProtoConnection) : Prop :=
  if con.gSize = 0 then con.readBuf.full = false ∧ con.readBuf.tail ≤ con.readBuf.head ∨
    con.readBuf.capacity ≤ con.readBuf.tail + 5
  else con.readBuf.Unsplit

instance (con : ProtoConnection) : Decidable con.Unsplit := inferInstanceAs (Decidable (ite _ _ _))

/-- What the code can handle, behind the call of `Readv`. -/
def Handles (con : ProtoConnection) : Prop :=
  if protoFormat.Complete con.unread then
    0 < con.messageLength ∧ (con.gSize = 0 ∨ 4 ≤ con.readBuf.available) ∧
      ¬protoFormat.Complete (con.unread.drop (5 + con.messageLength)) ∧ con.Unsplit
  else con.gSize = 0 → con.readBuf.available ≠ 4

instance (con : ProtoConnection) : Decidable con.Handles := inferInstanceAs (Decidable (ite _ _ _))

/-- A connection between two calls. -/
structure Sound (con : ProtoConnection) : Prop where
  rep : con.readBuf.Rep con.readBuf.contents
  capacity_eq : con.readBuf.capacity = 64 * 1024
  gSize_lt : con.gSize < 2 ^ 32

variable {Req : Type} {lib : ProtoLib Req} {decode : Req → List UInt8 → Option Req} {fd : ℕ}
  {con : ProtoConnection} {request : Req} {l : List UInt8} {cb : ℕ → Req → Req}

theorem sound_of_rep {b : BipBuf .int UInt8} (h : b.Rep l) (hcap : b.capacity = 64 * 1024) {n : ℕ}
    (hn : n < 2 ^ 32) : Sound ⟨b, n⟩ := by
  refine ⟨?_, hcap, hn⟩
  rw [h.contents_eq]
  exact h

theorem sound_new : Sound new := sound_of_rep (BipBuf.rep_new _ _) rfl (by decide)

theorem unread_new : new.unread = [] := by
  rw [unread, header, if_pos (show new.gSize = 0 from rfl), List.nil_append]
  exact (BipBuf.rep_new (fun _ ↦ 0) capacity).contents_eq

theorem Sound.receive (h : con.Sound) (cb : Reader UInt8) :
    (con.receive cb).Sound ∧ (con.receive cb).unread = con.unread ++ con.readBuf.delivered cb := by
  have hcap := h.capacity_eq
  have hrep := BipBuf.readv_rep h.rep (by omega) cb
  refine ⟨sound_of_rep hrep ((BipBuf.readv_capacity cb).trans hcap) h.gSize_lt, ?_⟩
  rw [unread, unread, List.append_assoc]
  exact congrArg (con.header ++ ·) hrep.contents_eq

theorem header_append_drop (hzero : l.headD 0 = 0) (hlen : 5 ≤ l.length) :
    0 :: Bytes.encode 4 (protoFormat.length (l.take 5)) ++ l.drop 5 = l := by
  obtain ⟨a, l, rfl⟩ := List.exists_cons_of_length_pos (Nat.lt_of_lt_of_le (by decide) hlen)
  obtain rfl : a = 0 := hzero
  have htake : (l.take 4).length = 4 := by
    rw [List.length_take]
    rw [List.length_cons] at hlen
    omega
  have hcode := Bytes.encode_decode (l.take 4)
  rw [htake] at hcode
  change 0 :: (Bytes.encode 4 (Bytes.decode (l.take 4)) ++ l.drop 4) = 0 :: l
  rw [hcode, List.take_append_drop]

theorem length_lt (l : List UInt8) : protoFormat.length (l.take 5) < 2 ^ 32 := by
  have hlt := Bytes.decode_lt ((l.take 5).drop 1)
  refine Nat.lt_of_lt_of_le hlt (Nat.pow_le_pow_right (by decide) ?_ : _ ≤ 256 ^ 4)
  rw [List.length_drop, List.length_take]
  omega

theorem takeHeader_eq (lib : ProtoLib Req) (h : con.Sound) (hsize : con.gSize = 0)
    (hzero : con.unread.headD 0 = 0) (hlen : 5 ≤ con.readBuf.contents.length) :
    ∃ b, con.takeHeader lib = some ⟨b, con.messageLength⟩ ∧ b.Rep (con.readBuf.contents.drop 5) ∧
      b.capacity = 64 * 1024 ∧ (con.Unsplit → b.Unsplit) := by
  obtain ⟨l, hl⟩ : ∃ l, l = con.readBuf.contents := ⟨_, rfl⟩
  have hrep := h.rep
  have hunread : con.unread = l := by rw [unread, header, if_pos hsize, List.nil_append, hl]
  rw [hunread] at hzero
  rw [messageLength, hunread]
  rw [← hl] at hlen hrep ⊢
  have hone := BipBuf.pop_refines hrep 1
  rw [if_pos ⟨by decide, by omega⟩, if_pos ⟨by decide, by omega⟩] at hone
  have hfour := BipBuf.pop_refines hone.rep 4
  have hcan : 0 < 4 ∧ 4 ≤ (l.drop 1).length := ⟨by decide, by rw [List.length_drop]; omega⟩
  rw [if_pos hcan, if_pos hcan, List.drop_drop] at hfour
  refine ⟨((con.readBuf.pop 1 false).buf.pop 4 false).buf, ?_, hfour.rep,
    hfour.capacity_eq.trans (hone.capacity_eq.trans h.capacity_eq), fun hun ↦ ?_⟩
  · have hhead : (l.take 1).headD 0 = 0 := by
      cases l with
      | nil => rfl
      | cons a l => exact hzero
    have hdrop : (l.drop 1).take 4 = (l.take 5).drop 1 := by rw [List.drop_take]
    rw [takeHeader, if_pos hsize]
    simp only [hone.ret_eq, hfour.ret_eq, Option.getD_some, hhead]
    rw [if_neg (by simp), hdrop]
    rfl
  · -- the tail is five items further, or went around the end of the array
    obtain ⟨hhead, hfull, htail⟩ := BipBuf.pop_tail hrep (by decide : 0 < 1) (by omega)
    obtain ⟨hhead', hfull', htail'⟩ := BipBuf.pop_tail hone.rep (by decide : 0 < 4) hcan.2
    rw [Unsplit, if_pos hsize] at hun
    have hends := hfour.rep.of_not_full (by simp [hfull'])
    have hle := hrep.length_le
    have hcap := hfour.capacity_eq
    have hcap' := hone.capacity_eq
    have hend := hrep.tail_le
    have hlarge := h.capacity_eq
    rw [List.length_drop] at hends
    refine Or.inr ?_
    simp only [hfull, Bool.false_eq_true, or_false] at htail'
    by_cases hw : con.readBuf.head < con.readBuf.tail ∨ con.readBuf.full = true
    · have hround := hrep.wraps hw
      simp only [hw, true_and] at htail
      have hfar : con.readBuf.capacity ≤ con.readBuf.tail + 5 := by
        rcases hun with ⟨hf, hle'⟩ | hfar
        · rcases hw with hlt | hf'
          · omega
          · rw [hf] at hf'
            exact absurd hf' (by decide)
        · exact hfar
      split_ifs at htail htail' <;> omega
    · simp only [hw, false_and, if_false] at htail
      have hfirst := hrep.of_not_full (fun hf ↦ hw (Or.inr hf))
      split_ifs at htail' <;> omega

variable (fd con) in
/-- A message that is there is decoded and handed to the callback. -/
theorem dispatch_eq (hdec : lib.Decodes decode) (hcb : lib.cb = some cb) (h : con.readBuf.Rep l)
    (hcap : con.readBuf.capacity = 64 * 1024) (hun : con.readBuf.Unsplit)
    (hlen : con.gSize ≤ l.length)
    {request' : Req} (hmsg : decode request (l.take con.gSize) = some request') :
    ∃ b, con.dispatch lib fd request = some ([⟨fd, request, request'⟩], ⟨b, 0⟩, cb fd request') ∧
      b.Rep (l.drop con.gSize) ∧ b.capacity = 64 * 1024 := by
  have htake : (l.take con.gSize).length = con.gSize := by
    rw [List.length_take, Nat.min_eq_left hlen]
  have hcon := hdec _ _ _ hmsg
  rw [htake] at hcon
  obtain ⟨a, t, hrun, rfl, hleft⟩ := BufZeroCopyInputStream.run_of_consumes h hun hlen hcon
  refine ⟨t.buf, ?_, hleft.rep, hleft.capacity_eq.trans hcap⟩
  rw [dispatch, hrun, Option.bind_some, if_neg (by simp), hcb]

theorem unread_of_eq_zero (hsize : con.gSize = 0) : con.unread = con.readBuf.contents := by
  rw [unread, header, if_pos hsize, List.nil_append]

theorem unread_of_ne_zero (hsize : con.gSize ≠ 0) :
    con.unread = 0 :: Bytes.encode 4 con.gSize ++ con.readBuf.contents := by
  rw [unread, header, if_neg hsize]

theorem Sound.messageLength_eq (h : con.Sound) (hsize : con.gSize ≠ 0) :
    con.unread.take 5 = 0 :: Bytes.encode 4 con.gSize ∧ con.messageLength = con.gSize := by
  have htake : con.unread.take 5 = 0 :: Bytes.encode 4 con.gSize := by
    rw [unread_of_ne_zero hsize, List.take_append_of_le_length (by simp),
      List.take_of_length_le (by simp)]
  refine ⟨htake, ?_⟩
  rw [messageLength, htake]
  exact Bytes.decode_encode h.gSize_lt

theorem Sound.complete_iff (h : con.Sound) (hsize : con.gSize ≠ 0) :
    protoFormat.Complete con.unread ↔ con.gSize ≤ con.readBuf.contents.length := by
  have hlen : con.unread.length = 5 + con.readBuf.contents.length := by
    rw [unread_of_ne_zero hsize, List.length_append, List.length_cons, Bytes.length_encode]
  change 5 ≤ con.unread.length ∧ 5 + con.messageLength ≤ con.unread.length ↔ _
  rw [hlen, (h.messageLength_eq hsize).2]
  omega

theorem process_of_incomplete (lib : ProtoLib Req) (fd : ℕ) (request : Req) (h : con.Sound)
    (hok : con.Handles) (hzero : con.unread.headD 0 = 0) (hinc : ¬protoFormat.Complete con.unread) :
    ∃ con', con.process lib fd request = some ([], con', request) ∧ con'.Sound ∧
      con'.unread = con.unread := by
  have havail := h.rep.available_eq
  rw [Handles, if_neg hinc] at hok
  rw [process]
  by_cases hmin : 4 ≤ con.readBuf.available
  · rw [if_pos hmin]
    by_cases hsize : con.gSize = 0
    · have hne := hok hsize
      have hlen : 5 ≤ con.readBuf.contents.length := by omega
      have hunread := unread_of_eq_zero hsize
      obtain ⟨b, hb, hrep, hcap, -⟩ := takeHeader_eq lib h hsize hzero hlen
      have hlong : con.readBuf.contents.length < 5 + con.messageLength := by
        by_contra hle
        rw [← hunread] at hlen hle
        exact hinc ⟨hlen, Nat.not_lt.mp hle⟩
      have hbavail := hrep.available_eq
      rw [List.length_drop] at hbavail
      refine ⟨⟨b, con.messageLength⟩, ?_, sound_of_rep hrep hcap (length_lt _), ?_⟩
      · rw [hb, Option.bind_some, if_neg]
        simp only
        omega
      · have hpos : con.messageLength ≠ 0 := by omega
        rw [hunread] at hzero ⊢
        rw [unread_of_ne_zero hpos]
        simp only
        rw [hrep.contents_eq, messageLength, hunread]
        exact header_append_drop hzero hlen
    · have hshort := mt (h.complete_iff hsize).mpr hinc
      refine ⟨con, ?_, h, rfl⟩
      rw [takeHeader, if_neg hsize, Option.bind_some, if_neg (by omega)]
  · exact ⟨con, if_neg hmin, h, rfl⟩

variable (fd) in
/-- **A complete frame is dispatched**, if no other one is. -/
theorem process_of_complete (hdec : lib.Decodes decode) (hcb : lib.cb = some cb) (h : con.Sound)
    (hok : con.Handles) (hzero : con.unread.headD 0 = 0)
    (hcomplete : protoFormat.Complete con.unread) {request' : Req}
    (hmsg : decode request ((con.unread.drop 5).take con.messageLength) = some request') :
    ∃ con', con.process lib fd request = some ([⟨fd, request, request'⟩], con', cb fd request') ∧
      con'.Sound ∧ con'.unread = con.unread.drop (5 + con.messageLength) ∧
        ¬protoFormat.Complete con'.unread := by
  have havail := h.rep.available_eq
  rw [Handles, if_pos hcomplete] at hok
  obtain ⟨hpos, hmin, hrest, hun⟩ := hok
  have hsound {b : BipBuf .int UInt8} {l : List UInt8} (hrep : b.Rep l)
      (hcap : b.capacity = 64 * 1024)
      (hl : l = con.unread.drop (5 + con.messageLength)) : (⟨b, 0⟩ : ProtoConnection).Sound ∧
        (⟨b, 0⟩ : ProtoConnection).unread = con.unread.drop (5 + con.messageLength) ∧
        ¬protoFormat.Complete (⟨b, 0⟩ : ProtoConnection).unread := by
    have hunread : (⟨b, 0⟩ : ProtoConnection).unread = con.unread.drop (5 + con.messageLength) := by
      rw [unread_of_eq_zero rfl]
      exact hrep.contents_eq.trans hl
    exact ⟨sound_of_rep hrep hcap (by decide), hunread, hunread ▸ hrest⟩
  by_cases hsize : con.gSize = 0
  · have hunread := unread_of_eq_zero hsize
    obtain ⟨hlen, hlen'⟩ : 5 ≤ con.readBuf.contents.length ∧
        5 + con.messageLength ≤ con.readBuf.contents.length := by
      rw [messageLength, hunread]
      rwa [hunread] at hcomplete
    obtain ⟨b, hb, hrep, hcap, hunsplit⟩ := takeHeader_eq lib h hsize hzero hlen
    have hbavail := hrep.available_eq
    rw [List.length_drop] at hbavail
    rw [hunread] at hmsg
    obtain ⟨b', hb', hrep', hcap'⟩ := dispatch_eq fd ⟨b, con.messageLength⟩ hdec hcb hrep
      hcap (hunsplit hun) (by rw [List.length_drop]; simp only; omega) hmsg
    refine ⟨⟨b', 0⟩, ?_, hsound hrep' hcap' ?_⟩
    · rw [process, if_pos (by omega), hb, Option.bind_some, if_pos, hb']
      simp only
      omega
    · rw [hunread, List.drop_drop]
  · obtain ⟨htake, hlen⟩ := h.messageLength_eq hsize
    have hfits := (h.complete_iff hsize).mp hcomplete
    have hdrop : con.unread.drop 5 = con.readBuf.contents := by
      rw [unread_of_ne_zero hsize]
      exact List.drop_left' (by simp)
    rw [hdrop, hlen] at hmsg
    rw [Unsplit, if_neg hsize] at hun
    obtain ⟨b', hb', hrep', hcap'⟩ := dispatch_eq fd con hdec hcb h.rep h.capacity_eq hun hfits hmsg
    refine ⟨⟨b', 0⟩, ?_, hsound hrep' hcap' ?_⟩
    · rw [process, if_pos (by omega), takeHeader, if_neg hsize, Option.bind_some, if_pos (by omega),
        hb']
    · rw [← List.drop_drop, hdrop, hlen]

end ProtoConnection

/-! ## Runs -/

/-- The frames of a sequence of messages. -/
def protoFrames (messages : List (List UInt8)) : List UInt8 := (messages.map protoFrame).flatten

/-- Messages that are requests, and whose frames fit the buffer. -/
def Requests {Req : Type} (decode : Req → List UInt8 → Option Req)
    (messages : List (List UInt8)) : Prop :=
  ∀ message ∈ messages, (protoFrame message).length ≤ 64 * 1024 ∧
    ∀ request, (decode request message).isSome = true

section Messages

variable {Req : Type} {decode : Req → List UInt8 → Option Req} {done messages : List (List UInt8)}
  {l : List UInt8}

theorem Requests.isRecord (h : Requests decode messages) :
    ∀ r ∈ messages.map protoFrame, protoFormat.IsRecord r := by
  intro r hr
  obtain ⟨message, hmem, rfl⟩ := List.mem_map.mp hr
  have hfits := (h message hmem).1
  rw [protoFrame, List.length_append] at hfits
  exact isRecord_protoFrame (by omega)

theorem protoFrame_injective : Function.Injective protoFrame := by
  intro message message' h
  have hdrop := congrArg (List.drop 5) h
  rwa [protoFrame, protoFrame, List.drop_left' (by simp), List.drop_left' (by simp)] at hdrop

theorem headD_of_prefix (h : l <+: protoFrames messages) : l.headD 0 = 0 := by
  cases l with
  | nil => rfl
  | cons a l =>
    obtain ⟨t, ht⟩ := h
    cases messages with
    | nil => exact absurd ht (by simp [protoFrames])
    | cons message messages => exact (List.cons.inj ht).1

theorem Requests.prefix_drop (hdone : Requests decode done) (hmessages : Requests decode messages)
    (h : protoFrames done ++ l <+: protoFrames messages) :
    l <+: protoFrames (messages.drop done.length) := by
  have hdrop := (Delimited.Format.prefix_drop hdone.isRecord hmessages.isRecord (by decide) h).2
  rwa [List.length_map, ← List.map_drop] at hdrop

theorem Requests.eq_take (hdone : Requests decode done) (hmessages : Requests decode messages)
    (h : protoFrames done ++ l <+: protoFrames messages) (hl : ¬protoFormat.Complete l) :
    done = messages.take
      (Delimited.Format.count (messages.map protoFrame) (protoFrames done ++ l).length) := by
  have htake := Delimited.Format.eq_take_count hdone.isRecord hmessages.isRecord (by decide) h hl
  rw [← List.map_take] at htake
  exact List.map_injective_iff.mpr protoFrame_injective htake

theorem Requests.exists_message (h : Requests decode messages) (hl : l <+: protoFrames messages)
    (hcomplete : protoFormat.Complete l) : ∃ message ∈ messages, ∃ k, l = protoFrame message ++ k ∧
      protoFormat.length (l.take 5) = message.length ∧ (l.drop 5).take message.length
        = message := by
  obtain ⟨r, rs, k, hmap, rfl, -⟩ := hcomplete.exists_record h.isRecord (by decide) hl
  have hr : r ∈ messages.map protoFrame := by
    rw [hmap]
    exact List.mem_cons_self
  obtain ⟨message, hmem, rfl⟩ := List.mem_map.mp hr
  have hrecord := h.isRecord _ (List.mem_map_of_mem hmem)
  have hlen := hrecord.length_eq
  have hsize : (protoFrame message).length = 5 + message.length := by simp [protoFrame]; omega
  refine ⟨message, hmem, k, rfl, ?_, ?_⟩
  · rw [List.take_append_of_le_length (by omega)]
    change (protoFrame message).length = 5 + protoFormat.length ((protoFrame message).take 5)
      at hlen
    omega
  · rw [protoFrame, List.append_assoc, List.drop_left' (by simp), List.take_left]

end Messages

/-- A manager, what arrived on each of its connections, and what the callback was called with for
each. -/
structure ProtoFeed (Req : Type) where
  manager : ProtoManager Req
  arrived : ℕ → List UInt8
  dispatched : ℕ → List (Dispatch Req)

namespace ProtoFeed

variable {Req : Type}

def new (request : Req) : ProtoFeed Req := ⟨.new request, fun _ ↦ [], fun _ ↦ []⟩

/-- A step. On a new connection nothing has arrived. -/
def step (lib : ProtoLib Req) (s : ProtoFeed Req) (op : ProtoOp) :
    ProtoFeed Req × Option (ℤ × List (Dispatch Req)) :=
  let r := s.manager.step lib op
  match op with
  | .register fd =>
    match s.manager.connections fd with
    | none => (⟨r.1, Function.update s.arrived fd [], Function.update s.dispatched fd []⟩, r.2)
    | some _ => ({ s with manager := r.1 }, r.2)
  | .unregister _ => ({ s with manager := r.1 }, r.2)
  | .read fd cb =>
    match s.manager.connections fd with
    | none => ({ s with manager := r.1 }, r.2)
    | some con => (⟨r.1, Function.update s.arrived fd (s.arrived fd ++ con.readBuf.delivered cb),
        Function.update s.dispatched fd (s.dispatched fd ++ (r.2.map Prod.snd).getD [])⟩, r.2)

/-- What arrives on a connection are frames of requests, and the code can handle it. -/
def Meets (decode : Req → List UInt8 → Option Req) (s : ProtoFeed Req) : ProtoOp → Prop
  | .read fd cb => ∀ con ∈ s.manager.connections fd,
      (∃ messages, Requests decode messages ∧
        s.arrived fd ++ con.readBuf.delivered cb <+: protoFrames messages) ∧
          (con.receive cb).Handles
  | .register _ | .unregister _ => True

/-- The callback was called for a message, merged into the request as it was. -/
def Called (decode : Req → List UInt8 → Option Req) (fd : ℕ) (message : List UInt8)
    (d : Dispatch Req) : Prop :=
  d.fd = fd ∧ decode d.target message = some d.request

/-- A `Read` returns, and then the callback was called for each request whose last byte has arrived,
in their order, and what is unread are the bytes behind them. -/
def Dispatches (lib : ProtoLib Req) (decode : Req → List UInt8 → Option Req) (s : ProtoFeed Req)
    (op : ProtoOp) : Prop :=
  ∀ fd cb con messages, op = .read fd cb → s.manager.connections fd = some con →
    Requests decode messages → (s.step lib op).1.arrived fd <+: protoFrames messages →
      (s.step lib op).2.isSome = true ∧ ∃ con', (s.step lib op).1.manager.connections fd
        = some con' ∧ let received := (s.step lib op).1.arrived fd
        let complete := messages.take
          (Delimited.Format.count (messages.map protoFrame) received.length)
        List.Forall₂ (Called decode fd) complete ((s.step lib op).1.dispatched fd) ∧
          con'.unread = received.drop (protoFrames complete).length

/-- Where a connection stands: the callback was called for the messages that arrived in full. -/
structure Kept (decode : Req → List UInt8 → Option Req) (s : ProtoFeed Req) (fd : ℕ)
    (con : ProtoConnection) (messages : List (List UInt8)) : Prop where
  sound : con.Sound
  requests : Requests decode messages
  arrived_eq : s.arrived fd = protoFrames messages ++ con.unread
  incomplete : ¬protoFormat.Complete con.unread
  called : List.Forall₂ (Called decode fd) messages (s.dispatched fd)

def Inv (decode : Req → List UInt8 → Option Req) (s : ProtoFeed Req) : Prop :=
  ∀ fd con, s.manager.connections fd = some con → ∃ messages, s.Kept decode fd con messages

theorem inv_new (decode : Req → List UInt8 → Option Req) (request : Req) :
    (new request).Inv decode :=
  fun _ _ hcon ↦ absurd hcon (by simp [new, ProtoManager.new])

variable {lib : ProtoLib Req} {decode : Req → List UInt8 → Option Req} {s : ProtoFeed Req} {fd : ℕ}
  {messages : List (List UInt8)} {con : ProtoConnection} {l : List UInt8}

theorem Inv.update (h : s.Inv decode) {m : ProtoManager Req} {fd : ℕ} {con : ProtoConnection}
    {l : List UInt8} {ds : List (Dispatch Req)}
    (hm : m.connections = Function.update s.manager.connections fd (some con))
    {messages : List (List UInt8)}
    (hcon : Kept decode ⟨m, Function.update s.arrived fd l,
      Function.update s.dispatched fd ds⟩ fd con
      messages) :
    Inv decode ⟨m, Function.update s.arrived fd l, Function.update s.dispatched fd ds⟩ := by
  intro fd' con' hcon'
  simp only [hm] at hcon'
  by_cases hfd : fd' = fd
  · subst hfd
    rw [Function.update_self] at hcon'
    exact ⟨messages, Option.some.inj hcon' ▸ hcon⟩
  · rw [Function.update_of_ne hfd] at hcon'
    obtain ⟨messages', hkept⟩ := h fd' con' hcon'
    refine ⟨messages', hkept.sound, hkept.requests, ?_, hkept.incomplete, ?_⟩
    · simp only [Function.update_of_ne hfd]
      exact hkept.arrived_eq
    · simp only [Function.update_of_ne hfd]
      exact hkept.called

theorem Kept.dispatched_eq (h : s.Kept decode fd con messages) {all : List (List UInt8)}
    (hall : Requests decode all) (hl : s.arrived fd <+: protoFrames all) :
    let complete := all.take (Delimited.Format.count (all.map protoFrame) (s.arrived fd).length)
    List.Forall₂ (Called decode fd) complete (s.dispatched fd) ∧
      con.unread = (s.arrived fd).drop (protoFrames complete).length := by
  have harrived := h.arrived_eq
  have hpre := hl
  rw [harrived] at hpre
  have htake := h.requests.eq_take hall hpre h.incomplete
  rw [← harrived] at htake
  simp only
  rw [← htake]
  refine ⟨h.called, ?_⟩
  rw [harrived, List.drop_left]

/-- A `Read` that the code can handle keeps the connection. -/
theorem Inv.read (hdec : lib.Decodes decode) {cb : ℕ → Req → Req} (hcb : lib.cb = some cb)
    (h : s.Inv decode) {fd : ℕ} {reader : Reader UInt8} {con : ProtoConnection}
    (hcon : s.manager.connections fd = some con) (hok : s.Meets decode (.read fd reader)) :
    (s.step lib (.read fd reader)).2.isSome = true ∧ Inv decode (s.step lib (.read fd reader)).1 ∧
      ∃ con', (s.step lib (.read fd reader)).1.manager.connections fd = some con' := by
  obtain ⟨done, hkept⟩ := h fd con hcon
  obtain ⟨⟨messages, hmessages, hpre⟩, hhandles⟩ := hok con hcon
  obtain ⟨hsound, hunread⟩ := hkept.sound.receive reader
  have harrived : s.arrived fd ++ con.readBuf.delivered reader
      = protoFrames done ++ (con.receive reader).unread := by
    rw [hunread, hkept.arrived_eq, List.append_assoc]
  rw [harrived] at hpre
  have hrest := hkept.requests.prefix_drop hmessages hpre
  have hzero := headD_of_prefix hrest
  have hdrop : Requests decode (messages.drop done.length) :=
    fun message hmem ↦ hmessages message (List.mem_of_mem_drop hmem)
  -- the call of `Read`, by what it leaves
  have hstep {events : List (Dispatch Req)} {con' : ProtoConnection} {request' : Req}
    {all : List (List UInt8)}
      (hprocess : (con.receive reader).process lib fd s.manager.request =
        some (events, con', request'))
      (hsound' : con'.Sound) (hall : Requests decode all)
      (heq : protoFrames done ++ (con.receive reader).unread = protoFrames all ++ con'.unread)
      (hinc : ¬protoFormat.Complete con'.unread)
      (hcalled : List.Forall₂ (Called decode fd) all (s.dispatched fd ++ events)) :
      (s.step lib (.read fd reader)).2.isSome = true ∧ Inv decode (s.step lib (.read fd reader)).1 ∧
        ∃ con', (s.step lib (.read fd reader)).1.manager.connections fd = some con' := by
    simp only [step, hcon, ProtoManager.step, ProtoManager.read, hprocess, Option.map_some,
      Option.getD_some, Option.isSome_some, true_and]
    refine ⟨h.update rfl ⟨hsound', hall, ?_, hinc, ?_⟩, con', Function.update_self _ _ _⟩
    · simp only [Function.update_self]
      rw [harrived, heq]
    · simp only [Function.update_self]
      exact hcalled
  by_cases hcomplete : protoFormat.Complete (con.receive reader).unread
  · obtain ⟨message, hmem, k, hk, hlen, hmessage⟩ := hdrop.exists_message hrest hcomplete
    have hlength : (con.receive reader).messageLength = message.length := hlen
    obtain ⟨request', hrequest⟩ := Option.isSome_iff_exists.mp
      ((hdrop message hmem).2 s.manager.request)
    obtain ⟨con', hprocess, hsound', hunread', hinc⟩ := ProtoConnection.process_of_complete fd
      hdec hcb hsound hhandles hzero hcomplete (by rw [hlength, hmessage]; exact hrequest)
    have hrest' : con'.unread = k := by
      rw [hunread', hlength, hk]
      exact List.drop_left' (by simp [protoFrame]; omega)
    have hall : Requests decode (done ++ [message]) := by
      intro m hm
      rcases List.mem_append.mp hm with hm | hm
      · exact hkept.requests m hm
      · rw [List.mem_singleton.mp hm]
        exact hdrop message hmem
    refine hstep hprocess hsound' hall ?_ hinc ?_
    · rw [hrest', hk, protoFrames, protoFrames, List.map_append, List.flatten_append,
        List.append_assoc, List.map_singleton, List.flatten_singleton]
    · exact List.rel_append hkept.called (.cons ⟨rfl, hrequest⟩ .nil)
  · obtain ⟨con', hprocess, hsound', hunread'⟩ := ProtoConnection.process_of_incomplete lib fd
      s.manager.request hsound hhandles hzero hcomplete
    refine hstep hprocess hsound' hkept.requests (by rw [hunread']) (hunread' ▸ hcomplete) ?_
    rw [List.append_nil]
    exact hkept.called

theorem Inv.step (hdec : lib.Decodes decode) {cb : ℕ → Req → Req} (hcb : lib.cb = some cb)
    (h : s.Inv decode) {op : ProtoOp} (hok : s.Meets decode op) :
    Inv decode (s.step lib op).1 ∧ s.Dispatches lib decode op := by
  cases op with
  | register fd =>
    refine ⟨?_, fun _ _ _ _ hop ↦ absurd hop (by simp)⟩
    rw [ProtoFeed.step, ProtoManager.step]
    cases hcon : s.manager.connections fd with
    | none =>
      have hnone : Requests decode [] := fun _ hm ↦ absurd hm List.not_mem_nil
      refine h.update rfl ⟨ProtoConnection.sound_new, hnone, ?_, ?_, ?_⟩
      · simp [ProtoConnection.unread_new, protoFrames]
      · rw [ProtoConnection.unread_new]
        decide
      · simp
    | some con => exact h
  | unregister fd =>
    refine ⟨fun fd' con' hcon' ↦ ?_, fun _ _ _ _ hop ↦ absurd hop (by simp)⟩
    rw [ProtoFeed.step, ProtoManager.step] at hcon'
    have hkeep : s.manager.connections fd' = some con' := by
      cases hcon : s.manager.connections fd with
      | none =>
        rw [hcon] at hcon'
        exact hcon'
      | some con =>
        rw [hcon] at hcon'
        simp only [ProtoManager.set, Function.update_apply] at hcon'
        split_ifs at hcon'
        exact hcon'
    obtain ⟨messages, hkept⟩ := h fd' con' hkeep
    exact ⟨messages, hkept.sound, hkept.requests, hkept.arrived_eq, hkept.incomplete, hkept.called⟩
  | read fd reader =>
    cases hcon : s.manager.connections fd with
    | none =>
      refine ⟨?_, fun fd' _ con _ hop hcon' ↦ ?_⟩
      · simp only [ProtoFeed.step, hcon, ProtoManager.step]
        exact h
      · obtain ⟨rfl, -⟩ := ProtoOp.read.inj hop
        rw [hcon] at hcon'
        exact absurd hcon' (by simp)
    | some con =>
      obtain ⟨hret, hinv, con', hcon'⟩ := h.read hdec hcb hcon hok
      refine ⟨hinv, fun fd' cb' con₁ messages hop _ hmessages hl ↦ ⟨hret, ?_⟩⟩
      obtain ⟨rfl, rfl⟩ := ProtoOp.read.inj hop
      obtain ⟨done, hkept⟩ := hinv fd con' hcon'
      exact ⟨con', hcon', hkept.dispatched_eq hmessages hl⟩

/-- **Every request is dispatched once**, in a run whose calls the code can handle. -/
theorem run_dispatches (hdec : lib.Decodes decode) {cb : ℕ → Req → Req} (hcb : lib.cb = some cb)
    (request : Req) (ops : List ProtoOp)
    (hok : Run.Steps (step lib) (Meets decode) (new request) ops) :
    Run.Steps (step lib) (Dispatches lib decode) (new request) ops :=
  Run.Steps.of_invariant (P := Inv decode) (fun _ _ hs hop ↦ (hs.step hdec hcb hop).1)
    (fun _ _ hs hop ↦ (hs.step hdec hcb hop).2) (inv_new decode request) hok

theorem requests_plain {messages : List (List UInt8)}
    (h : ∀ message ∈ messages, (protoFrame message).length ≤ 64 * 1024) :
    Requests (fun request l ↦ some (request ++ l)) messages :=
  fun message hm ↦ ⟨h message hm, fun _ ↦ rfl⟩

/-- Two messages, the first behind its header. -/
theorem run_dispatches_twoMessages :
    Run.Steps (step (ProtoLib.plain true))
      (Dispatches (ProtoLib.plain true) fun request l ↦ some (request ++ l)) (new [])
      [.register 5, .read 5 (Reader.ofList [0, 0, 0, 0, 4] (by decide)),
        .read 5 (Reader.ofList [1, 2, 3, 4] (by decide)),
        .read 5 (Reader.ofList [0, 0, 0, 0, 1, 9] (by decide))] := by
  have hrequests : Requests (fun request l ↦ some (request ++ l)) [[1, 2, 3, 4], [9]] :=
    requests_plain (by decide)
  refine run_dispatches (ProtoLib.plain_decodes true) rfl [] _ ⟨trivial, ?_, ?_, ?_, trivial⟩
  · exact fun con hcon ↦
      ⟨⟨_, hrequests, by revert con; decide +kernel⟩, by revert con; decide +kernel⟩
  · exact fun con hcon ↦
      ⟨⟨_, hrequests, by revert con; decide +kernel⟩, by revert con; decide +kernel⟩
  · exact fun con hcon ↦
      ⟨⟨_, hrequests, by revert con; decide +kernel⟩, by revert con; decide +kernel⟩

/-- Four bytes of a frame and no more: the first is taken, the length is not, and is read one byte
off. -/
theorem not_dispatches_of_four :
    ¬Run.Steps (step (ProtoLib.plain true))
      (Dispatches (ProtoLib.plain true) fun request l ↦ some (request ++ l)) (new [])
      [.register 5, .read 5 (Reader.ofList [0, 0, 0, 0] (by decide)),
        .read 5 (Reader.ofList [1, 7] (by decide))] := by
  rintro ⟨-, -, h, -⟩
  obtain ⟨-, con', -, hcalled, -⟩ := h 5 _ _ [[7]] rfl rfl (requests_plain (by decide))
    (by decide +kernel)
  have hlen := hcalled.length_eq
  exact absurd hlen (by decide +kernel)

end ProtoFeed

end Coypu
