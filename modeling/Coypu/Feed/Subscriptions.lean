import Coypu.Http.Asserting
import Coypu.Http.Framing
import Coypu.Library.Quoted
import Mathlib.Algebra.Order.BigOperators.Group.List
import Mathlib.Algebra.Order.Group.Nat

/-!
# What the feeds subscribe to

When a feed has opened its connection, it asks for the pairs of its configuration: GDAX with a
message for each channel and pair, Kraken with one for all pairs. Nobody looks at what `Queue`
returns. An exchange that reads the frames finds all that was asked for in the write buffer exactly
if all messages fit into it (`FeedRequest.subscribes_iff`).
-/

set_option autoImplicit false

namespace Coypu

open WebSocket

/-! ## The messages -/

/-- What a feed asks for. -/
inductive FeedRequest
  | gdax (symbolList channelList : List (List UInt8))
  | kraken (symbolList : List (List UInt8))

namespace FeedRequest

def quote : UInt8 := 0x22

/-- `subStr` of GDAX. -/
def gdaxSubStr (channel pair : List UInt8) : List UInt8 :=
  ascii "\x7b\"type\": \"subscribe\", \"channels\": [\x7b\"name\": \"" ++ channel
    ++ ascii "\", \"product_ids\": [\"" ++ pair ++ ascii "\"]\x7d]\x7d"

/-- `pairList`. -/
def pairList : List (List UInt8) → List UInt8
  | [] => []
  | [symbol] => quote :: (symbol ++ [quote])
  | symbol :: rest => quote :: (symbol ++ [quote]) ++ ascii "," ++ pairList rest

/-- `subStr` of Kraken. -/
def krakenSubStr (symbolList : List (List UInt8)) : List UInt8 :=
  ascii "\x7b\"event\": \"subscribe\", \"pair\": [" ++ pairList symbolList
    ++ ascii "], \"subscription\": \x7b \"name\" : \"*\", \"depth\": 100\x7d\x7d"

/-- The messages in the order in which they are queued. -/
def texts : FeedRequest → List (List UInt8)
  | gdax symbolList channelList =>
    channelList.flatMap fun channel ↦ symbolList.map fun pair ↦ gdaxSubStr channel pair
  | kraken symbolList => [krakenSubStr symbolList]

/-- `onOpen`. -/
def onOpen {cacheSize : ℕ} (r : FeedRequest) (con : Con cacheSize) : Con cacheSize :=
  r.texts.foldl (fun con text ↦ (con.queue .textFrame text).2) con

/-- What the messages say: their strings. -/
def strings : FeedRequest → List (List (List UInt8))
  | gdax symbolList channelList => channelList.flatMap fun channel ↦ symbolList.map fun pair ↦
    [ascii "type", ascii "subscribe", ascii "channels", ascii "name", channel,
      ascii "product_ids", pair]
  | kraken symbolList => [[ascii "event", ascii "subscribe", ascii "pair"] ++ symbolList
    ++ [ascii "subscription", ascii "name", ascii "*", ascii "depth"]]

/-- No name has a quotation mark. -/
def Plain : FeedRequest → Prop
  | gdax symbolList channelList =>
    (∀ symbol ∈ symbolList, quote ∉ symbol) ∧ ∀ channel ∈ channelList, quote ∉ channel
  | kraken symbolList => ∀ symbol ∈ symbolList, quote ∉ symbol

open Quoted

theorem quoted_gdaxSubStr {channel pair : List UInt8} (hchannel : quote ∉ channel)
    (hpair : quote ∉ pair) : quoted quote (gdaxSubStr channel pair)
      = [ascii "type", ascii "subscribe", ascii "channels", ascii "name", channel,
        ascii "product_ids", pair] := by
  have hhead (l : List UInt8) : quoted quote
      (ascii "\x7b\"type\": \"subscribe\", \"channels\": [\x7b\"name\": \"" ++ l)
      = [ascii "type", ascii "subscribe", ascii "channels", ascii "name"]
        ++ Quoted.strings quote (some []) l := rfl
  have hmiddle (l : List UInt8) : ascii "\", \"product_ids\": [\"" ++ l
      = quote :: (ascii ", \"product_ids\": [\"" ++ l) := rfl
  have hids (l : List UInt8) : quoted quote (ascii ", \"product_ids\": [\"" ++ l)
      = ascii "product_ids" :: Quoted.strings quote (some []) l := rfl
  have hend : ascii "\"]\x7d]\x7d" = quote :: ascii "]\x7d]\x7d" := rfl
  have hnone : quoted quote (ascii "]\x7d]\x7d") = [] := rfl
  rw [gdaxSubStr, List.append_assoc, List.append_assoc, List.append_assoc, hhead, hmiddle,
    strings_some hchannel, hids, hend, strings_some hpair, hnone]
  rfl

theorem quoted_pairList {symbolList : List (List UInt8)} (h : ∀ symbol ∈ symbolList, quote ∉ symbol)
    (l : List UInt8) : quoted quote (pairList symbolList ++ l) = symbolList ++ quoted quote l := by
  induction symbolList with
  | nil => rfl
  | cons symbol rest ih =>
    have hsymbol := h symbol List.mem_cons_self
    have hrest := ih fun s hs ↦ h s (List.mem_cons_of_mem _ hs)
    cases rest with
    | nil =>
      rw [pairList, List.cons_append, List.append_assoc, List.singleton_append,
        quoted_string hsymbol]
      rfl
    | cons symbol' rest =>
      have hcomma (k : List UInt8) : quoted quote (ascii "," ++ k) = quoted quote k := rfl
      have hassoc : pairList (symbol :: symbol' :: rest) ++ l
          = quote :: (symbol ++ quote :: (ascii "," ++ (pairList (symbol' :: rest) ++ l))) := by
        simp [pairList]
      rw [hassoc, quoted_string hsymbol, hcomma, hrest]
      rfl

/-- **What is asked for** can be read from the messages. -/
theorem map_quoted_texts {r : FeedRequest} (h : r.Plain) :
    r.texts.map (quoted quote) = r.strings := by
  cases r with
  | gdax symbolList channelList =>
    rw [texts, strings, List.map_flatMap]
    refine List.flatMap_congr fun channel hchannel ↦ ?_
    rw [List.map_map]
    exact List.map_congr_left fun pair hpair ↦
      quoted_gdaxSubStr (h.2 channel hchannel) (h.1 pair hpair)
  | kraken symbolList =>
    have hhead (l : List UInt8) : quoted quote
        (ascii "\x7b\"event\": \"subscribe\", \"pair\": [" ++ l)
        = [ascii "event", ascii "subscribe", ascii "pair"] ++ quoted quote l := rfl
    rw [texts, strings, List.map_singleton, krakenSubStr, List.append_assoc, hhead,
      quoted_pairList h, List.append_assoc]
    rfl

end FeedRequest

/-! ## What the exchange reads -/

/-- What a peer takes from the front of a stream: an operation code with a payload, from which the
key is taken off, and the rest. There is nothing if the frame is not there as a whole. -/
def readFrame : List UInt8 → Option ((UInt8 × List UInt8) × List UInt8)
  | h₀ :: h₁ :: t =>
    let extendedLen := Con.extended (0x7F &&& h₁)
    let len := if extendedLen = 0 then (0x7F &&& h₁).toNat else Bytes.decode (t.take extendedLen)
    let keyLen := if h₁ &&& 0x80 ≠ 0 then wsMaskLen else 0
    let key := (t.drop extendedLen).take keyLen
    let body := t.drop (extendedLen + keyLen)
    if body.length < len then none
    else some ((h₀ &&& 0x0F, Bytes.xorMask key 0 (body.take len)), body.drop len)
  | _ => none

/-- The frames that are whole in a stream, as many as there can be. -/
def readFrames : ℕ → List UInt8 → List (UInt8 × List UInt8)
  | 0, _ => []
  | n + 1, l =>
    match readFrame l with
    | none => []
    | some (frame, rest) => frame :: readFrames n rest

namespace Con

variable {cacheSize : ℕ} {con : Con cacheSize}

theorem readFrame_wire (hmask : con.mask.length = wsMaskLen) (hmasked : con.masked = true)
    {code : WSOPCode} (hcode : code ≠ .unknown) {payload : List UInt8}
    (hlen : payload.length < 2 ^ 63) (rest : List UInt8) :
    readFrame (con.wire code payload ++ rest) = some ((code.value, payload), rest) := by
  have hkey : con.wireKey = con.mask := if_pos hmasked
  have hbody : con.wireBody payload = Bytes.xorMask con.mask 0 payload := if_pos hmasked
  have hbit := (highBit_maskBit con.masked payload.length).mpr hmasked
  have hdec := decode_extension hlen
  have hdrop (l : List UInt8) : (extension payload.length ++ con.mask ++ l).drop
      ((extension payload.length).length + wsMaskLen) = l := by
    rw [← hmask, ← List.length_append, List.drop_left]
  rw [wire_eq, hkey, hbody, List.cons_append, List.cons_append, readFrame]
  simp only [lengthBits_maskBit, extended_shortLen, if_pos hbit]
  rw [List.append_assoc, List.append_assoc, List.take_left, hdec, List.drop_left, ← hmask,
    List.take_left, hmask, ← List.append_assoc, hdrop, (opcode_eq_iff code).mpr hcode, if_neg]
  · rw [List.take_left' (Bytes.length_xorMask ..), List.drop_left' (Bytes.length_xorMask ..),
      Bytes.xorMask_xorMask]
  · rw [List.length_append, Bytes.length_xorMask]
    omega

/-- The exchange reads back what was written. The induction is on the messages. -/
theorem readFrames_wire (hmask : con.mask.length = wsMaskLen) (hmasked : con.masked = true)
    {code : WSOPCode} (hcode : code ≠ .unknown) {texts : List (List UInt8)}
    (hlen : ∀ text ∈ texts, text.length < 2 ^ 63) :
    readFrames texts.length (texts.flatMap (con.wire code))
      = texts.map fun text ↦ (code.value, text) := by
  induction texts with
  | nil => rfl
  | cons text texts ih =>
    rw [List.flatMap_cons, List.length_cons, readFrames,
      readFrame_wire hmask hmasked hcode (hlen text List.mem_cons_self), List.map_cons]
    exact congrArg _ (ih fun text' htext' ↦ hlen text' (List.mem_cons_of_mem _ htext'))

/-! ## Queueing all of them -/

/-- Messages that are queued one behind the other. -/
def queueAll (con : Con cacheSize) (code : WSOPCode) (texts : List (List UInt8)) : Con cacheSize :=
  texts.foldl (fun con text ↦ (con.queue code text).2) con

/-- The bytes of all of them. -/
def neededAll (texts : List (List UInt8)) (masked : Bool) : ℕ :=
  (texts.map fun text ↦ needed text.length masked).sum

theorem queueAll_wf (h : con.writeBuf.Wf) (hcap : con.writeBuf.capacity < 2 ^ 32)
    (code : WSOPCode) (texts : List (List UInt8)) :
    (con.queueAll code texts).writeBuf.Wf ∧
      (con.queueAll code texts).writeBuf.capacity = con.writeBuf.capacity := by
  induction texts generalizing con with
  | nil => exact ⟨h, rfl⟩
  | cons text texts ih =>
    obtain ⟨hwf, hsame⟩ := queue_wf h hcap code text
    obtain ⟨hwf', hsame'⟩ := ih hwf (hsame.symm ▸ hcap)
    exact ⟨hwf', hsame'.trans hsame⟩

theorem length_flatMap_wire (hmask : con.mask.length = wsMaskLen) (code : WSOPCode)
    (texts : List (List UInt8)) :
    (texts.flatMap (con.wire code)).length = neededAll texts con.masked := by
  rw [List.length_flatMap, neededAll]
  exact congrArg List.sum (List.map_congr_left fun text _ ↦ length_wire hmask)

/-- If there is room for all of them, each finds its room. The induction is on the messages. -/
theorem contents_queueAll (h : con.writeBuf.Wf) (hcap : con.writeBuf.capacity < 2 ^ 32)
    (hmask : con.mask.length = wsMaskLen) (hmasked : con.masked = true) (hsends : con.Sends)
    (code : WSOPCode) {texts : List (List UInt8)}
    (hfits : neededAll texts true ≤ con.writeBuf.free) :
    (con.queueAll code texts).writeBuf.contents
      = con.writeBuf.contents ++ texts.flatMap (con.wire code) := by
  induction texts generalizing con with
  | nil => exact (List.append_nil _).symm
  | cons text texts ih =>
    have hfree := h.rep.free_eq
    have hheld := h.rep.length_le
    have hone : (con.wire code text).length = needed text.length con.masked := length_wire hmask
    rw [neededAll, List.map_cons, List.sum_cons, ← neededAll, ← hmasked, ← hone] at hfits
    have hroom : HasRoom con.writeBuf.free text.length con.masked := by
      rw [hone, needed, frameLen, hmasked, if_pos rfl] at hfits
      rw [HasRoom, hmasked, if_pos rfl]
      omega
    obtain ⟨-, hbuf, hcon⟩ := queue_of_room code hsends h.buffers hcap hroom fun _ ↦ by omega
    have hwire : (con.queue code text).2.wire code = con.wire code := by
      rw [hcon]
      rfl
    have hrest := ih hbuf.wf
      (hbuf.capacity_eq.symm ▸ hcap) (by rw [hcon]; exact hmask) (by rw [hcon]; exact hmasked)
      (by rw [hcon]; exact hsends) (by
        rw [hbuf.free_eq, List.length_append]
        rw [hmasked] at hfits
        omega)
    rw [queueAll, List.foldl_cons, ← queueAll, hrest, hbuf.rep.contents_eq, hwire,
      List.append_assoc, List.flatMap_cons]

/-- **All messages are queued whole** exactly if there is room for all of them. -/
theorem contents_queueAll_iff (h : con.writeBuf.Wf) (hcap : con.writeBuf.capacity < 2 ^ 32)
    (hmask : con.mask.length = wsMaskLen) (hmasked : con.masked = true) (hsends : con.Sends)
    (code : WSOPCode) (texts : List (List UInt8)) :
    (con.queueAll code texts).writeBuf.contents
      = con.writeBuf.contents ++ texts.flatMap (con.wire code) ↔
      neededAll texts true ≤ con.writeBuf.free := by
  refine ⟨fun hall ↦ ?_, contents_queueAll h hcap hmask hmasked hsends code⟩
  obtain ⟨hwf, hsame⟩ := queueAll_wf h hcap code texts
  have hheld := hwf.rep.length_le
  rw [← hwf.rep.contents_eq, hall, hsame, List.length_append, length_flatMap_wire hmask, hmasked]
    at hheld
  rw [h.rep.free_eq]
  omega

end Con

/-! ## Subscribing -/

namespace FeedRequest

open Quoted

variable {cacheSize : ℕ} {con : Con cacheSize} {r : FeedRequest}

/-- All messages are behind what was in the write buffer, and an exchange that reads them finds what
was asked for. -/
def Subscribes (r : FeedRequest) (con : Con cacheSize) : Prop :=
  ∃ sent, (r.onOpen con).writeBuf.contents = con.writeBuf.contents ++ sent ∧
    sent = r.texts.flatMap (con.wire .textFrame) ∧
    (readFrames r.texts.length sent).map (fun frame ↦ (frame.1, quoted quote frame.2))
      = r.strings.map fun strings ↦ (WSOPCode.textFrame.value, strings)

theorem length_le_neededAll {texts : List (List UInt8)} {text : List UInt8} (h : text ∈ texts)
    (masked : Bool) : text.length ≤ Con.neededAll texts masked := by
  have hone : needed text.length masked ≤ Con.neededAll texts masked :=
    List.le_sum_of_mem (List.mem_map_of_mem h)
  refine Nat.le_trans ?_ hone
  rw [needed, frameLen]
  omega

/-- **A feed subscribes to all that is configured** exactly if there is room for all of its
messages. -/
theorem subscribes_iff (h : con.writeBuf.Wf) (hcap : con.writeBuf.capacity < 2 ^ 32)
    (hmask : con.mask.length = wsMaskLen) (hmasked : con.masked = true) (hsends : con.Sends)
    (hplain : r.Plain) :
    r.Subscribes con ↔ Con.neededAll r.texts true ≤ con.writeBuf.free := by
  have hall := Con.contents_queueAll_iff h hcap hmask hmasked hsends .textFrame r.texts
  constructor
  · rintro ⟨sent, hsent, rfl, -⟩
    exact hall.mp hsent
  · intro hfits
    have hlen : ∀ text ∈ r.texts, text.length < 2 ^ 63 := by
      intro text htext
      have hle := length_le_neededAll htext true
      have hfree := h.rep.free_eq
      omega
    refine ⟨_, hall.mpr hfits, rfl, ?_⟩
    rw [Con.readFrames_wire hmask hmasked (by decide) hlen, ← map_quoted_texts hplain,
      List.map_map, List.map_map]
    rfl

theorem plain_one : (gdax [ascii "BTC-USD"] [ascii "level2"]).Plain := by
  unfold Plain
  decide

/-- GDAX with one pair and one channel. -/
theorem subscribes_one :
    (gdax [ascii "BTC-USD"] [ascii "level2"]).Subscribes (Con.clientFilledTo 0) :=
  (subscribes_iff (Con.clientFilledTo_wf (by decide)) (by decide) rfl rfl (Or.inl rfl)
    plain_one).mpr (by decide)

end FeedRequest

end Coypu
