import Coypu.Cache.Interning
import Coypu.Cache.TagTrace
import Coypu.Http.Publishing

/-!
# The index of the trades

`onText` publishes a trade of GDAX and queues a record for it, with the range of the publish log
between two readings of `Available` and the number that the `TagStore` gives to the product. What
else is published does not move the ranges, so a record names the frame of its trade for ever, and
a descriptor that is started behind its subscriptions gets the frames of the trades of the products
that it subscribed to, and nothing else (`TradeTrace.Serves`).

The number is a local variable, which nothing sets where the `TagStore` has no number for the
product; what it holds then is an argument of the step.
-/

set_option autoImplicit false

namespace Coypu

open FlatMemory Transport WebSocket

variable {cacheSize : ℕ}

/-! ## Logs that grow -/

/-- The bytes of a log are those of another one, and maybe more. -/
structure LogRWStream.Grows (log log' : LogRWStream cacheSize) : Prop where
  position_eq : log'.position = log'.available
  le : log.available ≤ log'.available
  data_eq : ∀ i < log.available, log'.data i = log.data i

namespace LogRWStream

variable {log log₁ log₂ : LogRWStream cacheSize}

theorem Grows.refl (h : log.position = log.available) : log.Grows log :=
  ⟨h, Nat.le_refl _, fun _ _ ↦ rfl⟩

theorem Grows.trans (h : log.Grows log₁) (h' : log₁.Grows log₂) : log.Grows log₂ where
  position_eq := h'.position_eq
  le := Nat.le_trans h.le h'.le
  data_eq i hi := (h'.data_eq i (Nat.lt_of_lt_of_le hi h.le)).trans (h.data_eq i hi)

theorem Grows.load_eq (h : log.Grows log₁) {start len : ℕ} (hend : start + len ≤ log.available) :
    load log₁.data start len = load log.data start len :=
  load_congr fun i _ hi ↦ h.data_eq i (Nat.lt_of_lt_of_le hi hend)

theorem Grows.push (h : log.Grows log₁) (l : List UInt8) :
    log.Grows (FrameSink.push log₁ l) := by
  refine h.trans ?_
  change log₁.Grows (log₁.push l none).2
  by_cases hroom : log₁.position + l.length < 2 ^ 63
  · rw [push_of_room hroom]
    refine ⟨congrArg (· + l.length) h.position_eq, Nat.le_add_right _ _, fun i hi ↦ ?_⟩
    exact store_of_lt l (by rwa [h.position_eq])
  · have hsame : (log₁.push l none).2 = log₁ := by
      rw [LogRWStream.push]
      simp only [dif_neg hroom]
    rw [hsame]
    exact .refl h.position_eq

theorem grows_publish (h : log.position = log.available) (m : Message) :
    log.Grows (log.publish m) := by
  refine Grows.push ?_ m.payload
  have hrefl : log.Grows log := .refl h
  rw [writeFrame]
  simp only [Bool.false_eq_true, if_false]
  split_ifs
  · exact hrefl
  · exact hrefl.push _
  · exact hrefl
  · exact (hrefl.push _).push _
  · exact hrefl
  · exact (hrefl.push _).push _

/-- Where `WriteFrame` sees the room, the frame is between the two readings of `Available`. -/
theorem publish_range {m : Message} (hpos : log.position = log.available) (h : log.Sees m) :
    (log.publish m).available = log.available + m.frame.length ∧
      load (log.publish m).data log.available m.frame.length = m.frame := by
  have hroom : log.position + m.frame.length < 2 ^ 63 := by
    rw [hpos]
    exact h.2
  rw [publish_of_sees hpos h, push_of_room hroom]
  refine ⟨rfl, ?_⟩
  change load (store log.data log.position m.frame) log.available m.frame.length = m.frame
  rw [← hpos]
  exact load_store_self log.data log.position m.frame

end LogRWStream

/-! ## Trades -/

/-- The record of a trade, from what `Available` was before and after it. -/
def TagType.ofTrade (before after : ℕ) (tagId : UInt32) : TagType :=
  ⟨UInt64.ofNat before, UInt64.ofNat after - UInt64.ofNat before, 1, tagId, -1, 1⟩

theorem TagType.ofTrade_range {before len : ℕ} (h : before + len < 2 ^ 63) (tagId : UInt32) :
    (ofTrade before (before + len) tagId).offset.toNat = before ∧
      (ofTrade before (before + len) tagId).len.toNat = len := by
  have hoffset : (UInt64.ofNat before).toNat = before :=
    UInt64.toNat_ofNat_of_lt' (by change before < 2 ^ 64; omega)
  have hend : (UInt64.ofNat (before + len)).toNat = before + len :=
    UInt64.toNat_ofNat_of_lt' (by change before + len < 2 ^ 64; omega)
  refine ⟨hoffset, ?_⟩
  change (UInt64.ofNat (before + len) - UInt64.ofNat before).toNat = len
  rw [UInt64.toNat_sub_of_le _ _ (UInt64.le_iff_toNat_le.mpr (by omega)), hoffset, hend]
  omega

theorem TagType.ofTrade_isPersistent (before after : ℕ) (tagId : UInt32) :
    (ofTrade before after tagId).isPersistent = true := by
  change ((1 : UInt8) &&& 0x1 != 0) = true
  decide

/-- A product that has a number, or that is taken while there are numbers, gets one. -/
theorem Interning.Inv.getOrCreateTag_some {g : LRUCache 1 → ℕ → LRUCache 1} {s : Interning}
    (h : s.Inv) {tag : Tag} {failing : RecordFaults}
    (hok : tag ∉ s.given → FaultyTags.Taken g failing s.store tag ∧ s.given.length < 2 ^ 32) :
    ∃ id, (Interning.step g s (.getOrCreateTag tag failing)).2 = some (.id (some id)) ∧
      (Interning.step g s (.getOrCreateTag tag failing)).1.given[id]? = some tag ∧
      id < 2 ^ 32 ∧ s.given <+: (Interning.step g s (.getOrCreateTag tag failing)).1.given := by
  by_cases htag : tag ∈ s.given
  · obtain ⟨id, hid, hstep⟩ := h.getOrCreateTag_of_mem (g := g) htag failing
    have hlt := (List.getElem?_eq_some_iff.mp hid).1
    rw [hstep]
    exact ⟨id, rfl, hid, Nat.lt_of_lt_of_le hlt h.length_le, List.prefix_refl _⟩
  · obtain ⟨htaken, hlt⟩ := hok htag
    have hnext : s.store.nextId = s.given.length := by
      rw [h.nextId_eq, Nat.mod_eq_of_lt hlt]
    rcases h.getOrCreateTag_of_not_mem (g := g) htag failing with
      ⟨-, buf, hstep⟩ | ⟨hnot, -⟩ | ⟨hnot, -⟩
    · rw [hstep, hnext]
      exact ⟨_, rfl, List.getElem?_concat_length, hlt, List.prefix_append _ _⟩
    · exact absurd htaken hnot
    · exact absurd htaken.survives hnot

/-- The publish log, the tag store, the tag stream with what is known of a descriptor, and the
trades whose records the queue took. -/
structure TradeTrace (cacheSize : ℕ) where
  log : LogRWStream cacheSize
  tags : Interning
  stream : TagTrace
  indexed : List (Tag × Message)

/-- What is published, the trades, with their products, and the calls and events of the tag
stream. -/
inductive TradeOp where
  | publish (m : Message)
  | trade (product : Tag) (payload : List UInt8) (failing : RecordFaults) (unset : UInt32)
  | stream (op : TagStreamOp)

namespace TradeTrace

variable (g : LRUCache 1 → ℕ → LRUCache 1) (asserts : Bool) (fd old : ℕ)
  (s : TradeTrace cacheSize)

/-- The local variable behind `GetOrCreateTag`. -/
def tagId (unset : UInt32) : InternAnswer → UInt32
  | .id (some id) => UInt32.ofNat id
  | .id none | .tag _ => unset

/-- A trade is published, and its record is queued. -/
def queueTrade (product : Tag) (payload : List UInt8) (tags : Interning) (tagId : UInt32) :
    TradeTrace cacheSize × Option TagAnswer :=
  let m : Message := ⟨false, payload⟩
  let log := s.log.publish m
  let record := TagType.ofTrade s.log.available log.available tagId
  let q := s.stream.step asserts fd (.queue record)
  ({ log
     tags
     stream := q.1
     indexed :=
       if (s.stream.system.stream.offsetStore.append record).1 then s.indexed ++ [(product, m)]
       else s.indexed }, q.2)

/-- The branch of `onText` for a trade. Nothing is queued if the process ends in
`GetOrCreateTag`. -/
def trade (product : Tag) (payload : List UInt8) (failing : RecordFaults) (unset : UInt32) :
    TradeTrace cacheSize × Option TagAnswer :=
  let r := Interning.step g s.tags (.getOrCreateTag product failing)
  r.2.elim (s, none) fun answer ↦ s.queueTrade asserts fd product payload r.1 (tagId unset answer)

def step : TradeOp → TradeTrace cacheSize × Option TagAnswer
  | .publish m => ({ s with log := s.log.publish m }, none)
  | .trade product payload failing unset => s.trade g asserts fd product payload failing unset
  | .stream op =>
    let q := s.stream.step asserts fd op
    ({ s with stream := q.1 }, q.2)

/-- `WriteFrame` sees the room for a trade, and its product has a number or gets one. The records
are those of the trades. The descriptor is started at a record of a trade, once the publish stream
is registered, and behind its subscriptions. -/
def Meets (s : TradeTrace cacheSize) : TradeOp → Prop
  | .publish _ => True
  | .trade product payload failing _ => s.log.Sees ⟨false, payload⟩ ∧
      (product ∉ s.tags.given →
        FaultyTags.Taken g failing s.tags.store product ∧ s.tags.given.length < 2 ^ 32)
  | .stream (.queue _) => False
  | .stream (.subscribe fd' _) => fd' = fd → s.stream.start = none
  | .stream (.start fd' tagOffset) => fd' = fd → s.stream.start = none ∧ 1 ∈ s.stream.streams ∧
      (TagType.size : ℤ) ∣ tagOffset ∧ old ≤ CInt.toUnsigned 64 tagOffset / TagType.size
  | .stream op => s.stream.Meets asserts fd op

/-- A record is for a trade: its tag is that of the product, and its range of the log is the
frame. -/
structure Names (log : LogRWStream cacheSize) (tags : Interning) (t : TagType)
    (trade : Tag × Message) : Prop where
  streamId_eq : t.streamId = 1
  fd_eq : t.fd = -1
  persistent : t.isPersistent = true
  findTag_eq : tags.store.findTag trade.1 = some t.tagId.toNat
  getTag_eq : tags.store.getTag t.tagId.toNat = trade.1
  end_le : t.offset.toNat + t.len.toNat ≤ log.available
  frame_eq : load log.data t.offset.toNat t.len.toNat = trade.2.frame

/-- The descriptor subscribed to the number of the product. -/
def subscribed (product : Tag) : Bool :=
  s.stream.tags.any fun id ↦ s.tags.store.findTag product == some id.toNat

/-- The frames of the trades of the products that the descriptor subscribed to. -/
def framesFor (trades : List (Tag × Message)) : List UInt8 :=
  (trades.filter fun trade ↦ s.subscribed trade.1).flatMap fun trade ↦ trade.2.frame

/-- The bytes of the log that the descriptor accepted. -/
def received : List UInt8 := s.stream.accepted.map fun b ↦ s.log.data b.2

/-- Each record names its trade. What the descriptor has is the beginning of the frames of the
trades for it from its start on, and all of them if `StreamWrite` says that nothing is left. -/
structure Serves (s : TradeTrace cacheSize) (op : TradeOp) : Prop where
  names : List.Forall₂ (Names (s.step g asserts fd op).1.log (s.step g asserts fd op).1.tags)
    ((s.step g asserts fd op).1.stream.queued.drop old) (s.step g asserts fd op).1.indexed
  received_prefix : ∀ k, (s.step g asserts fd op).1.stream.start = some k →
    (s.step g asserts fd op).1.received <+: (s.step g asserts fd op).1.framesFor
      ((s.step g asserts fd op).1.indexed.drop (k - old))
  received_eq : ∀ k results a, (s.step g asserts fd op).1.stream.start = some k →
    op = .stream (.streamWrite fd results) → (s.step g asserts fd op).2 = some a → a.ret = 0 →
      (s.step g asserts fd op).1.received = (s.step g asserts fd op).1.framesFor
        ((s.step g asserts fd op).1.indexed.drop (k - old))

/-- What holds between the steps. -/
structure Inv (s : TradeTrace cacheSize) : Prop where
  position_eq : s.log.position = s.log.available
  tags : s.tags.Inv
  stream : s.stream.Inv fd
  old_le : old ≤ s.stream.queued.length
  names : List.Forall₂ (Names s.log s.tags) (s.stream.queued.drop old) s.indexed
  started : ∀ k, s.stream.start = some k → old ≤ k ∧ 1 ∈ s.stream.streams ∧
    ∀ p ∈ s.stream.passed, p.1.streamId = 1 ∧ p.2 = s.stream.wanted fd p.1

variable {g asserts fd old s} {log log' : LogRWStream cacheSize} {tags tags' : Interning}
  {t : TagType} {trade : Tag × Message} {op : TradeOp}

/-! ## Records -/

theorem Names.grow (h : Names log tags t trade) (hlog : log.Grows log') (hinv : tags.Inv)
    (hinv' : tags'.Inv) (hgiven : tags.given <+: tags'.given) : Names log' tags' t trade := by
  have hget : tags'.given[t.tagId.toNat]? = some trade.1 := by
    obtain ⟨hlt, heq⟩ := List.getElem?_eq_some_iff.mp (hinv.findTag_iff.mp h.findTag_eq)
    rw [← heq]
    exact List.prefix_iff_getElem?.mp hgiven _ hlt
  exact ⟨h.streamId_eq, h.fd_eq, h.persistent, hinv'.findTag_iff.mpr hget, hinv'.getTag_eq hget,
    Nat.le_trans h.end_le hlog.le, (hlog.load_eq h.end_le).trans h.frame_eq⟩

theorem names_ofTrade (hpos : log.position = log.available) {m : Message} (hsees : log.Sees m)
    (hinv : tags.Inv) {id : ℕ} {product : Tag} (hget : tags.given[id]? = some product)
    (hlt : id < 2 ^ 32) : Names (log.publish m) tags
      (TagType.ofTrade log.available (log.publish m).available (UInt32.ofNat id))
      (product, m) := by
  obtain ⟨havailable, hframe⟩ := LogRWStream.publish_range hpos hsees
  obtain ⟨hoffset, hlen⟩ := TagType.ofTrade_range hsees.2 (UInt32.ofNat id)
  have hid : (TagType.ofTrade log.available (log.available + m.frame.length)
      (UInt32.ofNat id)).tagId.toNat = id := UInt32.toNat_ofNat_of_lt' hlt
  rw [havailable]
  refine ⟨rfl, rfl, TagType.ofTrade_isPersistent _ _ _, ?_, ?_, ?_, ?_⟩
  · rw [hid]
    exact hinv.findTag_iff.mpr hget
  · rw [hid]
    exact hinv.getTag_eq hget
  · rw [hoffset, hlen, havailable]
  · rw [hoffset, hlen]
    exact hframe

/-- A record is for the descriptor exactly if the product is. -/
theorem Names.wanted_eq (h : Names s.log s.tags t trade) (hstream : 1 ∈ s.stream.streams) :
    s.stream.wanted fd t = s.subscribed trade.1 := by
  have hfd : t.fd.toInt ≠ fd := by
    rw [h.fd_eq]
    intro heq
    have hneg : (-1 : Int32).toInt = -1 := by decide
    omega
  have hcontains : s.stream.streams.contains t.streamId = true := by
    rw [h.streamId_eq]
    exact List.contains_iff_mem.mpr hstream
  rw [TagTrace.wanted, hcontains, Bool.and_true, decide_eq_false hfd, Bool.false_or, subscribed,
    h.findTag_eq, Bool.eq_iff_iff, List.contains_iff_mem, List.any_eq_true]
  constructor
  · intro hmem
    exact ⟨t.tagId, hmem, beq_self_eq_true _⟩
  · rintro ⟨id, hmem, heq⟩
    have hid : t.tagId.toNat = id.toNat := Option.some.inj (beq_iff_eq.mp heq)
    rwa [UInt32.toNat_inj.mp hid]

theorem map_range (h : Names s.log s.tags t trade) :
    (t.range.map fun b ↦ s.log.data b.2) = trade.2.frame := by
  have hlt : t.offset.toNat + t.len.toNat < 2 ^ 64 := by
    have hend := h.end_le
    have hposition := s.log.available_le
    have hlog := s.log.position_lt
    omega
  rw [← h.frame_eq, TagType.range, streamBytes, List.map_map]
  refine List.ext_getElem (by simp) fun i hi _ ↦ ?_
  rw [List.length_map, List.length_range] at hi
  rw [List.getElem_map, List.getElem_range, getElem_load]
  change s.log.data ((t.offset.toNat + i) % 2 ^ 64) = _
  rw [Nat.mod_eq_of_lt (by omega)]

theorem framesFor_cons (trade : Tag × Message) (trades : List (Tag × Message)) :
    s.framesFor (trade :: trades)
      = (if s.subscribed trade.1 then trade.2.frame else []) ++ s.framesFor trades := by
  rw [framesFor, List.filter_cons, framesFor]
  split_ifs
  · rw [List.flatMap_cons]
  · rfl

theorem framesFor_append (l k : List (Tag × Message)) :
    s.framesFor (l ++ k) = s.framesFor l ++ s.framesFor k := by
  rw [framesFor, List.filter_append, List.flatMap_append, framesFor, framesFor]

theorem map_delivered (fd : ℕ) {records : List TagType} {trades : List (Tag × Message)}
    (h : List.Forall₂ (Names s.log s.tags) records trades) (hstream : 1 ∈ s.stream.streams) :
    ((delivered (records.map fun t ↦ (t, s.stream.wanted fd t))).map fun b ↦ s.log.data b.2)
      = s.framesFor trades := by
  induction h with
  | nil => rfl
  | @cons t trade records trades hnames _ ih =>
    rw [List.map_cons, delivered, List.flatMap_cons, ← delivered, List.map_append, ih,
      framesFor_cons, hnames.wanted_eq hstream]
    congr 1
    split_ifs
    · exact map_range hnames
    · rfl

/-! ## What the descriptor has -/

namespace Inv

theorem names_drop (h : s.Inv fd old) {k : ℕ} (hk : old ≤ k) :
    List.Forall₂ (Names s.log s.tags) (s.stream.queued.drop k) (s.indexed.drop (k - old)) := by
  have hdrop := List.forall₂_drop (k - old) h.names
  rwa [List.drop_drop, Nat.add_sub_cancel' hk] at hdrop

theorem names_of_mem (h : s.Inv fd old) {k : ℕ} (hk : old ≤ k) (ht : t ∈ s.stream.queued.drop k) :
    ∃ trade, Names s.log s.tags t trade := by
  obtain ⟨i, hi⟩ := List.mem_iff_getElem?.mp ht
  obtain ⟨hlt, rfl⟩ := List.getElem?_eq_some_iff.mp hi
  have hnames := h.names_drop hk
  exact ⟨_, hnames.get hlt (by rwa [← hnames.length_eq])⟩

theorem firstPart_prefix (h : s.Inv fd old) {k : ℕ} (hk : s.stream.start = some k)
    {data : FDData} (hexact : s.stream.Exact fd k data) :
    ((firstPart s.stream.queued (k + s.stream.passed.length) data.written).map
        fun b ↦ s.log.data b.2)
      <+: s.framesFor ((s.indexed.drop (k - old)).drop s.stream.passed.length) := by
  by_cases hzero : data.written = 0
  · rw [hzero, firstPart, List.take_zero, List.map_nil]
    exact List.nil_prefix
  obtain ⟨hold, hstream, -⟩ := h.started k hk
  obtain ⟨t, ht, -, hwanted, -⟩ := hexact.current hzero
  have hrest := List.forall₂_drop s.stream.passed.length (h.names_drop hold)
  rw [List.drop_drop, List.drop_eq_getElem?_toList_append, ht] at hrest
  obtain ⟨trade, trades, hnames, -, heq⟩ := List.forall₂_cons_left_iff.mp hrest
  rw [heq, framesFor_cons, ← hnames.wanted_eq hstream, hwanted, if_pos rfl, firstPart_eq ht,
    List.map_take, map_range hnames]
  exact (List.take_prefix _ _).trans (List.prefix_append _ _)

theorem passed_eq (h : s.Inv fd old) {k : ℕ} (hk : s.stream.start = some k) {data : FDData}
    (hexact : s.stream.Exact fd k data) :
    s.stream.passed = ((s.stream.queued.drop k).take s.stream.passed.length).map
      fun t ↦ (t, s.stream.wanted fd t) := by
  obtain ⟨-, -, hpassed⟩ := h.started k hk
  have htake := List.prefix_iff_eq_take.mp hexact.passed_prefix
  rw [List.length_map] at htake
  rw [← htake, List.map_map]
  refine (List.map_id _).symm.trans (List.map_congr_left fun p hp ↦ ?_)
  exact Prod.ext rfl (hpassed p hp).2

theorem map_delivered_passed (h : s.Inv fd old) {k : ℕ} (hk : s.stream.start = some k)
    {data : FDData} (hexact : s.stream.Exact fd k data) :
    ((delivered s.stream.passed).map fun b ↦ s.log.data b.2)
      = s.framesFor ((s.indexed.drop (k - old)).take s.stream.passed.length) := by
  obtain ⟨hold, hstream, -⟩ := h.started k hk
  have htake := List.forall₂_take s.stream.passed.length (h.names_drop hold)
  have heq := map_delivered fd htake hstream
  rwa [← h.passed_eq hk hexact] at heq

theorem received_eq_append (h : s.Inv fd old) {k : ℕ} (hk : s.stream.start = some k)
    {data : FDData} (hexact : s.stream.Exact fd k data) :
    s.received = s.framesFor ((s.indexed.drop (k - old)).take s.stream.passed.length)
      ++ (firstPart s.stream.queued (k + s.stream.passed.length) data.written).map
        fun b ↦ s.log.data b.2 := by
  rw [received, hexact.accepted_eq, List.map_append, h.map_delivered_passed hk hexact]

theorem received_prefix (h : s.Inv fd old) {k : ℕ} (hk : s.stream.start = some k) :
    s.received <+: s.framesFor (s.indexed.drop (k - old)) := by
  obtain ⟨⟨data, hexact⟩, -⟩ := h.stream.exact k hk
  have hframes := s.framesFor_append ((s.indexed.drop (k - old)).take s.stream.passed.length)
    ((s.indexed.drop (k - old)).drop s.stream.passed.length)
  rw [List.take_append_drop] at hframes
  rw [h.received_eq_append hk hexact, hframes]
  exact (List.prefix_append_right_inj _).mpr (h.firstPart_prefix hk hexact)

theorem received_eq (h : s.Inv fd old) {k : ℕ} (hk : s.stream.start = some k)
    (hall : s.stream.passed.map Prod.fst = s.stream.queued.drop k) :
    s.received = s.framesFor (s.indexed.drop (k - old)) := by
  obtain ⟨⟨data, hexact⟩, -⟩ := h.stream.exact k hk
  have hnames := h.names_drop (h.started k hk).1
  have hlen : s.stream.passed.length = (s.indexed.drop (k - old)).length := by
    rw [← hnames.length_eq, ← hall, List.length_map]
  have hpart := h.firstPart_prefix hk hexact
  rw [hlen, List.drop_length] at hpart
  rw [h.received_eq_append hk hexact, hlen, List.take_length, List.prefix_nil.mp hpart,
    List.append_nil]

/-! ## Steps -/

theorem exists_step_queue (asserts : Bool) (fd : ℕ) (s : TagTrace) (tag : TagType) :
    ∃ system, (s.step asserts fd (.queue tag)).1 = { s with
      system
      queued :=
        if (s.system.stream.offsetStore.append tag).1 then s.queued ++ [tag] else s.queued } :=
  ⟨(s.system.step asserts (.queue tag)).1, by
    simp only [TagTrace.step, TagSystem.step, TagSystem.ret, Option.elim_some, TagTrace.observe]⟩

theorem step_publish (h : s.Inv fd old) (m : Message) :
    (s.step g asserts fd (.publish m)).1.Inv fd old := by
  have hlog := LogRWStream.grows_publish h.position_eq m
  exact ⟨hlog.position_eq, h.tags, h.stream, h.old_le,
    h.names.imp fun t trade hnames ↦ hnames.grow hlog h.tags h.tags (List.prefix_refl _),
    h.started⟩

/-- A trade. Its record is the next one, unless the queue is full. -/
theorem step_trade (h : s.Inv fd old) {product : Tag} {payload : List UInt8}
    {failing : RecordFaults} {unset : UInt32}
    (hok : s.Meets g asserts fd old (.trade product payload failing unset)) :
    (s.step g asserts fd (.trade product payload failing unset)).1.Inv fd old := by
  obtain ⟨hsees, hnumber⟩ := hok
  have hlog := LogRWStream.grows_publish h.position_eq ⟨false, payload⟩
  obtain ⟨id, hanswer, hget, hlt, hgiven⟩ := h.tags.getOrCreateTag_some hnumber
  have hfits : Interning.Proceeds g s.tags (.getOrCreateTag product failing) := fun hnew ↦
    ⟨(hnumber hnew).1.survives, fun _ ↦ (hnumber hnew).2⟩
  have htags := h.tags.step hfits
  have hnew := names_ofTrade h.position_eq hsees htags hget hlt
  rw [TradeTrace.step, TradeTrace.trade, hanswer, Option.elim_some, tagId, queueTrade]
  generalize hrecord : TagType.ofTrade s.log.available
    (s.log.publish ⟨false, payload⟩).available (UInt32.ofNat id) = record at hnew ⊢
  have hmeets : s.stream.Meets asserts fd (.queue record) := fun _ ↦ by
    rw [← hrecord]
    exact TagType.ofTrade_isPersistent _ _ _
  have hqueue := h.stream.queue hmeets
  have hold := h.names.imp fun t trade hnames ↦ hnames.grow hlog h.tags htags hgiven
  obtain ⟨system, hstep⟩ := exists_step_queue asserts fd s.stream record
  rw [hstep] at hqueue ⊢
  refine ⟨hlog.position_eq, htags, hqueue, ?_, ?_, h.started⟩
  · simp only
    split_ifs
    · rw [List.length_append]
      exact Nat.le_add_right_of_le h.old_le
    · exact h.old_le
  · simp only
    split_ifs
    · rw [List.drop_append_of_le_length h.old_le]
      exact List.rel_append hold (.cons hnew .nil)
    · exact hold

theorem queued_step (asserts : Bool) (fd : ℕ) (s : TagTrace) {op : TagStreamOp}
    (hop : ∀ tag, op ≠ .queue tag) :
    (s.step asserts fd op).1.queued = s.queued := by
  rw [TagTrace.step]
  cases (s.system.step asserts op).2 with
  | none => rfl
  | some a =>
    cases op with
    | queue tag => exact absurd rfl (hop tag)
    | streamWrite fd' results =>
      rw [Option.elim_some, TagTrace.observe]
      split_ifs <;> rfl
    | register | registerStream | start | subscribe | writeEvent | readEvent => rfl

theorem ne_queue {op : TagStreamOp} (hok : s.Meets g asserts fd old (.stream op)) (tag : TagType) :
    op ≠ .queue tag := by
  rintro rfl
  exact hok

theorem meets_stream (h : s.Inv fd old) {op : TagStreamOp}
    (hok : s.Meets g asserts fd old (.stream op)) : s.stream.Meets asserts fd op := by
  cases op with
  | queue tag => exact hok.elim
  | start fd' tagOffset =>
    intro hfd
    obtain ⟨hstart, -, hdvd, hold⟩ := hok hfd
    refine ⟨hstart, hdvd, fun t ht ↦ ?_⟩
    obtain ⟨trade, hnames⟩ := h.names_of_mem hold ht
    exact hnames.persistent
  | subscribe fd' tag => trivial
  | register | registerStream | writeEvent | readEvent => trivial
  | streamWrite fd' results => exact hok

theorem started_step (h : s.Inv fd old) {op : TagStreamOp}
    (hok : s.Meets g asserts fd old (.stream op)) {k : ℕ}
    (hk : (s.stream.step asserts fd op).1.start = some k) :
    old ≤ k ∧ 1 ∈ (s.stream.step asserts fd op).1.streams ∧
      ∀ p ∈ (s.stream.step asserts fd op).1.passed, p.1.streamId = 1 ∧
        p.2 = (s.stream.step asserts fd op).1.wanted fd p.1 := by
  rw [TagTrace.step] at hk ⊢
  cases hcall : (s.stream.system.step asserts op).2 with
  | none =>
    rw [hcall] at hk
    exact h.started k hk
  | some a =>
    rw [hcall, Option.elim_some] at hk
    rw [Option.elim_some]
    cases op with
    | queue tag => exact hok.elim
    | register | writeEvent | readEvent => exact h.started k hk
    | registerStream streamId =>
      obtain ⟨hold, hstream, hpassed⟩ := h.started k hk
      refine ⟨hold, List.mem_cons_of_mem _ hstream, fun p hp ↦ ?_⟩
      obtain ⟨hid, hwanted⟩ := hpassed p hp
      refine ⟨hid, hwanted.trans ?_⟩
      simp only [TagTrace.observe, TagTrace.wanted, hid, List.contains_cons,
        List.contains_iff_mem.mpr hstream, Bool.or_true]
    | subscribe fd' tag =>
      by_cases hfd : fd' = fd
      · exact absurd ((hok hfd).symm.trans hk) (by simp)
      · simp only [TagTrace.observe, if_neg hfd] at hk ⊢
        exact h.started k hk
    | start fd' tagOffset =>
      simp only [TagTrace.observe] at hk ⊢
      split_ifs at hk with hfd
      · obtain ⟨hstart, hstream, -, hold⟩ := hok hfd.1
        rw [(h.stream.fresh hstart).1]
        refine ⟨?_, hstream, fun p hp ↦ absurd hp List.not_mem_nil⟩
        rwa [← Option.some.inj hk]
      · exact h.started k hk
    | streamWrite fd' results =>
      by_cases hfd : fd' = fd
      · simp only [TagTrace.observe, if_pos hfd] at hk ⊢
        obtain ⟨hold, hstream, hpassed⟩ := h.started k hk
        obtain ⟨⟨data, hexact⟩, -⟩ := h.stream.exact k hk
        have hposition : k ≤ TagTrace.position fd s.stream.system := by
          rw [TagTrace.position, hexact.fds_eq, Option.elim_some, hexact.offset_eq, TagType.size]
          omega
        refine ⟨hold, hstream, fun p hp ↦ ?_⟩
        rcases List.mem_append.mp hp with hp | hp
        · exact hpassed p hp
        · obtain ⟨t, ht, rfl⟩ := List.mem_map.mp hp
          obtain ⟨trade, hnames⟩ := h.names_of_mem (Nat.le_trans hold hposition)
            (List.mem_of_mem_take ht)
          exact ⟨hnames.streamId_eq, rfl⟩
      · simp only [TagTrace.observe, if_neg hfd] at hk ⊢
        exact h.started k hk

theorem step_stream (h : s.Inv fd old) {op : TagStreamOp}
    (hok : s.Meets g asserts fd old (.stream op)) :
    (s.step g asserts fd (.stream op)).1.Inv fd old := by
  have hqueued := queued_step asserts fd s.stream (ne_queue hok)
  refine ⟨h.position_eq, h.tags, (h.stream.step (h.meets_stream hok)).1, ?_, ?_,
    fun k hk ↦ h.started_step hok hk⟩
  · simp only [step, hqueued]
    exact h.old_le
  · simp only [step, hqueued]
    exact h.names

theorem step (h : s.Inv fd old) (hok : s.Meets g asserts fd old op) :
    (s.step g asserts fd op).1.Inv fd old := by
  cases op with
  | publish m => exact h.step_publish m
  | trade product payload failing unset => exact h.step_trade hok
  | stream op => exact h.step_stream hok

theorem serves (h : s.Inv fd old) (hok : s.Meets g asserts fd old op) :
    s.Serves g asserts fd old op := by
  have hinv := h.step hok
  refine ⟨hinv.names, fun k hk ↦ hinv.received_prefix hk, fun k results a hk hop hanswer hret ↦ ?_⟩
  subst hop
  obtain ⟨hstarted, -⟩ := hok rfl
  obtain ⟨k', hk'⟩ := Option.ne_none_iff_exists'.mp hstarted
  have hsame : k' = k := by
    simp only [TradeTrace.step, TagTrace.step] at hk hanswer
    rw [hanswer, Option.elim_some, TagTrace.observe, if_pos rfl] at hk
    exact Option.some.inj (hk'.symm.trans hk)
  subst hsame
  have hdelivers := (h.stream.step (h.meets_stream hok)).2
  exact hinv.received_eq hk ((hdelivers.2 results a k' rfl hanswer hk').2.1 hret)

end Inv

/-- A system over the files of earlier runs, whose tags are restored. -/
def new {pageSize : ℕ} (hpage : 0 < pageSize) (data : ℕ → UInt8) {start : ℕ}
    (hstart : start < 2 ^ 63) (tags : Interning) (eventFd : ℕ) (offsets : MappedFile) :
    TradeTrace cacheSize where
  log := LogRWStream.new cacheSize pageSize hpage data start hstart
  tags
  stream := TagTrace.new eventFd offsets
  indexed := []

theorem inv_new {pageSize : ℕ} (hpage : 0 < pageSize) (data : ℕ → UInt8) {start : ℕ}
    (hstart : start < 2 ^ 63) (htags : tags.Inv) (fd eventFd : ℕ) {offsets : MappedFile}
    (hfile : PagedLog.systemPage ∣ offsets.size) (hsize : offsets.size < 2 ^ 63) :
    Inv fd (TagOffsetStore.records offsets).length
      (new hpage data hstart tags eventFd offsets : TradeTrace cacheSize) where
  position_eq := rfl
  tags := htags
  stream := TagTrace.inv_new fd eventFd hfile hsize
  old_le := Nat.le_refl _
  names := by
    simp only [new, TagTrace.new, List.drop_length]
    exact .nil
  started k hk := absurd hk (by simp [new, TagTrace.new])

/-- **The index of the trades.** Each record that is queued names its trade, by the number of the
product and the range of the frame, and a descriptor gets the frames of the products that it
subscribed to. The tags of earlier runs keep their numbers. -/
theorem run_servesTrades (g : LRUCache 1 → ℕ → LRUCache 1) (asserts : Bool) {pageSize : ℕ}
    (hpage : 0 < pageSize) (data : ℕ → UInt8) {start : ℕ} (hstart : start < 2 ^ 63)
    {tagFile : MappedFile} (hrestored : Interning.restored tagFile = some tags)
    (hnodup : tags.given.Nodup) (hle : tags.given.length ≤ 2 ^ 32) (fd eventFd : ℕ)
    {offsets : MappedFile} (hfile : PagedLog.systemPage ∣ offsets.size)
    (hsize : offsets.size < 2 ^ 63) (ops : List TradeOp)
    (hok : Run.Steps (step g asserts fd)
      (Meets g asserts fd (TagOffsetStore.records offsets).length)
      (new hpage data hstart tags eventFd offsets : TradeTrace cacheSize) ops) :
    Run.Steps (step g asserts fd) (Serves g asserts fd (TagOffsetStore.records offsets).length)
      (new hpage data hstart tags eventFd offsets : TradeTrace cacheSize) ops :=
  Run.Steps.of_invariant (P := Inv fd (TagOffsetStore.records offsets).length)
    (fun _ _ hs hop ↦ hs.step hop) (fun _ _ hs hop ↦ hs.serves hop)
    (inv_new hpage data hstart (Interning.Inv.of_restored hrestored hnodup hle) fd eventFd hfile
      hsize) hok

/-- The file of a run in which `A` got a number. -/
def oneTag : MappedFile := ((TagStore.new MappedFile.empty).append [65]).2.tagBuf.file

theorem isSome_restored_oneTag : (Interning.restored oneTag).isSome := by decide +kernel

/-- A trade of a product that is subscribed to, with another message before it. The product gets
the number behind that of the tag of the earlier run. -/
theorem run_servesTrades_one :
    Run.Steps (step (fun c _ ↦ c) true 5)
      (Serves (fun c _ ↦ c) true 5 (TagOffsetStore.records MappedFile.empty).length)
      (new (by decide : 0 < 4096) (fun _ ↦ 0) (by decide : 0 < 2 ^ 63)
        ((Interning.restored oneTag).get isSome_restored_oneTag) 3 MappedFile.empty : TradeTrace 2)
      [.publish ⟨true, [0x7B, 0x7D]⟩, .stream (.register 5), .stream (.registerStream 1),
        .stream (.subscribe 5 1), .stream (.start 5 0), .trade [66] [8, 1] FaultyTags.noFaults 9,
        .stream (.streamWrite 5 fun _ ↦ 3), .stream (.streamWrite 5 fun _ ↦ 1)] := by
  refine run_servesTrades (fun c _ ↦ c) true (by decide) (fun _ ↦ 0) (by decide)
    (Option.some_get isSome_restored_oneTag).symm (by decide +kernel) (by decide +kernel) 5 3
    (by decide) (by decide) _ ⟨trivial, trivial, trivial, fun _ ↦ ?_, fun _ ↦ ?_, ?_, fun _ ↦ ?_,
      fun _ ↦ ?_, trivial⟩
  · decide +kernel
  · exact ⟨by decide +kernel, by decide +kernel, by decide, by decide +kernel⟩
  · refine ⟨⟨by unfold HasRoom; decide +kernel, by decide +kernel⟩, fun _ ↦ ?_⟩
    exact ⟨by decide +kernel, by decide +kernel⟩
  · exact ⟨by decide +kernel, by simp only [StreamCall.Accepts]; decide +kernel⟩
  · exact ⟨by decide +kernel, by simp only [StreamCall.Accepts]; decide +kernel⟩

end TradeTrace

end Coypu
