import Mathlib.Logic.Function.Basic
import Coypu.Store.MultiPositionedStreamLog

/-!
# What each subscriber receives

For each descriptor, the offset of its last mark and the bytes accepted since are tracked beside the
log. They are a slice of it: the log from the mark to the descriptor's position, whatever else is
pushed, marked and sent in between, as long as page numbers fit their 32 bits (`PagesFit`).
-/

set_option autoImplicit false

namespace Coypu

open FlatMemory Transport MultiPositionedStreamLog

variable {cacheSize : ℕ}

/-- The bytes a descriptor has received since its last mark. -/
structure Received where
  marked : ℕ
  bytes : List UInt8

/-- The log and what was received from it. -/
structure FanOut (cacheSize : ℕ) where
  log : MultiPositionedStreamLog cacheSize
  received : ℕ → Received

namespace FanOut

variable {s : FanOut cacheSize}

/-- A log nobody has marked yet. -/
def new (stream : LogRWStream cacheSize) : FanOut cacheSize :=
  ⟨MultiPositionedStreamLog.new stream, fun _ ↦ ⟨0, []⟩⟩

/-- What the operation changes about the bytes received. -/
def track (s : FanOut cacheSize) : LogOp → ℕ → Received
  | .mark fd offset =>
    if fd < s.log.curOffsets.length then Function.update s.received fd ⟨offset.toNat, []⟩
    else s.received
  | .markEnd fd =>
    if fd < s.log.curOffsets.length then
      Function.update s.received fd ⟨s.log.stream.available, []⟩
    else s.received
  | .writev fd find cb =>
    let offer := (s.log.step (.writev fd find cb)).2
    Function.update s.received fd ⟨(s.received fd).marked, (s.received fd).bytes
      ++ (gather s.log.stream.data offer.regions).take offer.ret.toNat⟩
  | _ => s.received

def step (s : FanOut cacheSize) (op : LogOp) : FanOut cacheSize × Offer :=
  (⟨(s.log.step op).1, s.track op⟩, (s.log.step op).2)

/-- The descriptor an operation is about. -/
def target : LogOp → Option ℕ
  | .push _ _ => none
  | .register fd | .mark fd _ | .markEnd fd | .unregister fd | .writev fd _ _ => some fd

/-- What was received is the log from the mark to the position. -/
def Slice (data : ℕ → UInt8) (position : ℕ) (r : Received) : Prop :=
  position = r.marked + r.bytes.length ∧ r.bytes = load data r.marked (position - r.marked)

/-- Every descriptor with a position has received a slice of the log. -/
def Sliced (s : FanOut cacheSize) : Prop :=
  ∀ fd, s.log.curOffset fd ≠ unset →
    Slice s.log.stream.data (s.log.curOffset fd) (s.received fd)

/-- After the step all descriptors hold slices, the others stand where they stood, and what was
offered is in the log. -/
def Delivers (s : FanOut cacheSize) (op : LogOp) : Prop :=
  (s.step op).1.Sliced ∧
    (∀ fd, target op ≠ some fd → (s.step op).1.log.curOffset fd = s.log.curOffset fd) ∧
    ∀ r ∈ (s.step op).2.regions, r.Inside s.log.stream.available

/-- A mark is at most the end of the log. -/
def MarksWithin (s : FanOut cacheSize) : LogOp → Prop
  | .mark _ offset => offset.toNat ≤ s.log.stream.available
  | _ => True

/-- The bytes a `Writev` may offer lie in the first `2³²` pages. -/
def PagesFit (s : FanOut cacheSize) : LogOp → Prop
  | .writev fd _ _ => s.log.curOffset fd ≠ unset →
      s.log.curOffset fd + min (s.log.availableAt fd) (cacheSize * s.log.stream.pageSize)
        ≤ 2 ^ 32 * s.log.stream.pageSize
  | _ => True

/-! ## One operation -/

theorem curOffset_step_of_ne (op : LogOp) {fd : ℕ} (h : target op ≠ some fd) :
    (s.log.step op).1.curOffset fd = s.log.curOffset fd := by
  cases op with
  | push l limit => rfl
  | register g =>
    have hne : fd ≠ g := fun heq ↦ h (by rw [target, heq])
    simp only [MultiPositionedStreamLog.step, curOffset_register, if_neg hne]
  | mark g offset =>
    have hne : fd ≠ g := fun heq ↦ h (by rw [target, heq])
    simp only [MultiPositionedStreamLog.step, mark]
    split_ifs with hg
    · rw [curOffset_setOffset hg, if_neg hne]
    · rfl
  | markEnd g =>
    have hne : fd ≠ g := fun heq ↦ h (by rw [target, heq])
    simp only [MultiPositionedStreamLog.step, markEnd]
    split_ifs with hg
    · rw [curOffset_setOffset hg, if_neg hne]
    · rfl
  | unregister g =>
    have hne : fd ≠ g := fun heq ↦ h (by rw [target, heq])
    simp only [MultiPositionedStreamLog.step, unregister]
    split_ifs with hg
    · rfl
    · rw [curOffset_setOffset (Nat.lt_of_not_le hg), if_neg hne]
  | writev g find cb =>
    have hne : fd ≠ g := fun heq ↦ h (by rw [target, heq])
    simp only [MultiPositionedStreamLog.step]
    rcases writev_cases s.log (s.log.availableAt g) g find cb with
      ⟨hm, -⟩ | ⟨v, hset, -, -, -, hm⟩
    · rw [hm]
    · rw [hm]
      split_ifs
      · rw [curOffset_setOffset (lt_of_curOffset_ne hset), if_neg hne]
      · rfl

theorem slice_start (data : ℕ → UInt8) (offset : ℕ) : Slice data offset ⟨offset, []⟩ := by
  simp [Slice]

theorem Slice.append {data : ℕ → UInt8} {position n : ℕ} {r : Received}
    (h : Slice data position r) :
    Slice data (position + n) ⟨r.marked, r.bytes ++ load data position n⟩ := by
  obtain ⟨hpos, hbytes⟩ := h
  have hlen : position - r.marked = r.bytes.length := by omega
  have hall : position + n - r.marked = r.bytes.length + n := by omega
  rw [hlen] at hbytes
  refine ⟨?_, ?_⟩
  · simp only [List.length_append, length_load]
    omega
  · simp only [hall]
    rw [load_add, ← hpos, ← hbytes]

theorem Sliced.setOffset (h : s.Sliced) {g offset : ℕ} (hg : g < s.log.curOffsets.length)
    {r : Received} (hr : offset ≠ unset → Slice s.log.stream.data offset r) :
    Sliced ⟨s.log.setOffset g offset, Function.update s.received g r⟩ := by
  intro fd hset
  simp only [curOffset_setOffset hg] at hset ⊢
  by_cases heq : fd = g
  · rw [if_pos heq] at hset ⊢
    rw [heq, Function.update_self]
    exact hr hset
  · rw [if_neg heq] at hset ⊢
    rw [Function.update_of_ne heq]
    exact h fd hset

theorem Sliced.step (h : s.Sliced) (hb : s.log.Behind) {op : LogOp} (hmark : s.MarksWithin op)
    (hpages : s.PagesFit op) : (s.step op).1.Sliced := by
  cases op with
  | push l limit =>
    intro fd hset
    obtain ⟨hpos, hbytes⟩ := h fd hset
    have hle := (hb fd hset).1
    exact ⟨hpos, hbytes.trans (LogRWStream.load_push (by omega)).symm⟩
  | register g =>
    intro fd hset
    simp only [FanOut.step, track, MultiPositionedStreamLog.step, curOffset_register] at hset ⊢
    split_ifs at hset ⊢
    · exact absurd rfl hset
    · exact h fd hset
  | mark g offset =>
    simp only [FanOut.step, track, MultiPositionedStreamLog.step, mark]
    split_ifs with hg
    · exact h.setOffset hg fun _ ↦ slice_start _ _
    · exact h
  | markEnd g =>
    simp only [FanOut.step, track, MultiPositionedStreamLog.step, markEnd]
    split_ifs with hg
    · exact h.setOffset hg fun _ ↦ slice_start _ _
    · exact h
  | unregister g =>
    simp only [FanOut.step, track, MultiPositionedStreamLog.step, unregister]
    split_ifs with hg
    · exact h
    · have hunset : Sliced ⟨s.log.setOffset g unset, Function.update s.received g (s.received g)⟩ :=
        h.setOffset (Nat.lt_of_not_le hg) fun hne ↦ absurd rfl hne
      rwa [Function.update_eq_self] at hunset
  | writev g find cb =>
    simp only [FanOut.step, track, MultiPositionedStreamLog.step]
    rcases writev_cases s.log (s.log.availableAt g) g find cb with
      ⟨hm, hnil, hret⟩ | ⟨v, hset, hv, hregions, hret, hm⟩
    · rw [hm, hnil, gather_nil, List.take_nil, List.append_nil, Function.update_eq_self]
      exact h
    obtain ⟨hle, hpending⟩ := hb g hset
    rw [hm, hregions, hret, taken_eq (hpages hset) hv]
    split_ifs with hpos
    · have hsum := LogRWStream.writevRegions_sum hv
      have hrun := cb.run_le (v.map Region.len)
      rw [moved_eq s.log hpos (by omega)]
      exact h.setOffset (lt_of_curOffset_ne hset) fun _ ↦ (h g hset).append
    · rw [Int.toNat_of_nonpos (by omega), load_zero, List.append_nil, Function.update_eq_self]
      exact h

/-! ## Runs -/

/-- **Every subscriber receives a slice of the log.** In every run whose marks lie in the log and
whose writes stay in the first `2³²` pages, each step leaves all descriptors with the bytes from
their last mark to their position, moves no other descriptor, and offers bytes of the log only. -/
theorem run_delivers (stream : LogRWStream cacheSize) (ops : List LogOp)
    (hok : Run.Steps step (fun s op ↦ s.MarksWithin op ∧ s.PagesFit op) (new stream) ops) :
    Run.Steps step Delivers (new stream) ops := by
  have hpast : ∀ (s : FanOut cacheSize) (op : LogOp), s.log.Behind → s.MarksWithin op →
      s.log.NeverPast op := fun s op hb hmark ↦ hb.step (by
    cases op with
    | mark fd offset => exact fun _ ↦ Or.inl hmark
    | _ => trivial)
  refine Run.Steps.of_invariant (P := fun s ↦ s.Sliced ∧ s.log.Behind) ?_ ?_ ?_ hok
  · rintro s op ⟨hs, hb⟩ ⟨hmark, hpages⟩
    exact ⟨hs.step hb hmark hpages, (hpast s op hb hmark).1⟩
  · rintro s op ⟨hs, hb⟩ ⟨hmark, hpages⟩
    exact ⟨hs.step hb hmark hpages, fun fd hfd ↦ curOffset_step_of_ne op hfd,
      (hpast s op hb hmark).2⟩
  · exact ⟨fun fd hset ↦ absurd rfl hset, behind_of_le fun fd hset ↦ absurd rfl hset⟩

/-- Two writes of a marked range that crosses pages, the log growing between them. -/
theorem run_delivers_crossing :
    Run.Steps step Delivers
      (new (LogRWStream.new 2 4 (by decide) (fun i ↦ i.toUInt8) 10 (by decide)))
      [.register 0, .mark 0 3, .writev 0 (fun _ ↦ true) (Writer.atMost 5 (by decide)),
        .push [1, 2] none, .writev 0 (fun _ ↦ true) (Writer.atMost 5 (by decide))] := by
  apply run_delivers
  refine ⟨⟨trivial, trivial⟩, ⟨?_, trivial⟩, ⟨trivial, fun _ ↦ ?_⟩, ⟨trivial, trivial⟩,
    ⟨trivial, fun _ ↦ ?_⟩, trivial⟩
  · exact (by decide : (3 : ℕ) ≤ 10)
  · decide
  · decide

/-- A log of `2³²` pages of 4096 bytes and one byte more: to a descriptor marked at that byte, the
first byte of the log is sent. -/
theorem not_delivers_of_large :
    ¬∀ ops, Run.Steps step MarksWithin
        (new (LogRWStream.new 2 4096 (by decide) (fun i ↦ if i = 2 ^ 44 then 1 else 0) (2 ^ 44 + 1)
          (by decide))) ops →
      Run.Steps step Delivers
        (new (LogRWStream.new 2 4096 (by decide) (fun i ↦ if i = 2 ^ 44 then 1 else 0) (2 ^ 44 + 1)
          (by decide))) ops := by
  intro h
  have hsteps := h [.register 0, .mark 0 17592186044416,
    .writev 0 (fun _ ↦ true) (Writer.atMost 1 (by decide))]
    ⟨trivial, (by decide : 17592186044416 ≤ 2 ^ 44 + 1), trivial, trivial⟩
  exact absurd (hsteps.2.2.1.1 0 (by decide)).2 (by decide)

end FanOut

end Coypu
