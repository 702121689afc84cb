import Coypu.Buf.Fill
import Coypu.Library.Run

/-!
# A buffer fed from memory is a queue

Every sequence of pushes and draining operations answers as the queue does, leaves its items and
stays inside the array. One operation is `memory_refines`; `run_memory_fifo` carries it to runs.
-/

set_option autoImplicit false

namespace Coypu

open FlatMemory

variable {T : CapacityType} {α : Type*} [DecidableEq α] {cap : ℕ}

/-- The operations of a buffer that is fed from memory. -/
inductive MemoryOp (α : Type*) where
  | push (indata : α)
  | pushBlock (indata : Option (ℕ → α)) (size : ℕ)
  | drain (op : DrainOp α)

/-- The operation on the queue. -/
def Fifo.memory (q : Fifo α cap) : MemoryOp α → Fifo α cap × Answer α
  | .push x => ((q.push x).2, .done (q.push x).1)
  | .pushBlock p n => ((q.pushBlock p n).2, .done (q.pushBlock p n).1)
  | .drain op => q.drain op

namespace BipBuf

/-- The operation on the buffer. -/
def memory (b : BipBuf T α) : MemoryOp α → Outcome T α (Answer α)
  | .push x => (b.push x).map .done
  | .pushBlock p n => (b.pushBlock p n).map .done
  | .drain op => b.drain op

def memoryStep (b : BipBuf T α) (op : MemoryOp α) : BipBuf T α × Answer α :=
  ((b.memory op).buf, (b.memory op).ret)

theorem memory_refines {b : BipBuf T α} {q : Fifo α cap} (h : b.Rep q.items) (hb : b.Bounded)
    (hcap : b.capacity = cap) (op : MemoryOp α) :
    b.Refines (b.memory op) (q.memory op).2 (q.memory op).1.items := by
  cases op with
  | push x =>
    have hpush := (push_refines h hb x).map (Answer.done (α := α))
    rw [hcap] at hpush
    rw [memory, Fifo.memory, Fifo.push]
    simp only [List.length_singleton]
    split_ifs at hpush ⊢ with hroom <;> simpa [hroom] using hpush
  | pushBlock p n =>
    cases p with
    | none => exact (h.refines_self false).map (Answer.done (α := α))
    | some p =>
      have hpush := (pushBlock_refines h hb p n).map (Answer.done (α := α))
      rw [hcap] at hpush
      rw [memory, Fifo.memory, Fifo.pushBlock]
      simp only
      split_ifs at hpush ⊢ with hroom <;> simpa [hroom] using hpush
  | drain op => exact drain_refines h op

/-- The buffer stands for the queue, with both indices inside the array. -/
structure StandsFor (b : BipBuf T α) (q : Fifo α cap) : Prop where
  rep : b.Rep q.items
  bounded : b.Bounded
  capacity_eq : b.capacity = cap

theorem StandsFor.memoryStep {b : BipBuf T α} {q : Fifo α cap} (h : b.StandsFor q)
    (op : MemoryOp α) :
    (b.memoryStep op).1.StandsFor (q.memory op).1 ∧ (b.memoryStep op).2 = (q.memory op).2 := by
  have href := memory_refines h.rep h.bounded h.capacity_eq op
  exact ⟨⟨href.rep, href.bounded h.bounded, href.capacity_eq.trans h.capacity_eq⟩, href.ret_eq⟩

/-- **A buffer fed from memory is a queue.** After any sequence of pushes and draining operations on
an empty buffer, the contents are the items of the queue and every answer was the queue's; the
observers describe them, and no operation touched a cell outside the array. -/
theorem run_memory_fifo (data : ℕ → α) (c : Capacity T) (ops : List (MemoryOp α)) :
    let s := Run.run memoryStep (new data c) ops
    let q := Run.run Fifo.memory (Fifo.empty : Fifo α c.val) ops
    s.1.contents = q.1.items ∧ s.2 = q.2 ∧ s.1.available = q.1.items.length ∧
      s.1.free = c.val - q.1.items.length ∧ s.1.isEmpty = q.1.items.isEmpty ∧
      Run.Steps memoryStep
        (fun b op ↦ ∀ r ∈ (b.memory op).loads ++ (b.memory op).stores, r.Inside c.val)
        (new data c) ops := by
  have hnew : (new data c).StandsFor (Fifo.empty : Fifo α c.val) :=
    ⟨rep_new data c, bounded_new data c, rfl⟩
  have hstep : ∀ (b : BipBuf T α) (q : Fifo α c.val) (op : MemoryOp α), b.StandsFor q → True →
      (b.memoryStep op).1.StandsFor (q.memory op).1 ∧ (b.memoryStep op).2 = (q.memory op).2 :=
    fun b q op hR _ ↦ hR.memoryStep op
  obtain ⟨hfinal, hanswers⟩ := Run.run_simulation hstep hnew (Run.steps_true _ ops)
  refine ⟨hfinal.rep.contents_eq, hanswers, hfinal.rep.available_eq, ?_,
    hfinal.rep.isEmpty_eq, ?_⟩
  · rw [hfinal.rep.free_eq, hfinal.capacity_eq]
  · refine Run.Steps.of_invariant (P := fun b ↦ ∃ q : Fifo α c.val, b.StandsFor q) ?_ ?_
      ⟨_, hnew⟩ (Run.steps_true _ ops)
    · rintro b op ⟨q, hq⟩ -
      exact ⟨_, (hq.memoryStep op).1⟩
    · rintro b op ⟨q, hq⟩ -
      have href := memory_refines hq.rep hq.bounded hq.capacity_eq op
      rw [← hq.capacity_eq]
      exact href.inside

end BipBuf

end Coypu
