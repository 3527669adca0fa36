import Xv6Shed.Sections

/-!
# The faults of the sections

`Fails P x`: whatever fault stops `x` has the property `P`. The rules compute it for the
operations of the kernel from those they are made of.
-/

namespace Xv6Shed
open Function Threads

def Fails {α : Type} (P : Fault → Prop) (x : Except Fault α) : Prop := ∀ e, x = .error e → P e

section
variable {α β : Type} {P : Fault → Prop}

@[simp] theorem fails_ok {a : α} : Fails P (.ok a : Except Fault α) := nofun

@[simp] theorem fails_pure {a : α} : Fails P (pure a : Except Fault α) := nofun

@[simp] theorem fails_error {e : Fault} : Fails P (.error e : Except Fault α) ↔ P e := by
  simp [Fails]

@[simp] theorem fails_bind {x : Except Fault α} {f : α → Except Fault β} :
    Fails P (x >>= f) ↔ Fails P x ∧ ∀ a, x = .ok a → Fails P (f a) := by
  cases x <;> simp [Fails]

@[simp] theorem fails_map {x : Except Fault α} {f : α → β} : Fails P (f <$> x) ↔ Fails P x := by
  cases x <;> simp [Fails]

@[simp] theorem fails_deref {o : Option α} : Fails P (deref o) ↔ (o = none → P .null) := by
  cases o <;> simp

@[simp] theorem fails_ite {c : Prop} [Decidable c] {x y : Except Fault α} :
    Fails P (if c then x else y) ↔ (c → Fails P x) ∧ (¬ c → Fails P y) := by
  split_ifs with h <;> simp [h]

theorem Fails.foldlM {f : β → α → Except Fault β} {l : List α} {b : β}
    (h : ∀ b a, Fails P (f b a)) : Fails P (l.foldlM f b) := by
  induction l generalizing b with
  | nil => exact fails_pure
  | cons a l ih =>
    rw [List.foldlM_cons, fails_bind]
    exact ⟨h b a, fun b' _ => ih⟩

end

/-- One of the panics of `proc.c` that say a run queue was used without its lock. -/
def Fault.NoLock (e : Fault) : Prop :=
  e = .panic "enqueue_proc no lock" ∨ e = .panic "dequeue_proc no lock" ∨
    e = .panic "yield no lock" ∨ e = .panic "pick_next_proc no lock"

instance : DecidablePred Fault.NoLock := fun e =>
  inferInstanceAs (Decidable (e = .panic "enqueue_proc no lock" ∨
    e = .panic "dequeue_proc no lock" ∨ e = .panic "yield no lock" ∨
    e = .panic "pick_next_proc no lock"))

@[simp] theorem noLock_panic {msg : String} : (Fault.panic msg).NoLock ↔
    msg = "enqueue_proc no lock" ∨ msg = "dequeue_proc no lock" ∨ msg = "yield no lock" ∨
      msg = "pick_next_proc no lock" := by
  simp [Fault.NoLock]

/-- The computation does not stop with such a panic. -/
abbrev Locked {α : Type} (x : Except Fault α) : Prop := Fails (fun e => ¬ e.NoLock) x

@[simp] theorem not_noLock_null : ¬ Fault.null.NoLock := by decide

@[simp] theorem not_noLock_hang : ¬ Fault.hang.NoLock := by decide

variable {NPROC NCPU : ℕ}

namespace Rq
variable {rq : Rq NPROC} {p : Fin NPROC} {cnode : Option (Fin NPROC)}

@[simp] theorem locked_scan {stop pnode node : Option (Fin NPROC)} {fuel : ℕ} :
    Locked (rq.scan p stop fuel pnode node) := by
  induction fuel generalizing pnode node with
  | zero => simp [scan]
  | succ fuel ih => simp [scan, ih]

@[simp] theorem locked_enqueueFifo : Locked (rq.enqueueFifo p) := by
  simp [enqueueFifo]

@[simp] theorem locked_enqueueRR : Locked (rq.enqueueRR p) := by
  unfold enqueueRR
  refine fails_bind.mpr ⟨by simp, fun n _ => ?_⟩
  dsimp only
  split <;> simp

@[simp] theorem locked_dequeueProcFifo : Locked (rq.dequeueProcFifo p) := by
  simp [dequeueProcFifo]

@[simp] theorem locked_dequeueProcRR : Locked (rq.dequeueProcRR p) := by
  simp [dequeueProcRR]

@[simp] theorem locked_yieldProcFifo : Locked rq.yieldProcFifo := by
  unfold yieldProcFifo
  split <;> simp

theorem locked_getLoopFifo (i : ℕ) : Locked (getLoopFifo cnode i rq) := by
  induction i generalizing rq with
  | zero => simp [getLoopFifo]
  | succ i ih =>
    rw [getLoopFifo]
    refine fails_bind.mpr ⟨by simp, fun c _ => ?_⟩
    split
    · simp
    · simp [ih]

theorem locked_getLoopRR (i : ℕ) : Locked (getLoopRR i cnode rq) := by
  induction i generalizing rq cnode with
  | zero => simp [getLoopRR]
  | succ i ih => simp [getLoopRR, ih]

end Rq

namespace SchedClass
variable {cls : SchedClass} {rq : Rq NPROC} {p : Fin NPROC}

@[simp] theorem locked_enqueueProc : Locked (cls.enqueueProc p rq) := by
  cases cls <;> simp [enqueueProc]

@[simp] theorem locked_dequeueProc : Locked (cls.dequeueProc p rq) := by
  cases cls <;> simp [dequeueProc]

@[simp] theorem locked_yieldProc : Locked (cls.yieldProc rq) := by
  cases cls <;> simp [yieldProc]

@[simp] theorem locked_getProc : Locked (cls.getProc rq) := by
  cases cls <;> simp [getProc, Rq.getProcRR, Rq.getProcFifo, Rq.locked_getLoopRR,
    Rq.locked_getLoopFifo]

end SchedClass

namespace Kernel
variable {k : Kernel NPROC NCPU} {r : RqId NCPU} {p me : Fin NPROC} {c : Fin NCPU}
  {chan : Option (Chan NPROC)}

@[simp] theorem locked_subEnqueueProc : Locked (k.subEnqueueProc r p) := by
  simp [subEnqueueProc_eq]

@[simp] theorem locked_subDequeueProc : Locked (k.subDequeueProc r p) := by
  simp [subDequeueProc]

@[simp] theorem locked_subYieldProc : Locked (k.subYieldProc r) := by
  simp [subYieldProc]

@[simp] theorem locked_subGetProc : Locked (k.subGetProc r) := by
  simp [subGetProc]

@[simp] theorem locked_enqueueProc : Locked (k.enqueueProc true c p) := by
  simp [enqueueProc, enqueueProcMLFQ]

@[simp] theorem locked_dequeueProc : Locked (k.dequeueProc true c p) := by
  have h : Locked (k.dequeueProcMLFQ p) := by
    unfold dequeueProcMLFQ
    split <;> simp
  simp [dequeueProc, h]

@[simp] theorem locked_yieldProc : Locked (k.yieldProc true c) := by
  simp [yieldProc, yieldProcMLFQ]

@[simp] theorem locked_pickNextProc : Locked (k.pickNextProc true c) := by
  rw [pickNextProc, if_neg nofun]
  split <;> simp

@[simp] theorem locked_schedule : Locked (k.schedule true c) := by
  simp [schedule, removePrev]

@[simp] theorem locked_wakeup1 : Locked (k.wakeup1 true c chan) :=
  Fails.foldlM fun k p => by simp [wakeOne]

@[simp] theorem locked_exitTable : Locked (k.exitTable true c) := by
  have h : ∀ k : Kernel NPROC NCPU, ∀ me,
      Locked ((List.finRange NPROC).foldlM (reparentOne true c me) k) := fun k me =>
    Fails.foldlM fun k p => by simp [reparentOne]
  simp [exitTable, h]

@[simp] theorem locked_subEnqueueAll {ms : List (Option (Fin NPROC))} :
    Locked (k.subEnqueueAll r ms) :=
  Fails.foldlM fun k m => by simp

end Kernel

end Xv6Shed
