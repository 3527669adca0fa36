import Xv6Shed.Proc

/-!
# The multi-level feedback queue

`sched_MLFQ.c` over the three levels of a CPU, with the wrappers of `proc.c` through
which the rest of the kernel reaches it. A wrapper is told by `held` what
`holding(&rq->rq_lock)` returns during the call; the queue passed is always
`cpus[cpu()].rq`, the first level of CPU `c`.
-/

namespace Xv6Shed
open Function

variable {NPROC NCPU : ℕ}

namespace Kernel

def enqueueProcRR (r : RqId NCPU) (p : Fin NPROC) (k : Kernel NPROC NCPU) :
    Except Fault (Kernel NPROC NCPU) := do
  let rq ← (k.rqs r).enqueueRR p
  let q := k.proc p
  let q := if q.rq ≠ some r then { q with timeslice := (k.rqs r).maxSlices } else q
  pure ((k.setRq r rq).setProc p { q with rq := some r })

def enqueueProcFifo (r : RqId NCPU) (p : Fin NPROC) (k : Kernel NPROC NCPU) :
    Except Fault (Kernel NPROC NCPU) := do
  let rq ← (k.rqs r).enqueueFifo p
  pure ((k.setRq r rq).setProc p { k.proc p with rq := some r })

/-- `rq->sub_sched_class->enqueue_proc(rq, p)` -/
def subEnqueueProc (r : RqId NCPU) (p : Fin NPROC) (k : Kernel NPROC NCPU) :
    Except Fault (Kernel NPROC NCPU) :=
  match r.2.subSchedClass with
  | .RR => k.enqueueProcRR r p
  | .fifo => k.enqueueProcFifo r p

/-- The slot of `p` after it is queued in `r`: only a round-robin queue other than the
one it was in gives a new slice. -/
@[simps!] def stamp (r : RqId NCPU) (p : Fin NPROC) (k : Kernel NPROC NCPU) : Proc NPROC NCPU :=
  { k.proc p with
    rq := some r
    timeslice :=
      if r.2.subSchedClass = .RR ∧ (k.proc p).rq ≠ some r then (k.rqs r).maxSlices
      else (k.proc p).timeslice }

theorem subEnqueueProc_eq (r : RqId NCPU) (p : Fin NPROC) (k : Kernel NPROC NCPU) :
    k.subEnqueueProc r p = (do
      let rq ← r.2.subSchedClass.enqueueProc p (k.rqs r)
      pure ((k.setRq r rq).setProc p (k.stamp r p))) := by
  rw [subEnqueueProc, stamp]
  cases r.2.subSchedClass
  · simp only [enqueueProcRR, SchedClass.enqueueProc, true_and]
    split_ifs <;> rfl
  · simp only [enqueueProcFifo, SchedClass.enqueueProc, reduceCtorEq, false_and, if_false]

/-- `rq->sub_sched_class->dequeue_proc(rq, p)` -/
def subDequeueProc (r : RqId NCPU) (p : Fin NPROC) (k : Kernel NPROC NCPU) :
    Except Fault (Kernel NPROC NCPU) := do
  let rq ← r.2.subSchedClass.dequeueProc p (k.rqs r)
  pure (k.setRq r rq)

/-- `rq->sub_sched_class->yield_proc(rq)` -/
def subYieldProc (r : RqId NCPU) (k : Kernel NPROC NCPU) : Except Fault (Kernel NPROC NCPU) := do
  let rq ← r.2.subSchedClass.yieldProc (k.rqs r)
  pure (k.setRq r rq)

/-- `rq->sub_sched_class->pick_next_proc(rq)` -/
def subPickNextProc (r : RqId NCPU) (k : Kernel NPROC NCPU) : Option (Fin NPROC) :=
  r.2.subSchedClass.pickNextProc (k.rqs r)

def enqueueProcMLFQ (r : RqId NCPU) (p : Fin NPROC) (k : Kernel NPROC NCPU) :
    Except Fault (Kernel NPROC NCPU) :=
  k.subEnqueueProc r p

/-- `dequeue_proc_MLFQ`; its queue argument is not read -/
def dequeueProcMLFQ (p : Fin NPROC) (k : Kernel NPROC NCPU) : Except Fault (Kernel NPROC NCPU) :=
  match (k.proc p).rq with
  | none => pure k
  | some r => k.subDequeueProc r p

def yieldProcMLFQ (c : Fin NCPU) (k : Kernel NPROC NCPU) : Except Fault (Kernel NPROC NCPU) :=
  if (k.rqs (c, .one)).nextToRun ≠ none then k.subYieldProc (c, .one)
  else if (k.rqs (c, .two)).nextToRun ≠ none then k.subYieldProc (c, .two)
  else if (k.rqs (c, .three)).nextToRun ≠ none then k.subYieldProc (c, .three)
  else pure k

def pickNextProcMLFQ (c : Fin NCPU) (k : Kernel NPROC NCPU) : Option (Fin NPROC) :=
  match k.subPickNextProc (c, .one) with
  | some p => some p
  | none =>
    match k.subPickNextProc (c, .two) with
    | some p => some p
    | none => k.subPickNextProc (c, .three)

/-- `enqueue_proc(cpus[c].rq, p)` -/
def enqueueProc (held : Bool) (c : Fin NCPU) (p : Fin NPROC) (k : Kernel NPROC NCPU) :
    Except Fault (Kernel NPROC NCPU) :=
  if held = false then .error (.panic "enqueue_proc no lock")
  else if (k.rqs (c, .one)).freeList = none then
    .error (.panic
      "kernel panic: Do not support procs more than NPROC!(in enqueue_proc_simple)\n")
  else k.enqueueProcMLFQ (c, .one) p

/-- `dequeue_proc(cpus[c].rq, p)` -/
def dequeueProc (held : Bool) (c : Fin NCPU) (p : Fin NPROC) (k : Kernel NPROC NCPU) :
    Except Fault (Kernel NPROC NCPU) :=
  if held = false then .error (.panic "dequeue_proc no lock")
  else if k.idleproc c = some p then pure k
  else k.dequeueProcMLFQ p

/-- `yield_proc(cpus[c].rq)` -/
def yieldProc (held : Bool) (c : Fin NCPU) (k : Kernel NPROC NCPU) :
    Except Fault (Kernel NPROC NCPU) :=
  if held = false then .error (.panic "yield no lock")
  else k.yieldProcMLFQ c

/-- `pick_next_proc(cpus[c].rq)` -/
def pickNextProc (held : Bool) (c : Fin NCPU) (k : Kernel NPROC NCPU) :
    Except Fault (Option (Fin NPROC)) :=
  if held = false then .error (.panic "pick_next_proc no lock")
  else match k.pickNextProcMLFQ c with
    | some p => pure (some p)
    | none => pure (k.idleproc c)

/-- `rqs[i].proc_num + rqs[i+NCPU].proc_num + rqs[i+2*NCPU].proc_num` -/
def load (i : Fin NCPU) (k : Kernel NPROC NCPU) : ℤ :=
  (k.rqs (i, .one)).procNum + (k.rqs (i, .two)).procNum + (k.rqs (i, .three)).procNum

/-- The CPUs the loop `for(i = 0; i < ncpu; i++)` visits. -/
def cpus (k : Kernel NPROC NCPU) : List (Fin NCPU) := (List.finRange NCPU).filter (· < k.ncpu)

/-- One round of the first loop of `load_balance_MLFQ`, on `src_rq` and `max`. -/
def busier (k : Kernel NPROC NCPU) (src : Option (Fin NCPU) × ℤ) (i : Fin NCPU) :
    Option (Fin NCPU) × ℤ :=
  if k.load i > src.2 then (some i, k.load i) else src

/-- The first loop of `load_balance_MLFQ`: `src_rq`, null when every queue is empty. -/
def busiest (k : Kernel NPROC NCPU) : Option (Fin NCPU) := (k.cpus.foldl k.busier (none, 0)).1

/-- `rq->sub_sched_class->get_proc(rq, procs_moved)` -/
def subGetProc (r : RqId NCPU) (k : Kernel NPROC NCPU) :
    Except Fault (Kernel NPROC NCPU × List (Option (Fin NPROC))) := do
  let (rq, ms) ← r.2.subSchedClass.getProc (k.rqs r)
  pure (k.setRq r rq, ms)

/-- The section of `load_balance_MLFQ` under `src_rq->rq_lock`. -/
def balanceGet (src : Fin NCPU) (k : Kernel NPROC NCPU) :
    Except Fault (Kernel NPROC NCPU × (Level → List (Option (Fin NPROC)))) := do
  let (k, m₁) ← k.subGetProc (src, .one)
  let (k, m₂) ← k.subGetProc (src, .two)
  let (k, m₃) ← k.subGetProc (src, .three)
  pure (k, fun
    | .one => m₁
    | .two => m₂
    | .three => m₃)

/-- `for(i = 0; i < num_procs_moved; i++) rq->sub_sched_class->enqueue_proc(rq, procs_moved[i])` -/
def subEnqueueAll (r : RqId NCPU) (ms : List (Option (Fin NPROC))) (k : Kernel NPROC NCPU) :
    Except Fault (Kernel NPROC NCPU) :=
  ms.foldlM (fun k m => do k.subEnqueueProc r (← deref m)) k

/-- The section of `load_balance_MLFQ` under `rq->rq_lock`. -/
def balancePut (c : Fin NCPU) (ms : Level → List (Option (Fin NPROC))) (k : Kernel NPROC NCPU) :
    Except Fault (Kernel NPROC NCPU) := do
  let k ← k.subEnqueueAll (c, .one) (ms .one)
  let k ← k.subEnqueueAll (c, .two) (ms .two)
  k.subEnqueueAll (c, .three) (ms .three)

/-- `load_balance_MLFQ(cpus[c].rq)` -/
def loadBalanceMLFQ (c : Fin NCPU) (k : Kernel NPROC NCPU) : Except Fault (Kernel NPROC NCPU) :=
  match k.busiest with
  | none => pure k
  | some src => do
    let (k, ms) ← k.balanceGet src
    k.balancePut c ms

end Kernel

end Xv6Shed
