import Mathlib.Algebra.Group.Nat.Defs
import Xv6Shed.SchedMLFQ

/-!
# The process operations

The functions of `proc.c`, `sysproc.c` and `trap.c` that move processes between states,
cut at the points where the source takes or drops a lock: each definition is one section
that runs under the locks its caller holds. `c` is `cpu()` and `held` says whether that
CPU holds its run-queue lock.
-/

namespace Xv6Shed
open Function

variable {NPROC NCPU : ℕ}

namespace Kernel

/-- The stores `c->curproc = next; next->state = RUNNING` of `schedule`, with their record. -/
@[simps!] def dispatch (c : Fin NCPU) (prev next : Fin NPROC) (k : Kernel NPROC NCPU) :
    Kernel NPROC NCPU :=
  { k with
    curproc := update k.curproc c (some next)
    switches := ⟨c, prev, next, (k.proc next).state⟩ :: k.switches }.setState next .running

/-- The start of `schedule`: if cp is not running, remove it from the queue. -/
def removePrev (held : Bool) (c : Fin NCPU) (prev : Fin NPROC) (k : Kernel NPROC NCPU) :
    Except Fault (Kernel NPROC NCPU) :=
  if (k.proc prev).state.Ready then pure k else k.dequeueProc held c prev

/-- `schedule`, up to the call of `swtch` -/
def schedule (held : Bool) (c : Fin NCPU) (k : Kernel NPROC NCPU) :
    Except Fault (Kernel NPROC NCPU) := do
  let prev ← deref (k.curproc c)
  let k ← k.removePrev held c prev
  -- get next proc to run
  let next ← deref (← k.pickNextProc held c)
  pure (k.dispatch c prev next)

def runIdle (c : Fin NCPU) (k : Kernel NPROC NCPU) : Except Fault (Kernel NPROC NCPU) := do
  let p ← deref (k.idleproc c)
  pure ({ k with curproc := update k.curproc c (some p) }.setState p .running)

/-- `yield`, between its lock operations -/
def yield (held : Bool) (c : Fin NCPU) (k : Kernel NPROC NCPU) :
    Except Fault (Kernel NPROC NCPU) := do
  let p ← deref (k.curproc c)
  let k := k.setState p .runnable
  let k ← k.yieldProc held c
  k.schedule held c

/-- The section of `sleep` under `proc_table_lock`: `cp->chan = chan; cp->state = SLEEPING` -/
def sleepSet (c : Fin NCPU) (chan : Option (Chan NPROC)) (k : Kernel NPROC NCPU) :
    Except Fault (Kernel NPROC NCPU) := do
  let p ← deref (k.curproc c)
  pure (k.setProc p { k.proc p with chan := chan, state := .sleeping })

/-- `cp->chan = 0`, when `sleep` resumes -/
def sleepClear (c : Fin NCPU) (k : Kernel NPROC NCPU) : Except Fault (Kernel NPROC NCPU) := do
  let p ← deref (k.curproc c)
  pure (k.setProc p { k.proc p with chan := none })

/-- One round of the loop of `wakeup1`. -/
def wakeOne (held : Bool) (c : Fin NCPU) (chan : Option (Chan NPROC)) (k : Kernel NPROC NCPU)
    (p : Fin NPROC) : Except Fault (Kernel NPROC NCPU) :=
  if (k.proc p).state = .sleeping ∧ (k.proc p).chan = chan then
    (k.setState p .runnable).enqueueProc held c p
  else pure k

def wakeup1 (held : Bool) (c : Fin NCPU) (chan : Option (Chan NPROC)) (k : Kernel NPROC NCPU) :
    Except Fault (Kernel NPROC NCPU) :=
  (List.finRange NPROC).foldlM (wakeOne held c chan) k

def allocproc (k : Kernel NPROC NCPU) : Option (Fin NPROC) × Kernel NPROC NCPU :=
  match (List.finRange NPROC).find? (fun p => (k.proc p).state = .unused) with
  | none => (none, k)
  | some p =>
    (some p, { k with nextpid := (k.nextpid + 1).bmod (2 ^ 32) }.setProc p
      { k.proc p with state := .embryo, pid := k.nextpid, rq := none })

/-- `copyproc(p)` after `allocproc` returned `np`. Whether the two calls of `kalloc`
succeed is given by `kstackOk` and `memOk`; the result says whether `np` is returned. -/
def copyRest (kstackOk memOk : Bool) (p : Option (Fin NPROC)) (np : Fin NPROC)
    (k : Kernel NPROC NCPU) : Bool × Kernel NPROC NCPU :=
  if kstackOk = false then
    (false, k.setProc np { k.proc np with kstack := none, state := .unused })
  else
    let (kstack, k) := k.kalloc
    let k := k.setProc np { k.proc np with kstack := some kstack }
    match p with
    | none => (true, k)
    | some p =>
      let k := k.setProc np { k.proc np with parent := some p }
      if memOk = false then
        let k := k.kfree (some kstack)
        (false, k.setProc np
          { k.proc np with mem := none, kstack := none, state := .unused, parent := none })
      else
        let (mem, k) := k.kalloc
        (true, k.setProc np { k.proc np with
          mem := some mem
          ofile := fun i => if (k.proc p).ofile i ≠ none then (k.proc p).ofile i
            else (k.proc np).ofile i
          cwd := (k.proc p).cwd })

/-- The end of `sys_fork`, between its lock operations -/
def forkEnqueue (held : Bool) (c : Fin NCPU) (np : Fin NPROC) (k : Kernel NPROC NCPU) :
    Except Fault (Kernel NPROC NCPU) :=
  (k.setState np .runnable).enqueueProc held c np

/-- `kill(pid)`, the part under `proc_table_lock`, with its result -/
def kill (held : Bool) (c : Fin NCPU) (pid : ℤ) (k : Kernel NPROC NCPU) :
    Except Fault (Kernel NPROC NCPU × ℤ) :=
  match (List.finRange NPROC).find? (fun p => (k.proc p).pid = pid) with
  | none => pure (k, -1)
  | some p => do
    let k := k.setProc p { k.proc p with killed := true }
    -- Wake process from sleep if necessary.
    let k ←
      if (k.proc p).state = .sleeping then (k.setState p .runnable).enqueueProc held c p
      else pure k
    pure (k, 0)

/-- `exit`, before it takes a lock: close all open files and drop the directory. -/
def exitFiles (c : Fin NCPU) (k : Kernel NPROC NCPU) : Except Fault (Kernel NPROC NCPU) := do
  let me ← deref (k.curproc c)
  if k.initproc = some me then .error (.panic "init exiting")
  else pure (k.setProc me { k.proc me with ofile := fun _ => none, cwd := none })

/-- One round of the loop that passes abandoned children to init. -/
def reparentOne (held : Bool) (c : Fin NCPU) (me : Fin NPROC) (k : Kernel NPROC NCPU)
    (p : Fin NPROC) : Except Fault (Kernel NPROC NCPU) :=
  if (k.proc p).parent = some me then
    let k := k.setProc p { k.proc p with parent := k.initproc }
    if (k.proc p).state = .zombie then k.wakeup1 held c (k.initproc.map .proc) else pure k
  else pure k

/-- `exit`, under `proc_table_lock` and the run-queue lock -/
def exitTable (held : Bool) (c : Fin NCPU) (k : Kernel NPROC NCPU) :
    Except Fault (Kernel NPROC NCPU) := do
  let me ← deref (k.curproc c)
  -- Parent might be sleeping in wait().
  let k ← k.wakeup1 held c ((k.proc me).parent.map .proc)
  let k ← (List.finRange NPROC).foldlM (reparentOne held c me) k
  pure (k.setProc me { k.proc me with killed := false, state := .zombie })

/-- What one scan of the table tells `wait`. -/
inductive WaitResult (NPROC : ℕ) where
  /-- a zombie child -/
  | found (p : Fin NPROC)
  /-- return -1 -/
  | none
  /-- sleep and scan again -/
  | sleep
  deriving DecidableEq

/-- The scan of `wait` from a slot on, with `havekids` -/
def waitScan (me : Fin NPROC) (k : Kernel NPROC NCPU) :
    List (Fin NPROC) → Bool → WaitResult NPROC
  | [], havekids => if havekids = false ∨ (k.proc me).killed = true then .none else .sleep
  | p :: ps, havekids =>
    if (k.proc p).state = .unused then waitScan me k ps havekids
    else if (k.proc p).parent = some me then
      if (k.proc p).state = .zombie then .found p else waitScan me k ps true
    else waitScan me k ps havekids

/-- `wait`, once it has found the zombie `p` -/
def reap (p : Fin NPROC) (k : Kernel NPROC NCPU) : Kernel NPROC NCPU :=
  let k := k.kfree (k.proc p).mem
  let k := k.kfree (k.proc p).kstack
  k.setProc p { k.proc p with state := .unused, pid := 0, parent := none }

/-- `proc_tick_MLFQ` for a process of a round-robin level whose slice has run out,
between its lock operations -/
def demote (held : Bool) (c : Fin NCPU) (p : Fin NPROC) (k : Kernel NPROC NCPU) :
    Except Fault (Kernel NPROC NCPU) := do
  let r ← deref (k.proc p).rq
  let k ← k.subDequeueProc r p
  let l ← deref r.2.next
  let k ← k.subEnqueueProc (r.1, l) p
  let me ← deref (k.curproc c)
  (k.setState me .runnable).schedule held c

/-- What `proc_tick_MLFQ` goes on to do. -/
inductive Tick where
  | yield
  | demote
  | done
  deriving DecidableEq

/-- `proc_tick_MLFQ(cpus[c].rq, p)`, before it takes a lock -/
def procTickMLFQ (c : Fin NCPU) (p : Fin NPROC) (k : Kernel NPROC NCPU) :
    Except Fault (Kernel NPROC NCPU × Tick) :=
  if k.idleproc c = some p then pure (k, .yield)
  -- In RR queue
  else if (k.proc p).rq = some (c, .one) ∨ (k.proc p).rq = some (c, .two) then
    let k := k.setProc p { k.proc p with timeslice := (k.proc p).timeslice - 1 }
    pure (k, if (k.proc p).timeslice = 0 then .demote else .done)
  -- In fifo queue: `proc_tick_fifo` acts only on the idle process
  else if (k.proc p).rq = some (c, .three) then pure (k, .done)
  else .error (.panic "Error in tick_MLFQ\n")

/-- A run queue as the loader leaves it. -/
def zeroRq : Rq NPROC :=
  ⟨fun _ => none, fun _ => none, fun _ => none, none, none, none, 0, 0⟩

/-- A table slot as the loader leaves it. -/
def zeroProc : Proc NPROC NCPU :=
  ⟨none, none, .unused, 0, none, none, false, fun _ => none, none, 0, none⟩

/-- The state after `mp_init` and `pinit`. -/
def pinit (NPROC NCPU ncpu : ℕ) : Kernel NPROC NCPU where
  proc := fun _ => zeroProc
  initproc := none
  idleproc := fun _ => none
  nextpid := 1
  rqs := fun r => initRq r.2.subSchedClass { zeroRq with maxSlices := r.2.maxSlices }
  ncpu := ncpu
  curproc := fun _ => none
  blocks := 0
  freed := []
  switches := []

/-- The number of the root directory's inode: what `namei("/")` returns. -/
abbrev rootInode : ℕ := 1

/-- `copyproc(0)` with the stores that `userinit` and `allocIdle` share; memory is not
short at start-up. -/
def newProc (k : Kernel NPROC NCPU) : Except Fault (Fin NPROC × Kernel NPROC NCPU) := do
  let (np, k) := k.allocproc
  let p ← deref np
  let (_, k) := k.copyRest true true none p
  let (mem, k) := k.kalloc
  pure (p, k.setProc p
    { k.proc p with mem := some mem, cwd := some rootInode, state := .runnable })

/-- `idleproc[i] = allocIdle()` -/
def allocIdle (k : Kernel NPROC NCPU) (i : Fin NCPU) : Except Fault (Kernel NPROC NCPU) := do
  let (p, k) ← k.newProc
  pure { k with idleproc := update k.idleproc i (some p) }

/-- `userinit`, on CPU `c` -/
def userinit (c : Fin NCPU) (k : Kernel NPROC NCPU) : Except Fault (Kernel NPROC NCPU) := do
  let (p, k) ← k.newProc
  let k ← k.enqueueProc true c p
  let k := { k with initproc := some p }
  (List.finRange NCPU).foldlM allocIdle k

end Kernel

end Xv6Shed
