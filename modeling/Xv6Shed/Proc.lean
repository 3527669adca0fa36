import Mathlib.Tactic.Simps.Basic
import Xv6Shed.SchedClass

/-!
# Processes and the kernel state

The process table of `proc.h` and the globals of `proc.c`. `NPROC` and `NCPU` are the
constants of `param.h`, kept as parameters. Pointers to table slots, CPUs and run queues
are indices, `none` the null pointer. Left out of `struct proc` are the fields no
modelled function reads: `sz`, `context`, `tf` and `name`.

Blocks of memory are numbered in the order `kalloc` hands them out; `freed` records
those passed to `kfree`. `switches` records what `schedule` did. Both are history only.
-/

namespace Xv6Shed
open Function

/-- `enum proc_state` -/
inductive ProcState where
  | unused
  | embryo
  | sleeping
  | runnable
  | running
  | zombie
  deriving DecidableEq, Repr

/-- `param.h` -/
abbrev NOFILE : ℕ := 16

/-- A channel to sleep on: the address of a table slot or some other address. -/
inductive Chan (NPROC : ℕ) where
  | proc (p : Fin NPROC)
  | addr (a : ℕ)
  deriving DecidableEq, Repr

/-- `&ticks` -/
def ticksChan {NPROC : ℕ} : Chan NPROC := .addr 0

/-- The three levels of a CPU's run queue. -/
inductive Level where
  | one
  | two
  | three
  deriving DecidableEq, Repr

/-- `rq->next` -/
def Level.next : Level → Option Level
  | .one => some .two
  | .two => some .three
  | .three => none

/-- `rq->sub_sched_class`, as `pinit` sets it -/
def Level.subSchedClass : Level → SchedClass
  | .one => .RR
  | .two => .RR
  | .three => .fifo

/-- `rq->max_slices`, as `pinit` sets it -/
def Level.maxSlices : Level → ℤ
  | .one => 20
  | .two => 500
  | .three => 0

/-- `&rqs[i + l * NCPU]` -/
abbrev RqId (NCPU : ℕ) := Fin NCPU × Level

/-- `struct proc` -/
structure Proc (NPROC NCPU : ℕ) where
  mem : Option ℕ
  kstack : Option ℕ
  state : ProcState
  pid : ℤ
  parent : Option (Fin NPROC)
  chan : Option (Chan NPROC)
  killed : Bool
  ofile : Fin NOFILE → Option ℕ
  cwd : Option ℕ
  timeslice : ℤ
  rq : Option (RqId NCPU)

/-- The states a process can be dispatched in. -/
def ProcState.Ready (s : ProcState) : Prop := s = .runnable ∨ s = .running

instance : DecidablePred ProcState.Ready := fun s =>
  inferInstanceAs (Decidable (s = .runnable ∨ s = .running))

/-- One execution of `schedule()` up to `next->state = RUNNING`; `state` is the state of
`next` before that store. -/
structure Dispatch (NPROC NCPU : ℕ) where
  cpu : Fin NCPU
  prev : Fin NPROC
  next : Fin NPROC
  state : ProcState
  deriving DecidableEq

structure Kernel (NPROC NCPU : ℕ) where
  proc : Fin NPROC → Proc NPROC NCPU
  initproc : Option (Fin NPROC)
  idleproc : Fin NCPU → Option (Fin NPROC)
  nextpid : ℤ
  rqs : RqId NCPU → Rq NPROC
  ncpu : ℕ
  curproc : Fin NCPU → Option (Fin NPROC)
  blocks : ℕ
  freed : List ℕ
  switches : List (Dispatch NPROC NCPU)

variable {NPROC NCPU : ℕ}

namespace Kernel

@[simps] def setProc (p : Fin NPROC) (q : Proc NPROC NCPU) (k : Kernel NPROC NCPU) :
    Kernel NPROC NCPU :=
  { k with proc := update k.proc p q }

/-- `p->state = s` -/
@[simps!] def setState (p : Fin NPROC) (s : ProcState) (k : Kernel NPROC NCPU) :
    Kernel NPROC NCPU :=
  k.setProc p { k.proc p with state := s }

@[simps] def setRq (r : RqId NCPU) (rq : Rq NPROC) (k : Kernel NPROC NCPU) : Kernel NPROC NCPU :=
  { k with rqs := update k.rqs r rq }

/-- `kalloc`, when it succeeds -/
def kalloc (k : Kernel NPROC NCPU) : ℕ × Kernel NPROC NCPU :=
  (k.blocks, { k with blocks := k.blocks + 1 })

@[simps] def kfree (b : Option ℕ) (k : Kernel NPROC NCPU) : Kernel NPROC NCPU :=
  { k with freed := b.toList ++ k.freed }

end Kernel

end Xv6Shed
