import Xv6Shed.Frames
import Xv6Shed.Threads
import Xv6Shed.Transition

/-!
# The kernel on several CPUs

The kernel's paths as code for the machine of `Threads`: every call of `acquire` and
`release` is one step of a CPU, and what lies between two such calls is another. The run
queue lock of CPU `c` is its own lock; `swtch` is the switch of threads, and the code a
process is switched out in is its `context`.

A call of `sleep` stands in a loop `while(!cond) sleep(chan, lk)` whose condition and lock
belong to the channel. Locks that are held only inside a section (those of the allocator and
the file system) are left out, and `exit` closes its files in one step.
-/

namespace Xv6Shed
open Function Threads Transition

/-- `proc_table_lock`, the lock of a CPU's run queue, or some other lock. -/
inductive LockId (NCPU : ℕ) where
  | procTable
  | rq (c : Fin NCPU)
  | other (n : ℕ)
  deriving DecidableEq

variable {NPROC NCPU : ℕ}

abbrev tickslock : LockId NCPU := .other 0

/-- The lock each channel's condition is protected by, which is no run queue's, and whether
`LOAD_BALANCE_ON` is defined. -/
structure Config (NCPU : ℕ) where
  guard : ℕ → LockId NCPU
  guard_ne : ∀ a c, guard a ≠ .rq c
  loadBalanceOn : Bool

/-- The process table and the run queues, and the conditions processes wait for. -/
structure Shared (NPROC NCPU : ℕ) where
  kernel : Kernel NPROC NCPU
  cond : ℕ → Bool

/-- The sections of the kernel's code. -/
inductive Act (NPROC NCPU : ℕ) where
  /-- `while(!cond) sleep(chan, lk)` -/
  | test (a : ℕ)
  | setCond (a : ℕ) (b : Bool)
  /-- `sleep(chan, lk)`, the first test of `lk` -/
  | sleep (chan : Chan NPROC) (lk : LockId NCPU)
  | sleepSet (chan : Chan NPROC)
  | sleepClear
  /-- `sleep(chan, lk)`, the second test of `lk` -/
  | sleepEnd (lk : LockId NCPU)
  | wakeup1 (chan : Chan NPROC)
  | kill (pid : ℤ)
  /-- `if(cp->killed) exit()` -/
  | killed
  | exitFiles
  | exitTable
  | panic (msg : String)
  /-- one scan of the table by `wait` -/
  | wait
  | allocproc (kstackOk memOk : Bool)
  /-- `copyproc`, after `allocproc` returned `np` -/
  | copyproc (kstackOk memOk : Bool) (np : Fin NPROC)
  | forkEnqueue (np : Fin NPROC)
  /-- `trap` for an interrupt, from the test of `cp->killed` on -/
  | trap (user timer : Bool)
  | loadBalance
  | balanceGet (src dst : Fin NCPU)
  | balancePut (dst : Fin NCPU) (ms : Level → List (Option (Fin NPROC)))
  | procTick (p : Fin NPROC)
  | schedule
  | yield
  | demote (p : Fin NPROC)
  | runIdle

abbrev Code (NPROC NCPU : ℕ) := List (Instr (LockId NCPU) (Act NPROC NCPU))

namespace Code

/-- `sleep(chan, lk)` on CPU `c` -/
def sleep (c : Fin NCPU) (chan : Chan NPROC) (lk : LockId NCPU) : Code NPROC NCPU :=
  (if lk = .procTable then [.acquire .own]
    else if lk = .rq c then [.acquire (.named .procTable)]
    else [.acquire (.named .procTable), .acquire .own, .release (.named lk)]) ++
  [.act (.sleepSet chan), .release (.named .procTable), .switch .schedule,
    .acquire (.named .procTable), .act .sleepClear, .act (.sleepEnd lk)]

/-- The end of `sleep(chan, lk)` on CPU `c` -/
def sleepEnd (c : Fin NCPU) (lk : LockId NCPU) : Code NPROC NCPU :=
  if lk = .procTable then [.release .own]
  else if lk = .rq c then [.release (.named .procTable)]
  else [.release (.named .procTable), .release .own, .acquire (.named lk)]

def wakeup (chan : Chan NPROC) : Code NPROC NCPU :=
  [.acquire (.named .procTable), .acquire .own, .act (.wakeup1 chan), .release .own,
    .release (.named .procTable)]

def exit : Code NPROC NCPU :=
  [.act .exitFiles, .acquire (.named .procTable), .acquire .own, .act .exitTable,
    .release (.named .procTable), .switch .schedule, .act (.panic "zombie exit")]

def yield : Code NPROC NCPU := [.acquire .own, .switch .yield, .release .own]

/-- `proc_tick_MLFQ(cpus[c].rq, p)`, when the slice of `p` has run out -/
def demote (c : Fin NCPU) (p : Fin NPROC) : Code NPROC NCPU :=
  [.acquire (.named (.rq c)), .switch (.demote p), .release (.named (.rq c))]

/-- `forkret()`; interrupts are on again when the process returns to user mode. -/
def forkret : Code NPROC NCPU := [.release .own, .sti]

end Code

/-- The section ends in state `k`; the code `is` follows before the rest. -/
def Shared.go (s : Shared NPROC NCPU) (k : Kernel NPROC NCPU) (is : Code NPROC NCPU) :
    Outcome (Fin NPROC) (LockId NCPU) (Act NPROC NCPU) (Shared NPROC NCPU) :=
  ⟨{ s with kernel := k }, is, none⟩

/-- A section of CPU `c`; `held` says whether `c` holds the lock of its run queue. -/
def Act.run (cfg : Config NCPU) (c : Fin NCPU) (held : Bool) (s : Shared NPROC NCPU) :
    Act NPROC NCPU →
      Except Fault (Outcome (Fin NPROC) (LockId NCPU) (Act NPROC NCPU) (Shared NPROC NCPU))
  | .test a => .ok (s.go s.kernel (if s.cond a then []
      else [.act (.sleep (.addr a) (cfg.guard a)), .act (.test a)]))
  | .setCond a b => .ok ⟨{ s with cond := update s.cond a b }, [], none⟩
  | .sleep chan lk =>
    if s.kernel.curproc c = none then .error (.panic "sleep")
    else .ok (s.go s.kernel (Code.sleep c chan lk))
  | .sleepSet chan => do pure (s.go (← s.kernel.sleepSet c (some chan)) [])
  | .sleepClear => do pure (s.go (← s.kernel.sleepClear c) [])
  | .sleepEnd lk => .ok (s.go s.kernel (Code.sleepEnd c lk))
  | .wakeup1 chan => do pure (s.go (← s.kernel.wakeup1 held c (some chan)) [])
  | .kill pid => do pure (s.go (← s.kernel.kill held c pid).1 [])
  | .killed => do
    let me ← deref (s.kernel.curproc c)
    pure (s.go s.kernel (if (s.kernel.proc me).killed then Code.exit else []))
  | .exitFiles => do pure (s.go (← s.kernel.exitFiles c) [])
  | .exitTable => do pure (s.go (← s.kernel.exitTable held c) [])
  | .panic msg => .error (.panic msg)
  | .wait => do
    let me ← deref (s.kernel.curproc c)
    match s.kernel.waitScan me (List.finRange NPROC) false with
    | .found p => pure (s.go (s.kernel.reap p) [.release (.named .procTable)])
    | .none => pure (s.go s.kernel [.release (.named .procTable)])
    | .sleep => pure (s.go s.kernel [.act (.sleep (.proc me) .procTable), .act .wait])
  | .allocproc kstackOk memOk =>
    match s.kernel.allocproc with
    | (none, k) => .ok (s.go k [.release (.named .procTable)])
    | (some np, k) =>
      .ok (s.go k [.release (.named .procTable), .act (.copyproc kstackOk memOk np)])
  | .copyproc kstackOk memOk np => do
    let me ← deref (s.kernel.curproc c)
    match s.kernel.copyRest kstackOk memOk (some me) np with
    | (false, k) => pure (s.go k [])
    | (true, k) => pure ⟨{ s with kernel := k },
        [.acquire .own, .act (.forkEnqueue np), .release .own], some np⟩
  | .forkEnqueue np => do pure (s.go (← s.kernel.forkEnqueue held c np) [])
  | .trap user timer =>
    match s.kernel.curproc c with
    | none => .ok (s.go s.kernel [])
    | some p => .ok (s.go s.kernel (
      if (s.kernel.proc p).killed = true ∧ user = true then Code.exit
      else if (s.kernel.proc p).state = .running ∧ timer = true then
        (if cfg.loadBalanceOn = true ∧ s.kernel.idleproc c = some p then [.act .loadBalance]
          else []) ++ [.act (.procTick p)]
      else []))
  | .loadBalance =>
    match s.kernel.busiest with
    | none => .ok (s.go s.kernel [])
    | some src => .ok (s.go s.kernel [.acquire (.named (.rq src)), .act (.balanceGet src c)])
  | .balanceGet src dst => do
    let (k, ms) ← s.kernel.balanceGet src
    pure (s.go k [.release (.named (.rq src)), .acquire (.named (.rq dst)),
      .act (.balancePut dst ms), .release (.named (.rq dst))])
  | .balancePut dst ms => do pure (s.go (← s.kernel.balancePut dst ms) [])
  | .procTick p => do
    match ← s.kernel.procTickMLFQ c p with
    | (k, .yield) => pure (s.go k Code.yield)
    | (k, .demote) => pure (s.go k (Code.demote c p))
    | (k, .done) => pure (s.go k [])
  | .schedule => do pure (s.go (← s.kernel.schedule held c) [])
  | .yield => do pure (s.go (← s.kernel.yield held c) [])
  | .demote p => do pure (s.go (← s.kernel.demote held c p) [])
  | .runIdle => do pure (s.go (← s.kernel.runIdle c) [])

/-- The kernel as a program of the machine. -/
def smp (cfg : Config NCPU) :
    Program (Fin NCPU) (Fin NPROC) (LockId NCPU) (Act NPROC NCPU) (Shared NPROC NCPU) Fault where
  own := .rq
  cur := fun s => s.kernel.curproc
  run := fun a c held s => a.run cfg c held s
  start := Code.forkret
  panic := .panic

/-- The kernel entries of a process. -/
inductive Syscall where
  | fork (kstackOk memOk : Bool)
  /-- `acquire lk; while(!cond) sleep(chan, lk); release lk` -/
  | sleep (a : ℕ)
  /-- `acquire lk; cond = 1; wakeup(chan); release lk` -/
  | wake (a : ℕ)
  /-- `acquire lk; cond = 0; release lk` -/
  | clear (a : ℕ)
  | wakeup (a : ℕ)
  | kill (pid : ℤ)
  | exit
  | wait
  deriving DecidableEq

namespace Code

/-- `acquire lk; cond = 1; wakeup(chan); release lk`. Under `proc_table_lock` itself the
processes are woken as `exit` does it. -/
def wake (cfg : Config NCPU) (a : ℕ) : Code NPROC NCPU :=
  if cfg.guard a = .procTable then
    [.acquire (.named .procTable), .acquire .own, .act (.setCond a true),
      .act (.wakeup1 (.addr a)), .release .own, .release (.named .procTable)]
  else [.acquire (.named (cfg.guard a)), .act (.setCond a true)] ++ wakeup (.addr a) ++
    [.release (.named (cfg.guard a))]

end Code

def Syscall.body (cfg : Config NCPU) : Syscall → Code NPROC NCPU
  | .fork kstackOk memOk => [.acquire (.named .procTable), .act (.allocproc kstackOk memOk)]
  | .sleep a =>
    [.acquire (.named (cfg.guard a)), .act (.test a), .release (.named (cfg.guard a))]
  | .wake a => Code.wake cfg a
  | .clear a =>
    [.acquire (.named (cfg.guard a)), .act (.setCond a false), .release (.named (cfg.guard a))]
  | .wakeup a => Code.wakeup (.addr a)
  | .kill pid =>
    [.acquire (.named .procTable), .act (.kill pid), .release (.named .procTable)]
  | .exit => Code.exit
  | .wait => [.acquire (.named .procTable), .act .wait]

namespace Code

/-- `trap()` for a system call -/
def syscall (cfg : Config NCPU) (s : Syscall) : Code NPROC NCPU :=
  .act .killed :: s.body cfg ++ [.act .killed, .sti]

/-- `trap()` for a timer interrupt of CPU `c` -/
def timer (c : Fin NCPU) (user : Bool) : Code NPROC NCPU :=
  (if c.val = 0 then
    .acquire (.named tickslock) :: wakeup ticksChan ++ [.release (.named tickslock)] else []) ++
  [.act (.trap user true)]

/-- `trap()` for the interrupt of a device that meets the condition of a channel -/
def device (cfg : Config NCPU) (a : ℕ) (user : Bool) : Code NPROC NCPU :=
  wake cfg a ++ [.act (.trap user false)]

def runIdle : Code NPROC NCPU := [.sti, .acquire .own, .switch .runIdle]

end Code

/-- The machine at the granularity of locks. -/
abbrev Smp (NPROC NCPU : ℕ) :=
  Machine (Fin NCPU) (Fin NPROC) (LockId NCPU) (Act NPROC NCPU) (Shared NPROC NCPU)

namespace Smp

/-- No CPU is in the kernel. One that runs a process has interrupts on. -/
def start (k : Kernel NPROC NCPU) (cond : ℕ → Bool) : Smp NPROC NCPU where
  mem := ⟨k, cond⟩
  holder := fun _ => none
  ncli := fun _ => 0
  intena := fun _ => false
  intr := fun c => (k.curproc c).isSome
  code := fun _ => []
  ctx := fun _ => Code.forkret

end Smp

/-- What a CPU does next: an instruction of its code, or it enters the kernel. -/
inductive Event where
  | exec
  | boot
  | call (s : Syscall)
  | timer
  | device (a : ℕ)
  deriving DecidableEq

/-- The step of CPU `c`, if it is possible. The idle process makes no system call. -/
def Smp.step (cfg : Config NCPU) (c : Fin NCPU) (m : Smp NPROC NCPU) :
    Event → Except Fault (Option (Smp NPROC NCPU))
  | .exec => m.exec (smp cfg) c
  | .boot => .ok (if m.mem.kernel.curproc c = none ∧ (m.code c).isEmpty then
      some (m.jump c Code.runIdle) else none)
  | .call s => .ok (if m.mem.kernel.curproc c ≠ none ∧
      m.mem.kernel.curproc c ≠ m.mem.kernel.idleproc c ∧ (m.code c).isEmpty then
      some (m.jump c (Code.syscall cfg s)) else none)
  | .timer => .ok (if m.intr c = true then
      some (m.interrupt c (Code.timer c (m.code c).isEmpty)) else none)
  | .device a => .ok (if m.intr c = true then
      some (m.interrupt c (Code.device cfg a (m.code c).isEmpty)) else none)

/-- One step of the machine: CPU `a.1 < ncpu` does `a.2`. -/
structure SmpStep (cfg : Config NCPU) (m : Smp NPROC NCPU) (a : Fin NCPU × Event)
    (m' : Smp NPROC NCPU) : Prop where
  cpu : a.1.val < m.mem.kernel.ncpu
  step : m.step cfg a.1 a.2 = .ok (some m')

/-- The state after a step, if it is possible. -/
def Smp.perform (cfg : Config NCPU) (m : Smp NPROC NCPU) (a : Fin NCPU × Event) :
    Option (Smp NPROC NCPU) :=
  if a.1.val < m.mem.kernel.ncpu then (m.step cfg a.1 a.2).toOption.join else none

/-- The state after a step that meets a condition. -/
def Smp.performIf (cfg : Config NCPU)
    (C : Smp NPROC NCPU → Fin NCPU × Event → Smp NPROC NCPU → Prop)
    [∀ m a m', Decidable (C m a m')] (m : Smp NPROC NCPU) (a : Fin NCPU × Event) :
    Option (Smp NPROC NCPU) :=
  (m.perform cfg a).filter fun m' => C m a m'

section
variable {cfg : Config NCPU} {m m' : Smp NPROC NCPU} {a : Fin NCPU × Event}

theorem Smp.step_of_perform (h : m.perform cfg a = some m') : SmpStep cfg m a m' := by
  unfold Smp.perform at h
  split_ifs at h with hc
  refine ⟨hc, ?_⟩
  cases hs : m.step cfg a.1 a.2 with
  | error e =>
    rw [hs] at h
    cases h
  | ok o =>
    rw [hs] at h
    exact congrArg Except.ok h

theorem Smp.reach_of_perform (h : m.perform cfg a = some m') : Reach (SmpStep cfg) m m' :=
  .next .start (step_of_perform h)

theorem Smp.reach_of_performIf {C : Smp NPROC NCPU → Fin NCPU × Event → Smp NPROC NCPU → Prop}
    [∀ m a m', Decidable (C m a m')] (h : m.performIf cfg C a = some m') :
    Reach (fun m a m' => SmpStep cfg m a m' ∧ C m a m') m m' := by
  obtain ⟨h, hC⟩ := Option.filter_eq_some_iff.mp h
  exact .next .start ⟨step_of_perform h, of_decide_eq_true hC⟩

end

end Xv6Shed
