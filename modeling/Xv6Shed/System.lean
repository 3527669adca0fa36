import Xv6Shed.Frames
import Xv6Shed.Transition

/-!
# The kernel as a system of atomic operations

Each kernel operation is one step of the CPU it runs on: a system call from entry to
return or to the point where the process is switched out, or a timer interrupt. The
operations take the locks their sections need, so `held` is true throughout.
-/

namespace Xv6Shed
open Function Transition

variable {NPROC NCPU : ℕ}

namespace Kernel

/-- `copyproc(cp)`; nothing is left behind when the table is full -/
def copyproc (kstackOk memOk : Bool) (c : Fin NCPU) (k : Kernel NPROC NCPU) :
    Except Fault (Option (Fin NPROC) × Kernel NPROC NCPU) := do
  let me ← deref (k.curproc c)
  match k.allocproc with
  | (none, k) => pure (none, k)
  | (some np, k) =>
    let (ok, k) := k.copyRest kstackOk memOk (some me) np
    pure (if ok then some np else none, k)

/-- What `copyproc(me)` returns, and the state it then leaves, when the two allocations
succeed as given. A slot it gives up after `allocproc` keeps the number it was given. -/
inductive Copied (k : Kernel NPROC NCPU) (me : Fin NPROC) :
    Bool → Bool → Option (Fin NPROC) → Kernel NPROC NCPU → Prop
  | full {kstackOk memOk : Bool} : Copied k me kstackOk memOk none k
  | nokstack {memOk : Bool} {np : Fin NPROC} : (k.proc np).state = .unused →
      Copied k me false memOk none
        ({ k with nextpid := (k.nextpid + 1).bmod (2 ^ 32) }.setProc np { k.proc np with
          pid := k.nextpid, rq := none, kstack := none, state := .unused })
  | nomem {np : Fin NPROC} : (k.proc np).state = .unused → Copied k me true false none
      ({ k with
          nextpid := (k.nextpid + 1).bmod (2 ^ 32)
          blocks := k.blocks + 1
          freed := k.blocks :: k.freed }.setProc np { k.proc np with
        pid := k.nextpid, rq := none, kstack := none, mem := none, parent := none,
        state := .unused })
  | done {np : Fin NPROC} : (k.proc np).state = .unused → Copied k me true true (some np)
      ({ k with
          nextpid := (k.nextpid + 1).bmod (2 ^ 32)
          blocks := k.blocks + 2 }.setProc np { k.proc np with
        state := .embryo
        pid := k.nextpid
        rq := none
        kstack := some k.blocks
        parent := some me
        mem := some (k.blocks + 1)
        ofile := fun i => if (k.proc me).ofile i ≠ none then (k.proc me).ofile i
          else (k.proc np).ofile i
        cwd := (k.proc me).cwd })

section
variable {k k' : Kernel NPROC NCPU} {me np : Fin NPROC} {o : Option (Fin NPROC)}
  {kstackOk memOk : Bool}

theorem Copied.frame (h : k.Copied me kstackOk memOk o k') :
    k'.rqs = k.rqs ∧ k'.curproc = k.curproc ∧ k'.idleproc = k.idleproc ∧
      k'.switches = k.switches ∧ k'.ncpu = k.ncpu ∧
      ∀ p, k'.proc p = k.proc p ∨ (k.proc p).state = .unused ∧
        ((k'.proc p).state = .unused ∨ (k'.proc p).state = .embryo) := by
  have hslot : ∀ {np p : Fin NPROC} {q : Proc NPROC NCPU}, (k.proc np).state = .unused →
      q.state = .unused ∨ q.state = .embryo → update k.proc np q p = k.proc p ∨
        (k.proc p).state = .unused ∧
          ((update k.proc np q p).state = .unused ∨ (update k.proc np q p).state = .embryo) := by
    intro np p q hu hq
    by_cases hp : p = np
    · subst hp
      exact .inr ⟨hu, by simpa using hq⟩
    · exact .inl (update_of_ne hp _ _)
  cases h with
  | full => exact ⟨rfl, rfl, rfl, rfl, rfl, fun _ => .inl rfl⟩
  | nokstack hu => exact ⟨rfl, rfl, rfl, rfl, rfl, fun p => hslot hu (.inl rfl)⟩
  | nomem hu => exact ⟨rfl, rfl, rfl, rfl, rfl, fun p => hslot hu (.inl rfl)⟩
  | done hu => exact ⟨rfl, rfl, rfl, rfl, rfl, fun p => hslot hu (.inr rfl)⟩

theorem Copied.embryo (h : k.Copied me kstackOk memOk (some np) k') :
    (k'.proc np).state = .embryo := by
  cases h
  simp

theorem copyproc_copied {c : Fin NCPU} (hcur : k.curproc c = some me) (kstackOk memOk : Bool) :
    ∃ o k', k.copyproc kstackOk memOk c = .ok (o, k') ∧ k.Copied me kstackOk memOk o k' := by
  unfold copyproc
  rw [hcur, deref_some, ok_bind]
  rcases ha : k.allocproc with ⟨_ | np, k₁⟩
  · obtain rfl := allocproc_none ha
    exact ⟨none, _, rfl, .full⟩
  · obtain ⟨hu, rfl⟩ := allocproc_some ha
    dsimp only
    cases kstackOk with
    | false =>
      refine ⟨none, _, rfl, ?_⟩
      simpa [copyRest_nokstack, setProc] using Copied.nokstack hu
    | true =>
      cases memOk with
      | false =>
        refine ⟨none, _, by rw [copyRest_nomem]; rfl, ?_⟩
        simpa [setProc] using Copied.nomem hu
      | true =>
        refine ⟨some np, _, by rw [copyRest_done]; rfl, ?_⟩
        have hd : k.Copied me true true (some np) _ := .done hu
        by_cases hne : me = np
        · simpa [setProc, hne] using hd
        · simpa [setProc, hne] using hd

end

/-- `sys_fork` -/
def fork (kstackOk memOk : Bool) (c : Fin NCPU) (k : Kernel NPROC NCPU) :
    Except Fault (Kernel NPROC NCPU) := do
  match ← k.copyproc kstackOk memOk c with
  | (none, k) => pure k
  | (some np, k) => k.forkEnqueue true c np

/-- `sleep(chan, lk)`, up to the switch -/
def sleep (c : Fin NCPU) (chan : Chan NPROC) (k : Kernel NPROC NCPU) :
    Except Fault (Kernel NPROC NCPU) := do
  (← k.sleepSet c (some chan)).schedule true c

def wakeup (c : Fin NCPU) (chan : Chan NPROC) (k : Kernel NPROC NCPU) :
    Except Fault (Kernel NPROC NCPU) :=
  k.wakeup1 true c (some chan)

/-- `exit()`, up to the switch -/
def exit (c : Fin NCPU) (k : Kernel NPROC NCPU) : Except Fault (Kernel NPROC NCPU) := do
  let k ← k.exitFiles c
  let k ← k.exitTable true c
  k.schedule true c

/-- One scan of the table by `wait()`: it reaps a child, returns -1, or sleeps. -/
def wait (c : Fin NCPU) (k : Kernel NPROC NCPU) : Except Fault (Kernel NPROC NCPU) := do
  let me ← deref (k.curproc c)
  match k.waitScan me (List.finRange NPROC) false with
  | .found p => pure (k.reap p)
  | .none => pure k
  | .sleep => k.sleep c (.proc me)

/-- `ticks++; wakeup(&ticks)`, which only CPU 0 does -/
def tickWakeup (c : Fin NCPU) (k : Kernel NPROC NCPU) : Except Fault (Kernel NPROC NCPU) :=
  if c.val = 0 then k.wakeup c ticksChan else pure k

/-- An idle CPU balances the load first. -/
def tickBalance (c : Fin NCPU) (p : Fin NPROC) (k : Kernel NPROC NCPU) :
    Except Fault (Kernel NPROC NCPU) :=
  if k.idleproc c = some p then k.loadBalanceMLFQ c else pure k

/-- `proc_tick(cpus[c].rq, cp)` -/
def procTick (c : Fin NCPU) (p : Fin NPROC) (k : Kernel NPROC NCPU) :
    Except Fault (Kernel NPROC NCPU) := do
  match ← k.procTickMLFQ c p with
  | (k, .yield) => k.yield true c
  | (k, .demote) => k.demote true c p
  | (k, .done) => pure k

/-- `trap()` for a timer interrupt, from the test of `cp->killed` on -/
def tickProc (user : Bool) (c : Fin NCPU) (k : Kernel NPROC NCPU) :
    Except Fault (Kernel NPROC NCPU) :=
  match k.curproc c with
  | none => pure k
  | some p =>
    if (k.proc p).killed = true ∧ user = true then k.exit c
    else if (k.proc p).state = .running then do
      (← k.tickBalance c p).procTick c p
    else pure k

/-- `trap()` for a timer interrupt; `user` says whether it came from user mode. -/
def tick (user : Bool) (c : Fin NCPU) (k : Kernel NPROC NCPU) :
    Except Fault (Kernel NPROC NCPU) := do
  (← k.tickWakeup c).tickProc user c

end Kernel

/-- The operations of the kernel, as single steps of a CPU. -/
inductive Op (NPROC : ℕ) where
  | runIdle
  | fork (kstackOk memOk : Bool)
  /-- the first half of `sys_fork` -/
  | copyproc (kstackOk memOk : Bool)
  /-- the second half of `sys_fork` -/
  | forkEnqueue (np : Fin NPROC)
  | sleep (chan : Chan NPROC)
  /-- the end of `sleep`, when the process runs again -/
  | sleepClear
  | wakeup (chan : Chan NPROC)
  | exit
  | wait
  | tick (user : Bool)
  deriving DecidableEq

namespace Op

def exec (c : Fin NCPU) (k : Kernel NPROC NCPU) : Op NPROC → Except Fault (Kernel NPROC NCPU)
  | .runIdle => k.runIdle c
  | .fork kstackOk memOk => k.fork kstackOk memOk c
  | .copyproc kstackOk memOk => do pure (← k.copyproc kstackOk memOk c).2
  | .forkEnqueue np => k.forkEnqueue true c np
  | .sleep chan => k.sleep c chan
  | .sleepClear => k.sleepClear c
  | .wakeup chan => k.wakeup c chan
  | .exit => k.exit c
  | .wait => k.wait c
  | .tick user => k.tick user c

/-- CPU `c` can begin the operation: it has started and, for a system call, a process other
than its idle process is current (the idle process executes no system call). A new process
is queued by its parent, who made it. -/
def Enabled (c : Fin NCPU) (k : Kernel NPROC NCPU) : Op NPROC → Prop
  | .runIdle => k.curproc c = none
  | .wakeup _ | .tick _ => k.curproc c ≠ none
  | .forkEnqueue np => k.curproc c ≠ none ∧ k.curproc c ≠ k.idleproc c ∧
      (k.proc np).state = .embryo ∧ (k.proc np).parent = k.curproc c
  | _ => k.curproc c ≠ none ∧ k.curproc c ≠ k.idleproc c

instance (c : Fin NCPU) (k : Kernel NPROC NCPU) : DecidablePred (Enabled c k)
  | .runIdle => inferInstanceAs (Decidable (k.curproc c = none))
  | .wakeup _ | .tick _ => inferInstanceAs (Decidable (k.curproc c ≠ none))
  | .forkEnqueue np => inferInstanceAs (Decidable (k.curproc c ≠ none ∧
      k.curproc c ≠ k.idleproc c ∧ (k.proc np).state = .embryo ∧
      (k.proc np).parent = k.curproc c))
  | .fork _ _ | .copyproc _ _ | .sleep _ | .sleepClear | .exit | .wait =>
    inferInstanceAs (Decidable (k.curproc c ≠ none ∧ k.curproc c ≠ k.idleproc c))

end Op

/-- One step of the system: CPU `a.1 < ncpu` performs the operation `a.2`. -/
structure Step (k : Kernel NPROC NCPU) (a : Fin NCPU × Op NPROC) (k' : Kernel NPROC NCPU) :
    Prop where
  cpu : a.1.val < k.ncpu
  enabled : a.2.Enabled a.1 k
  exec : a.2.exec a.1 k = .ok k'

/-- The step with a given label, if it is possible. -/
def perform (k : Kernel NPROC NCPU) (a : Fin NCPU × Op NPROC) : Option (Kernel NPROC NCPU) :=
  if a.1.val < k.ncpu ∧ a.2.Enabled a.1 k then (a.2.exec a.1 k).toOption else none

theorem step_of_perform {k k' : Kernel NPROC NCPU} {a : Fin NCPU × Op NPROC}
    (h : perform k a = some k') : Step k a k' := by
  unfold perform at h
  split_ifs at h with hen
  refine ⟨hen.1, hen.2, ?_⟩
  cases he : a.2.exec a.1 k <;> rw [he] at h <;> cases h
  rfl

end Xv6Shed
