import Mathlib.Tactic.Common
import Mathlib.Logic.Function.Basic
import Mathlib.Tactic.Simps.Basic

/-!
# Threads, CPUs and spinlocks

Several CPUs run the code of threads. Code is a list of instructions: to take or drop a
spinlock, to switch interrupts on, or to perform an action on the shared memory. What an
action does is a parameter; it may put more code in front of the rest, and an action
performed by `switch` may make another thread current, whose saved code the CPU then
continues. Taking a lock switches interrupts off until the last lock is dropped.
-/

namespace Xv6Shed.Threads
open Function

/-- A lock as code names it: the own lock of the CPU that runs the code, or a fixed one. -/
inductive LockRef (L : Type) where
  | own
  | named (l : L)

inductive Instr (L A : Type) where
  | acquire (l : LockRef L)
  | release (l : LockRef L)
  | sti
  | act (a : A)
  | switch (a : A)

/-- What an action leaves: the memory, code to run before the rest, and perhaps a thread
that is to begin when it is first made current. -/
structure Outcome (P L A σ : Type) where
  mem : σ
  push : List (Instr L A)
  spawn : Option P

/-- The parameters of a machine: `own c` is the lock of CPU `c`, `cur s c` its current thread,
`run a c held s` performs an action on CPU `c`, where `held` says whether `c` holds its own
lock, and `start` is the code of a new thread. -/
structure Program (C P L A σ ε : Type) where
  own : C → L
  cur : σ → C → Option P
  run : A → C → Bool → σ → Except ε (Outcome P L A σ)
  start : List (Instr L A)
  panic : String → ε

structure Machine (C P L A σ : Type) where
  mem : σ
  holder : L → Option C
  ncli : C → ℕ
  intena : C → Bool
  intr : C → Bool
  code : C → List (Instr L A)
  ctx : P → List (Instr L A)

variable {C P L A σ ε Φ : Type} [DecidableEq C] [DecidableEq P] [DecidableEq L]

@[simp] def LockRef.on (own : C → L) (c : C) : LockRef L → L
  | .own => own c
  | .named l => l

namespace Machine

/-- CPU `c` goes on with `is`. -/
@[simps] def jump (c : C) (is : List (Instr L A)) (m : Machine C P L A σ) : Machine C P L A σ :=
  { m with code := update m.code c is }

/-- The stores of `acquire`, with `pushcli`. -/
@[simps] def lock (c : C) (l : L) (m : Machine C P L A σ) : Machine C P L A σ :=
  { m with
    holder := update m.holder l (some c)
    ncli := update m.ncli c (m.ncli c + 1)
    intena := if m.ncli c = 0 then update m.intena c (m.intr c) else m.intena
    intr := update m.intr c false }

/-- The stores of `release`, with `popcli`. -/
@[simps] def unlock (c : C) (l : L) (m : Machine C P L A σ) : Machine C P L A σ :=
  { m with
    holder := update m.holder l none
    ncli := update m.ncli c (m.ncli c - 1)
    intr := if m.ncli c = 1 ∧ m.intena c = true then update m.intr c true else m.intr }

@[simps] def spawn (G : Program C P L A σ ε) (np : Option P) (m : Machine C P L A σ) :
    Machine C P L A σ :=
  { m with ctx := np.elim m.ctx fun np => update m.ctx np G.start }

/-- CPU `c` leaves the code `is` of `prev` and continues that of `next`. -/
def swtch (c : C) (prev next : Option P) (is : List (Instr L A)) (m : Machine C P L A σ) :
    Machine C P L A σ :=
  if next = prev then m.jump c is
  else
    let ctx := prev.elim m.ctx fun p => update m.ctx p is
    { m with ctx := ctx, code := update m.code c (next.elim [] ctx) }

omit [DecidableEq L] in
@[simp] theorem swtch_mem (c : C) (prev next : Option P) (is : List (Instr L A))
    (m : Machine C P L A σ) : (m.swtch c prev next is).mem = m.mem := by
  unfold swtch
  split_ifs <;> rfl

/-- One instruction of CPU `c`, if it can move: it cannot while it has no code to run or
waits for a lock. -/
def exec (G : Program C P L A σ ε) (c : C) (m : Machine C P L A σ) :
    Except ε (Option (Machine C P L A σ)) :=
  match m.code c with
  | [] => .ok none
  | .acquire l :: is =>
    if m.holder (l.on G.own c) = some c then .error (G.panic "acquire")
    else if m.holder (l.on G.own c) = none then .ok (some ((m.lock c (l.on G.own c)).jump c is))
    else .ok none
  | .release l :: is =>
    if m.holder (l.on G.own c) ≠ some c then .error (G.panic "release")
    else if m.intr c = true then .error (G.panic "popcli - interruptible")
    else if m.ncli c = 0 then .error (G.panic "popcli")
    else .ok (some ((m.unlock c (l.on G.own c)).jump c is))
  | .sti :: is => .ok (some ({ m with intr := update m.intr c true }.jump c is))
  | .act a :: is =>
    match G.run a c (m.holder (G.own c) = some c) m.mem with
    | .error e => .error e
    | .ok o => .ok (some (({ m with mem := o.mem }.spawn G o.spawn).jump c (o.push ++ is)))
  | .switch a :: is =>
    match G.run a c (m.holder (G.own c) = some c) m.mem with
    | .error e => .error e
    | .ok o => .ok (some ({ m with mem := o.mem }.swtch c (G.cur m.mem c) (G.cur o.mem c) is))

/-- CPU `c` is interrupted: it runs `is` with interrupts off, then goes on. -/
@[simps!] def interrupt (c : C) (is : List (Instr L A)) (m : Machine C P L A σ) :
    Machine C P L A σ :=
  { m with intr := update m.intr c false }.jump c (is ++ Instr.sti :: m.code c)

end Machine

end Xv6Shed.Threads
