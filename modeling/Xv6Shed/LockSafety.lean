import Xv6Shed.Faults
import Xv6Shed.LockDiscipline

/-!
# Lock safety

The machine is typed by the lock discipline in every state it reaches. From this follow the
hand-off of the run-queue lock across context switches and the absence of the panics that say
a run queue was used without its lock, each with the one case that breaks it.
-/

namespace Xv6Shed
open Function Threads Transition

variable {NPROC NCPU : ℕ} {cfg : Config NCPU} {idle : Fin NCPU → Option (Fin NPROC)}
  {quiet : Set (Fin NPROC)} {dead : Prop} {m m' : Smp NPROC NCPU}
  {H H' : Fin NCPU → List (LockId NCPU)} {φ φ' : Fin NCPU → Phase} {c : Fin NCPU}
  {k : Kernel NPROC NCPU} {cond : ℕ → Bool}

namespace Smp

/-- The code of every CPU and process keeps the lock discipline. -/
abbrev Typed (cfg : Config NCPU) (idle : Fin NCPU → Option (Fin NPROC)) (quiet : Set (Fin NPROC))
    (dead : Prop) (m : Smp NPROC NCPU) (H : Fin NCPU → List (LockId NCPU))
    (φ : Fin NCPU → Phase) : Prop :=
  Threads.Typed (smp cfg) (locking cfg idle quiet) dead m H φ

theorem typed_start (hq : ∀ p ∈ quiet, (k.proc p).killed = false) :
    Typed cfg k.idleproc quiet dead (start k cond) (fun _ => []) fun _ => .free where
  mem := ⟨rfl, hq⟩
  holder _ _ := by simp [start]
  nodup _ := List.nodup_nil
  ncli _ := rfl
  intr _ h := absurd rfl h
  handler _ := nofun
  code _ := .inl ⟨rfl, rfl⟩
  ctx _ j _ := Locking.ok_forkret j

/-- CPU `c` has entered the kernel: only its code and its phase have changed. -/
structure Entered (c : Fin NCPU) (m : Smp NPROC NCPU) (H : Fin NCPU → List (LockId NCPU))
    (φ : Fin NCPU → Phase) (m' : Smp NPROC NCPU) (H' : Fin NCPU → List (LockId NCPU))
    (φ' : Fin NCPU → Phase) : Prop where
  mem : m'.mem = m.mem
  ctx : m'.ctx = m.ctx
  code : ∀ d, d ≠ c → m'.code d = m.code d
  locks : H' = H
  none : H c = []
  free : φ c = .free
  phase : φ' = φ ∨ φ' = update φ c .handler

theorem Typed.step {e : Event} (ht : Typed cfg idle quiet dead m H φ)
    (hs : SmpStep cfg m (c, e) m')
    (hfit : dead ∨ ∀ p, m'.mem.kernel.curproc c = some p → m.mem.kernel.curproc c ≠ some p →
      Discipline.Fits LockId.rq c (m.ctx p))
    (hcall : ∀ s, e = .call s → (∀ p ∈ quiet, m.mem.kernel.curproc c ≠ some p) ∧
      ∀ pid, s = .kill pid → quiet = ∅) :
    ∃ H' φ', Typed cfg idle quiet dead m' H' φ' ∧
      (e = .exec ∧ Effect (smp cfg) (locking cfg idle quiet) c m H φ m' H' φ' ∨
        Entered c m H φ m' H' φ') := by
  have h := hs.step
  cases e with
  | exec =>
    obtain ⟨H', φ', ht', heff⟩ := Threads.Typed.exec (Locking.sound cfg idle quiet) ht h hfit
    exact ⟨H', φ', ht', .inl ⟨rfl, heff⟩⟩
  | boot =>
    simp only [Smp.step, Except.ok.injEq, Option.ite_none_right_eq_some, Option.some.injEq,
      List.isEmpty_iff] at h
    obtain ⟨⟨hcur, hcode⟩, rfl⟩ := h
    obtain ⟨hH, hφ⟩ := ht.idle hcode
    refine ⟨H, φ, ht.enter hcode ?_,
      .inr ⟨rfl, rfl, fun d hd => by simp [hd], rfl, hH, hφ, .inl rfl⟩⟩
    rw [show (smp cfg).cur m.mem c = none from hcur]
    exact Locking.ok_runIdle
  | call s =>
    simp only [Smp.step, Except.ok.injEq, Option.ite_none_right_eq_some, Option.some.injEq,
      List.isEmpty_iff] at h
    obtain ⟨⟨-, -, hcode⟩, rfl⟩ := h
    obtain ⟨hH, hφ⟩ := ht.idle hcode
    obtain ⟨hq, hk⟩ := hcall s rfl
    exact ⟨H, φ, ht.enter hcode (Locking.ok_syscall hq s hk),
      .inr ⟨rfl, rfl, fun d hd => by simp [hd], rfl, hH, hφ, .inl rfl⟩⟩
  | timer =>
    simp only [Smp.step, Except.ok.injEq, Option.ite_none_right_eq_some, Option.some.injEq] at h
    obtain ⟨hi, rfl⟩ := h
    obtain ⟨hH, hφ, -⟩ := ht.of_intr hi
    exact ⟨H, _, ht.interrupt hi fun h => Locking.ok_timer h.drift,
      .inr ⟨rfl, rfl, fun d hd => by simp [hd], rfl, hH, hφ, .inr rfl⟩⟩
  | device a =>
    simp only [Smp.step, Except.ok.injEq, Option.ite_none_right_eq_some, Option.some.injEq] at h
    obtain ⟨hi, rfl⟩ := h
    obtain ⟨hH, hφ, -⟩ := ht.of_intr hi
    exact ⟨H, _, ht.interrupt hi fun h => Locking.ok_device h.drift,
      .inr ⟨rfl, rfl, fun d hd => by simp [hd], rfl, hH, hφ, .inr rfl⟩⟩

/-- When CPU `c` makes `p` current, `p` was not switched out in `proc_tick_MLFQ` on another
CPU: the first lock its context drops is not that of another run queue. -/
def Homed (c : Fin NCPU) (m m' : Smp NPROC NCPU) : Prop :=
  ∀ p, m'.mem.kernel.curproc c = some p → m.mem.kernel.curproc c ≠ some p →
    Discipline.Fits LockId.rq c (m.ctx p)

theorem typed_of_reach {S : Smp NPROC NCPU → Fin NCPU × Event → Smp NPROC NCPU → Prop}
    (hS : ∀ m a m', S m a m' → SmpStep cfg m a m' ∧ (dead ∨ Homed a.1 m m'))
    (hr : Reach S (start k cond) m) : ∃ H φ, Typed cfg k.idleproc ∅ dead m H φ := by
  refine hr.invariant (P := fun m => ∃ H φ, Typed cfg k.idleproc ∅ dead m H φ)
    ⟨_, _, typed_start nofun⟩ ?_
  rintro m ⟨c, e⟩ m' ⟨H, φ, ht⟩ h
  obtain ⟨hs, hfit⟩ := hS m _ m' h
  obtain ⟨H', φ', ht', -⟩ := ht.step hs hfit fun _ _ => ⟨nofun, fun _ _ => rfl⟩
  exact ⟨H', φ', ht'⟩

end Smp

/-- The locks of CPU `c` where it switches processes, drops a lock or leaves a function. -/
structure HandOff (cfg : Config NCPU) (m : Smp NPROC NCPU) (c : Fin NCPU) : Prop where
  /-- `swtch` is entered with `ncli == 1` and only the lock of the CPU's own run queue -/
  switch : ∀ a is, m.code c = .switch a :: is →
    m.ncli c = 1 ∧ ∀ l, m.holder l = some c ↔ l = .rq c
  /-- `release` does not panic -/
  release : ∀ l is, m.code c = .release l :: is → ∃ m', m.exec (smp cfg) c = .ok (some m')
  /-- the run-queue lock that is dropped while the CPU holds its own is the own one -/
  own : ∀ l d is, m.code c = .release l :: is → l.on .rq c = .rq d →
    m.holder (.rq c) = some c → d = c
  /-- the end of `trap`, and of `forkret` -/
  trapret : ∀ is, m.code c = .sti :: is → ∀ l, m.holder l ≠ some c
  /-- the return to user mode -/
  user : m.code c = [] → m.ncli c = 0 ∧ ∀ l, m.holder l ≠ some c
  /-- `sleep` has returned to the loop that called it, or that loop begins -/
  slept : ∀ a is, m.code c = .act (.test a) :: is → ∀ l, m.holder l = some c ↔ l = cfg.guard a
  /-- the same for the loop of `wait` -/
  waited : ∀ is, m.code c = .act .wait :: is → ∀ l, m.holder l = some c ↔ l = .procTable

theorem Smp.Typed.handOff (ht : Typed cfg idle quiet False m H φ) (c : Fin NCPU) :
    HandOff cfg m c where
  switch a is hcode := by
    obtain ⟨-, hH, -⟩ := ht.at_switch hcode
    exact ⟨by rw [ht.ncli, hH]; rfl, ht.holder_of_singleton hH⟩
  release l is hcode := by
    cases he : m.exec (smp cfg) c with
    | error e =>
      rcases ht.exec_error he with ⟨h, -⟩ | ⟨a, is', h, -⟩ | ⟨a, is', h, -⟩
      · exact h.elim
      · rw [hcode] at h
        cases h
      · rw [hcode] at h
        cases h
    | ok o =>
      simp only [Machine.exec, hcode] at he
      split_ifs at he
      cases he
      exact ⟨_, rfl⟩
  own l d is hcode hl hown := by
    have h := (ht.code c).resolve_right And.left
    rw [hcode] at h
    obtain ⟨-, hneed, hmem, -⟩ := h.head
    exact (hneed.1 d (hl ▸ hmem) ((ht.holder _ c).mp hown)).symm
  trapret is hcode := by
    obtain ⟨hH, -⟩ := ht.at_sti hcode
    exact ht.holder_ne_of_nil hH
  user hcode := by
    obtain ⟨hH, -⟩ := ht.idle hcode
    exact ⟨by rw [ht.ncli, hH]; rfl, ht.holder_ne_of_nil hH⟩
  slept a is hcode := by
    obtain ⟨-, ⟨-, hH, -⟩, -⟩ := ht.at_act hcode
    exact ht.holder_of_singleton hH
  waited is hcode := by
    obtain ⟨-, ⟨-, hH, -⟩, -⟩ := ht.at_act hcode
    exact ht.holder_of_singleton hH

theorem lock_handed_off_of_homed
    (hr : Reach (fun m a m' => SmpStep cfg m a m' ∧ m.Homed a.1 m') (Smp.start k cond) m) :
    HandOff cfg m c := by
  obtain ⟨H, φ, ht⟩ : ∃ H φ, Smp.Typed cfg k.idleproc ∅ False m H φ :=
    Smp.typed_of_reach (fun _ _ _ h => ⟨h.1, .inr h.2⟩) hr
  exact ht.handOff c

section runs

instance {j : Fin NCPU} {is : Code NPROC NCPU} : Decidable (Discipline.Fits LockId.rq j is) := by
  unfold Discipline.Fits
  split <;> infer_instance

instance {m m' : Smp NPROC NCPU} : Decidable (Smp.Homed c m m') := by
  unfold Smp.Homed
  infer_instance

/-- Every condition has a lock of its own. -/
def ownGuards (loadBalanceOn : Bool) : Config 8 := ⟨fun a => .other (a + 1), nofun, loadBalanceOn⟩

/-- CPU `c` enters the kernel and runs `n` instructions. -/
def enter (c : Fin 8) (e : Event) (n : ℕ) : List (Fin 8 × Event) :=
  (c, e) :: List.replicate n (c, .exec)

/-- CPU `c` starts its idle process, which gives way to the first process at the next tick. -/
def bootUp (c : Fin 8) : List (Fin 8 × Event) := enter c .boot 5

theorem lock_handed_off_of_homed_boot : ∃ k₀ m,
    (Kernel.pinit 64 8 2).userinit 1 = .ok k₀ ∧
    Reach (fun m a m' => SmpStep (ownGuards true) m a m' ∧ m.Homed a.1 m')
      (Smp.start k₀ fun _ => false) m ∧
    m.mem.kernel.curproc 1 = some 0 ∧ HandOff (ownGuards true) m 1 := by
  obtain ⟨k₀, h₀, h⟩ := exists_ok_of_any (x := (Kernel.pinit 64 8 2).userinit 1)
    (P := fun k₀ => ((bootUp 1 ++ enter 1 .timer 13).foldlM
      (Smp.performIf (ownGuards true) fun m a m' => m.Homed a.1 m')
      (Smp.start k₀ fun _ => false)).any fun m => m.mem.kernel.curproc 1 = some 0)
    (by decide +kernel)
  obtain ⟨m, hr, hm⟩ := exists_reach_of_any (fun _ _ _ => Smp.reach_of_performIf) h
  exact ⟨k₀, m, h₀, hr, of_decide_eq_true hm, lock_handed_off_of_homed hr⟩

/-- 20 ticks of CPU `c`, at the last of which the slice of its process runs out. -/
def sliceOn (c : Fin 8) : List (Fin 8 × Event) :=
  (List.replicate 19 (enter c .timer 3)).flatten ++ enter c .timer 6

/-- Init and its child use up their slices on CPU `c`. CPU `d` takes one of them over. -/
def migrationRun (c d : Fin 8) : List (Fin 8 × Event) :=
  bootUp c ++ enter c .timer 13 ++ enter c (.call (.fork true true)) 10 ++ sliceOn c ++ sliceOn c ++
    bootUp d ++ enter d .timer 18

/-- The run-queue lock the code drops first. -/
def Code.drops : Code NPROC NCPU → Option (Fin NCPU)
  | .release (.named (.rq d)) :: _ => some d
  | _ => none

theorem Code.eq_of_drops {is : Code NPROC NCPU} {d : Fin NCPU} (h : is.drops = some d) :
    is = .release (.named (.rq d)) :: is.tail := by
  unfold Code.drops at h
  split at h
  · cases h
    rfl
  · cases h

theorem migrated_process_releases_other_lock : ∃ k₀ m is,
    (Kernel.pinit 64 8 2).userinit 1 = .ok k₀ ∧
    Reach (SmpStep (ownGuards true)) (Smp.start k₀ fun _ => false) m ∧
    m.code 0 = .release (.named (.rq 1)) :: is ∧ m.holder (.rq 0) = some 0 ∧
    m.exec (smp (ownGuards true)) 0 = .error (.panic "release") ∧
    ¬ HandOff (ownGuards true) m 0 := by
  obtain ⟨k₀, h₀, h⟩ := exists_ok_of_any (x := (Kernel.pinit 64 8 2).userinit 1)
    (P := fun k₀ => ((migrationRun 1 0).foldlM (Smp.perform (ownGuards true))
      (Smp.start k₀ fun _ => false)).any fun m =>
        Code.drops (m.code 0) = some 1 ∧ m.holder (.rq 0) = some 0 ∧
          error? (m.exec (smp (ownGuards true)) 0) = some (.panic "release"))
    (by decide +kernel)
  obtain ⟨m, hr, hm⟩ := exists_reach_of_any (fun _ _ _ => Smp.reach_of_perform) h
  rw [decide_eq_true_eq] at hm
  obtain ⟨hcode, hown, he⟩ := hm
  have hcode := Code.eq_of_drops hcode
  refine ⟨k₀, m, _, h₀, hr, hcode, hown, eq_error_of_error? he, fun hh => ?_⟩
  exact absurd (hh.own _ 1 _ hcode rfl hown) (by decide)

end runs

section panics
variable {s : Shared NPROC NCPU} {o : Option (Fin NPROC)} {a : Act NPROC NCPU}
  {L : List (LockId NCPU)} {x : Phase}

theorem Act.locked_run (ha : a.Pre cfg quiet o ⟨c, L, x⟩) (hk : ∀ pid, a ≠ .kill pid) :
    Locked (a.run cfg c (LockId.rq c ∈ L) s) := by
  cases a with
  | kill pid => exact absurd rfl (hk pid)
  | wakeup1 chan =>
    rw [decide_eq_true ha.1]
    simp [Act.run]
  | exitTable =>
    dsimp only [Act.Pre] at ha
    obtain ⟨-, rfl, -⟩ := ha
    simp [Act.run]
  | forkEnqueue np =>
    dsimp only [Act.Pre] at ha
    obtain ⟨-, rfl, -⟩ := ha
    simp [Act.run, Kernel.forkEnqueue]
  | panic msg => simp [Act.run, show msg = _ from ha.1]
  | wait =>
    refine fails_bind.mpr ⟨by simp, fun me _ => ?_⟩
    split <;> simp
  | allocproc ks mo =>
    simp only [Act.run]
    split <;> simp
  | copyproc ks mo np =>
    refine fails_bind.mpr ⟨by simp, fun me _ => ?_⟩
    split <;> simp
  | trap user timer =>
    simp only [Act.run]
    split <;> simp
  | loadBalance =>
    simp only [Act.run]
    split <;> simp
  | procTick p =>
    refine fails_bind.mpr ⟨by simp [Kernel.procTickMLFQ], fun x _ => ?_⟩
    split <;> simp
  | schedule | yield | demote _ | runIdle => exact ha.elim
  | _ => simp [Act.run, Kernel.sleepSet, Kernel.sleepClear, Kernel.exitFiles, Kernel.balanceGet,
      Kernel.balancePut]

theorem Act.locked_switch (ha : a.Leave o ⟨c, L, x⟩ idle) : Locked (a.run cfg c true s) := by
  cases a with
  | schedule => simp [Act.run]
  | yield => simp [Act.run, Kernel.yield]
  | demote p => simp [Act.run, Kernel.demote]
  | runIdle => simp [Act.run, Kernel.runIdle]
  | _ => exact ha.elim

theorem Act.kill_error (cfg : Config NCPU) {pid : ℤ} (hL : L = [.procTable]) :
    (∃ e, (Act.kill pid).run cfg c (LockId.rq c ∈ L) s = .error e ∧ e.NoLock) ↔
      ∃ p, s.kernel.target pid = some p ∧ (s.kernel.proc p).state = .sleeping := by
  rw [decide_eq_false (by simp [hL]), Act.run, Kernel.kill_unlocked]
  cases s.kernel.target pid with
  | none => simp
  | some p => by_cases hs : (s.kernel.proc p).state = .sleeping <;> simp [hs]

/-- The kernel panics for want of a run-queue lock exactly where `kill` finds the process
asleep. -/
theorem no_lock_panic_iff_kill_sleeping (hr : Reach (SmpStep cfg) (Smp.start k cond) m) :
    (∃ ev e, m.step cfg c ev = .error e ∧ e.NoLock) ↔
      ∃ pid is p, m.code c = .act (.kill pid) :: is ∧ m.mem.kernel.target pid = some p ∧
        (m.mem.kernel.proc p).state = .sleeping := by
  obtain ⟨H, φ, ht⟩ : ∃ H φ, Smp.Typed cfg k.idleproc ∅ True m H φ :=
    Smp.typed_of_reach (fun _ _ _ h => ⟨h, .inl trivial⟩) hr
  constructor
  · rintro ⟨ev, e, he, hno⟩
    -- only an instruction of the code can fail
    cases ev with
    | exec =>
      rcases ht.exec_error he with ⟨-, rfl, -⟩ | ⟨a, is, hcode, hpre, hrun⟩ | ⟨a, is, hcode, hrun⟩
      · exact absurd hno (by simp [smp])
      · by_cases hk : ∃ pid, a = .kill pid
        · obtain ⟨pid, rfl⟩ := hk
          obtain ⟨p, hp⟩ := (Act.kill_error cfg hpre.2.1).mp ⟨e, hrun, hno⟩
          exact ⟨pid, is, p, hcode, hp⟩
        · exact absurd hno (Act.locked_run hpre (fun pid h => hk ⟨pid, h⟩) e hrun)
      · obtain ⟨hleave, -⟩ := ht.at_switch hcode
        exact absurd hno (Act.locked_switch hleave e hrun)
    | _ => cases he
  · rintro ⟨pid, is, p, hcode, hp⟩
    obtain ⟨-, hpre, -⟩ := ht.at_act hcode
    obtain ⟨e, hrun, hno⟩ := (Act.kill_error cfg hpre.2.1).mpr ⟨p, hp⟩
    exact ⟨.exec, e, ht.exec_act_error hcode hrun, hno⟩

/-- Init has forked and sleeps in `wait`; its child calls `kill(1)`. -/
def killRun (c : Fin 8) : List (Fin 8 × Event) :=
  bootUp c ++ enter c .timer 13 ++ enter c (.call (.fork true true)) 10 ++
    enter c (.call .wait) 10 ++ enter c (.call (.kill 1)) 2

theorem no_lock_panic_iff_kill_sleeping_tick : ∃ k₀ m,
    (Kernel.pinit 64 8 2).userinit 0 = .ok k₀ ∧
    Reach (SmpStep (ownGuards false)) (Smp.start k₀ fun _ => false) m ∧
    m.mem.kernel.curproc 0 = some 0 ∧ (m.code 0).length = 0 ∧
    ((∃ ev e, m.step (ownGuards false) 0 ev = .error e ∧ e.NoLock) ↔
      ∃ pid is p, m.code 0 = .act (.kill pid) :: is ∧ m.mem.kernel.target pid = some p ∧
        (m.mem.kernel.proc p).state = .sleeping) := by
  obtain ⟨k₀, h₀, h⟩ := exists_ok_of_any (x := (Kernel.pinit 64 8 2).userinit 0)
    (P := fun k₀ => ((bootUp 0 ++ enter 0 .timer 13).foldlM (Smp.perform (ownGuards false))
      (Smp.start k₀ fun _ => false)).any
        fun m => m.mem.kernel.curproc 0 = some 0 ∧ (m.code 0).length = 0)
    (by decide +kernel)
  obtain ⟨m, hr, hm⟩ := exists_reach_of_any (fun _ _ _ => Smp.reach_of_perform) h
  rw [decide_eq_true_eq] at hm
  exact ⟨k₀, m, h₀, hr, hm.1, hm.2, no_lock_panic_iff_kill_sleeping hr⟩

theorem kill_of_sleeping_panics : ∃ k₀ m,
    (Kernel.pinit 64 8 2).userinit 0 = .ok k₀ ∧
    Reach (SmpStep (ownGuards false)) (Smp.start k₀ fun _ => false) m ∧
    m.mem.kernel.target 1 = some 0 ∧ (m.mem.kernel.proc 0).state = .sleeping ∧
    m.step (ownGuards false) 0 .exec = .error (.panic "enqueue_proc no lock") := by
  obtain ⟨k₀, h₀, h⟩ := exists_ok_of_any (x := (Kernel.pinit 64 8 2).userinit 0)
    (P := fun k₀ => ((killRun 0).foldlM (Smp.perform (ownGuards false))
      (Smp.start k₀ fun _ => false)).any fun m =>
        m.mem.kernel.target 1 = some 0 ∧ (m.mem.kernel.proc 0).state = .sleeping ∧
          error? (m.step (ownGuards false) 0 .exec) = some (.panic "enqueue_proc no lock"))
    (by decide +kernel)
  obtain ⟨m, hr, hm⟩ := exists_reach_of_any (fun _ _ _ => Smp.reach_of_perform) h
  rw [decide_eq_true_eq] at hm
  exact ⟨k₀, m, h₀, hr, hm.1, hm.2.1, eq_error_of_error? hm.2.2⟩

end panics

end Xv6Shed
