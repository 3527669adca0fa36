import Xv6Shed.Discipline
import Xv6Shed.Sections

/-!
# The locks the kernel's code holds

The discipline of `Discipline` for the kernel: under which locks each section runs. The
phases record in addition that a process is going to sleep or to exit (`blocked`), that it
has found its condition false (`checked`) or no zombie child (`scanned`), and that it has met
a condition and not yet woken the processes that wait for it (`waking`).
-/

namespace Xv6Shed
open Function Threads

inductive Phase where
  | free
  | handler
  | blocked
  | checked (a : ℕ)
  | waking (a : ℕ)
  | scanned
  deriving DecidableEq

/-- The phase after `wakeup1`. -/
@[simp] def Phase.woken : Phase → Phase
  | .waking _ => .free
  | φ => φ

variable {NPROC NCPU : ℕ}

/-- A point of the kernel's code. -/
abbrev CodePoint (NCPU : ℕ) := Point (Fin NCPU) (LockId NCPU) Phase

/-- Process `o` sleeps on `chan` in this phase: it has found the condition of the channel
false or, in `wait`, found no zombie child. -/
@[simp] def Phase.Sleeps (o : Option (Fin NPROC)) (chan : Chan NPROC) : Phase → Prop
  | .checked a => chan = .addr a
  | .scanned => ∃ p, o = some p ∧ chan = .proc p
  | _ => False

namespace Act
variable (cfg : Config NCPU) (quiet : Set (Fin NPROC)) (o : Option (Fin NPROC))
  (x z : CodePoint NCPU)

/-- Where a section may run. The processes of `quiet` make no system call and do not exit. -/
@[simp] def Pre : Act NPROC NCPU → Prop
  | .test a => (∀ p ∈ quiet, o ≠ some p) ∧ x.held = [cfg.guard a] ∧ x.phase = .free
  | .setCond a _ => cfg.guard a ∈ x.held ∧ (x.phase = .free ∨ x.phase = .handler)
  | .sleep chan lk => (∀ p ∈ quiet, o ≠ some p) ∧ x.held = [lk] ∧ x.phase.Sleeps o chan ∧
      (∀ a, x.phase = .checked a → lk = cfg.guard a) ∧ (x.phase = .scanned → lk = .procTable)
  | .sleepSet chan => (∀ p ∈ quiet, o ≠ some p) ∧ x.held = [.rq x.cpu, .procTable] ∧
      x.phase.Sleeps o chan
  | .sleepClear => x.held = [.procTable, .rq x.cpu] ∧ x.phase = .free
  | .sleepEnd lk => x.held = [.procTable, .rq x.cpu] ∧ x.phase = .free ∧ ∀ d, lk ≠ .rq d
  | .wakeup1 chan => .rq x.cpu ∈ x.held ∧ .procTable ∈ x.held ∧
      (x.phase = .free ∨ x.phase = .handler ∨ ∃ a, x.phase = .waking a ∧ chan = .addr a)
  | .kill _ => quiet = ∅ ∧ x.held = [.procTable] ∧ x.phase = .free
  | .killed => (∀ p ∈ quiet, o ≠ some p) ∧ x.held = [] ∧ x.phase = .free
  | .exitFiles => (∀ p ∈ quiet, o ≠ some p) ∧ x.held = [] ∧
      (x.phase = .free ∨ x.phase = .handler)
  | .exitTable => (∀ p ∈ quiet, o ≠ some p) ∧ x.held = [.rq x.cpu, .procTable] ∧
      (x.phase = .free ∨ x.phase = .handler)
  | .panic msg => msg = "zombie exit" ∧ x.phase = .free
  | .wait | .allocproc _ _ => (∀ p ∈ quiet, o ≠ some p) ∧ x.held = [.procTable] ∧ x.phase = .free
  | .copyproc _ _ _ => (∀ p ∈ quiet, o ≠ some p) ∧ x.held = [] ∧ x.phase = .free
  | .forkEnqueue _ => (∀ p ∈ quiet, o ≠ some p) ∧ x.held = [.rq x.cpu] ∧ x.phase = .free
  | .trap _ timer => x.held = [] ∧ (x.phase = .handler ∨ timer = false ∧ x.phase = .free)
  | .loadBalance => x.held = [] ∧ x.phase = .handler
  | .balanceGet src _ => x.held = [.rq src] ∧ x.phase = .handler
  | .balancePut dst _ => x.held = [.rq dst] ∧ x.phase = .handler
  | .procTick p => x.held = [] ∧ x.phase = .handler ∧ o = some p
  | .schedule | .yield | .demote _ | .runIdle => False

@[simp] def Post : Act NPROC NCPU → Prop
  | .test a => z.held = [cfg.guard a] ∧ z.phase = .free
  | .setCond a b => z = { x with phase := if b then .waking a else x.phase }
  | .sleep _ lk | .sleepEnd lk => z.held = [lk] ∧ z.phase = .free
  | .sleepSet _ | .exitTable => z = { x with phase := .blocked }
  | .wakeup1 _ => z = { x with phase := x.phase.woken }
  | .killed | .wait | .allocproc _ _ | .copyproc _ _ _ => z.held = [] ∧ z.phase = .free
  | .panic _ => False
  | .trap _ _ | .procTick _ => z = x ∨ z.held = [] ∧ z.phase = .free
  | .balanceGet _ _ => z = { x with held := [] }
  | _ => z = x

/-- Where a section that switches may run: only the idle process yields, and only others are
demoted. -/
@[simp] def Leave (idle : Fin NCPU → Option (Fin NPROC)) : Act NPROC NCPU → Prop
  | .schedule => x.phase = .blocked
  | .yield => x.phase = .handler ∧ o ≠ none ∧ o = idle x.cpu
  | .demote p => x.phase = .handler ∧ o = some p ∧ o ≠ idle x.cpu
  | .runIdle => x.phase = .free ∧ o = none
  | _ => False

/-- The phase right after a section of CPU `c`. -/
def next (c : Fin NCPU) (s : Shared NPROC NCPU) (φ : Phase) : Act NPROC NCPU → Phase
  | .test a => if s.cond a then φ else .checked a
  | .setCond a b => if b then .waking a else φ
  | .sleepSet _ | .exitTable => .blocked
  | .wakeup1 _ => φ.woken
  | .wait =>
    if (s.kernel.curproc c).any fun me =>
      s.kernel.waitScan me (List.finRange NPROC) false = .sleep then .scanned else φ
  | _ => φ

end Act

/-- A CPU that holds the lock of its run queue holds no other run queue's, and the locks it
holds in a phase. -/
@[simp] def Phase.Need (cfg : Config NCPU) (x : CodePoint NCPU) : Prop :=
  (∀ d, .rq d ∈ x.held → .rq x.cpu ∈ x.held → x.cpu = d) ∧
  match x.phase with
  | .checked a => .procTable ∈ x.held ∨ cfg.guard a ∈ x.held
  | .waking a => cfg.guard a ∈ x.held
  | .scanned => .procTable ∈ x.held
  | _ => True

@[simp] def Phase.Takes (cfg : Config NCPU) (l : LockId NCPU) : Phase → Prop
  | .checked a => l ≠ cfg.guard a
  | _ => True

/-- The discipline of the kernel whose idle processes are `idle`. -/
@[simps] def locking (cfg : Config NCPU) (idle : Fin NCPU → Option (Fin NPROC))
    (quiet : Set (Fin NPROC)) :
    Discipline (Fin NCPU) (Fin NPROC) (LockId NCPU) (Act NPROC NCPU) (Shared NPROC NCPU) Phase where
  free := .free
  handler := .handler
  need := Phase.Need cfg
  takes := fun φ l => φ.Takes cfg l
  pre := fun a o x => a.Pre cfg quiet o x
  post := fun a _ x z => a.Post cfg x z
  leave := fun a o x => a.Leave o x idle
  next := fun a c s φ => a.next c s φ
  mem := fun s => s.kernel.idleproc = idle ∧ ∀ p ∈ quiet, (s.kernel.proc p).killed = false

namespace Locking
variable {cfg : Config NCPU} {idle : Fin NCPU → Option (Fin NPROC)} {quiet : Set (Fin NPROC)}
  {o : Option (Fin NPROC)} {i : Instr (LockId NCPU) (Act NPROC NCPU)} {is : Code NPROC NCPU}
  {c : Fin NCPU} {φ : Phase} {a : ℕ} {user : Bool}

/-- The code may be run by process `o` from the point on. -/
abbrev Ok (cfg : Config NCPU) (idle : Fin NCPU → Option (Fin NPROC)) (quiet : Set (Fin NPROC))
    (o : Option (Fin NPROC)) (is : Code NPROC NCPU) (x : CodePoint NCPU) : Prop :=
  (locking cfg idle quiet).Ok LockId.rq o is x

abbrev At (cfg : Config NCPU) (idle : Fin NCPU → Option (Fin NPROC)) (quiet : Set (Fin NPROC))
    (o : Option (Fin NPROC)) (i : Instr (LockId NCPU) (Act NPROC NCPU)) (is : Code NPROC NCPU)
    (x : CodePoint NCPU) : Prop :=
  (locking cfg idle quiet).At LockId.rq o i is (Ok cfg idle quiet o is) x

@[simp] theorem rq_eq_guard : LockId.rq c = cfg.guard a ↔ False :=
  iff_false_intro (cfg.guard_ne a c).symm

/-! ### The rules -/

section rules
variable {H : List (LockId NCPU)} {l : LockRef (LockId NCPU)} {a : Act NPROC NCPU}

@[simp] theorem ok_nil {x : CodePoint NCPU} :
    Ok cfg idle quiet o [] x ↔ x.held = [] ∧ x.phase = .free := Iff.rfl

@[simp] theorem ok_free : Ok cfg idle quiet o (i :: is) ⟨c, [], .free⟩ ↔
    ∀ j, At cfg idle quiet o i is ⟨j, [], .free⟩ := ok_cons_free

@[simp] theorem ok_held {l : LockId NCPU} : Ok cfg idle quiet o (i :: is) ⟨c, l :: H, φ⟩ ↔
    At cfg idle quiet o i is ⟨c, l :: H, φ⟩ := ok_cons_held

@[simp] theorem ok_handler : Ok cfg idle quiet o (i :: is) ⟨c, H, .handler⟩ ↔
    At cfg idle quiet o i is ⟨c, H, .handler⟩ := ok_cons_phase nofun

@[simp] theorem at_acquire : At cfg idle quiet o (.acquire l) is ⟨c, H, φ⟩ ↔
    (H = [] → φ = .free ∨ φ = .handler) ∧ Phase.Need cfg ⟨c, H, φ⟩ ∧ l.on .rq c ∉ H ∧
      φ.Takes cfg (l.on .rq c) ∧ Ok cfg idle quiet o is ⟨c, l.on .rq c :: H, φ⟩ := Iff.rfl

@[simp] theorem at_release : At cfg idle quiet o (.release l) is ⟨c, H, φ⟩ ↔
    (H = [] → φ = .free ∨ φ = .handler) ∧ Phase.Need cfg ⟨c, H, φ⟩ ∧ l.on .rq c ∈ H ∧
      Ok cfg idle quiet o is ⟨c, H.erase (l.on .rq c), φ⟩ := Iff.rfl

@[simp] theorem at_sti : At cfg idle quiet o .sti is ⟨c, H, φ⟩ ↔
    (H = [] → φ = .free ∨ φ = .handler) ∧ Phase.Need cfg ⟨c, H, φ⟩ ∧ H = [] ∧
      Ok cfg idle quiet o is ⟨c, H, .free⟩ := Iff.rfl

@[simp] theorem at_act : At cfg idle quiet o (.act a) is ⟨c, H, φ⟩ ↔
    (H = [] → φ = .free ∨ φ = .handler) ∧ Phase.Need cfg ⟨c, H, φ⟩ ∧
      a.Pre cfg quiet o ⟨c, H, φ⟩ ∧
      ∀ z, a.Post cfg ⟨c, H, φ⟩ z → Ok cfg idle quiet o is z := Iff.rfl

@[simp] theorem at_switch : At cfg idle quiet o (.switch a) is ⟨c, H, φ⟩ ↔
    (H = [] → φ = .free ∨ φ = .handler) ∧ Phase.Need cfg ⟨c, H, φ⟩ ∧
      a.Leave o ⟨c, H, φ⟩ idle ∧ H = [.rq c] ∧ Discipline.Fits LockId.rq c is ∧
      (o ≠ none → ∀ j, Discipline.Fits LockId.rq j is →
        Ok cfg idle quiet o is ⟨j, [.rq j], .free⟩) := Iff.rfl

end rules

/-! ### The code of the kernel -/

section code
variable {lk : LockId NCPU} {chan : Chan NPROC} {a : ℕ} {p : Fin NPROC}

theorem ok_sleepEnd (hlk : ∀ d, lk ≠ .rq d)
    (h : ∀ z : CodePoint NCPU, z.held = [lk] → z.phase = .free → Ok cfg idle quiet o is z) :
    Ok cfg idle quiet o (Code.sleepEnd c lk ++ is) ⟨c, [.procTable, .rq c], .free⟩ := by
  unfold Code.sleepEnd
  split_ifs with h₁ h₂
  · subst h₁
    simpa using h _ rfl rfl
  · exact absurd h₂ (hlk c)
  · simpa using fun j => h ⟨j, [lk], .free⟩ rfl rfl

theorem ok_wakeup (hφ : φ = .free ∨ φ = .handler)
    (h : ∀ j, φ = .free ∨ j = c → Ok cfg idle quiet o is ⟨j, [], φ⟩) :
    Ok cfg idle quiet o (Code.wakeup chan ++ is) ⟨c, [], φ⟩ := by
  rcases hφ with rfl | rfl
  · simpa [Code.wakeup] using h
  · simpa [Code.wakeup] using h

theorem ok_wake (hφ : φ = .free ∨ φ = .handler) (h : ∀ j, Ok cfg idle quiet o is ⟨j, [], .free⟩) :
    Ok cfg idle quiet o (Code.wake cfg a ++ is) ⟨c, [], φ⟩ := by
  unfold Code.wake
  split_ifs with hg
  · rcases hφ with rfl | rfl
    · simpa [hg] using h
    · simpa [hg] using h c
  · have hne := cfg.guard_ne a
    rcases hφ with rfl | rfl
    · simpa [Code.wakeup, hg, hne, Ne.symm hg, fun d => Ne.symm (hne d)] using h
    · simpa [Code.wakeup, hg, hne, Ne.symm hg, fun d => Ne.symm (hne d)] using h c

theorem ok_yield (ho : o ≠ none) (hi : o = idle c)
    (h : ∀ j, Ok cfg idle quiet o is ⟨j, [], .free⟩) :
    Ok cfg idle quiet o (Code.yield ++ is) ⟨c, [], .handler⟩ := by
  simpa [Code.yield, ho, ← hi] using h

theorem ok_demote (ho : o = some p) (hi : o ≠ idle c)
    (h : ∀ j, Ok cfg idle quiet o is ⟨j, [], .free⟩) :
    Ok cfg idle quiet o (Code.demote c p ++ is) ⟨c, [], .handler⟩ := by
  subst ho
  simpa [Code.demote, hi] using h c

variable (hq : ∀ p ∈ quiet, ¬ o = some p)
include hq

theorem ok_sleepSet (hφ : φ.Sleeps o chan) (hlk : ∀ d, lk ≠ .rq d)
    (h : ∀ z : CodePoint NCPU, z.held = [lk] → z.phase = .free → Ok cfg idle quiet o is z) :
    Ok cfg idle quiet o ([.act (.sleepSet chan), .release (.named .procTable), .switch .schedule,
      .acquire (.named .procTable), .act .sleepClear, .act (.sleepEnd lk)] ++ is)
      ⟨c, [.rq c, .procTable], φ⟩ := by
  cases φ with
  | checked a =>
    simp only [Phase.Sleeps] at hφ
    subst hφ
    simpa [hlk] using ⟨hq, fun _ _ => h⟩
  | scanned => simpa [hlk] using ⟨⟨hq, hφ⟩, fun _ _ => h⟩
  | _ => exact absurd hφ (by simp)

theorem ok_exit (hφ : φ = .free ∨ φ = .handler) :
    Ok cfg idle quiet o (Code.exit ++ is) ⟨c, [], φ⟩ := by
  rcases hφ with rfl | rfl
  · simpa [Code.exit] using fun _ => ⟨hq, fun _ => hq⟩
  · simpa [Code.exit] using hq

theorem ok_sleep (hφ : φ.Sleeps o chan) (hlk : ∀ d, lk ≠ .rq d)
    (hc : ∀ a, φ = .checked a → lk = cfg.guard a) (hw : φ = .scanned → lk = .procTable)
    (h : ∀ z : CodePoint NCPU, z.held = [lk] → z.phase = .free → Ok cfg idle quiet o is z) :
    Ok cfg idle quiet o (Code.sleep c chan lk ++ is) ⟨c, [lk], φ⟩ := by
  have hset := ok_sleepSet (c := c) hq hφ hlk h
  unfold Code.sleep
  split_ifs with h₁ h₂
  · subst h₁
    cases φ with
    | checked a =>
      have hg := hc a rfl
      simpa [← hg] using hset
    | scanned => simpa using hset
    | _ => exact absurd hφ (by simp)
  · exact absurd h₂ (hlk c)
  · cases φ with
    | checked a =>
      have hg := hc a rfl
      simpa [← hg, Ne.symm h₁, h₁, hlk, fun d => Ne.symm (hlk d)] using hset
    | scanned => exact absurd (hw rfl) h₁
    | _ => exact absurd hφ (by simp)

theorem ok_sysret {z : CodePoint NCPU} (hH : z.held = []) (hφ : z.phase = .free) :
    Ok cfg idle quiet o [.act .killed, .sti] z := by
  obtain ⟨j, H, φ⟩ := z
  subst hH hφ
  simp only [ok_free, at_act, Act.Pre, Act.Post]
  refine fun j => ⟨by simp, by simp, by simpa using hq, ?_⟩
  rintro ⟨j, H, φ⟩ ⟨rfl, rfl⟩
  simp

theorem ok_body (s : Syscall) (hk : ∀ pid, s = .kill pid → quiet = ∅)
    (h : ∀ z : CodePoint NCPU, z.held = [] → z.phase = .free → Ok cfg idle quiet o is z) :
    Ok cfg idle quiet o (s.body cfg ++ is) ⟨c, [], .free⟩ := by
  have hj : ∀ j, Ok cfg idle quiet o is ⟨j, [], .free⟩ := fun j => h _ rfl rfl
  cases s with
  | fork kstackOk memOk => simpa [Syscall.body] using fun _ : Fin NCPU => ⟨hq, h⟩
  | sleep a =>
    have hrel : ∀ z : CodePoint NCPU, z.held = [cfg.guard a] → z.phase = .free →
        Ok cfg idle quiet o (.release (.named (cfg.guard a)) :: is) z := by
      rintro ⟨j, H, φ⟩ rfl rfl
      simpa using hj j
    simpa [Syscall.body] using fun _ : Fin NCPU => ⟨hq, hrel⟩
  | wake a => exact ok_wake (.inl rfl) hj
  | clear a => simpa [Syscall.body] using hj
  | wakeup a => exact ok_wakeup (.inl rfl) fun j _ => hj j
  | kill pid => simpa [Syscall.body] using fun j => ⟨hk pid rfl, hj j⟩
  | exit => exact ok_exit hq (.inl rfl)
  | wait => simpa [Syscall.body] using fun _ : Fin NCPU => ⟨hq, h⟩

theorem ok_syscall (s : Syscall) (hk : ∀ pid, s = .kill pid → quiet = ∅) :
    Ok cfg idle quiet o (Code.syscall cfg s) ⟨c, [], .free⟩ := by
  unfold Code.syscall
  simp only [List.cons_append, ok_free, at_act, Act.Pre, Act.Post]
  refine fun j => ⟨by simp, by simp, by simpa using hq, ?_⟩
  rintro ⟨j, H, φ⟩ ⟨rfl, rfl⟩
  exact ok_body hq s hk fun z hH hφ => ok_sysret hq hH hφ

end code

/-! ### Interrupts -/

theorem ok_timer (h : ∀ j, Ok cfg idle quiet o is ⟨j, [], .free⟩) :
    Ok cfg idle quiet o (Code.timer c user ++ .sti :: is) ⟨c, [], .handler⟩ := by
  have htrap : ∀ z : CodePoint NCPU, z = ⟨c, [], .handler⟩ ∨ z.held = [] ∧ z.phase = .free →
      Ok cfg idle quiet o (.sti :: is) z := by
    rintro ⟨j, H, φ⟩ (hz | ⟨rfl, rfl⟩)
    · cases hz
      simpa using h c
    · simpa using h
  unfold Code.timer Code.wakeup
  split_ifs
  · simpa using htrap
  · simpa using htrap

theorem ok_device (h : ∀ j, Ok cfg idle quiet o is ⟨j, [], .free⟩) :
    Ok cfg idle quiet o (Code.device cfg a user ++ .sti :: is) ⟨c, [], .handler⟩ := by
  unfold Code.device
  rw [List.append_assoc]
  apply ok_wake (.inr rfl)
  intro j
  simp only [List.cons_append, List.nil_append, ok_free, at_act, Act.Pre, Act.Post]
  refine fun j => ⟨by simp, by simp, by simp, ?_⟩
  rintro ⟨j, H, φ⟩ (hz | ⟨rfl, rfl⟩)
  · cases hz
    simpa using h
  · simpa using h

theorem ok_runIdle : Ok cfg idle quiet none Code.runIdle ⟨c, [], .free⟩ := by
  simp [Code.runIdle]

theorem ok_forkret (j : Fin NCPU) : Ok cfg idle quiet o Code.forkret ⟨j, [.rq j], .free⟩ := by
  simp [Code.forkret]

/-! ### Soundness -/

section
variable {s : Shared NPROC NCPU} {a : Act NPROC NCPU} {H : List (LockId NCPU)}
  {out : Outcome (Fin NPROC) (LockId NCPU) (Act NPROC NCPU) (Shared NPROC NCPU)}
  {x : CodePoint NCPU}

theorem isSwitch_of_leave (h : a.Leave o x idle) : a.isSwitch = true := by
  cases a <;> first | rfl | exact h.elim

theorem isSwitch_of_pre (h : a.Pre cfg quiet o x) : a.isSwitch = false := by
  cases a <;> first | rfl | exact h.elim

theorem next_handler (h : a.next c s φ = .handler) : φ = .handler := by
  cases a with
  | test a =>
    simp only [Act.next] at h
    split_ifs at h
    exact h
  | setCond a b => cases b <;> simp_all [Act.next]
  | wakeup1 chan => cases φ <;> simp_all [Act.next]
  | wait =>
    simp only [Act.next] at h
    split_ifs at h
    exact h
  | sleepSet _ | exitTable => cases h
  | _ => exact h

theorem run_mem (hpre : a.Pre cfg quiet o ⟨c, H, φ⟩)
    (hrun : a.run cfg c (LockId.rq c ∈ H) s = .ok out)
    (hmem : s.kernel.idleproc = idle ∧ ∀ p ∈ quiet, (s.kernel.proc p).killed = false) :
    (out.mem.kernel.idleproc = idle ∧ ∀ p ∈ quiet, (out.mem.kernel.proc p).killed = false) ∧
      out.mem.kernel.curproc = s.kernel.curproc := by
  by_cases hk : ∃ pid, a = .kill pid
  · obtain ⟨pid, rfl⟩ := hk
    obtain ⟨rfl, rfl, -⟩ := hpre
    obtain ⟨⟨k', r⟩, hk, hrun⟩ := bind_eq_ok.mp hrun
    cases hrun
    rw [decide_eq_false (by simp)] at hk
    rcases Kernel.kill_unlocked_ok hk with rfl | ⟨p, rfl⟩
    · exact ⟨hmem, rfl⟩
    · exact ⟨⟨hmem.1, fun _ h => h.elim⟩, rfl⟩
  · obtain ⟨hst, hcur⟩ := Act.run_steady hrun (fun pid h => hk ⟨pid, h⟩) (isSwitch_of_pre hpre)
    refine ⟨⟨hst.idleproc.trans hmem.1, fun p hp => ?_⟩, hcur⟩
    by_contra h
    have := hst.killed p (by simpa using h)
    rw [hmem.2 p hp] at this
    cases this

theorem run_push (hcur : s.kernel.curproc c = o)
    (hmem : s.kernel.idleproc = idle ∧ ∀ p ∈ quiet, (s.kernel.proc p).killed = false)
    (hpre : a.Pre cfg quiet o ⟨c, H, φ⟩) (hrun : a.run cfg c (LockId.rq c ∈ H) s = .ok out)
    (hpost : ∀ z, a.Post cfg ⟨c, H, φ⟩ z → Ok cfg idle quiet o is z) :
    Ok cfg idle quiet o (out.push ++ is) ⟨c, H, a.next c s φ⟩ := by
  cases a
  case test a =>
    obtain ⟨hq, rfl, rfl⟩ := hpre
    cases hrun
    simp only [Shared.go, Act.next]
    split_ifs with hc
    · exact hpost _ ⟨rfl, rfl⟩
    · have htest : ∀ z : CodePoint NCPU, z.held = [cfg.guard a] → z.phase = .free →
          Ok cfg idle quiet o (.act (.test a) :: is) z := by
        rintro ⟨j, H, φ⟩ rfl rfl
        simpa using ⟨hq, fun z hH hφ => hpost z ⟨hH, hφ⟩⟩
      simpa using ⟨hq, htest⟩
  case setCond a b =>
    cases hrun
    exact hpost _ rfl
  case sleep chan lk =>
    obtain ⟨hq, rfl, hsl, hc, hw⟩ := hpre
    dsimp only at hsl hc hw
    have hlk : ∀ d, lk ≠ .rq d := by
      cases φ with
      | checked a =>
        rw [hc a rfl]
        exact cfg.guard_ne a
      | scanned => simp [hw rfl]
      | _ => exact absurd hsl (by simp)
    simp only [Act.run] at hrun
    split_ifs at hrun
    cases hrun
    exact ok_sleep hq hsl hlk hc hw fun z hH hφ => hpost z ⟨hH, hφ⟩
  case sleepEnd lk =>
    dsimp only [Act.Pre] at hpre
    obtain ⟨rfl, rfl, hlk⟩ := hpre
    cases hrun
    exact ok_sleepEnd hlk fun z hH hφ => hpost z ⟨hH, hφ⟩
  case killed =>
    obtain ⟨hq, rfl, rfl⟩ := hpre
    obtain ⟨me, -, hrun⟩ := bind_eq_ok.mp hrun
    cases hrun
    simp only [Shared.go, Act.next]
    split_ifs
    · exact ok_exit hq (.inl rfl)
    · exact hpost _ ⟨rfl, rfl⟩
  case panic => cases hrun
  case wait =>
    obtain ⟨hq, rfl, rfl⟩ := hpre
    obtain ⟨me, hme, hrun⟩ := bind_eq_ok.mp hrun
    simp only [Act.next, deref_eq_ok.mp hme, Option.any_some]
    split at hrun <;> cases hrun <;> rename_i hw <;> simp only [hw]
    · simpa [Shared.go] using hpost ⟨c, [], .free⟩ ⟨rfl, rfl⟩
    · simpa [Shared.go] using hpost ⟨c, [], .free⟩ ⟨rfl, rfl⟩
    · have hagain : ∀ z : CodePoint NCPU, z.held = [.procTable] → z.phase = .free →
          Ok cfg idle quiet o (.act .wait :: is) z := by
        rintro ⟨j, H, φ⟩ rfl rfl
        simpa using ⟨hq, fun z hH hφ => hpost z ⟨hH, hφ⟩⟩
      obtain rfl : o = some me := hcur.symm.trans (deref_eq_ok.mp hme)
      simpa [Shared.go] using ⟨fun p hp h => hq p hp (congrArg some h), hagain⟩
  case allocproc =>
    obtain ⟨hq, rfl, rfl⟩ := hpre
    simp only [Act.run] at hrun
    split at hrun <;> cases hrun
    · simpa [Shared.go, Act.next] using hpost ⟨c, [], .free⟩ ⟨rfl, rfl⟩
    · simpa [Shared.go, Act.next] using fun _ : Fin NCPU => ⟨hq, fun z hH hφ => hpost z ⟨hH, hφ⟩⟩
  case copyproc =>
    obtain ⟨hq, rfl, rfl⟩ := hpre
    obtain ⟨me, -, hrun⟩ := bind_eq_ok.mp hrun
    split at hrun <;> cases hrun
    · exact hpost _ ⟨rfl, rfl⟩
    · simpa [Act.next] using fun j => ⟨hq, hpost ⟨j, [], .free⟩ ⟨rfl, rfl⟩⟩
  case trap user timer =>
    obtain ⟨rfl, hφ⟩ := hpre
    dsimp only at hφ
    simp only [Act.run] at hrun
    split at hrun <;> cases hrun <;> simp only [Shared.go, Act.next]
    · exact hpost _ (.inl rfl)
    · next p hp =>
      split_ifs with hk hr hb
      · refine ok_exit (fun p' hp' ho => ?_) (hφ.elim .inr fun h => .inl h.2)
        rw [← hcur, hp] at ho
        cases ho
        rw [hmem.2 p hp'] at hk
        cases hk.1
      · obtain rfl : φ = .handler := hφ.resolve_right (by simp [hr.2])
        simpa [← hcur, hp] using hpost
      · obtain rfl : φ = .handler := hφ.resolve_right (by simp [hr.2])
        simpa [← hcur, hp] using hpost
      · exact hpost _ (.inl rfl)
  case loadBalance =>
    obtain ⟨rfl, rfl⟩ := hpre
    simp only [Act.run] at hrun
    split at hrun <;> cases hrun
    · exact hpost _ rfl
    · simpa [Shared.go, Act.next] using hpost _ rfl
  case balanceGet src dst =>
    obtain ⟨rfl, rfl⟩ := hpre
    obtain ⟨⟨k', ms⟩, -, hrun⟩ := bind_eq_ok.mp hrun
    cases hrun
    simpa [Shared.go, Act.next] using hpost _ rfl
  case procTick p =>
    obtain ⟨rfl, rfl, ho⟩ := hpre
    obtain ⟨⟨k', t⟩, ht, hrun⟩ := bind_eq_ok.mp hrun
    have hidle : t = .yield ↔ s.kernel.idleproc c = some p := by
      unfold Kernel.procTickMLFQ at ht
      split_ifs at ht with h₁ <;> cases ht
      · simpa using h₁
      · dsimp only
        split_ifs <;> simpa using h₁
      · simpa using h₁
    have hfree : ∀ j, Ok cfg idle quiet o is ⟨j, [], .free⟩ := fun j =>
      hpost _ (.inr ⟨rfl, rfl⟩)
    cases t <;> cases hrun
    · exact ok_yield (by simp [ho]) (by rw [ho, ← hmem.1, hidle.mp rfl]) hfree
    · refine ok_demote ho (fun h => ?_) hfree
      rw [ho, ← hmem.1] at h
      cases hidle.mpr h.symm
    · exact hpost _ (.inl rfl)
  case schedule | yield | demote | runIdle => exact hpre.elim
  all_goals
    obtain ⟨k', -, hrun⟩ := bind_eq_ok.mp hrun
    cases hrun
    exact hpost _ rfl

theorem sound (cfg : Config NCPU) (idle : Fin NCPU → Option (Fin NPROC))
    (quiet : Set (Fin NPROC)) : Sound (smp cfg) (locking cfg idle quiet) where
  act hmem hpre hrun := by
    obtain ⟨hmem', hcur⟩ := run_mem hpre hrun hmem
    exact ⟨hmem', hcur, next_handler, fun is => run_push rfl hmem hpre hrun⟩
  switch {a c s out φ} hmem hleave hrun := by
    have hsw := Act.run_switched hrun (isSwitch_of_leave hleave)
    refine ⟨⟨hsw.idleproc.trans hmem.1, fun p hp => ?_⟩, hsw.others, hsw.current⟩
    by_contra h
    have := hsw.killed p (by simpa using h)
    rw [hmem.2 p hp] at this
    cases this
  start _ j := ok_forkret j
  need _ := by simp [smp]
  free_ne := nofun

end

end Locking
end Xv6Shed
