import Xv6Shed.Boot
import Xv6Shed.System

/-!
# Reuse of process-table slots

What a slot holds when it is unused. `allocproc`, `copyproc`, `exit` and `wait` each reset
some of its fields, and `kill` stores to a slot by number alone, whatever its state. The
runs are those of the atomic system together with `kill` and traps; `marked` records the
slots whose present owner was killed or trapped.
-/

namespace Xv6Shed
open Function Transition

variable {NPROC NCPU : ℕ} {k k' k'' k₀ : Kernel NPROC NCPU} {p me : Fin NPROC} {c b : Fin NCPU}
  {held kstackOk memOk : Bool}

/-- The slot shows no trace of an earlier owner. -/
structure Proc.Blank (q : Proc NPROC NCPU) : Prop where
  pid : q.pid = 0
  parent : q.parent = none
  killed : q.killed = false
  cwd : q.cwd = none
  ofile : ∀ i, q.ofile i = none

/-- All files are closed and the directory is dropped. -/
structure Proc.Closed (q : Proc NPROC NCPU) : Prop where
  cwd : q.cwd = none
  ofile : ∀ i, q.ofile i = none

/-- Two contents of a slot that differ in scheduling fields only; the slot is not emptied
and its owner does not exit. -/
structure Proc.Kept (q q' : Proc NPROC NCPU) : Prop where
  pid : q'.pid = q.pid
  parent : q'.parent = q.parent
  killed : q'.killed = q.killed
  cwd : q'.cwd = q.cwd
  ofile : q'.ofile = q.ofile
  state : q'.state = q.state ∨ q'.state ≠ .unused ∧ q'.state ≠ .zombie

namespace Proc.Kept
variable {q q' q'' : Proc NPROC NCPU}

theorem refl (q : Proc NPROC NCPU) : q.Kept q := ⟨rfl, rfl, rfl, rfl, rfl, .inl rfl⟩

theorem trans (h : q.Kept q') (h' : q'.Kept q'') : q.Kept q'' where
  pid := h'.pid.trans h.pid
  parent := h'.parent.trans h.parent
  killed := h'.killed.trans h.killed
  cwd := h'.cwd.trans h.cwd
  ofile := h'.ofile.trans h.ofile
  state := by
    rcases h'.state with hs | hs
    · rw [hs]
      exact h.state
    · exact .inr hs

theorem blank (h : q.Kept q') (hq : q.state = .unused → q.Blank) (hs : q'.state = .unused) :
    q'.Blank := by
  have hq := hq ((h.state.resolve_right fun h' => h'.1 hs).symm.trans hs)
  exact ⟨h.pid.trans hq.pid, h.parent.trans hq.parent, h.killed.trans hq.killed,
    h.cwd.trans hq.cwd, fun i => by rw [h.ofile, hq.ofile]⟩

theorem closed_of_closed (h : q.Kept q') (hq : q.Closed) : q'.Closed :=
  ⟨h.cwd.trans hq.cwd, fun i => by rw [h.ofile, hq.ofile]⟩

theorem closed (h : q.Kept q') (hq : q.state = .zombie → q.Closed) (hs : q'.state = .zombie) :
    q'.Closed :=
  h.closed_of_closed (hq ((h.state.resolve_right fun h' => h'.2 hs).symm.trans hs))

end Proc.Kept

/-- Every slot is kept. -/
def Kernel.Keeps (k k' : Kernel NPROC NCPU) : Prop := ∀ p, (k.proc p).Kept (k'.proc p)

namespace Kernel.Keeps

theorem refl (k : Kernel NPROC NCPU) : k.Keeps k := fun _ => .refl _

theorem trans (h : k.Keeps k') (h' : k'.Keeps k'') : k.Keeps k'' := fun p => (h p).trans (h' p)

theorem setProc {q : Proc NPROC NCPU} (h : (k.proc p).Kept q) : k.Keeps (k.setProc p q) := by
  intro p'
  by_cases hp : p' = p
  · subst hp
    simpa using h
  · simpa [hp] using Proc.Kept.refl _

theorem setState {s : ProcState} (hs : s ≠ .unused ∧ s ≠ .zombie) : k.Keeps (k.setState p s) :=
  setProc ⟨rfl, rfl, rfl, rfl, rfl, .inr hs⟩

theorem of_moved (hm : Moved k k') (hs : ∀ p, (k'.proc p).state = (k.proc p).state ∨
    (k'.proc p).state ≠ .unused ∧ (k'.proc p).state ≠ .zombie) : k.Keeps k' := by
  intro p
  have h := hm.proc p
  exact ⟨by rw [h], by rw [h], by rw [h], by rw [h], by rw [h], hs p⟩

theorem enqueueProc (h : k.enqueueProc held c p = .ok k') : k.Keeps k' := by
  obtain ⟨-, rq, rfl⟩ := enqueueProc_ok h
  have hk : k.Keeps (k.setProc p (k.stamp (c, .one) p)) :=
    setProc ⟨rfl, rfl, rfl, rfl, rfl, .inl rfl⟩
  exact hk

theorem wakeup1 {chan : Option (Chan NPROC)} (h : k.wakeup1 held c chan = .ok k') :
    k.Keeps k' := by
  obtain ⟨hm, hs, -⟩ := wakeup1_ok h
  refine of_moved hm fun p => ?_
  rw [hs p]
  split_ifs
  · exact .inr ⟨nofun, nofun⟩
  · exact .inl rfl

theorem schedule (h : k.schedule held c = .ok k') : k.Keeps k' := by
  obtain ⟨-, prev, next, rqs, -, rfl⟩ := schedule_ok h
  have hk : k.Keeps (k.setState next .running) := setState ⟨nofun, nofun⟩
  exact hk

theorem yield (h : k.yield held c = .ok k') : k.Keeps k' := by
  obtain ⟨p, -, h⟩ := bind_eq_ok.mp h
  obtain ⟨k₁, h₁, h⟩ := bind_eq_ok.mp h
  obtain ⟨-, rqs, rfl⟩ := yieldProc_ok h₁
  have h₂ : k.Keeps { k.setState p .runnable with rqs := rqs } :=
    (setState ⟨nofun, nofun⟩ : k.Keeps (k.setState p .runnable))
  exact h₂.trans (schedule h)

theorem demote (h : k.demote held c p = .ok k') : k.Keeps k' := by
  obtain ⟨r, -, h⟩ := bind_eq_ok.mp h
  obtain ⟨k₁, h₁, h⟩ := bind_eq_ok.mp h
  obtain ⟨l, -, h⟩ := bind_eq_ok.mp h
  obtain ⟨k₂, h₂, h⟩ := bind_eq_ok.mp h
  obtain ⟨q, -, h₃⟩ := bind_eq_ok.mp h
  obtain ⟨rq, rfl⟩ := subDequeueProc_ok h₁
  obtain ⟨hm, hs⟩ := subEnqueueProc_state h₂
  have hk : k.Keeps k₂ := of_moved ((Moved.setRq r rq k).trans hm) fun p => .inl (hs p)
  have hk' : k₂.Keeps (k₂.setState q .runnable) := setState ⟨nofun, nofun⟩
  exact (hk.trans hk').trans (schedule h₃)

theorem sleep {chan : Chan NPROC} (h : k.sleep c chan = .ok k') : k.Keeps k' := by
  obtain ⟨k₁, h₁, h⟩ := bind_eq_ok.mp h
  obtain ⟨p, -, h₁⟩ := bind_eq_ok.mp h₁
  cases h₁
  have h₂ : k.Keeps (k.setProc p { k.proc p with chan := some chan, state := .sleeping }) :=
    setProc ⟨rfl, rfl, rfl, rfl, rfl, .inr ⟨nofun, nofun⟩⟩
  exact h₂.trans (schedule h)

theorem tickBalance (h : k.tickBalance c p = .ok k') : k.Keeps k' := by
  unfold Kernel.tickBalance at h
  split_ifs at h
  · obtain ⟨hm, hs⟩ := loadBalanceMLFQ_ok h
    exact of_moved hm fun p => .inl (hs p)
  · cases h
    exact refl _

theorem procTick (h : k.procTick c p = .ok k') : k.Keeps k' := by
  obtain ⟨⟨k₁, t⟩, h₁, h⟩ := bind_eq_ok.mp h
  have hk : k.Keeps k₁ := by
    unfold procTickMLFQ at h₁
    split_ifs at h₁ <;> cases h₁
    · exact refl _
    · exact setProc ⟨rfl, rfl, rfl, rfl, rfl, .inl rfl⟩
    · exact refl _
  cases t with
  | yield => exact hk.trans (yield h)
  | demote => exact hk.trans (demote h)
  | done =>
    cases h
    exact hk

end Kernel.Keeps

/-- The zombie that a call of `wait` would reap now. -/
def Kernel.found (c : Fin NCPU) (k : Kernel NPROC NCPU) : Option (Fin NPROC) := do
  let me ← k.curproc c
  match k.waitScan me (List.finRange NPROC) false with
  | .found p => some p
  | _ => none

/-- Unused slots are blank and zombies hold no files. -/
structure Hygiene (k : Kernel NPROC NCPU) : Prop where
  unused : ∀ p, (k.proc p).state = .unused → (k.proc p).Blank
  zombie : ∀ p, (k.proc p).state = .zombie → (k.proc p).Closed

/-- The state after an operation: hygiene holds, and nobody was killed meanwhile. -/
structure Tidied (k k' : Kernel NPROC NCPU) : Prop where
  hygiene : Hygiene k'
  killed : ∀ p, (k'.proc p).killed = true → (k.proc p).killed = true

theorem Tidied.trans (h : Tidied k k') (h' : Tidied k' k'') : Tidied k k'' :=
  ⟨h'.hygiene, fun p hp => h.killed p (h'.killed p hp)⟩

namespace Hygiene

theorem keeps (hh : Hygiene k) (h : k.Keeps k') : Tidied k k' :=
  ⟨⟨fun p => (h p).blank (hh.unused p), fun p => (h p).closed (hh.zombie p)⟩,
    fun p hp => (h p).killed.symm.trans hp⟩

theorem copied (hh : Hygiene k) {kstackOk memOk : Bool} {o : Option (Fin NPROC)}
    (h : k.Copied me kstackOk memOk o k')
    (hok : ∀ p, (k.proc p).state = .unused → kstackOk = true ∧ memOk = true) : Tidied k k' := by
  cases h with
  | full => exact ⟨hh, fun _ h => h⟩
  | nokstack hu => cases (hok _ hu).1
  | nomem hu => cases (hok _ hu).2
  | @done np hu =>
    refine ⟨⟨fun p hs => ?_, fun p hs => ?_⟩, fun p hk => ?_⟩ <;> by_cases hp : p = np
    · simp [hp] at hs
    · simpa [hp] using hh.unused p (by simpa [hp] using hs)
    · simp [hp] at hs
    · simpa [hp] using hh.zombie p (by simpa [hp] using hs)
    · simpa [hp] using hk
    · simpa [hp] using hk

/-- The state inside `exit`: `me` has closed its files. -/
structure Exiting (k : Kernel NPROC NCPU) (me : Fin NPROC) (k' : Kernel NPROC NCPU) : Prop where
  unused : ∀ p, p ≠ me → (k'.proc p).state = .unused → (k'.proc p).Blank
  zombie : ∀ p, p ≠ me → (k'.proc p).state = .zombie → (k'.proc p).Closed
  killed : ∀ p, p ≠ me → (k'.proc p).killed = true → (k.proc p).killed = true
  me : (k'.proc me).Closed

theorem Exiting.keeps (he : Exiting k me k') (h : k'.Keeps k'') : Exiting k me k'' :=
  ⟨fun p hp => (h p).blank (he.unused p hp), fun p hp => (h p).closed (he.zombie p hp),
    fun p hp hk => he.killed p hp ((h p).killed.symm.trans hk), (h me).closed_of_closed he.me⟩

theorem Exiting.reparentOne (he : Exiting k me k') (h : k'.reparentOne held c me p = .ok k'') :
    Exiting k me k'' := by
  unfold Kernel.reparentOne at h
  split_ifs at h with hp
  · have he₁ : Exiting k me (k'.setProc p { k'.proc p with parent := k'.initproc }) := by
      refine ⟨fun q hq hs => ?_, fun q hq hs => ?_, fun q hq hk => ?_, ?_⟩
      · by_cases hqp : q = p
        · -- an unused slot has no parent
          subst hqp
          have := (he.unused q hq (by simpa using hs)).parent
          rw [hp] at this
          cases this
        · simpa [hqp] using he.unused q hq (by simpa [hqp] using hs)
      · by_cases hqp : q = p
        · subst hqp
          obtain ⟨hc, ho⟩ := he.zombie q hq (by simpa using hs)
          exact ⟨by simpa using hc, by simpa using ho⟩
        · simpa [hqp] using he.zombie q hq (by simpa [hqp] using hs)
      · refine he.killed q hq ?_
        by_cases hqp : q = p
        · simpa [hqp] using hk
        · simpa [hqp] using hk
      · by_cases hqp : me = p
        · subst hqp
          exact ⟨by simpa using he.me.cwd, by simpa using he.me.ofile⟩
        · simpa [hqp] using he.me
    dsimp only at h
    split_ifs at h
    · exact he₁.keeps (.wakeup1 h)
    · cases h
      exact he₁
  · cases h
    exact he

theorem exit (hh : Hygiene k) (hcur : k.curproc c = some me) (x : Bool)
    (h : (k.setProc me { k.proc me with killed := x }).exit c = .ok k') : Tidied k k' := by
  obtain ⟨k₁, h₁, h⟩ := bind_eq_ok.mp h
  obtain ⟨k₂, h₂, h⟩ := bind_eq_ok.mp h
  have he₁ : Exiting k me k₁ ∧ k₁.curproc = k.curproc := by
    unfold Kernel.exitFiles at h₁
    simp only [Kernel.setProc_curproc, hcur, deref_some, ok_bind] at h₁
    split_ifs at h₁
    cases h₁
    refine ⟨⟨fun p hp hs => ?_, fun p hp hs => ?_, fun p hp hk => ?_, ?_⟩, rfl⟩
    · simpa [hp] using hh.unused p (by simpa [hp] using hs)
    · simpa [hp] using hh.zombie p (by simpa [hp] using hs)
    · simpa [hp] using hk
    · exact ⟨by simp, by simp⟩
  obtain ⟨he₁, hcur₁⟩ := he₁
  have he₂ : ∃ k₃, Exiting k me k₃ ∧
      k₂ = k₃.setProc me { k₃.proc me with killed := false, state := .zombie } := by
    unfold Kernel.exitTable at h₂
    rw [hcur₁, hcur, deref_some, ok_bind] at h₂
    obtain ⟨k₃, h₃, h₂⟩ := bind_eq_ok.mp h₂
    obtain ⟨k₄, h₄, h₂⟩ := bind_eq_ok.mp h₂
    cases h₂
    exact ⟨k₄, foldlM_inv (P := Exiting k me) (fun p _ _ _ he => he.reparentOne)
      (he₁.keeps (.wakeup1 h₃)) h₄, rfl⟩
  obtain ⟨k₃, he₃, rfl⟩ := he₂
  have ht : Tidied k (k₃.setProc me { k₃.proc me with killed := false, state := .zombie }) := by
    refine ⟨⟨fun p hs => ?_, fun p hs => ?_⟩, fun p hk => ?_⟩ <;> by_cases hp : p = me
    · simp [hp] at hs
    · simpa [hp] using he₃.unused p hp (by simpa [hp] using hs)
    · subst hp
      exact ⟨by simpa using he₃.me.cwd, by simpa using he₃.me.ofile⟩
    · simpa [hp] using he₃.zombie p hp (by simpa [hp] using hs)
    · simp [hp] at hk
    · exact he₃.killed p hp (by simpa [hp] using hk)
  exact ht.trans (ht.hygiene.keeps (.schedule h))

theorem wait (hh : Hygiene k) (h : k.wait c = .ok k')
    (hk : ∀ p, k.found c = some p → (k.proc p).killed = false) : Tidied k k' := by
  obtain ⟨me, hcur, h⟩ := bind_eq_ok.mp h
  split at h
  · next p hw =>
    cases h
    have hz := hh.zombie p (Kernel.waitScan_found hw).1
    have hkp := hk p (by simp [Kernel.found, deref_eq_ok.mp hcur, hw])
    refine ⟨⟨fun q hs => ?_, fun q hs => ?_⟩, fun q hkq => ?_⟩ <;> by_cases hq : q = p
    · subst hq
      exact ⟨by simp [Kernel.reap], by simp [Kernel.reap], by simpa [Kernel.reap] using hkp,
        by simpa [Kernel.reap] using hz.cwd, by simpa [Kernel.reap] using hz.ofile⟩
    · simpa [Kernel.reap, hq] using hh.unused q (by simpa [Kernel.reap, hq] using hs)
    · simp [Kernel.reap, hq] at hs
    · simpa [Kernel.reap, hq] using hh.zombie q (by simpa [Kernel.reap, hq] using hs)
    · simpa [Kernel.reap, hq] using hkq
    · simpa [Kernel.reap, hq] using hkq
  · cases h
    exact ⟨hh, fun _ h => h⟩
  · exact hh.keeps (.sleep h)

theorem tick (hh : Hygiene k) {user : Bool} (h : k.tick user c = .ok k') : Tidied k k' := by
  obtain ⟨k₁, h₁, h⟩ := bind_eq_ok.mp h
  have ht₁ : Tidied k k₁ := by
    unfold Kernel.tickWakeup at h₁
    split_ifs at h₁
    · exact hh.keeps (.wakeup1 h₁)
    · cases h₁
      exact ⟨hh, fun _ h => h⟩
  refine ht₁.trans ?_
  unfold Kernel.tickProc at h
  split at h
  · cases h
    exact ⟨ht₁.hygiene, fun _ h => h⟩
  · next p hcur =>
    split_ifs at h
    · refine ht₁.hygiene.exit hcur (k₁.proc p).killed ?_
      have : k₁.setProc p (k₁.proc p) = k₁ := by simp [Kernel.setProc]
      exact this.symm ▸ h
    · obtain ⟨k₂, h₂, h⟩ := bind_eq_ok.mp h
      exact ht₁.hygiene.keeps (.trans (.tickBalance h₂) (.procTick h))
    · cases h
      exact ⟨ht₁.hygiene, fun _ h => h⟩

end Hygiene

/-- The kernel with the record of who was killed or trapped. -/
structure Slots (NPROC NCPU : ℕ) where
  kernel : Kernel NPROC NCPU
  marked : Fin NPROC → Bool

inductive SlotOp (NPROC : ℕ) where
  | op (o : Op NPROC)
  | kill (pid : ℤ)
  /-- a fault in user space: `cp->killed = 1`, then `exit()` -/
  | trap
  deriving DecidableEq

def Kernel.trap (c : Fin NCPU) (k : Kernel NPROC NCPU) : Except Fault (Kernel NPROC NCPU) := do
  let me ← deref (k.curproc c)
  (k.setProc me { k.proc me with killed := true }).exit c

namespace SlotOp

/-- `kill` does not hold the run-queue lock. -/
def exec (c : Fin NCPU) (k : Kernel NPROC NCPU) : SlotOp NPROC → Except Fault (Kernel NPROC NCPU)
  | .op o => o.exec c k
  | .kill pid => do pure (← k.kill false c pid).1
  | .trap => k.trap c

def Enabled (c : Fin NCPU) (k : Kernel NPROC NCPU) : SlotOp NPROC → Prop
  | .op o => o.Enabled c k
  | .kill _ | .trap => k.curproc c ≠ none ∧ k.curproc c ≠ k.idleproc c

instance (c : Fin NCPU) (k : Kernel NPROC NCPU) : DecidablePred (Enabled c k)
  | .op o => inferInstanceAs (Decidable (o.Enabled c k))
  | .kill _ | .trap => inferInstanceAs (Decidable (_ ∧ _))

/-- A slot that is taken into use begins a new lifetime. -/
def mark (c : Fin NCPU) (k k' : Kernel NPROC NCPU) (marked : Fin NPROC → Bool) (p : Fin NPROC) :
    SlotOp NPROC → Bool
  | .op _ =>
    if (k.proc p).state = .unused ∧ (k'.proc p).state ≠ .unused then false else marked p
  | .kill pid => k.target pid = some p || marked p
  | .trap => k.curproc c = some p || marked p

/-- No `copyproc` fails once it has a slot, `kill` finds no unused slot, and `wait` reaps no
zombie that was killed after its exit. -/
def Tidy (c : Fin NCPU) (k : Kernel NPROC NCPU) : SlotOp NPROC → Prop
  | .op (.copyproc kstackOk memOk) | .op (.fork kstackOk memOk) =>
    ∀ p, (k.proc p).state = .unused → kstackOk = true ∧ memOk = true
  | .op .wait => ∀ p, k.found c = some p → (k.proc p).killed = false
  | .kill pid => ∀ p, k.target pid = some p → (k.proc p).state ≠ .unused
  | _ => True

instance (c : Fin NCPU) (k : Kernel NPROC NCPU) : DecidablePred (Tidy c k)
  | .op (.copyproc _ _) | .op (.fork _ _) => inferInstanceAs (Decidable (∀ _, _ → _ ∧ _))
  | .op .wait | .kill _ => inferInstanceAs (Decidable (∀ _, _ → _))
  | .trap | .op .runIdle | .op (.forkEnqueue _) | .op (.sleep _) | .op .sleepClear
  | .op (.wakeup _) | .op .exit | .op (.tick _) => isTrue trivial

end SlotOp

structure SlotStep (s : Slots NPROC NCPU) (a : Fin NCPU × SlotOp NPROC) (s' : Slots NPROC NCPU) :
    Prop where
  cpu : a.1.val < s.kernel.ncpu
  enabled : a.2.Enabled a.1 s.kernel
  exec : a.2.exec a.1 s.kernel = .ok s'.kernel
  marked : s'.marked = fun p => a.2.mark a.1 s.kernel s'.kernel s.marked p

theorem Hygiene.copyproc (hh : Hygiene k) {r : Option (Fin NPROC) × Kernel NPROC NCPU}
    (h : k.copyproc kstackOk memOk c = .ok r)
    (hok : ∀ p, (k.proc p).state = .unused → kstackOk = true ∧ memOk = true) : Tidied k r.2 := by
  obtain ⟨me, hcur, -⟩ := bind_eq_ok.mp h
  obtain ⟨o, k₁, h₁, hc⟩ := Kernel.copyproc_copied (deref_eq_ok.mp hcur) kstackOk memOk
  obtain rfl : (o, k₁) = r := Except.ok.inj (h₁.symm.trans h)
  exact hh.copied hc hok

theorem Hygiene.op (hh : Hygiene k) {o : Op NPROC} (h : o.exec c k = .ok k')
    (ht : (SlotOp.op o).Tidy c k) : Tidied k k' := by
  cases o with
  | runIdle =>
    obtain ⟨p, -, h⟩ := bind_eq_ok.mp h
    cases h
    have hk : k.Keeps (k.setState p .running) := .setState ⟨nofun, nofun⟩
    exact hh.keeps hk
  | fork kstackOk memOk =>
    obtain ⟨r, h₁, h⟩ := bind_eq_ok.mp h
    have ht₁ := hh.copyproc h₁ ht
    obtain ⟨_ | np, k₁⟩ := r
    · cases h
      exact ht₁
    · have hk : k₁.Keeps (k₁.setState np .runnable) := .setState ⟨nofun, nofun⟩
      exact ht₁.trans (ht₁.hygiene.keeps (hk.trans (.enqueueProc h)))
  | copyproc kstackOk memOk =>
    obtain ⟨r, h₁, h⟩ := bind_eq_ok.mp h
    cases h
    exact hh.copyproc h₁ ht
  | forkEnqueue np =>
    have hk : k.Keeps (k.setState np .runnable) := .setState ⟨nofun, nofun⟩
    have h₁ : (k.setState np .runnable).enqueueProc true c np = .ok k' := h
    exact hh.keeps (hk.trans (.enqueueProc h₁))
  | sleep chan => exact hh.keeps (.sleep h)
  | sleepClear =>
    obtain ⟨p, -, h⟩ := bind_eq_ok.mp h
    cases h
    exact hh.keeps (.setProc ⟨rfl, rfl, rfl, rfl, rfl, .inl rfl⟩)
  | wakeup chan => exact hh.keeps (.wakeup1 h)
  | exit =>
    obtain ⟨k₁, h₁, -⟩ := bind_eq_ok.mp h
    obtain ⟨p, hcur, -⟩ := bind_eq_ok.mp h₁
    refine hh.exit (deref_eq_ok.mp hcur) (k.proc p).killed ?_
    have : k.setProc p (k.proc p) = k := by simp [Kernel.setProc]
    exact this.symm ▸ h
  | wait => exact hh.wait h ht
  | tick user => exact hh.tick h

theorem Hygiene.newProc (hh : Hygiene k) (h : k.newProc = .ok (p, k')) : Tidied k k' := by
  obtain ⟨-, rfl⟩ := Kernel.newProc_ok h
  refine ⟨⟨fun q hs => ?_, fun q hs => ?_⟩, fun q hk => ?_⟩ <;> by_cases hq : q = p
  · simp [hq] at hs
  · simpa [hq] using hh.unused q (by simpa [hq] using hs)
  · simp [hq] at hs
  · simpa [hq] using hh.zombie q (by simpa [hq] using hs)
  · simpa [hq] using hk
  · simpa [hq] using hk

theorem Hygiene.userinit {ncpu : ℕ} (h : (Kernel.pinit NPROC NCPU ncpu).userinit b = .ok k₀) :
    Tidied (Kernel.pinit NPROC NCPU ncpu) k₀ := by
  have h₀ : Hygiene (Kernel.pinit NPROC NCPU ncpu) :=
    ⟨fun _ _ => ⟨rfl, rfl, rfl, rfl, fun _ => rfl⟩, fun _ _ => ⟨rfl, fun _ => rfl⟩⟩
  obtain ⟨⟨p, k₁⟩, h₁, h⟩ := bind_eq_ok.mp h
  obtain ⟨k₂, h₂, h⟩ := bind_eq_ok.mp h
  have ht₁ := h₀.newProc h₁
  have ht₂ := ht₁.trans (ht₁.hygiene.keeps (.enqueueProc h₂))
  refine foldlM_inv (P := Tidied (Kernel.pinit NPROC NCPU ncpu)) ?_ ?_ h
  · intro d _ k k' ht hk
    obtain ⟨⟨p, k₁⟩, h₁, hk⟩ := bind_eq_ok.mp hk
    cases hk
    have ht₁ := ht.trans (ht.hygiene.newProc h₁)
    exact ht₁.trans (ht₁.hygiene.keeps fun _ => .refl _)
  · exact ht₂.trans (ht₂.hygiene.keeps fun _ => .refl _)

/-- No unused slot shows a trace of its last owner, a new process is not killed, and a
process has its `killed` flag set only if it was killed or trapped itself. -/
structure Slots.Hygienic (s : Slots NPROC NCPU) : Prop where
  unused : ∀ p, (s.kernel.proc p).state = .unused → (s.kernel.proc p).Blank
  fresh : ∀ c kstackOk memOk np k', s.kernel.copyproc kstackOk memOk c = .ok (some np, k') →
    (k'.proc np).killed = false
  killed : ∀ p, (s.kernel.proc p).killed = true → s.marked p = true

theorem Hygiene.kill (hh : Hygiene k) (hp : (k.proc p).state ≠ .unused) :
    Hygiene (k.setProc p { k.proc p with killed := true }) := by
  refine ⟨fun q hs => ?_, fun q hs => ?_⟩ <;> by_cases hq : q = p
  · subst hq
    exact absurd (by simpa using hs) hp
  · simpa [hq] using hh.unused q (by simpa [hq] using hs)
  · subst hq
    obtain ⟨hc, ho⟩ := hh.zombie q (by simpa using hs)
    exact ⟨by simpa using hc, by simpa using ho⟩
  · simpa [hq] using hh.zombie q (by simpa [hq] using hs)

theorem Hygiene.fresh (hh : Hygiene k) {np : Fin NPROC}
    (h : k.copyproc kstackOk memOk c = .ok (some np, k')) : (k'.proc np).killed = false := by
  obtain ⟨me, hcur, -⟩ := bind_eq_ok.mp h
  obtain ⟨o, k₁, h₁, hc⟩ := Kernel.copyproc_copied (deref_eq_ok.mp hcur) kstackOk memOk
  cases Except.ok.inj (h₁.symm.trans h)
  cases hc with
  | done hu => simpa using (hh.unused np hu).killed

/-- The invariant of runs. -/
structure Slots.Inv (s : Slots NPROC NCPU) : Prop where
  hygiene : Hygiene s.kernel
  marked : ∀ p, (s.kernel.proc p).killed = true → s.marked p = true

variable {s s' : Slots NPROC NCPU} {a : Fin NCPU × SlotOp NPROC}

theorem Slots.Inv.step (hs : s.Inv) (h : SlotStep s a s') (ht : a.2.Tidy a.1 s.kernel) :
    s'.Inv := by
  obtain ⟨c, o⟩ := a
  obtain ⟨k, m⟩ := s
  obtain ⟨k', m'⟩ := s'
  obtain ⟨hh, hm⟩ := hs
  obtain ⟨-, hen, hex, hmark⟩ := h
  dsimp only at *
  subst hmark
  cases o with
  | op o =>
    obtain ⟨hh', hk⟩ := hh.op hex ht
    refine ⟨hh', fun p hp => ?_⟩
    have hkp := hk p hp
    have hne : (k.proc p).state ≠ .unused := by
      intro hu
      rw [(hh.unused p hu).killed] at hkp
      cases hkp
    simpa [SlotOp.mark, hne] using hm p hkp
  | kill pid =>
    obtain ⟨r, hr, hex⟩ := bind_eq_ok.mp hex
    cases hex
    rw [Kernel.kill_unlocked] at hr
    cases htar : k.target pid with
    | none =>
      rw [htar] at hr
      cases hr
      exact ⟨hh, fun p hp => by simp [SlotOp.mark, hm p hp]⟩
    | some q =>
      simp only [htar] at hr
      split_ifs at hr
      cases hr
      exact ⟨hh.kill (ht q htar), fun p hp => by
        by_cases hpq : p = q
        · simp [SlotOp.mark, htar, hpq]
        · simp [SlotOp.mark, hm p (by simpa [hpq] using hp)]⟩
  | trap =>
    obtain ⟨me, hcur, hex⟩ := bind_eq_ok.mp hex
    obtain ⟨hh', hk⟩ := hh.exit (deref_eq_ok.mp hcur) true hex
    exact ⟨hh', fun p hp => by simp [SlotOp.mark, hm p (hk p hp)]⟩

theorem slots_hygienic_of_tidy {ncpu : ℕ} {s : Slots NPROC NCPU}
    (h₀ : (Kernel.pinit NPROC NCPU ncpu).userinit b = .ok k₀)
    (hr : Reach (fun s a s' => SlotStep s a s' ∧ a.2.Tidy a.1 s.kernel) ⟨k₀, fun _ => false⟩ s) :
    s.Hygienic := by
  have h := hr.invariant (P := Slots.Inv) ?_ fun s a s' hs h => hs.step h.1 h.2
  · exact ⟨h.hygiene.unused, fun _ _ _ _ _ => h.hygiene.fresh, h.marked⟩
  · have ht := Hygiene.userinit h₀
    exact ⟨ht.hygiene, fun p hp => by cases ht.killed p hp⟩

/-- The step with a given label, if it is possible. -/
def Slots.perform (s : Slots NPROC NCPU) (a : Fin NCPU × SlotOp NPROC) :
    Option (Slots NPROC NCPU) :=
  if a.1.val < s.kernel.ncpu ∧ a.2.Enabled a.1 s.kernel then do
    let k ← (a.2.exec a.1 s.kernel).toOption
    some ⟨k, fun p => a.2.mark a.1 s.kernel k s.marked p⟩
  else none

theorem Slots.step_of_perform (h : s.perform a = some s') : SlotStep s a s' := by
  unfold Slots.perform at h
  split_ifs at h with hen
  cases he : a.2.exec a.1 s.kernel <;> rw [he] at h <;> cases h
  exact ⟨hen.1, hen.2, he, rfl⟩

/-- Init forks a child and reaps it after its exit; the slot is blank again. -/
theorem slots_hygienic_of_tidy_reap : ∃ (k₀ : Kernel 64 8) (s : Slots 64 8),
    (Kernel.pinit 64 8 2).userinit 0 = .ok k₀ ∧
    Reach (fun s a s' => SlotStep s a s' ∧ a.2.Tidy a.1 s.kernel) ⟨k₀, fun _ => false⟩ s ∧
    s.kernel.freed.length = 2 ∧ s.Hygienic := by
  have hf : ∀ (s : Slots 64 8) a s',
      (if a.2.Tidy a.1 s.kernel then s.perform a else none) = some s' →
      Reach (fun s a s' => SlotStep s a s' ∧ a.2.Tidy a.1 s.kernel) s s' := by
    intro s a s' h
    split_ifs at h with ht
    exact .next .start ⟨Slots.step_of_perform h, ht⟩
  obtain ⟨k₀, h₀, h⟩ := exists_ok_of_any (x := (Kernel.pinit 64 8 2).userinit 0)
    (P := fun k₀ => (List.foldlM (fun (s : Slots 64 8) (a : Fin 8 × SlotOp 64) =>
        if a.2.Tidy a.1 s.kernel then s.perform a else none)
      ⟨k₀, fun _ => false⟩ [(0, .op .runIdle), (0, .op (.tick true)), (0, .op (.fork true true)),
        (0, .op .wait), (0, .op .exit), (0, .op .wait)]).any
          fun s => s.kernel.freed.length = 2) (by decide +kernel)
  obtain ⟨s, hr, hs⟩ := exists_reach_of_any hf h
  exact ⟨k₀, s, h₀, hr, by simpa using hs, slots_hygienic_of_tidy h₀ hr⟩

/-- Init forks and sleeps; its child wakes it and exits. Init kills the zombie and then reaps it.
The slot keeps the flag, and the next child, whom nobody killed, starts with it. -/
theorem killed_zombie_marks_next_process : ∃ (k₀ : Kernel 64 8) (s₁ s₂ s₃ : Slots 64 8),
    (Kernel.pinit 64 8 2).userinit 0 = .ok k₀ ∧
    Reach SlotStep ⟨k₀, fun _ => false⟩ s₁ ∧ (s₁.kernel.proc 9).state = .zombie ∧
    Reach SlotStep s₁ s₂ ∧ (s₂.kernel.proc 9).state = .unused ∧
      (s₂.kernel.proc 9).killed = true ∧
    Reach SlotStep s₂ s₃ ∧ (s₃.kernel.proc 9).state = .runnable ∧
      (s₃.kernel.proc 9).killed = true ∧ s₃.marked 9 = false := by
  have hf : ∀ (s : Slots 64 8) a s', s.perform a = some s' → Reach SlotStep s s' :=
    fun s a s' h => .next .start (Slots.step_of_perform h)
  obtain ⟨k₀, h₀, h⟩ := exists_ok_of_any (x := (Kernel.pinit 64 8 2).userinit 0)
    (P := fun k₀ => (List.foldlM Slots.perform ⟨k₀, fun _ => false⟩
      [(0, .op .runIdle), (0, .op (.tick true)), (0, .op (.fork true true)),
        (0, .op (.sleep (.addr 7))), (0, .op (.wakeup (.addr 7))), (0, .op .exit),
        (0, .op .sleepClear)]).any fun s₁ => (s₁.kernel.proc 9).state = .zombie ∧
      (List.foldlM Slots.perform s₁ [(0, .kill 10), (0, .op .wait)]).any fun s₂ =>
        ((s₂.kernel.proc 9).state = .unused ∧ (s₂.kernel.proc 9).killed = true) ∧
      (List.foldlM Slots.perform s₂ [(0, .op (.fork true true))]).any fun s₃ =>
        (s₃.kernel.proc 9).state = .runnable ∧ (s₃.kernel.proc 9).killed = true ∧
          s₃.marked 9 = false) (by decide +kernel)
  obtain ⟨s₁, hr₁, h₁⟩ := exists_reach_of_any hf h
  simp only [decide_eq_true_eq] at h₁
  obtain ⟨s₂, hr₂, h₂⟩ := exists_reach_of_any hf h₁.2
  simp only [decide_eq_true_eq] at h₂
  obtain ⟨s₃, hr₃, h₃⟩ := exists_reach_of_any hf h₂.2
  simp only [decide_eq_true_eq] at h₃
  exact ⟨k₀, s₁, s₂, s₃, h₀, hr₁, h₁.1, hr₂, h₂.1.1, h₂.1.2, hr₃, h₃⟩

end Xv6Shed
