import Xv6Shed.Boot
import Xv6Shed.ProcessTree
import Xv6Shed.Sections

/-!
# Child accounting

The sections of `fork`, `exit` and `wait` that run under `proc_table_lock`, with the code of
`copyproc` between them, executed by processes in any order. A process runs its own sections
one after the other, on any CPU. All the rest of the kernel may at any time do what leaves
parents, numbers and lives of processes alone. The system refines the abstract process table.
-/

namespace Xv6Shed
open Function Transition

variable {NPROC NCPU : ℕ}

/-- The part of a process state that only `fork`, `exit` and `wait` change. -/
def ProcState.life : ProcState → Life
  | .unused => .unused
  | .embryo => .embryo
  | .sleeping => .alive
  | .runnable => .alive
  | .running => .alive
  | .zombie => .zombie

namespace Kernel

/-- Process `p` runs on CPU `c`. -/
@[simps] def runOn (c : Fin NCPU) (p : Fin NPROC) (k : Kernel NPROC NCPU) : Kernel NPROC NCPU :=
  { k with curproc := update k.curproc c (some p) }

/-- `copyproc(p)` without memory for the new process, up to `np->state = UNUSED` -/
def copyFail (p np : Fin NPROC) (k : Kernel NPROC NCPU) : Kernel NPROC NCPU :=
  { k with blocks := k.blocks + 1, freed := k.blocks :: k.freed }.setProc np
    { k.proc np with mem := none, kstack := none, parent := some p, state := .unused }

/-- `np->parent = 0` -/
def dropParent (np : Fin NPROC) (k : Kernel NPROC NCPU) : Kernel NPROC NCPU :=
  k.setProc np { k.proc np with parent := none }

end Kernel

/-- The kernel with its history. -/
structure Family (NPROC NCPU : ℕ) where
  kernel : Kernel NPROC NCPU
  stage : Fin NPROC → Stage (Fin NPROC)
  /-- the number of calls of `fork` -/
  forks : ℕ
  history : List (TreeEvent ℤ)

/-- What a process can do next. -/
inductive FamilyAct (NCPU : ℕ) where
  | fork
  | copy (kstackOk memOk : Bool)
  | drop
  | enqueue (c : Fin NCPU)
  | exit (c : Fin NCPU)
  | exitTable (c : Fin NCPU)
  | wait
  | scan (c : Fin NCPU)

namespace Family

/-- Process `p` is now at `x`, and the kernel is `k`. -/
def go (s : Family NPROC NCPU) (p : Fin NPROC) (x : Stage (Fin NPROC)) (k : Kernel NPROC NCPU) :
    Family NPROC NCPU :=
  { s with kernel := k, stage := update s.stage p x }

/-- One section of process `p`, if that is what it does next. -/
def act (s : Family NPROC NCPU) (p : Fin NPROC) :
    FamilyAct NCPU → Stage (Fin NPROC) → Except Fault (Option (Family NPROC NCPU))
  | .fork, .user =>
    match s.kernel.allocproc with
    | (none, k) => pure (some { s with kernel := k, forks := s.forks + 1 })
    | (some np, k) => pure (some { s.go p (.forking np) k with forks := s.forks + 1 })
  | .copy kstackOk memOk, .forking np =>
    if kstackOk = true ∧ memOk = false then
      pure (some (s.go p (.failing np) (s.kernel.copyFail p np)))
    else
      match s.kernel.copyRest kstackOk memOk (some p) np with
      | (true, k) => pure (some (s.go p (.copied np) k))
      | (false, k) => pure (some (s.go p .user k))
  | .drop, .failing np => pure (some (s.go p .user (s.kernel.dropParent np)))
  | .enqueue c, .copied np => do
    let pid := (s.kernel.proc np).pid
    let k ← s.kernel.forkEnqueue true c np
    pure (some { s with
      kernel := k
      stage := update (update s.stage p .user) np .user
      history := .forked (s.kernel.proc p).pid pid :: s.history })
  | .exit c, .user => do
    let k ← (s.kernel.runOn c p).exitFiles c
    pure (some (s.go p .exiting k))
  | .exitTable c, .exiting => do
    let k ← (s.kernel.runOn c p).exitTable true c
    pure (some { s.go p .user k with history := .exited (s.kernel.proc p).pid :: s.history })
  | .wait, .user => pure (some (s.go p .waiting s.kernel))
  | .scan c, .waiting =>
    match s.kernel.waitScan p (List.finRange NPROC) false with
    | .found q => pure (some { s.go p .user (s.kernel.reap q) with
        history := .waited (s.kernel.proc p).pid (s.kernel.proc q).pid :: s.history })
    | .none => pure (some (s.go p .user s.kernel))
    | .sleep => do
      let k ← (s.kernel.runOn c p).sleepSet c (some (.proc p))
      pure (some { s with kernel := k })
  | _, _ => pure none

end Family

/-- Changes that have nothing to do with parents and children. -/
structure SameFamily (k k' : Kernel NPROC NCPU) : Prop where
  initproc : k'.initproc = k.initproc
  nextpid : k'.nextpid = k.nextpid
  pid : ∀ p, (k'.proc p).pid = (k.proc p).pid
  parent : ∀ p, (k'.proc p).parent = (k.proc p).parent
  life : ∀ p, (k'.proc p).state.life = (k.proc p).state.life

/-- One step: a section of a process that is alive, or anything else the kernel does. -/
inductive FamilyStep (s : Family NPROC NCPU) :
    Option (Fin NPROC × FamilyAct NCPU) → Family NPROC NCPU → Prop
  | act {p : Fin NPROC} {a : FamilyAct NCPU} {s' : Family NPROC NCPU} :
      (s.kernel.proc p).state.life = .alive → s.act p a (s.stage p) = .ok (some s') →
      FamilyStep s (some (p, a)) s'
  | other {k : Kernel NPROC NCPU} : SameFamily s.kernel k →
      FamilyStep s none { s with kernel := k }

def Family.start (k : Kernel NPROC NCPU) : Family NPROC NCPU := ⟨k, fun _ => .user, 0, []⟩

variable {k k' k'' : Kernel NPROC NCPU} {p q np me : Fin NPROC} {c : Fin NCPU} {held : Bool}
  {s : Family NPROC NCPU}

namespace SameFamily

theorem refl (k : Kernel NPROC NCPU) : SameFamily k k :=
  ⟨rfl, rfl, fun _ => rfl, fun _ => rfl, fun _ => rfl⟩

theorem trans (h : SameFamily k k') (h' : SameFamily k' k'') : SameFamily k k'' :=
  ⟨h'.initproc.trans h.initproc, h'.nextpid.trans h.nextpid, fun p => (h'.pid p).trans (h.pid p),
    fun p => (h'.parent p).trans (h.parent p), fun p => (h'.life p).trans (h.life p)⟩

theorem of_moved (h : Moved k k') (hl : ∀ p, (k'.proc p).state.life = (k.proc p).state.life) :
    SameFamily k k' :=
  ⟨h.initproc, by rw [h.kernel], fun p => by rw [h.proc], h.parent, hl⟩

theorem setProc {x : Proc NPROC NCPU} (hpid : x.pid = (k.proc p).pid)
    (hpar : x.parent = (k.proc p).parent) (hl : x.state.life = (k.proc p).state.life) :
    SameFamily k (k.setProc p x) := by
  refine ⟨rfl, rfl, ?_, ?_, ?_⟩ <;> intro q <;> by_cases hq : q = p <;>
    simp [hq, hpid, hpar, hl]

theorem wakeup1 {chan : Option (Chan NPROC)} (h : k.wakeup1 held c chan = .ok k') :
    SameFamily k k' := by
  obtain ⟨hm, hs, -⟩ := Kernel.wakeup1_ok h
  refine of_moved hm fun p => ?_
  rw [hs p]
  split_ifs with hp
  · rw [hp.1]
    rfl
  · rfl

theorem enqueueProc (h : k.enqueueProc held c p = .ok k') : SameFamily k k' := by
  obtain ⟨-, rq, rfl⟩ := Kernel.enqueueProc_ok h
  have h₀ : SameFamily k (k.setRq (c, .one) rq) :=
    ⟨rfl, rfl, fun _ => rfl, fun _ => rfl, fun _ => rfl⟩
  exact h₀.trans (setProc rfl rfl rfl)

end SameFamily

theorem reparentOne_family (h : k.reparentOne held c me p = .ok k') :
    SameFamily (k.setProc p { k.proc p with
      parent := if (k.proc p).parent = some me then k.initproc else (k.proc p).parent }) k' := by
  unfold Kernel.reparentOne at h
  split_ifs at h with hp
  · rw [if_pos hp]
    dsimp only at h
    split_ifs at h
    · exact .wakeup1 h
    · cases h
      exact .refl _
  · cases h
    rw [if_neg hp]
    have hself : k.setProc p { k.proc p with parent := (k.proc p).parent } = k := by
      simp [Kernel.setProc]
    rw [hself]
    exact .refl k

theorem reparent_family {l : List (Fin NPROC)}
    (h : l.foldlM (Kernel.reparentOne held c me) k = .ok k') :
    k'.nextpid = k.nextpid ∧ ∀ q, (k'.proc q).pid = (k.proc q).pid ∧
      (k'.proc q).state.life = (k.proc q).state.life := by
  refine foldlM_inv (P := fun k' => k'.nextpid = k.nextpid ∧ ∀ q,
    (k'.proc q).pid = (k.proc q).pid ∧ (k'.proc q).state.life = (k.proc q).state.life)
    ?_ ⟨rfl, fun q => ⟨rfl, rfl⟩⟩ h
  rintro p - k₁ k₂ ⟨hn, hq⟩ he
  have hs := reparentOne_family he
  refine ⟨hs.nextpid.trans hn, fun q => ⟨?_, ?_⟩⟩
  · rw [hs.pid q, ← (hq q).1]
    by_cases hqp : q = p <;> simp [hqp]
  · rw [hs.life q, ← (hq q).2]
    by_cases hqp : q = p <;> simp [hqp]

theorem exitTable_family (h : (k.runOn c p).exitTable held c = .ok k') :
    k'.initproc = k.initproc ∧ k'.nextpid = k.nextpid ∧
    (∀ q, (k'.proc q).pid = (k.proc q).pid) ∧
    (∀ q, (k'.proc q).parent =
      if (k.proc q).parent = some p then k.initproc else (k.proc q).parent) ∧
    ∀ q, (k'.proc q).state.life = if q = p then .zombie else (k.proc q).state.life := by
  obtain ⟨me, hme, hst, -, -, hpar, -⟩ := Kernel.exitTable_ok h
  obtain rfl : p = me := by simpa using hme
  obtain ⟨me', hme', h⟩ := bind_eq_ok.mp h
  obtain rfl : p = me' := by simpa using deref_eq_ok.mp hme'
  obtain ⟨k₁, h₁, h⟩ := bind_eq_ok.mp h
  obtain ⟨k₂, h₂, h⟩ := bind_eq_ok.mp h
  cases h
  have hw := SameFamily.wakeup1 h₁
  obtain ⟨hn, hq⟩ := reparent_family h₂
  refine ⟨hst.initproc, hn.trans hw.nextpid, fun q => ?_, hpar, fun q => ?_⟩
  · have := (hq q).1.trans (hw.pid q)
    by_cases hqp : q = p
    · subst hqp
      simpa using this
    · simpa [hqp] using this
  · have := (hq q).2.trans (hw.life q)
    by_cases hqp : q = p
    · simp [hqp, ProcState.life]
    · simpa [hqp] using this

theorem exitFiles_family (h : (k.runOn c p).exitFiles c = .ok k') :
    k.initproc ≠ some p ∧ SameFamily k k' := by
  obtain ⟨me, hme, h⟩ := bind_eq_ok.mp h
  obtain rfl : p = me := by simpa using deref_eq_ok.mp hme
  split_ifs at h with hi
  cases h
  have h₀ : SameFamily k (k.runOn c p) := ⟨rfl, rfl, fun _ => rfl, fun _ => rfl, fun _ => rfl⟩
  exact ⟨hi, h₀.trans (.setProc rfl rfl rfl)⟩

theorem sleepSet_family {chan : Option (Chan NPROC)} (hp : (k.proc p).state.life = .alive)
    (h : (k.runOn c p).sleepSet c chan = .ok k') : SameFamily k k' := by
  obtain ⟨me, hme, h⟩ := bind_eq_ok.mp h
  obtain rfl : p = me := by simpa using deref_eq_ok.mp hme
  cases h
  have h₀ : SameFamily k (k.runOn c p) := ⟨rfl, rfl, fun _ => rfl, fun _ => rfl, fun _ => rfl⟩
  exact h₀.trans (.setProc rfl rfl hp.symm)

theorem waitScan_none {ps : List (Fin NPROC)} {b : Bool} (h : k.waitScan p ps b = .none) :
    (b = false ∧ ∀ q ∈ ps, (k.proc q).state ≠ .unused → (k.proc q).parent ≠ some p) ∨
      (k.proc p).killed = true := by
  induction ps generalizing b with
  | nil =>
    unfold Kernel.waitScan at h
    split_ifs at h with hb
    rcases hb with hb | hb
    · exact .inl ⟨hb, by simp⟩
    · exact .inr hb
  | cons q ps ih =>
    unfold Kernel.waitScan at h
    split_ifs at h with hu hp hz
    · refine (ih h).imp_left fun hno => ⟨hno.1, ?_⟩
      simpa [hu] using hno.2
    · exact (ih h).imp_left fun hno => absurd hno.1 (by simp)
    · refine (ih h).imp_left fun hno => ⟨hno.1, ?_⟩
      simpa [hp] using hno.2

/-- The value of `nextpid` when `n` processes have been made. -/
def pidOf (n : ℕ) : ℤ := ((n : ℤ) + 1).bmod (2 ^ 32)

theorem pidOf_succ (n : ℕ) : (pidOf n + 1).bmod (2 ^ 32) = pidOf (n + 1) := by
  unfold pidOf
  rw [Int.bmod_add_bmod]
  push_cast
  rfl

theorem pidOf_inj {n m : ℕ} (hn : n < 2 ^ 32) (hm : m < 2 ^ 32) (h : pidOf n = pidOf m) :
    n = m := by
  unfold pidOf at h
  have h' := congrArg (· % ((2 ^ 32 : ℕ) : ℤ)) h
  simp only [Int.bmod_emod] at h'
  omega

/-- The abstract table that a state of the kernel stands for. -/
structure Refines (s : Family NPROC NCPU) (t : Tree (Fin NPROC)) : Prop where
  life : ∀ p, t.life p = (s.kernel.proc p).state.life
  parent : ∀ p, t.parent p = (s.kernel.proc p).parent
  pid : ∀ p, t.life p ≠ .unused → (s.kernel.proc p).pid = pidOf (t.serial p)
  nextpid : s.kernel.nextpid = pidOf t.count
  initproc : s.kernel.initproc = some t.init
  stage : t.stage = s.stage
  history : s.history = t.history.map (TreeEvent.map pidOf)
  count : t.count ≤ NCPU + 1 + s.forks

namespace Refines

variable {s s' : Family NPROC NCPU} {t : Tree (Fin NPROC)}

section

variable (h : Refines s t)
include h

theorem same (hk : SameFamily s.kernel k) : Refines { s with kernel := k } t where
  life p := (h.life p).trans (hk.life p).symm
  parent p := (h.parent p).trans (hk.parent p).symm
  pid p hp := (hk.pid p).trans (h.pid p hp)
  nextpid := hk.nextpid.trans h.nextpid
  initproc := hk.initproc.trans h.initproc
  stage := h.stage
  history := h.history
  count := h.count

theorem go (x : Stage (Fin NPROC)) (hk : SameFamily s.kernel k) :
    Refines (s.go p x k) { t with stage := update t.stage p x } :=
  { h.same hk with stage := by rw [h.stage]; rfl }

theorem pid_alive (hp : (s.kernel.proc p).state.life = .alive) :
    (s.kernel.proc p).pid = pidOf (t.serial p) := by
  apply h.pid
  rw [h.life, hp]
  exact Life.noConfusion

theorem alloc (p np : Fin NPROC) :
    Refines { s.go p (.forking np) ({ s.kernel with
        nextpid := (s.kernel.nextpid + 1).bmod (2 ^ 32) }.setProc np { s.kernel.proc np with
          state := .embryo, pid := s.kernel.nextpid, rq := none }) with forks := s.forks + 1 }
      { t with
        life := update t.life np .embryo
        serial := update t.serial np t.count
        count := t.count + 1
        stage := update t.stage p (.forking np) } where
  life q := by
    by_cases hq : q = np
    · simp [hq, Family.go, ProcState.life]
    · simpa [hq, Family.go] using h.life q
  parent q := by
    by_cases hq : q = np
    · subst hq
      simpa [Family.go] using h.parent q
    · simpa [hq, Family.go] using h.parent q
  pid q hl := by
    by_cases hq : q = np
    · simpa [hq, Family.go] using h.nextpid
    · have hl' : t.life q ≠ .unused := by simpa [hq] using hl
      simpa [hq, Family.go] using h.pid q hl'
  nextpid := by
    show (s.kernel.nextpid + 1).bmod (2 ^ 32) = _
    rw [h.nextpid, pidOf_succ]
  initproc := h.initproc
  stage := by rw [h.stage]; rfl
  history := h.history
  count := by
    have := h.count
    dsimp only
    omega

theorem setSlot (np : Fin NPROC) {x : Proc NPROC NCPU} (st : Fin NPROC → Stage (Fin NPROC))
    (hk : SameFamily (s.kernel.setProc np x) k)
    (hpid : x.state.life ≠ .unused → x.pid = pidOf (t.serial np)) :
    Refines { s with kernel := k, stage := st } { t with
      life := update t.life np x.state.life
      parent := update t.parent np x.parent
      stage := st } where
  life q := by
    rw [hk.life q]
    by_cases hq : q = np
    · simp [hq]
    · simpa [hq] using h.life q
  parent q := by
    rw [hk.parent q]
    by_cases hq : q = np
    · simp [hq]
    · simpa [hq] using h.parent q
  pid q hl := by
    rw [hk.pid q]
    by_cases hq : q = np
    · subst hq
      simpa using hpid (by simpa using hl)
    · have hl' : t.life q ≠ .unused := by simpa [hq] using hl
      simpa [hq] using h.pid q hl'
  nextpid := hk.nextpid.trans h.nextpid
  initproc := hk.initproc.trans h.initproc
  stage := rfl
  history := h.history
  count := h.count

theorem record (e : TreeEvent ℕ) :
    Refines { s with history := e.map pidOf :: s.history } { t with history := e :: t.history } :=
  { h with history := by rw [h.history]; rfl }

theorem exited (hp : t.life p = .alive) (hk : (s.kernel.runOn c p).exitTable held c = .ok k) :
    Refines (s.go p .user k) { t with
      life := update t.life p .zombie
      parent := fun q => if t.parent q = some p then some t.init else t.parent q
      stage := update t.stage p .user } := by
  obtain ⟨hinit, hnext, hpid, hpar, hlife⟩ := exitTable_family hk
  refine ⟨?_, ?_, ?_, hnext.trans h.nextpid, hinit.trans h.initproc, ?_, h.history, h.count⟩
  · intro q
    refine Eq.trans ?_ (hlife q).symm
    by_cases hq : q = p
    · simp [hq]
    · simpa [hq] using h.life q
  · intro q
    dsimp only [Family.go]
    rw [hpar q, h.parent, h.initproc]
  · intro q hq
    refine (hpid q).trans (h.pid q ?_)
    by_cases hqp : q = p
    · rw [hqp, hp]
      exact Life.noConfusion
    · simpa [hqp] using hq
  · rw [h.stage]
    rfl

theorem giveUp (p np : Fin NPROC) (memOk : Bool) :
    Refines (s.go p .user (s.kernel.copyRest false memOk (some p) np).2) { t with
      life := update t.life np .unused
      stage := update t.stage p .user } := by
  rw [Kernel.copyRest_nokstack, h.stage]
  have key := h.setSlot np (update s.stage p .user) (x := { s.kernel.proc np with
    kstack := none, state := .unused }) (.refl _) fun hl => absurd rfl hl
  simpa [Family.go, ← h.parent, ProcState.life] using key

theorem copy (p np : Fin NPROC) (he : t.life np = .embryo) :
    Refines (s.go p (.copied np) (s.kernel.copyRest true true (some p) np).2) { t with
      parent := update t.parent np (some p)
      stage := update t.stage p (.copied np) } := by
  rw [Kernel.copyRest_done, h.stage]
  have key := h.setSlot np (update s.stage p (.copied np)) (x := { s.kernel.proc np with
    kstack := some s.kernel.blocks
    parent := some p
    mem := some (s.kernel.blocks + 1)
    ofile := fun i => if (s.kernel.proc p).ofile i ≠ none then (s.kernel.proc p).ofile i
      else (s.kernel.proc np).ofile i
    cwd := (s.kernel.proc p).cwd })
    (k := { s.kernel with blocks := s.kernel.blocks + 2 }.setProc np _)
    ⟨rfl, rfl, fun _ => rfl, fun _ => rfl, fun _ => rfl⟩
    fun _ => h.pid np (by rw [he]; exact Life.noConfusion)
  simp only [← h.life, update_eq_self] at key
  exact key

theorem fail (p np : Fin NPROC) :
    Refines (s.go p (.failing np) (s.kernel.copyFail p np)) { t with
      life := update t.life np .unused
      parent := update t.parent np (some p)
      stage := update t.stage p (.failing np) } := by
  rw [h.stage]
  exact h.setSlot np (update s.stage p (.failing np)) (x := { s.kernel.proc np with
    mem := none, kstack := none, parent := some p, state := .unused })
    ⟨rfl, rfl, fun _ => rfl, fun _ => rfl, fun _ => rfl⟩ fun hl => absurd rfl hl

theorem drop (p np : Fin NPROC) :
    Refines (s.go p .user (s.kernel.dropParent np)) { t with
      parent := update t.parent np none
      stage := update t.stage p .user } := by
  rw [h.stage]
  have key := h.setSlot np (update s.stage p .user) (x := { s.kernel.proc np with parent := none })
    (.refl _) fun hl => h.pid np (by rw [h.life]; exact hl)
  simp only [← h.life, update_eq_self] at key
  exact key

theorem fork (he : t.life np = .embryo) (hk : s.kernel.forkEnqueue held c np = .ok k)
    (p : Fin NPROC) :
    Refines { s with kernel := k, stage := update (update s.stage p .user) np .user } { t with
      life := update t.life np .alive
      stage := update (update t.stage p .user) np .user } := by
  rw [h.stage]
  have key := h.setSlot np (update (update s.stage p .user) np .user)
    (x := { s.kernel.proc np with state := .runnable }) (.enqueueProc hk)
    fun _ => h.pid np (by rw [he]; exact Life.noConfusion)
  simpa [← h.parent, ProcState.life] using key

theorem waited (p q : Fin NPROC) :
    Refines (s.go p .user (s.kernel.reap q)) { t with
      life := update t.life q .unused
      parent := update t.parent q none
      stage := update t.stage p .user } := by
  rw [h.stage]
  exact h.setSlot q (update s.stage p .user) (x := { s.kernel.proc q with
    state := .unused, pid := 0, parent := none })
    ⟨rfl, rfl, fun _ => rfl, fun _ => rfl, fun _ => rfl⟩ fun hl => absurd rfl hl

theorem step {a : Option (Fin NPROC × FamilyAct NCPU)} (hi : t.Inv) (hs : FamilyStep s a s') :
    ∃ t', (t' = t ∨ ∃ p b, a = some (p, b) ∧ t.Step p t') ∧ Refines s' t' := by
  cases hs with
  | other hk => exact ⟨t, .inl rfl, h.same hk⟩
  | @act p a _ hp hs =>
    have hlive : t.life p = .alive := (h.life p).trans hp
    have hstage : t.stage p = s.stage p := congrFun h.stage p
    generalize hx : s.stage p = x at hs
    rw [hx] at hstage
    unfold Family.act at hs
    split at hs
    · -- `fork` begins
      split at hs
      · next k ha =>
        cases hs
        obtain rfl := Kernel.allocproc_none ha
        exact ⟨t, .inl rfl, { h with count := Nat.le_succ_of_le h.count }⟩
      · next np k ha =>
        cases hs
        obtain ⟨hu, rfl⟩ := Kernel.allocproc_some ha
        refine ⟨_, .inr ⟨p, _, rfl, .alloc hlive hstage ?_⟩, h.alloc p np⟩
        rw [h.life, hu]
        rfl
    · -- `copyproc` goes on
      next kstackOk memOk np =>
      have he := hi.makes p np (by rw [hstage]; rfl)
      cases kstackOk with
      | false =>
        cases hs
        exact ⟨_, .inr ⟨p, _, rfl, .giveUp hlive hstage⟩, h.giveUp p np memOk⟩
      | true =>
        cases memOk with
        | false =>
          cases hs
          exact ⟨_, .inr ⟨p, _, rfl, .fail hlive hstage⟩, h.fail p np⟩
        | true =>
          rw [if_neg (by simp), Kernel.copyRest_done] at hs
          cases hs
          have key := h.copy p np he
          rw [Kernel.copyRest_done] at key
          exact ⟨_, .inr ⟨p, _, rfl, .copy hlive hstage⟩, key⟩
    · next np =>
      cases hs
      exact ⟨_, .inr ⟨p, _, rfl, .drop hlive hstage⟩, h.drop p np⟩
    · next c np =>
      have he := hi.makes p np (by rw [hstage]; rfl)
      obtain ⟨k, hk, hs⟩ := bind_eq_ok.mp hs
      cases hs
      refine ⟨_, .inr ⟨p, _, rfl, .fork hlive hstage⟩, ?_⟩
      rw [h.pid_alive hp, h.pid np (by rw [he]; exact Life.noConfusion)]
      exact (h.fork he hk p).record (.forked (t.serial p) (t.serial np))
    · next c =>
      obtain ⟨k, hk, hs⟩ := bind_eq_ok.mp hs
      cases hs
      obtain ⟨hne, hk⟩ := exitFiles_family hk
      refine ⟨_, .inr ⟨p, _, rfl, .exit hlive hstage ?_⟩, h.go _ hk⟩
      rintro rfl
      exact hne h.initproc
    · next c =>
      obtain ⟨k, hk, hs⟩ := bind_eq_ok.mp hs
      cases hs
      refine ⟨_, .inr ⟨p, _, rfl, .exited hlive hstage⟩, ?_⟩
      rw [h.pid_alive hp]
      exact (h.exited hlive hk).record (.exited (t.serial p))
    · cases hs
      exact ⟨_, .inr ⟨p, _, rfl, .wait hlive hstage⟩, h.go _ (.refl _)⟩
    · next c =>
      split at hs
      · next q hq =>
        cases hs
        obtain ⟨hz, hpar⟩ := Kernel.waitScan_found hq
        have hq : t.life q = .zombie := by
          rw [h.life, hz]
          rfl
        refine ⟨_, .inr ⟨p, _, rfl, .waited hlive hstage hq ((h.parent q).trans hpar)⟩, ?_⟩
        rw [h.pid_alive hp, h.pid q (by rw [hq]; exact Life.noConfusion)]
        exact (h.waited p q).record (.waited (t.serial p) (t.serial q))
      · cases hs
        exact ⟨_, .inr ⟨p, _, rfl, .childless hlive hstage⟩, h.go _ (.refl _)⟩
      · obtain ⟨k, hk, hs⟩ := bind_eq_ok.mp hs
        cases hs
        exact ⟨t, .inl rfl, h.same (sleepSet_family hp hk)⟩
    · cases hs

end

end Refines

/-- During start-up: `n` processes were made, none has a parent, and no two have one number. -/
structure Numbered (k : Kernel NPROC NCPU) (n : ℕ) (serial : Fin NPROC → ℕ) : Prop where
  nextpid : k.nextpid = pidOf n
  lt : ∀ p, (k.proc p).state ≠ .unused → serial p < n
  pid : ∀ p, (k.proc p).state ≠ .unused → (k.proc p).pid = pidOf (serial p)
  inj : ∀ p p', (k.proc p).state ≠ .unused → (k.proc p').state ≠ .unused →
    serial p = serial p' → p = p'
  parent : ∀ p, (k.proc p).parent = none
  state : ∀ p, (k.proc p).state = .unused ∨ (k.proc p).state = .runnable

namespace Numbered

variable {n : ℕ} {serial : Fin NPROC → ℕ} {i : Fin NPROC}

theorem pinit (ncpu : ℕ) : Numbered (Kernel.pinit NPROC NCPU ncpu) 0 fun _ => 0 := by
  refine ⟨rfl, ?_, ?_, ?_, fun _ => rfl, fun _ => .inl rfl⟩
  · exact fun p hp => absurd rfl hp
  · exact fun p hp => absurd rfl hp
  · exact fun p _ hp => absurd rfl hp

theorem newProc (h : Numbered k n serial) (hk : k.newProc = .ok (p, k')) :
    Numbered k' (n + 1) (update serial p n) := by
  obtain ⟨hu, rfl⟩ := Kernel.newProc_ok hk
  refine ⟨?_, ?_, ?_, ?_, ?_, ?_⟩
  · show (k.nextpid + 1).bmod (2 ^ 32) = _
    rw [h.nextpid, pidOf_succ]
  · intro q hq
    by_cases hqp : q = p
    · simp [hqp]
    · have := h.lt q (by simpa [hqp] using hq)
      simp only [update_of_ne hqp]
      omega
  · intro q hq
    by_cases hqp : q = p
    · simpa [hqp] using h.nextpid
    · simpa [hqp] using h.pid q (by simpa [hqp] using hq)
  · intro q q' hq hq' he
    simp only [Kernel.setProc_proc, update_apply] at hq hq' he
    have := h.lt
    have := h.inj
    grind
  · intro q
    by_cases hqp : q = p
    · simpa [hqp] using h.parent p
    · simpa [hqp] using h.parent q
  · intro q
    by_cases hqp : q = p
    · simp [hqp]
    · simpa [hqp] using h.state q

theorem same (h : Numbered k n serial) (hk : SameFamily k k')
    (hs : ∀ p, (k'.proc p).state = (k.proc p).state) : Numbered k' n serial := by
  refine ⟨hk.nextpid.trans h.nextpid, ?_, ?_, ?_, fun p => (hk.parent p).trans (h.parent p), ?_⟩
  · exact fun p hp => h.lt p (hs p ▸ hp)
  · exact fun p hp => (hk.pid p).trans (h.pid p (hs p ▸ hp))
  · exact fun p p' hp hp' => h.inj p p' (hs p ▸ hp) (hs p' ▸ hp')
  · exact fun p => by rw [hs p]; exact h.state p

theorem allocIdle {l : List (Fin NCPU)} (h : Numbered k n serial)
    (hi : (k.proc i).state = .runnable) (hk : l.foldlM Kernel.allocIdle k = .ok k') :
    (∃ serial', Numbered k' (n + l.length) serial') ∧ k'.initproc = k.initproc ∧
      (k'.proc i).state = .runnable := by
  induction l generalizing k n serial with
  | nil =>
    cases hk
    exact ⟨⟨serial, h⟩, rfl, hi⟩
  | cons d l ih =>
    rw [List.foldlM_cons] at hk
    obtain ⟨k₁, h₁, h₂⟩ := bind_eq_ok.mp hk
    obtain ⟨⟨p, k₂⟩, hp, h₁⟩ := bind_eq_ok.mp h₁
    cases h₁
    have hn := h.newProc hp
    have hn' : Numbered { k₂ with idleproc := update k₂.idleproc d (some p) } (n + 1) _ :=
      ⟨hn.nextpid, hn.lt, hn.pid, hn.inj, hn.parent, hn.state⟩
    have hkeep : k₂.initproc = k.initproc ∧ (k₂.proc i).state = .runnable := by
      obtain ⟨-, rfl⟩ := Kernel.newProc_ok hp
      by_cases hip : i = p <;> simp [hip, hi]
    obtain ⟨⟨serial', hs⟩, hinit, hrun⟩ := ih hn' hkeep.2 h₂
    refine ⟨⟨serial', ?_⟩, hinit.trans hkeep.1, hrun⟩
    rw [List.length_cons, Nat.add_comm l.length 1, ← Nat.add_assoc]
    exact hs

theorem userinit {ncpu : ℕ} {b : Fin NCPU}
    (hk : (Kernel.pinit NPROC NCPU ncpu).userinit b = .ok k) :
    ∃ serial i, Numbered k (NCPU + 1) serial ∧ k.initproc = some i ∧
      (k.proc i).state = .runnable := by
  obtain ⟨⟨i, k₁⟩, h₁, hk⟩ := bind_eq_ok.mp hk
  obtain ⟨k₂, h₂, hk⟩ := bind_eq_ok.mp hk
  have hn := (Numbered.pinit ncpu).newProc h₁
  have hrun : (k₁.proc i).state = .runnable := by
    obtain ⟨-, rfl⟩ := Kernel.newProc_ok h₁
    simp
  have hst : ∀ p, (k₂.proc p).state = (k₁.proc p).state := by
    obtain ⟨-, rq, rfl⟩ := Kernel.enqueueProc_ok h₂
    intro p
    by_cases hp : p = i <;> simp [hp]
  have hn₂ := hn.same (.enqueueProc h₂) hst
  have hn₃ : Numbered { k₂ with initproc := some i } (0 + 1) _ :=
    ⟨hn₂.nextpid, hn₂.lt, hn₂.pid, hn₂.inj, hn₂.parent, hn₂.state⟩
  obtain ⟨⟨serial, hs⟩, hinit, hrun'⟩ := hn₃.allocIdle ((hst i).trans hrun) hk
  rw [List.length_finRange, Nat.zero_add, Nat.add_comm] at hs
  exact ⟨serial, i, hs, hinit, hrun'⟩

theorem refines_start (h : Numbered k (NCPU + 1) serial) (hi : k.initproc = some i)
    (hrun : (k.proc i).state = .runnable) :
    ∃ t, Tree.Inv t ∧ Tree.Kept t ∧ Refines (Family.start k) t := by
  have hlife : ∀ p, (k.proc p).state.life = .unused ∨ (k.proc p).state.life = .alive := by
    intro p
    rcases h.state p with hs | hs <;> simp [hs, ProcState.life]
  have hused : ∀ p, (k.proc p).state.life ≠ .unused → (k.proc p).state ≠ .unused := by
    intro p hp hs
    rw [hs] at hp
    exact hp rfl
  have halive : (k.proc i).state.life = .alive := by
    rw [hrun]
    rfl
  refine ⟨⟨fun p => (k.proc p).state.life, serial, fun _ => none, NCPU + 1, i, fun _ => .user, []⟩,
    ⟨?_, ?_, ?_, ⟨halive, ?_⟩, ?_, ?_, ?_, ?_, ?_, ?_, ?_, ?_, ?_, trivial⟩, ⟨?_, ?_⟩, ?_⟩
  · exact fun p hp => h.lt p (hused p hp)
  · exact fun p p' hp hp' => h.inj p p' (hused p hp) (hused p' hp')
  · simp
  · simp
  · simp
  · simp [Stage.makes]
  · simp [Stage.makes]
  · simp
  · simp
  · simp
  · intro p hp
    have := (hlife p).resolve_left hp
    simp [this]
  · simp
  · simp
  · simp
  · simp
  · exact ⟨fun _ => rfl, fun p => (h.parent p).symm, fun p hp => h.pid p (hused p hp),
      h.nextpid, hi, rfl, rfl, Nat.le_refl _⟩

end Numbered

/-- The store `np->parent = 0` of a `fork` that has failed comes when the slot is in use again. -/
def Family.LateStore (s : Family NPROC NCPU) (a : Option (Fin NPROC × FamilyAct NCPU)) : Prop :=
  ∃ p b np, a = some (p, b) ∧ s.stage p = .failing np ∧ (s.kernel.proc np).state ≠ .unused

theorem ProcState.life_unused {x : ProcState} : x.life = .unused ↔ x = .unused := by
  cases x <;> simp [ProcState.life]

section Reachable

variable {ncpu : ℕ} {b : Fin NCPU} {k₀ : Kernel NPROC NCPU}
  (h₀ : (Kernel.pinit NPROC NCPU ncpu).userinit b = .ok k₀)

include h₀

/-- Every state that can be reached stands for an abstract table in which all is accounted for. -/
theorem exists_refines (hr : Reach FamilyStep (Family.start k₀) s) :
    ∃ t, Tree.Inv t ∧ Refines s t := by
  obtain ⟨serial, i, hn, hi, hrun⟩ := Numbered.userinit h₀
  obtain ⟨t, hinv, -, href⟩ := hn.refines_start hi hrun
  refine hr.invariant (P := fun s => ∃ t, Tree.Inv t ∧ Refines s t) ⟨t, hinv, href⟩ ?_
  rintro s a s' ⟨t, hinv, href⟩ hs
  obtain ⟨t', ht', href'⟩ := href.step hinv hs
  refine ⟨t', ?_, href'⟩
  rcases ht' with rfl | ⟨p, b, -, hp⟩
  · exact hinv
  · exact hinv.step hp

theorem exists_kept
    (hr : Reach (fun s a s' => FamilyStep s a s' ∧ ¬s.LateStore a) (Family.start k₀) s) :
    ∃ t, Tree.Inv t ∧ Tree.Kept t ∧ Refines s t := by
  obtain ⟨serial, i, hn, hi, hrun⟩ := Numbered.userinit h₀
  refine hr.invariant (P := fun s => ∃ t, Tree.Inv t ∧ Tree.Kept t ∧ Refines s t)
    (hn.refines_start hi hrun) ?_
  rintro s a s' ⟨t, hinv, hkept, href⟩ ⟨hs, hlate⟩
  obtain ⟨t', ht', href'⟩ := href.step hinv hs
  rcases ht' with rfl | ⟨p, b, ha, hp⟩
  · exact ⟨_, hinv, hkept, href'⟩
  · refine ⟨t', hinv.step hp, hkept.step hinv hp fun np hst => ?_, href'⟩
    rw [href.life, ProcState.life_unused]
    by_contra hused
    exact hlate ⟨p, b, np, ha, by rw [← href.stage]; exact hst, hused⟩

end Reachable

theorem Refines.used {t : Tree (Fin NPROC)} (h : Refines s t)
    (hp : (s.kernel.proc p).state ≠ .unused) : t.life p ≠ .unused := by
  rw [h.life]
  exact fun hl => hp (ProcState.life_unused.mp hl)

theorem Refines.parent_alive {t : Tree (Fin NPROC)} (h : Refines s t) (hi : t.Inv)
    (hp : (s.kernel.proc p).state ≠ .unused) (hq : (s.kernel.proc p).parent = some q) :
    (s.kernel.proc q).state.life = .alive ∧ (s.stage q = .copied p ∨ s.stage q = .failing p ∨
      .forked (s.kernel.proc q).pid (s.kernel.proc p).pid ∈ s.history ∨
      s.kernel.initproc = some q ∧
        ∃ n, .forked n (s.kernel.proc p).pid ∈ s.history ∧ .exited n ∈ s.history) := by
  have hpar : t.parent p = some q := (h.parent p).trans hq
  have hused := h.used hp
  rw [← h.life, ← h.stage]
  by_cases he : t.life p = .embryo
  · -- a process in the making: its creator is in `fork`
    have hst := hi.early p q (.inr he) hpar
    refine ⟨hi.busy q ?_, ?_⟩
    · rcases hst with hst | hst <;> simp [hst]
    · rcases hst with hst | hst
      · exact .inr (.inl hst)
      · exact .inl hst
  · have hold : t.life p = .alive ∨ t.life p = .zombie := by
      cases hl : t.life p <;> simp_all
    obtain ⟨hlive, hf⟩ := hi.family p q hold hpar
    refine ⟨hlive, .inr (.inr ?_)⟩
    rw [h.history, h.pid p hused, h.pid q (by rw [hlive]; exact Life.noConfusion)]
    rcases hf with hf | ⟨rfl, n, hf, hx⟩
    · exact .inl (List.mem_map_of_mem hf)
    · exact .inr ⟨h.initproc, pidOf n, List.mem_map_of_mem hf, List.mem_map_of_mem hx⟩

theorem Refines.parent_kept {t : Tree (Fin NPROC)} {n : ℤ} (h : Refines s t) (hi : t.Inv)
    (hkept : t.Kept) (hbound : ∀ n, n < t.count → n < 2 ^ 32)
    (hp : (s.kernel.proc p).state ≠ .unused) (hf : .forked n (s.kernel.proc p).pid ∈ s.history) :
    ∃ q, (s.kernel.proc p).parent = some q ∧
      ((s.kernel.proc q).pid = n ∨ s.kernel.initproc = some q) := by
  have hused := h.used hp
  rw [h.pid p hused, h.history] at hf
  obtain ⟨n, m, hmade, rfl, hm⟩ := exists_of_forked_mem_map hf
  obtain rfl := pidOf_inj (hbound m (hi.past _ hmade).2) (hbound _ (hi.count p hused)) hm
  obtain ⟨q, hq⟩ := Option.ne_none_iff_exists'.mp (hkept.forked p n hmade hused)
  have hold : t.life p = .alive ∨ t.life p = .zombie := by
    cases hl : t.life p with
    | unused => exact absurd hl hused
    | embryo => exact absurd rfl (hi.new p hl _ hmade)
    | alive => exact .inl rfl
    | zombie => exact .inr rfl
  refine ⟨q, by rw [← h.parent]; exact hq, ?_⟩
  obtain ⟨hlive, hf' | ⟨rfl, -⟩⟩ := hi.family p q hold hq
  · left
    rw [h.pid q (by rw [hlive]; exact Life.noConfusion), hi.accounted.creator_eq hmade hf']
  · exact .inr h.initproc

/-- Child accounting, in every state that fewer than `2 ^ 31` calls of `fork` lead to. No number
is returned twice by `fork` or by `wait`; `wait` returns only a child that is a zombie, to its
creator or, once that has exited, to init. The parent field of a slot in use is null or leads
to a process that is alive: the creator, which is still in `fork` or has been told the number, or
init, if the creator has exited. It is not null in a process that `fork` has returned, if no `fork`
that failed has cleared it late. And `wait` returns -1 only to a process without children or with
`killed` set. -/
theorem child_accounting {ncpu : ℕ} {b : Fin NCPU} {k₀ : Kernel NPROC NCPU}
    {s : Family NPROC NCPU} (hN : NCPU < 2 ^ 31)
    (h₀ : (Kernel.pinit NPROC NCPU ncpu).userinit b = .ok k₀)
    (hr : Reach FamilyStep (Family.start k₀) s) (hf : s.forks < 2 ^ 31) :
    (∃ i, s.kernel.initproc = some i ∧ Accounted (s.kernel.proc i).pid s.history) ∧
    (∀ p q, s.kernel.waitScan p (List.finRange NPROC) false = .found q →
      (s.kernel.proc q).state = .zombie ∧ (s.kernel.proc q).parent = some p) ∧
    (∀ p q, (s.kernel.proc p).state ≠ .unused → (s.kernel.proc p).parent = some q →
      (s.kernel.proc q).state.life = .alive ∧
      (s.stage q = .copied p ∨ s.stage q = .failing p ∨
        .forked (s.kernel.proc q).pid (s.kernel.proc p).pid ∈ s.history ∨
        s.kernel.initproc = some q ∧
          ∃ n, .forked n (s.kernel.proc p).pid ∈ s.history ∧ .exited n ∈ s.history)) ∧
    (Reach (fun s a s' => FamilyStep s a s' ∧ ¬s.LateStore a) (Family.start k₀) s →
      ∀ p n, (s.kernel.proc p).state ≠ .unused → .forked n (s.kernel.proc p).pid ∈ s.history →
        ∃ q, (s.kernel.proc p).parent = some q ∧
          ((s.kernel.proc q).pid = n ∨ s.kernel.initproc = some q)) ∧
    ∀ p, s.kernel.waitScan p (List.finRange NPROC) false = .none →
      (∀ q, (s.kernel.proc q).state ≠ .unused → (s.kernel.proc q).parent ≠ some p) ∨
        (s.kernel.proc p).killed = true := by
  obtain ⟨t, hinv, href⟩ := exists_refines h₀ hr
  have hcount := href.count
  have hbound : ∀ n, n < t.count → n < 2 ^ 32 := by
    intro n hn
    omega
  refine ⟨⟨t.init, href.initproc, ?_⟩, fun p q => Kernel.waitScan_found, ?_, fun hclean => ?_, ?_⟩
  · have hpid := href.pid t.init (by rw [hinv.init.1]; exact Life.noConfusion)
    rw [hpid, href.history]
    exact Accounted.map (fun n m hn hm => pidOf_inj (hbound n hn) (hbound m hm)) hinv.past
      hinv.accounted
  · exact fun p q hp hq => href.parent_alive hinv hp hq
  · intro p n hp hn
    obtain ⟨t', hinv', hkept, href'⟩ := exists_kept h₀ hclean
    have hcount' := href'.count
    exact href'.parent_kept hinv' hkept (fun n hn => by omega) hp hn
  · intro p hp
    refine (waitScan_none hp).imp_left ?_
    rintro ⟨-, hno⟩ q
    exact hno q (List.mem_finRange q)

/-- The state after a section of a process, if it is possible. -/
def Family.next? (s : Family NPROC NCPU) (a : Fin NPROC × FamilyAct NCPU) :
    Option (Family NPROC NCPU) :=
  if (s.kernel.proc a.1).state.life = .alive then (s.act a.1 a.2 (s.stage a.1)).toOption.join
  else none

theorem Family.reach_of_next? {s' : Family NPROC NCPU} {a : Fin NPROC × FamilyAct NCPU}
    (h : s.next? a = some s') : Reach FamilyStep s s' := by
  unfold next? at h
  split_ifs at h with hp
  refine .next .start (.act (a := a.2) hp ?_)
  cases hx : s.act a.1 a.2 (s.stage a.1) with
  | error e =>
    rw [hx] at h
    cases h
  | ok o =>
    rw [hx] at h
    exact congrArg Except.ok h

/-- The sections of a `fork` that succeeds, and of an `exit`, on CPU `c`. -/
def forkActs (c : Fin NCPU) : List (FamilyAct NCPU) := [.fork, .copy true true, .enqueue c]

def exitActs (c : Fin NCPU) : List (FamilyAct NCPU) := [.exit c, .exitTable c]

def waitActs (c : Fin NCPU) : List (FamilyAct NCPU) := [.wait, .scan c]

/-- Init forks, its child forks and exits, the grandchild exits: init collects both. -/
theorem child_accounting_orphan : ∃ (k₀ : Kernel 64 8) (s : Family 64 8),
    (Kernel.pinit 64 8 2).userinit 0 = .ok k₀ ∧ Reach FamilyStep (Family.start k₀) s ∧
    s.forks = 2 ∧ s.kernel.initproc = some 0 ∧
    s.history = [.waited 1 11, .waited 1 10, .exited 11, .exited 10, .forked 10 11,
      .forked 1 10] ∧ ∃ i, s.kernel.initproc = some i ∧
      Accounted (s.kernel.proc i).pid s.history := by
  obtain ⟨k₀, h₀, hk⟩ := exists_ok_of_any (x := (Kernel.pinit 64 8 2).userinit 0)
    (P := fun k₀ => (List.foldlM Family.next? (Family.start k₀)
      ((forkActs 0).map (Prod.mk 0) ++ (forkActs 1).map (Prod.mk 9) ++
        (exitActs 1).map (Prod.mk 9) ++ (exitActs 1).map (Prod.mk 10) ++
        (waitActs 0).map (Prod.mk 0) ++ (waitActs 0).map (Prod.mk 0))).any
      fun (s : Family 64 8) => decide (s.forks = 2 ∧ s.kernel.initproc = some 0 ∧
        s.history = [.waited 1 11, .waited 1 10, .exited 11, .exited 10, .forked 10 11,
          .forked 1 10])) (by decide +kernel)
  obtain ⟨s, hr, hs⟩ := exists_reach_of_any (fun _ _ _ => Family.reach_of_next?) hk
  obtain ⟨hf, hi, hh⟩ := of_decide_eq_true hs
  exact ⟨k₀, s, h₀, hr, hf, hi, hh,
    (child_accounting (by decide) h₀ hr (by rw [hf]; decide)).1⟩

end Xv6Shed
