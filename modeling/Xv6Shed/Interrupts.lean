import Xv6Shed.LockSafety

/-!
# The interrupt flag across context switches

`pushcli` and `popcli` keep the nesting and the saved flag in the CPU (`ncli`, `intena`),
and `schedule` leaves both in place, so a process that is resumed finds what the process
switched out before it has left there. `Flags` records beside the machine what the flag of
every process was before its own outermost `pushcli`.
-/

namespace Xv6Shed
open Function Threads Transition

namespace Threads
variable {C P L A σ ε : Type} [DecidableEq C] [DecidableEq P] [DecidableEq L]

/-- The interrupt flag before the outermost `pushcli`, of the thread on a CPU and of the
threads switched out. A thread that has not run has none. -/
structure Flags (C P : Type) where
  cpu : C → Option Bool
  ctx : P → Option Bool

namespace Flags

/-- The flags go with the threads when CPU `c` leaves `prev` for `next`. -/
def swtch (c : C) (prev next : Option P) (g : Flags C P) : Flags C P :=
  if next = prev then g
  else
    let ctx := prev.elim g.ctx fun p => update g.ctx p (g.cpu c)
    ⟨update g.cpu c (next.bind ctx), ctx⟩

/-- The flags after an instruction of CPU `c` has led from `m` to `m'`. -/
def exec (G : Program C P L A σ ε) (c : C) (m m' : Machine C P L A σ) (g : Flags C P) :
    Flags C P :=
  match m.code c with
  | .acquire _ :: _ =>
    if m.ncli c = 0 then { g with cpu := update g.cpu c (some (m.intr c)) } else g
  | .act a :: _ =>
    match G.run a c (m.holder (G.own c) = some c) m.mem with
    | .ok o => { g with ctx := o.spawn.elim g.ctx fun np => update g.ctx np none }
    | .error _ => g
  | .switch _ :: _ => g.swtch c (G.cur m.mem c) (G.cur m'.mem c)
  | _ => g

/-- A CPU that holds a lock has saved the flag of the thread on it. -/
def Saved (m : Machine C P L A σ) (g : Flags C P) : Prop :=
  ∀ c b, 0 < m.ncli c → g.cpu c = some b → m.intena c = b

/-- The thread CPU `c` turns to was switched out with the flag that the thread it leaves had. -/
def Paired (G : Program C P L A σ ε) (c : C) (m m' : Machine C P L A σ) (g : Flags C P) : Prop :=
  ∀ p b, G.cur m'.mem c = some p → G.cur m.mem c ≠ some p → g.ctx p = some b → g.cpu c = some b

variable {G : Program C P L A σ ε} {m m' : Machine C P L A σ} {g : Flags C P} {c : C}

omit [DecidableEq P] in
theorem Saved.lock (h : Saved m g) (l : L) (is : List (Instr L A)) :
    Saved ((m.lock c l).jump c is)
      (if m.ncli c = 0 then { g with cpu := update g.cpu c (some (m.intr c)) } else g) := by
  intro d b hn hb
  by_cases hdc : d = c
  · cases hdc
    by_cases h0 : m.ncli c = 0
    · simp [h0] at hb ⊢
      exact hb
    · rw [if_neg h0] at hb
      simpa [h0] using h c b (Nat.pos_of_ne_zero h0) hb
  · have hn : 0 < m.ncli d := by simpa [hdc] using hn
    have hb : g.cpu d = some b := by
      split_ifs at hb
      · simpa [hdc] using hb
      · exact hb
    have := h d b hn hb
    by_cases h0 : m.ncli c = 0
    · simpa [h0, hdc] using this
    · simpa [h0] using this

omit [DecidableEq L] in
theorem Saved.swtch {prev next : Option P} (h : Saved m g) (hn : 0 < m.ncli c)
    (hp : ∀ p b, next = some p → prev ≠ some p → g.ctx p = some b → g.cpu c = some b)
    (is : List (Instr L A)) : Saved (m.swtch c prev next is) (g.swtch c prev next) := by
  unfold Flags.swtch Machine.swtch
  by_cases he : next = prev
  · rw [if_pos he, if_pos he]
    exact h
  rw [if_neg he, if_neg he]
  intro d b hd hb
  dsimp only at hd hb
  by_cases hdc : d = c
  · cases hdc
    apply h c b hn
    rw [update_self, Option.bind_eq_some_iff] at hb
    obtain ⟨p, rfl, hb⟩ := hb
    cases prev with
    | none => exact hp p b rfl nofun hb
    | some q =>
      have hqp : p ≠ q := fun hqp => he (congrArg some hqp)
      apply hp p b rfl fun h => hqp (Option.some.inj h).symm
      simpa [hqp] using hb
  · apply h d b hd
    simpa [hdc] using hb

theorem Saved.exec (h : Saved m g) (hs : ∀ a is, m.code c = .switch a :: is → 0 < m.ncli c)
    (he : m.exec G c = .ok (some m')) (hp : Paired G c m m' g) :
    Saved m' (g.exec G c m m') := by
  unfold Flags.exec
  cases hcode : m.code c with
  | nil => simp [Machine.exec, hcode] at he
  | cons i is =>
    simp only [Machine.exec, hcode] at he
    cases i with
    | acquire l =>
      dsimp only at he ⊢
      split_ifs at he
      · cases he
        exact h.lock _ is
      · cases he
    | release l =>
      dsimp only at he
      split_ifs at he
      cases he
      intro d b hd hb
      apply h d b _ hb
      by_cases hdc : d = c
      · cases hdc
        simp at hd
        omega
      · simpa [hdc] using hd
    | sti =>
      cases he
      exact h
    | act a =>
      dsimp only at he ⊢
      split at he
      · cases he
      · rename_i o ho
        cases he
        rw [ho]
        exact h
    | switch a =>
      dsimp only at he
      split at he
      · cases he
      · rename_i o ho
        cases he
        simp only [Machine.swtch_mem]
        apply Saved.swtch (m := { m with mem := o.mem }) h (hs a is hcode)
        intro p b hn hpr
        apply hp p b _ hpr
        rw [Machine.swtch_mem]
        exact hn

theorem Saved.release (h : Saved m g) {l : LockRef L} {is : List (Instr L A)} {b : Bool}
    (hcode : m.code c = .release l :: is) (hn : m.ncli c = 1) (hi : m.intr c = false)
    (he : m.exec G c = .ok (some m')) (hb : g.cpu c = some b) : m'.intr c = b := by
  have hena := h c b (by omega) hb
  simp only [Machine.exec, hcode] at he
  split_ifs at he
  cases he
  cases b with
  | false => simp [hena, hi]
  | true => simp [hn, hena]

end Flags

end Threads

variable {NPROC NCPU : ℕ} {cfg : Config NCPU} {k : Kernel NPROC NCPU} {cond : ℕ → Bool}

namespace Smp

/-- The machine, with the flags of its processes. -/
abbrev Flagged (NPROC NCPU : ℕ) := Smp NPROC NCPU × Flags (Fin NCPU) (Fin NPROC)

/-- One step: CPU `a.1` does `a.2`. -/
structure FlagStep (cfg : Config NCPU) (x : Flagged NPROC NCPU) (a : Fin NCPU × Event)
    (y : Flagged NPROC NCPU) : Prop where
  step : SmpStep cfg x.1 a y.1
  flags : y.2 = if a.2 = .exec then x.2.exec (smp cfg) a.1 x.1 y.1 else x.2

/-- CPU `c` turns to a process that was switched out with the flag the process it leaves had:
both came from a system call, or both from an interrupt handler. -/
def FlagPaired (cfg : Config NCPU) (c : Fin NCPU) (x y : Flagged NPROC NCPU) : Prop :=
  Flags.Paired (smp cfg) c x.1 y.1 x.2

/-- No process has run yet. -/
def unflagged (k : Kernel NPROC NCPU) (cond : ℕ → Bool) : Flagged NPROC NCPU :=
  (start k cond, ⟨fun _ => none, fun _ => none⟩)

/-- The release that brings `ncli` of CPU `c` back to 0 leaves the interrupt flag as it was
before the outermost `pushcli` of the process on it. -/
def Restores (cfg : Config NCPU) (x : Flagged NPROC NCPU) (c : Fin NCPU) : Prop :=
  ∀ l is m' b, x.1.code c = .release l :: is → x.1.ncli c = 1 →
    x.1.exec (smp cfg) c = .ok (some m') → x.2.cpu c = some b → m'.intr c = b

theorem saved_of_entry {m m' : Smp NPROC NCPU} {g : Flags (Fin NCPU) (Fin NPROC)} {c : Fin NCPU}
    {e : Event} (h : Flags.Saved m g) (he : e ≠ .exec) (hs : m.step cfg c e = .ok (some m')) :
    Flags.Saved m' g := by
  cases e with
  | exec => exact absurd rfl he
  | boot | call _ | timer | device _ =>
    simp only [step, Except.ok.injEq, Option.ite_none_right_eq_some, Option.some.injEq] at hs
    obtain ⟨-, rfl⟩ := hs
    exact h

theorem saved_of_reach {x : Flagged NPROC NCPU}
    (hr : Reach (fun x a y => FlagStep cfg x a y ∧ FlagPaired cfg a.1 x y) (unflagged k cond) x) :
    (∃ H φ, Typed cfg k.idleproc ∅ True x.1 H φ) ∧ Flags.Saved x.1 x.2 := by
  refine hr.invariant
    (P := fun x => (∃ H φ, Typed cfg k.idleproc ∅ True x.1 H φ) ∧ Flags.Saved x.1 x.2) ?_ ?_
  · exact ⟨⟨_, _, typed_start nofun⟩, fun _ _ h => absurd h (Nat.lt_irrefl 0)⟩
  · rintro ⟨m, g⟩ ⟨c, e⟩ ⟨m', g'⟩ ⟨⟨H, φ, ht⟩, hsaved⟩ ⟨⟨hs, hg⟩, hp⟩
    obtain ⟨H', φ', ht', -⟩ := ht.step hs (.inl trivial) fun _ _ => ⟨nofun, fun _ _ => rfl⟩
    refine ⟨⟨H', φ', ht'⟩, ?_⟩
    dsimp only at hg ⊢
    rw [hg]
    by_cases he : e = .exec
    · rw [if_pos he]
      cases he
      refine hsaved.exec ?_ hs.step hp
      intro a is hcode
      rw [ht.ncli, (ht.at_switch hcode).2.1]
      exact Nat.one_pos
    · rw [if_neg he]
      exact saved_of_entry hsaved he hs.step

/-- Where processes only take turns with processes that have the same flag, each finds its
own flag again. -/
theorem flag_restored_of_paired {x : Flagged NPROC NCPU} {c : Fin NCPU}
    (hr : Reach (fun x a y => FlagStep cfg x a y ∧ FlagPaired cfg a.1 x y) (unflagged k cond) x) :
    Restores cfg x c := by
  obtain ⟨⟨H, φ, ht⟩, hsaved⟩ := saved_of_reach hr
  intro l is m' b hcode hn he hb
  apply hsaved.release hcode hn _ he hb
  apply ht.intr
  intro hH
  have := ht.ncli c
  rw [hn, hH] at this
  cases this

section runs

variable {x y : Flagged NPROC NCPU} {a : Fin NCPU × Event}

instance {c : Fin NCPU} {x y : Flagged NPROC NCPU} : Decidable (FlagPaired cfg c x y) := by
  unfold FlagPaired Flags.Paired
  infer_instance

/-- The state after a step, if it is possible. -/
def flagPerform (cfg : Config NCPU) (x : Flagged NPROC NCPU) (a : Fin NCPU × Event) :
    Option (Flagged NPROC NCPU) :=
  (x.1.perform cfg a).map fun m =>
    (m, if a.2 = .exec then x.2.exec (smp cfg) a.1 x.1 m else x.2)

theorem flagStep_of_perform (h : flagPerform cfg x a = some y) : FlagStep cfg x a y := by
  obtain ⟨m, hm, rfl⟩ := Option.map_eq_some_iff.mp h
  exact ⟨step_of_perform hm, rfl⟩

/-- The state after a step that meets the condition. -/
def pairedPerform (cfg : Config NCPU) (x : Flagged NPROC NCPU) (a : Fin NCPU × Event) :
    Option (Flagged NPROC NCPU) :=
  (flagPerform cfg x a).filter fun y => FlagPaired cfg a.1 x y

theorem reach_of_pairedPerform (h : pairedPerform cfg x a = some y) :
    Reach (fun x a y => FlagStep cfg x a y ∧ FlagPaired cfg a.1 x y) x y := by
  obtain ⟨h, hp⟩ := Option.filter_eq_some_iff.mp h
  exact .next .start ⟨flagStep_of_perform h, of_decide_eq_true hp⟩

/-- Whether the code drops a lock next. -/
def Code.releases : Code NPROC NCPU → Bool
  | .release _ :: _ => true
  | _ => false

theorem Code.exists_of_releases {is : Code NPROC NCPU} (h : releases is = true) :
    ∃ l is', is = .release l :: is' := by
  unfold releases at h
  split at h
  · exact ⟨_, _, rfl⟩
  · cases h

/-- Init starts in place of the idle process, forks and goes to sleep. Its child wakes it up
and goes to sleep itself, and init is about to drop the lock of the run queue. -/
def pairedRun (c : Fin 8) : List (Fin 8 × Event) :=
  bootUp c ++ enter c .timer 13 ++ enter c (.call (.fork true true)) 10 ++
    enter c (.call (.sleep 3)) 12 ++ enter c (.call (.wake 3)) 11 ++ enter c (.call (.sleep 4)) 14

theorem flag_restored_of_paired_sleep : ∃ k₀ x,
    (Kernel.pinit 64 8 2).userinit 0 = .ok k₀ ∧
    Reach (fun x a y => FlagStep (ownGuards false) x a y ∧ FlagPaired (ownGuards false) a.1 x y)
      (unflagged k₀ fun _ => false) x ∧
    x.1.mem.kernel.curproc 0 = some 0 ∧ Code.releases (x.1.code 0) = true ∧ x.1.ncli 0 = 1 ∧
    x.2.cpu 0 = some true ∧ Restores (ownGuards false) x 0 := by
  obtain ⟨k₀, h₀, h⟩ := exists_ok_of_any (x := (Kernel.pinit 64 8 2).userinit 0)
    (P := fun k₀ => ((pairedRun 0).foldlM (pairedPerform (ownGuards false))
      (unflagged k₀ fun _ => false)).any fun x =>
        x.1.mem.kernel.curproc 0 = some 0 ∧ Code.releases (x.1.code 0) = true ∧ x.1.ncli 0 = 1 ∧
          x.2.cpu 0 = some true)
    (by decide +kernel)
  obtain ⟨x, hr, hx⟩ := exists_reach_of_any (fun _ _ _ => reach_of_pairedPerform) h
  rw [decide_eq_true_eq] at hx
  obtain ⟨h₁, h₂, h₃, h₄⟩ := hx
  exact ⟨k₀, x, h₀, hr, h₁, h₂, h₃, h₄, flag_restored_of_paired hr⟩

/-- A timer interrupt switches the idle process out for init, which goes to sleep: the idle
process is resumed in the interrupt handler and drops the lock of the run queue. -/
def unpairedRun (c : Fin 8) : List (Fin 8 × Event) :=
  bootUp c ++ enter c .timer 13 ++ enter c (.call (.sleep 3)) 10

/-- The flag of CPU `c` after its next instruction. -/
def nextFlag (cfg : Config 8) (c : Fin 8) (m : Smp NPROC 8) : Option Bool :=
  (m.exec (smp cfg) c).toOption.join.map fun m => m.intr c

theorem exists_of_nextFlag {cfg : Config 8} {c : Fin 8} {m : Smp NPROC 8} {b : Bool}
    (h : nextFlag cfg c m = some b) :
    ∃ m', m.exec (smp cfg) c = .ok (some m') ∧ m'.intr c = b := by
  obtain ⟨m', hm, hb⟩ := Option.map_eq_some_iff.mp h
  refine ⟨m', ?_, hb⟩
  cases he : m.exec (smp cfg) c with
  | error e =>
    rw [he] at hm
    cases hm
  | ok o =>
    rw [he] at hm
    exact congrArg Except.ok hm

/-- An interrupt handler is left with interrupts on. -/
theorem handler_resumed_with_interrupts : ∃ k₀ x m',
    (Kernel.pinit 64 8 2).userinit 0 = .ok k₀ ∧
    Reach (FlagStep (ownGuards false)) (unflagged k₀ fun _ => false) x ∧
    x.1.exec (smp (ownGuards false)) 0 = .ok (some m') ∧ x.1.ncli 0 = 1 ∧ m'.ncli 0 = 0 ∧
    x.2.cpu 0 = some false ∧ m'.intr 0 = true ∧ ¬ Restores (ownGuards false) x 0 := by
  obtain ⟨k₀, h₀, h⟩ := exists_ok_of_any (x := (Kernel.pinit 64 8 2).userinit 0)
    (P := fun k₀ => ((unpairedRun 0).foldlM (flagPerform (ownGuards false))
      (unflagged k₀ fun _ => false)).any fun x =>
        Code.releases (x.1.code 0) = true ∧ x.1.ncli 0 = 1 ∧ x.2.cpu 0 = some false ∧
          nextFlag (ownGuards false) 0 x.1 = some true)
    (by decide +kernel)
  obtain ⟨x, hr, hx⟩ := exists_reach_of_any (fun _ _ _ h => .next .start (flagStep_of_perform h)) h
  rw [decide_eq_true_eq] at hx
  obtain ⟨h₁, h₂, h₃, h₄⟩ := hx
  obtain ⟨l, is, hcode⟩ := Code.exists_of_releases h₁
  obtain ⟨m', he, hi⟩ := exists_of_nextFlag h₄
  have hn : m'.ncli 0 = 0 := by
    have he' := he
    simp only [Machine.exec, hcode] at he'
    split_ifs at he'
    cases he'
    simp [h₂]
  refine ⟨k₀, x, m', h₀, hr, he, h₂, hn, h₃, hi, ?_⟩
  intro hres
  have := hres l _ m' false hcode h₂ he h₃
  rw [hi] at this
  cases this

end runs

end Smp

end Xv6Shed
