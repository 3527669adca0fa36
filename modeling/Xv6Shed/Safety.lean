import Xv6Shed.AtomicSteps
import Xv6Shed.Boot

/-!
# Runs of the atomic system

With one CPU the process table and the run queues agree in every state a run reaches. With
several CPUs an idle CPU may rotate a level-3 queue, which leaves the last node's `next`
link pointing at the first; removing the only process of such a queue later makes the
freed node the head again. In runs that avoid this, nothing is dispatched that should not
be.
-/

namespace Xv6Shed
open Function Transition

variable {NPROC NCPU : ℕ} {k k' k₀ : Kernel NPROC NCPU} {c b : Fin NCPU} {p : Fin NPROC}

/-- The step does not remove the only process of a level-3 queue that is not
null-terminated. -/
def Clean (k : Kernel NPROC NCPU) (a : Fin NCPU × Op NPROC) : Prop :=
  ¬ (a.2.Leaves a.1 k ∧ k.Dangling a.1)

instance (c : Fin NCPU) (k : Kernel NPROC NCPU) : DecidablePred (Op.Leaves c k)
  | .sleep _ | .exit => isTrue trivial
  | .wait => inferInstanceAs (Decidable (∃ _, _ ∧ _))
  | .tick _ => inferInstanceAs (Decidable (_ ∧ ∃ _, _ ∧ _))
  | .runIdle | .fork _ _ | .copyproc _ _ | .forkEnqueue _ | .sleepClear | .wakeup _ =>
    isFalse nofun

instance (c : Fin NCPU) (k : Kernel NPROC NCPU) : Decidable (k.Dangling c) :=
  inferInstanceAs (Decidable (∃ _, _ ∧ _ ∧ _ ∧ ¬ ∀ _, _))

instance (k : Kernel NPROC NCPU) : DecidablePred (Clean k) := fun _ =>
  inferInstanceAs (Decidable (¬ (_ ∧ _)))

theorem inv_of_reach {ncpu : ℕ} {step : Kernel NPROC NCPU → Fin NCPU × Op NPROC →
      Kernel NPROC NCPU → Prop}
    (hstep : ∀ k a k', step k a k' → Step k a k' ∧ (ncpu = 1 ∨ Clean k a))
    (h₀ : (Kernel.pinit NPROC NCPU ncpu).userinit b = .ok k₀) (hr : Reach step k₀ k) :
    ∃ Q, Inv (fun _ => ncpu = 1) k Q none := by
  refine hr.invariant (P := fun k => ∃ Q, Inv (fun _ => ncpu = 1) k Q none) (Inv.userinit h₀) ?_
  rintro k a k' ⟨Q, hI⟩ hs
  obtain ⟨hs, hd⟩ := hstep k a k' hs
  exact hI.step hs fun hl => hd.imp_right fun hc hd => hc ⟨hl, hd⟩

theorem dispatch_safe_of_clean {ncpu : ℕ}
    (h₀ : (Kernel.pinit NPROC NCPU ncpu).userinit b = .ok k₀)
    (hr : Reach (fun k a k' => Step k a k' ∧ Clean k a) k₀ k) :
    ∀ e ∈ k.switches, e.Safe k.idleproc := by
  obtain ⟨Q, hI⟩ := inv_of_reach (fun k a k' h => ⟨h.1, .inr h.2⟩) h₀ hr
  exact hI.switches

/-- Init forks and sleeps, and its child is dispatched. -/
theorem dispatch_safe_of_clean_sleep : ∃ k₀ k : Kernel 64 8,
    (Kernel.pinit 64 8 2).userinit 0 = .ok k₀ ∧
    Reach (fun k a k' => Step k a k' ∧ Clean k a) k₀ k ∧ k.switches.length = 2 ∧
    ∀ e ∈ k.switches, e.Safe k.idleproc := by
  have hf : ∀ (k : Kernel 64 8) a k', (if Clean k a then perform k a else none) = some k' →
      Reach (fun k a k' => Step k a k' ∧ Clean k a) k k' := by
    intro k a k' h
    split_ifs at h with hc
    exact .next .start ⟨step_of_perform h, hc⟩
  obtain ⟨k₀, h₀, h⟩ := exists_ok_of_any (x := (Kernel.pinit 64 8 2).userinit 0)
    (P := fun k₀ => (List.foldlM (fun k a => if Clean k a then perform k a else none) k₀
      [(0, .runIdle), (0, .tick true), (0, .fork true true), (0, .sleep (.addr 7))]).any
        fun k => k.switches.length = 2) (by decide +kernel)
  obtain ⟨k, hr, hk⟩ := exists_reach_of_any hf h
  exact ⟨k₀, k, h₀, hr, by simpa using hk, dispatch_safe_of_clean h₀ hr⟩

/-- One operation, or a number of ticks that only count a time slice down. -/
inductive Stretch (NPROC NCPU : ℕ) where
  | op (c : Fin NCPU) (o : Op NPROC)
  | ticks (c : Fin NCPU) (n : ℕ)

/-- The current process `p` of CPU `c` has more than `n` ticks of its slice left, and no tick
wakes anybody. -/
def Kernel.InSlice (c : Fin NCPU) (p : Fin NPROC) (n : ℕ) (k : Kernel NPROC NCPU) : Prop :=
  c.val < k.ncpu ∧ k.curproc c = some p ∧ k.idleproc c ≠ some p ∧
  (k.proc p).state = .running ∧ (k.proc p).killed = false ∧
  ((k.proc p).rq = some (c, .one) ∨ (k.proc p).rq = some (c, .two)) ∧
  n < (k.proc p).timeslice ∧
  ∀ q, ¬ ((k.proc q).state = .sleeping ∧ (k.proc q).chan = some ticksChan)

instance (c : Fin NCPU) (p : Fin NPROC) (n : ℕ) (k : Kernel NPROC NCPU) :
    Decidable (k.InSlice c p n) := inferInstanceAs (Decidable (_ ∧ _))

def Kernel.spend (p : Fin NPROC) (n : ℕ) (k : Kernel NPROC NCPU) : Kernel NPROC NCPU :=
  k.setProc p { k.proc p with timeslice := (k.proc p).timeslice - n }

def Stretch.run (k : Kernel NPROC NCPU) : Stretch NPROC NCPU → Option (Kernel NPROC NCPU)
  | .op c o => perform k (c, o)
  | .ticks c n => do
    let p ← k.curproc c
    if k.InSlice c p n then some (k.spend p n) else none

namespace Kernel

theorem wakeup1_eq_self {chan : Option (Chan NPROC)}
    (h : ∀ q, ¬ ((k.proc q).state = .sleeping ∧ (k.proc q).chan = chan)) :
    k.wakeup1 true c chan = .ok k := by
  unfold wakeup1
  induction List.finRange NPROC with
  | nil => rfl
  | cons q l ih =>
    rw [List.foldlM_cons, wakeOne, if_neg (h q)]
    exact ih

theorem InSlice.spend {m n : ℕ} (h : k.InSlice c p (n + m)) : (k.spend p m).InSlice c p n := by
  obtain ⟨hc, hcur, hi, hs, hk, hrq, hn, hw⟩ := h
  refine ⟨hc, hcur, hi, by simpa [Kernel.spend] using hs, by simpa [Kernel.spend] using hk,
    by simpa [Kernel.spend] using hrq, ?_, fun q => ?_⟩
  · simp only [Kernel.spend, setProc_proc, update_self]
    omega
  · by_cases hq : q = p
    · subst hq
      simp [Kernel.spend, hs]
    · simpa [Kernel.spend, hq] using hw q

theorem InSlice.tick (h : k.InSlice c p 1) : k.tick true c = .ok (k.spend p 1) := by
  obtain ⟨-, hcur, hi, hs, hk, hrq, hn, hw⟩ := h
  have hwake : k.tickWakeup c = .ok k := by
    unfold tickWakeup
    split_ifs
    · exact wakeup1_eq_self hw
    · rfl
  have ht : ¬ (k.proc p).timeslice - 1 = 0 := by omega
  unfold Kernel.tick tickProc tickBalance procTick procTickMLFQ
  rw [hwake, ok_bind]
  simp [hcur, hk, hs, hi, hrq, ht, Kernel.spend]
  rfl

theorem InSlice.step (h : k.InSlice c p 1) : Step k (c, .tick true) (k.spend p 1) :=
  ⟨h.1, by simp [Op.Enabled, h.2.1], h.tick⟩

theorem InSlice.reach {n : ℕ} (h : k.InSlice c p n) : Reach Step k (k.spend p n) := by
  induction n generalizing k with
  | zero =>
    have : k.spend p 0 = k := by simp [Kernel.spend, setProc]
    rw [this]
    exact .start
  | succ n ih =>
    have h₁ : k.InSlice c p 1 := by
      obtain ⟨hc, hcur, hi, hs, hk, hrq, hn, hw⟩ := h
      exact ⟨hc, hcur, hi, hs, hk, hrq, by omega, hw⟩
    have : (k.spend p 1).spend p n = k.spend p (n + 1) := by
      simp [Kernel.spend, setProc, Int.sub_sub, Int.add_comm]
    rw [← this]
    exact (Reach.next .start h₁.step).trans (ih h.spend)

end Kernel

theorem Stretch.reach {s : Stretch NPROC NCPU} (h : s.run k = some k') : Reach Step k k' := by
  cases s with
  | op c o => exact .next .start (step_of_perform h)
  | ticks c n =>
    simp only [Stretch.run, Option.bind_eq_bind, Option.bind_eq_some_iff] at h
    obtain ⟨p, -, h⟩ := h
    split_ifs at h with hp
    cases h
    exact hp.reach

/-- `n` ticks of CPU 0, the last of which ends the slice of its current process. -/
def slice (n : ℕ) : List (Stretch 64 8) := [.ticks 0 (n - 1), .op 0 (.tick true)]

/-- Init and seven children use up their slices on both round-robin levels, and init makes two
more. CPU 1 takes the second of these, which it runs, and four of the children. When all others
sleep, CPU 0 takes two children back, rotates its level 3 and runs them; both go to sleep. Whoever
was switched out inside `proc_tick_MLFQ` goes on there on CPU 0, whose lock it releases. -/
def rotatedRun : List (Stretch 64 8) :=
  [.op 0 .runIdle, .op 0 (.tick true)] ++
  List.replicate 7 (.op 0 (.fork true true)) ++
  (List.replicate 8 (slice 20)).flatten ++ (List.replicate 8 (slice 500)).flatten ++
  List.replicate 2 (.op 0 (.fork true true)) ++ [.op 1 .runIdle, .op 1 (.tick true)] ++
  List.replicate 5 (.op 0 (.sleep (.addr 7))) ++
  [.op 0 (.tick true), .op 0 (.sleep (.addr 8)), .op 0 (.sleep (.addr 7))]

theorem sleeping_process_dispatched : ∃ k₀ k : Kernel 64 8,
    (Kernel.pinit 64 8 2).userinit 0 = .ok k₀ ∧ Reach Step k₀ k ∧
    ∃ e ∈ k.switches, e.state = .sleeping ∧ ¬ e.Safe k.idleproc := by
  obtain ⟨k₀, h₀, h⟩ := exists_ok_of_any (x := (Kernel.pinit 64 8 2).userinit 0)
    (P := fun k₀ => (rotatedRun.foldlM Stretch.run k₀).any
      fun k => k.switches.any (·.state = .sleeping)) (by decide +kernel)
  obtain ⟨k, hr, hk⟩ := exists_reach_of_any (fun _ _ _ => Stretch.reach) h
  obtain ⟨e, he, hs⟩ := List.any_eq_true.mp hk
  rw [decide_eq_true_eq] at hs
  refine ⟨k₀, k, h₀, hr, e, he, hs, fun h => ?_⟩
  have := h.ready
  simp [hs, ProcState.Ready] at this

/-- The agreement of process states and run queues: `Q r` are the processes in queue `r`. -/
structure Agreement (k : Kernel NPROC NCPU) (Q : RqId NCPU → List (Fin NPROC)) : Prop where
  holds : ∀ r, Holds r.2.subSchedClass (k.rqs r) (Q r)
  queued : ∀ p, (k.proc p).state.Ready → ¬ k.Idle p →
    ∃ r, (k.proc p).rq = some r ∧ (Q r).count p = 1 ∧ ∀ r', r' ≠ r → p ∉ Q r'
  others : ∀ p, ¬ (k.proc p).state.Ready → ∀ r, p ∉ Q r
  idle : ∀ p, k.Idle p → ∀ r, p ∉ Q r
  current : ∀ c p, k.curproc c = some p → k.idleproc c = some p ∨
    ∃ l, (k.proc p).rq = some (c, l) ∧ (Q (c, l)).head? = some p
  quiet : ∀ c p, k.curproc c = some p → k.idleproc c = some p →
    Q (c, .two) = [] ∧ Q (c, .three) = []

theorem Inv.agreement {Z : Fin NCPU → Prop} {Q : RqId NCPU → List (Fin NPROC)}
    (hI : Inv Z k Q none) : Agreement k Q where
  holds := hI.links.holds
  queued p hs hi := by
    obtain ⟨r, hr⟩ := (hI.links.queued p hs hi).resolve_right (Set.notMem_empty p)
    exact ⟨r, hI.links.rq r p hr, List.count_eq_one_of_mem (hI.links.nodup r) hr,
      fun r' hne h => hne (hI.links.unique h hr)⟩
  others p hs r hp := hs (hI.ready_of_mem hp)
  idle p hi r hp := hI.links.notIdle r p hp hi
  current c p hp := (hI.settled c nofun p hp).place.imp And.left
    fun ⟨l, hl⟩ => ⟨l, hI.links.rq _ p (List.mem_of_head? hl), hl⟩
  quiet c p hp hi := by
    rcases (hI.settled c nofun p hp).place with ⟨-, h⟩ | ⟨l, hl⟩
    · exact h
    · exact absurd ⟨c, hi⟩ (hI.links.notIdle _ p (List.mem_of_head? hl))

theorem uniprocessor_agreement (h₀ : (Kernel.pinit NPROC NCPU 1).userinit b = .ok k₀)
    (hr : Reach Step k₀ k) : ∃ Q, Agreement k Q := by
  obtain ⟨Q, hI⟩ := inv_of_reach (fun k a k' h => ⟨h, .inl rfl⟩) h₀ hr
  exact ⟨Q, hI.agreement⟩

/-- Init forks, waits for its child, and is woken by its exit. -/
theorem uniprocessor_agreement_wait : ∃ k₀ k : Kernel 64 8,
    (Kernel.pinit 64 8 1).userinit 0 = .ok k₀ ∧ Reach Step k₀ k ∧
    (k.proc 9).state = .zombie ∧ k.curproc 0 = some 0 ∧ ∃ Q, Agreement k Q := by
  obtain ⟨k₀, h₀, h⟩ := exists_ok_of_any (x := (Kernel.pinit 64 8 1).userinit 0)
    (P := fun k₀ => (List.foldlM perform k₀
      [(0, .runIdle), (0, .tick true), (0, .fork true true), (0, .wait), (0, .exit)]).any
        fun k => (k.proc 9).state = .zombie ∧ k.curproc 0 = some 0) (by decide +kernel)
  obtain ⟨k, hr, hk⟩ := exists_reach_of_any (fun _ _ _ h => .next .start (step_of_perform h)) h
  rw [decide_eq_true_eq] at hk
  exact ⟨k₀, k, h₀, hr, hk.1, hk.2, uniprocessor_agreement h₀ hr⟩

end Xv6Shed
