import Xv6Shed.Safety

/-!
# Preemption by priority

A timer tick on a CPU whose current process is on level 2 or 3 while a higher level has
work. The tick reaches `schedule` only when it ends a slice on level 2: on level 2 it
otherwise counts the slice down, and `proc_tick_fifo` does nothing on level 3.
-/

namespace Xv6Shed
open Function Transition

variable {NPROC NCPU : ℕ} {Z : Fin NCPU → Prop} {k k' k₀ : Kernel NPROC NCPU}
  {Q Q' : RqId NCPU → List (Fin NPROC)} {c b : Fin NCPU} {p q : Fin NPROC} {l l' : Level}
  {held : Bool}

/-- The position of a level in the order `pick_next_proc_MLFQ` looks at them. -/
def Level.rank : Level → ℕ
  | .one => 0
  | .two => 1
  | .three => 2

/-- The current process of CPU `c` is of the highest level of `c` that is not empty. -/
def AtTop (k : Kernel NPROC NCPU) (Q : RqId NCPU → List (Fin NPROC)) (c : Fin NCPU) : Prop :=
  ∃ p l, k.curproc c = some p ∧ p ∈ Q (c, l) ∧ ∀ l' : Level, l'.rank < l.rank → Q (c, l') = []

theorem exists_level_of_first (h : first Q c = some p) :
    ∃ l, p ∈ Q (c, l) ∧ ∀ l' : Level, l'.rank < l.rank → Q (c, l') = [] := by
  unfold first at h
  cases h₁ : (Q (c, .one)).head? with
  | some q =>
    rw [h₁] at h
    obtain rfl : q = p := Option.some.inj h
    refine ⟨.one, List.mem_of_head? h₁, ?_⟩
    intro l' hl'
    exact absurd hl' (Nat.not_lt_zero _)
  | none =>
    rw [h₁] at h
    have hn₁ := List.head?_eq_none_iff.mp h₁
    cases h₂ : (Q (c, .two)).head? with
    | some q =>
      rw [h₂] at h
      obtain rfl : q = p := Option.some.inj h
      refine ⟨.two, List.mem_of_head? h₂, ?_⟩
      intro l' hl'
      cases l' with
      | one => exact hn₁
      | two => exact absurd hl' (lt_irrefl _)
      | three => exact absurd hl' (by decide)
    | none =>
      rw [h₂] at h
      refine ⟨.three, List.mem_of_head? h, ?_⟩
      intro l' hl'
      cases l' with
      | one => exact hn₁
      | two => exact List.head?_eq_none_iff.mp h₂
      | three => exact absurd hl' (lt_irrefl _)

theorem Kernel.schedule_curproc (h : k.schedule held c = .ok k') :
    k'.curproc c = (k'.pickNextProcMLFQ c).or (k'.idleproc c) := by
  obtain ⟨prev, -, h⟩ := bind_eq_ok.mp h
  obtain ⟨k₁, -, h⟩ := bind_eq_ok.mp h
  obtain ⟨o, ho, h⟩ := bind_eq_ok.mp h
  obtain ⟨next, hn, hk⟩ := bind_eq_ok.mp h
  obtain rfl := deref_eq_ok.mp hn
  have hk : k₁.dispatch c prev next = k' := Except.ok.inj hk
  have hpick : k'.pickNextProcMLFQ c = k₁.pickNextProcMLFQ c := by
    rw [← hk]
    rfl
  unfold Kernel.pickNextProc at ho
  rw [hpick, ← hk]
  split_ifs at ho
  cases hf : k₁.pickNextProcMLFQ c with
  | some q =>
    rw [hf] at ho
    have ho : some q = some next := Except.ok.inj ho
    simp [ho]
  | none =>
    rw [hf] at ho
    have ho : k₁.idleproc c = some next := Except.ok.inj ho
    simp [ho]

theorem atTop_of_schedule (h : k.schedule held c = .ok k') (hl : Links Z k' Q ∅)
    (hne : Q (c, .one) ≠ []) : AtTop k' Q c := by
  have hcur := Kernel.schedule_curproc h
  rw [hl.pickNextProcMLFQ] at hcur
  obtain ⟨q, hq⟩ : ∃ q, (Q (c, .one)).head? = some q := ⟨_, List.head?_eq_some_head hne⟩
  have hf : first Q c = some q := by
    unfold first
    rw [hq]
    rfl
  rw [hf] at hcur
  obtain ⟨l, hm, htop⟩ := exists_level_of_first hf
  exact ⟨q, l, hcur, hm, htop⟩

theorem Inv.not_atTop (hI : Inv Z k Q none) (hcur : k.curproc c = some p) (hp : p ∈ Q (c, l))
    (hq : q ∈ Q (c, l')) (hlt : l'.rank < l.rank) : ¬ AtTop k Q c := by
  rintro ⟨p', l₀, hcur', hm, htop⟩
  obtain rfl : p = p' := Option.some.inj (hcur.symm.trans hcur')
  have hl : l₀ = l := (Prod.mk.inj (hI.links.unique hm hp)).2
  rw [htop l' (hl ▸ hlt)] at hq
  cases hq

theorem Kernel.wakeup1_proc {chan : Option (Chan NPROC)} (h : k.wakeup1 held c chan = .ok k')
    (hs : (k.proc p).state ≠ .sleeping) :
    k'.proc p = k.proc p := by
  refine foldlM_inv (P := fun k' => k'.proc p = k.proc p) ?_ rfl h
  intro q _ k₁ k₂ hk₁ hw
  unfold Kernel.wakeOne at hw
  split_ifs at hw with hq
  · have hpq : p ≠ q := by
      rintro rfl
      rw [hk₁] at hq
      exact hs hq.1
    obtain ⟨-, rq, rfl⟩ := Kernel.enqueueProc_ok hw
    simp [hpq, hk₁]
  · cases hw
    exact hk₁

theorem Kernel.demote_two (h : k.demote held c p = .ok k') (hrq : (k.proc p).rq = some (c, .two))
    (hcur : k.curproc c = some p) :
    ∃ k₁ : Kernel NPROC NCPU, k₁.schedule held c = .ok k' ∧ k₁.rqs (c, .one) = k.rqs (c, .one) ∧
      (k₁.proc p).state.Ready ∧ k₁.curproc c = some p := by
  unfold Kernel.demote at h
  rw [hrq, deref_some, ok_bind] at h
  obtain ⟨k₁, h₁, h⟩ := bind_eq_ok.mp h
  obtain ⟨l', hl', h⟩ := bind_eq_ok.mp h
  obtain ⟨k₂, h₂, h⟩ := bind_eq_ok.mp h
  obtain ⟨me, hme, h⟩ := bind_eq_ok.mp h
  obtain rfl : Level.three = l' := Option.some.inj (deref_eq_ok.mp hl')
  obtain ⟨rq₁, rfl⟩ := Kernel.subDequeueProc_ok h₁
  obtain ⟨rq₂, rfl⟩ := Kernel.subEnqueueProc_ok h₂
  obtain rfl : p = me := Option.some.inj (hcur.symm.trans (deref_eq_ok.mp hme))
  exact ⟨_, h, by simp, by simp [ProcState.Ready], hcur⟩

theorem Kernel.schedule_rqs (h : k.schedule held c = .ok k') (hcur : k.curproc c = some p)
    (hs : (k.proc p).state.Ready) : k'.rqs = k.rqs := by
  obtain ⟨prev, hprev, h⟩ := bind_eq_ok.mp h
  obtain rfl : p = prev := Option.some.inj (hcur.symm.trans (deref_eq_ok.mp hprev))
  obtain ⟨k₁, h₁, h⟩ := bind_eq_ok.mp h
  unfold Kernel.removePrev at h₁
  rw [if_pos hs] at h₁
  obtain rfl : k = k₁ := Except.ok.inj h₁
  obtain ⟨o, -, h⟩ := bind_eq_ok.mp h
  obtain ⟨next, -, hk⟩ := bind_eq_ok.mp h
  rw [← Except.ok.inj hk]
  rfl

theorem Inv.tickWakeup (hI : Inv Z k Q none) (c : Fin NCPU) :
    ∃ k₁ ys, k.tickWakeup c = .ok k₁ ∧
      Inv Z k₁ (update Q (c, .one) (Q (c, .one) ++ ys)) none ∧ k₁.curproc = k.curproc ∧
      k₁.idleproc = k.idleproc ∧ ∀ p, (k.proc p).state ≠ .sleeping → k₁.proc p = k.proc p := by
  unfold Kernel.tickWakeup
  split_ifs
  · obtain ⟨k₁, ys, hk, hI₁⟩ := hI.wakeup1 c (some ticksChan)
    obtain ⟨hm, -, -⟩ := Kernel.wakeup1_ok hk
    exact ⟨k₁, ys, hk, hI₁, hm.curproc, hm.idleproc, fun p hs => Kernel.wakeup1_proc hk hs⟩
  · exact ⟨k, [], rfl, by simpa using hI, rfl, rfl, fun _ _ => rfl⟩

section

variable (hI : Inv Z k Q none) (hcur : k.curproc c = some p) (hp : p ∈ Q (c, l))
  (hq : q ∈ Q (c, l')) (hlt : l'.rank < l.rank)
include hI hcur hp hq hlt

theorem Inv.procTick_atTop :
    ∃ k' Q', k.procTick c p = .ok k' ∧ Inv Z k' Q' none ∧
      (AtTop k' Q' c ↔ l = .two ∧ (k.proc p).timeslice = 1) := by
  have hrq := hI.links.rq (c, l) p hp
  have hi : k.idleproc c ≠ some p := fun h => hI.links.notIdle (c, l) p hp ⟨c, h⟩
  unfold Kernel.procTick Kernel.procTickMLFQ
  rw [if_neg hi]
  cases l with
  | one => exact absurd hlt (Nat.not_lt_zero _)
  | two =>
    have hl' : l' = .one := by
      cases l' with
      | one => rfl
      | two => exact absurd hlt (lt_irrefl _)
      | three => exact absurd hlt (by decide)
    subst hl'
    have hI₁ : Inv Z (k.setProc p { k.proc p with timeslice := (k.proc p).timeslice - 1 }) Q
        none := by
      refine (Tended.setProc (Tended.refl hI c) ?_ ?_ ?_).inv <;> rfl
    rw [if_pos (.inr hrq)]
    simp only [Kernel.setProc_proc, update_self, true_and]
    split_ifs with ht
    · obtain ⟨k', xs, -, hk, hI'⟩ := hI₁.demote hcur hi (by simpa using hrq) rfl
      refine ⟨k', _, hk, hI', iff_of_true ?_ (by omega)⟩
      obtain ⟨k₁, hs, hr, hready, hcur₁⟩ := Kernel.demote_two hk (by simpa using hrq) hcur
      apply atTop_of_schedule hs hI'.links
      -- level 1 is as before the tick
      intro hnil
      have h := (hI'.links.holds (c, .one)).nextToRun_eq_none.mpr hnil
      rw [Kernel.schedule_rqs hs hcur₁ hready, hr] at h
      rw [(hI.links.holds (c, .one)).nextToRun_eq_none.mp h] at hq
      cases hq
    · refine ⟨_, Q, rfl, hI₁, iff_of_false ?_ (by omega)⟩
      exact hI₁.not_atTop hcur hp hq hlt
  | three =>
    rw [if_neg (by simp [hrq]), if_pos hrq]
    exact ⟨k, Q, rfl, hI, iff_of_false (hI.not_atTop hcur hp hq hlt) (by simp)⟩

theorem Inv.tick_atTop {user : Bool} (hk : ¬ ((k.proc p).killed = true ∧ user = true)) :
    ∃ k' Q', k.tick user c = .ok k' ∧ Inv Z k' Q' none ∧
      (AtTop k' Q' c ↔ l = .two ∧ (k.proc p).timeslice = 1) := by
  have hrun := (hI.settled c nofun p hcur).running
  have hi : k.idleproc c ≠ some p := fun h => hI.links.notIdle (c, l) p hp ⟨c, h⟩
  obtain ⟨k₁, ys, hw, hI₁, hcur₁, hidle₁, hproc⟩ := hI.tickWakeup c
  have hp₁ : k₁.proc p = k.proc p := hproc p (by rw [hrun]; decide)
  have hmono : ∀ {x l}, x ∈ Q (c, l) → x ∈ update Q (c, .one) (Q (c, .one) ++ ys) (c, l) := by
    intro x l hx
    cases l with
    | one => simp [hx]
    | two => simpa using hx
    | three => simpa using hx
  rw [← hcur₁] at hcur
  obtain ⟨k', Q', ht, hI', htop⟩ := hI₁.procTick_atTop hcur (hmono hp) (hmono hq) hlt
  rw [hp₁] at htop
  refine ⟨k', Q', ?_, hI', htop⟩
  unfold Kernel.tick Kernel.tickProc Kernel.tickBalance
  simp only [hw, ok_bind, hcur, hp₁]
  rw [if_neg hk, if_pos hrun, hidle₁, if_neg hi]
  exact ht

end

/-- On level 2 or 3, below a level with a `RUNNABLE` process, a tick gives the CPU to the
highest level that has one exactly if it ends a slice on level 2. -/
theorem preempted_iff_slice_ends {ncpu : ℕ}
    (h₀ : (Kernel.pinit NPROC NCPU ncpu).userinit b = .ok k₀)
    (hr : Reach (fun k a k' => Step k a k' ∧ (ncpu = 1 ∨ Clean k a)) k₀ k) :
    ∃ Q, Agreement k Q ∧ ∀ c p q l l' user, k.curproc c = some p → p ∈ Q (c, l) →
      q ∈ Q (c, l') → l'.rank < l.rank → (k.proc q).state = .runnable →
      ¬ ((k.proc p).killed = true ∧ user = true) →
      ∃ k' Q', k.tick user c = .ok k' ∧ Agreement k' Q' ∧
        (AtTop k' Q' c ↔ l = .two ∧ (k.proc p).timeslice = 1) := by
  obtain ⟨Q, hI⟩ := inv_of_reach (fun _ _ _ h => h) h₀ hr
  refine ⟨Q, hI.agreement, ?_⟩
  intro c p q l l' user hcur hp hq hlt _ hk
  obtain ⟨k', Q', ht, hI', htop⟩ := hI.tick_atTop hcur hp hq hlt hk
  exact ⟨k', Q', ht, hI'.agreement, htop⟩

theorem Agreement.mem_of_rq (h : Agreement k Q) (hs : (k.proc p).state.Ready)
    (hi : ∀ c, k.idleproc c ≠ some p) {r : RqId NCPU} (hr : (k.proc p).rq = some r) :
    p ∈ Q r := by
  obtain ⟨r', hr', hcount, -⟩ := h.queued p hs fun ⟨c, hc⟩ => hi c hc
  obtain rfl : r = r' := Option.some.inj (hr.symm.trans hr')
  exact List.count_pos_iff.mp (by omega)

/-- `p` is current on level 2 with `n` ticks of its slice left, `q` waits on level 1. -/
def Kernel.Sunk (c : Fin NCPU) (p q : Fin NPROC) (n : ℤ) (k : Kernel NPROC NCPU) : Prop :=
  k.curproc c = some p ∧ (k.proc p).state = .running ∧ (k.proc p).rq = some (c, .two) ∧
  (k.proc p).timeslice = n ∧ (k.proc p).killed = false ∧ (k.proc q).state = .runnable ∧
  (k.proc q).rq = some (c, .one) ∧ ∀ d, k.idleproc d ≠ some p ∧ k.idleproc d ≠ some q

instance (c : Fin NCPU) (p q : Fin NPROC) (n : ℤ) (k : Kernel NPROC NCPU) :
    Decidable (k.Sunk c p q n) := inferInstanceAs (Decidable (_ ∧ _))

theorem exists_sunk : ∃ k₀ k : Kernel 64 8, (Kernel.pinit 64 8 1).userinit 0 = .ok k₀ ∧
    Reach Step k₀ k ∧ k.Sunk 0 0 9 500 ∧ k.InSlice 0 0 499 := by
  obtain ⟨k₀, h₀, h⟩ := exists_ok_of_any (x := (Kernel.pinit 64 8 1).userinit 0)
    (P := fun k₀ => (List.foldlM Stretch.run k₀ ([Stretch.op 0 .runIdle, .op 0 (.tick true)] ++
      slice 20 ++ [.op 0 (.fork true true)])).any fun k => k.Sunk 0 0 9 500 ∧ k.InSlice 0 0 499)
    (by decide +kernel)
  obtain ⟨k, hr, hk⟩ := exists_reach_of_any (fun _ _ _ => Stretch.reach) h
  rw [decide_eq_true_eq] at hk
  exact ⟨k₀, k, h₀, hr, hk⟩

/-- Init has sunk to level 2 and forked; the tick that ends its slice runs the child. -/
theorem preempted_iff_slice_ends_child : ∃ k₀ k k' : Kernel 64 8, ∃ Q',
    (Kernel.pinit 64 8 1).userinit 0 = .ok k₀ ∧
    Reach (fun k a k' => Step k a k' ∧ (1 = 1 ∨ Clean k a)) k₀ k ∧ k.Sunk 0 0 9 1 ∧
    k.tick true 0 = .ok k' ∧ Agreement k' Q' ∧ AtTop k' Q' 0 := by
  obtain ⟨k₀, k, h₀, hr, hk, hs⟩ := exists_sunk
  have hk' : (k.spend 0 499).Sunk 0 0 9 1 := by
    obtain ⟨hcur, hrun, hrq, ht, hrest⟩ := hk
    exact ⟨hcur, by simpa [Kernel.spend] using hrun, by simpa [Kernel.spend] using hrq,
      by simp [Kernel.spend, ht], by simpa [Kernel.spend] using hrest⟩
  have hr' := (hr.trans hs.reach).mono
    (fun k a k' hs => (⟨hs, .inl rfl⟩ : Step k a k' ∧ (1 = 1 ∨ Clean k a)))
  obtain ⟨Q, hA, hpre⟩ := preempted_iff_slice_ends h₀ hr'
  obtain ⟨hcur, hrun, hrq, ht, hkill, hs', hrq', hi⟩ := hk'
  obtain ⟨k', Q', htick, hA', htop⟩ := hpre 0 0 9 .two .one true hcur
    (hA.mem_of_rq (.inr hrun) (fun c => (hi c).1) hrq)
    (hA.mem_of_rq (.inl hs') (fun c => (hi c).2) hrq') (by decide) hs' (by simp [hkill])
  exact ⟨k₀, _, k', Q', h₀, hr', ⟨hcur, hrun, hrq, ht, hkill, hs', hrq', hi⟩, htick, hA',
    htop.mpr ⟨rfl, ht⟩⟩

/-- Init has sunk to level 2 and forked; the next tick leaves the CPU with it. -/
theorem lower_level_keeps_cpu : ∃ k₀ k k' : Kernel 64 8, ∃ Q Q',
    (Kernel.pinit 64 8 1).userinit 0 = .ok k₀ ∧ Reach Step k₀ k ∧ Agreement k Q ∧
    k.curproc 0 = some 0 ∧ 0 ∈ Q (0, .two) ∧ 9 ∈ Q (0, .one) ∧
    (k.proc 9).state = .runnable ∧ (k.proc 0).killed = false ∧
    k.tick true 0 = .ok k' ∧ Agreement k' Q' ∧ ¬ AtTop k' Q' 0 := by
  obtain ⟨k₀, k, h₀, hr, ⟨hcur, hrun, hrq, ht, hkill, hs, hrq', hi⟩, -⟩ := exists_sunk
  obtain ⟨Q, hI⟩ := inv_of_reach (fun k a k' h => ⟨h, .inl rfl⟩) h₀ hr
  have hp := hI.agreement.mem_of_rq (.inr hrun) (fun c => (hi c).1) hrq
  have hq := hI.agreement.mem_of_rq (.inl hs) (fun c => (hi c).2) hrq'
  obtain ⟨k', Q', htick, hI', htop⟩ := hI.tick_atTop hcur hp hq (by decide)
    (show ¬ ((k.proc 0).killed = true ∧ true = true) by simp [hkill])
  refine ⟨k₀, k, k', Q, Q', h₀, hr, hI.agreement, hcur, hp, hq, hs, hkill, htick,
    hI'.agreement, ?_⟩
  rw [htop, ht]
  decide

end Xv6Shed
