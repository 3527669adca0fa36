import Xv6Shed.Frames
import Xv6Shed.Links

/-!
# The operations over well-linked queues

What `schedule`, `wakeup1`, the queueing of a new process and `load_balance_MLFQ` do to a
state in which `Links` holds. Each theorem gives the resulting state up to the parts it
stores to, and the new queue contents as a function of the old.
-/

namespace Xv6Shed
open Function

variable {NPROC NCPU : ℕ} {Z : Fin NCPU → Prop} {k k' k'' : Kernel NPROC NCPU}
  {Q : RqId NCPU → List (Fin NPROC)} {F : Set (Fin NPROC)} {p prev next i : Fin NPROC}
  {c : Fin NCPU}

/-- The first process of the first level that has one. -/
def first (Q : RqId NCPU → List (Fin NPROC)) (c : Fin NCPU) : Option (Fin NPROC) :=
  (Q (c, .one)).head?.or ((Q (c, .two)).head?.or (Q (c, .three)).head?)

theorem first_getD (Q : RqId NCPU → List (Fin NPROC)) (c : Fin NCPU) (i : Fin NPROC) :
    ((first Q c).getD i = i ∧ ∀ l, Q (c, l) = []) ∨
      ∃ l, (Q (c, l)).head? = some ((first Q c).getD i) := by
  unfold first
  cases h₁ : (Q (c, .one)).head? with
  | some p => exact .inr ⟨.one, h₁⟩
  | none =>
    cases h₂ : (Q (c, .two)).head? with
    | some p => exact .inr ⟨.two, h₂⟩
    | none =>
      cases h₃ : (Q (c, .three)).head? with
      | some p => exact .inr ⟨.three, h₃⟩
      | none =>
        refine .inl ⟨rfl, fun l => List.head?_eq_none_iff.mp ?_⟩
        cases l
        · exact h₁
        · exact h₂
        · exact h₃

namespace Links

theorem pickNextProcMLFQ (hl : Links Z k Q F) (c : Fin NCPU) :
    k.pickNextProcMLFQ c = first Q c := by
  have h := fun l => (hl.holds (c, l)).pick
  unfold Kernel.pickNextProcMLFQ Kernel.subPickNextProc first
  rw [h, h, h]
  cases (Q (c, .one)).head? with
  | some p => rfl
  | none => cases (Q (c, .two)).head? <;> rfl

theorem pickNextProc (hl : Links Z k Q F) (hi : k.idleproc c = some i) :
    k.pickNextProc true c = .ok (some ((first Q c).getD i)) := by
  unfold Kernel.pickNextProc
  rw [hl.pickNextProcMLFQ, if_neg (by decide), hi]
  cases first Q c <;> rfl

theorem dispatch (hl : Links Z k Q ∅) (hcur : k.curproc c = some prev)
    (hprev : ¬ (k.proc prev).state.Ready → ∀ r, prev ∉ Q r)
    (hnext : k.Idle next ∨ ∃ r, next ∈ Q r) : Links Z (k.dispatch c prev next) Q ∅ := by
  refine hl.of_proc rfl rfl ?_ ?_ ?_ (by simp)
  · intro r p _
    by_cases hp : p = next
    · simp [hp]
    · simp [hp]
  · intro r p hpr
    by_cases hp : p = next
    · simp [hp, ProcState.Ready]
    · rw [Kernel.dispatch_proc, update_of_ne hp, Kernel.dispatch_curproc]
      by_cases hs : (k.proc p).state.Ready
      · exact .inl hs
      · have hc := (hl.ready r p hpr).resolve_left hs
        have hrc : r.1 ≠ c := by
          intro h
          rw [h, hcur, Option.some_inj] at hc
          subst hc
          exact hprev hs r hpr
        rw [update_of_ne hrc]
        exact .inr hc
  · intro p hr hpi
    by_cases hp : p = next
    · subst hp
      exact .inl (hnext.resolve_left hpi)
    · rw [Kernel.dispatch_proc, update_of_ne hp] at hr
      exact hl.queued p hr hpi

/-- What `schedule` leaves in the queues: `prev` is removed unless it is ready. -/
def afterSchedule (k : Kernel NPROC NCPU) (Q : RqId NCPU → List (Fin NPROC))
    (prev : Fin NPROC) : RqId NCPU → List (Fin NPROC) :=
  if (k.proc prev).state.Ready then Q else fun r => (Q r).erase prev

theorem removePrev (hl : Links Z k Q ∅) (hi : k.idleproc c = some i)
    (hprev : ¬ (k.proc prev).state.Ready → prev = i ∨ ∃ l xs, Q (c, l) = prev :: xs ∧
      (l = .three → xs = [] → Z c ∨ (k.rqs (c, l)).NullEnd)) :
    ∃ rqs, k.removePrev true c prev = .ok { k with rqs := rqs } ∧
      Links Z { k with rqs := rqs } (afterSchedule k Q prev) ∅ ∧
      (¬ (k.proc prev).state.Ready → ∀ r, prev ∉ afterSchedule k Q prev r) := by
  unfold Kernel.removePrev afterSchedule
  by_cases hs : (k.proc prev).state.Ready
  · rw [if_pos hs, if_pos hs]
    exact ⟨k.rqs, rfl, hl, absurd hs⟩
  rw [if_neg hs, if_neg hs, Kernel.dequeueProc, if_neg (by decide), hi]
  rcases hprev hs with rfl | ⟨l, xs, hq, hz⟩
  · have hout : ∀ r, prev ∉ Q r := fun r hr => hl.notIdle r prev hr ⟨c, hi⟩
    have hQ : (fun r => (Q r).erase prev) = Q := by
      funext r
      exact List.erase_of_not_mem (hout r)
    rw [if_pos rfl, hQ]
    exact ⟨k.rqs, rfl, hl, fun _ r => (hl.nodup r).not_mem_erase⟩
  · have hmem : prev ∈ Q (c, l) := by simp [hq]
    have hne : i ≠ prev := by
      rintro rfl
      exact hl.notIdle _ _ hmem ⟨c, hi⟩
    obtain ⟨rq', hd, hl'⟩ := hl.dequeue_head hq hz
    have hQ : (fun r => (Q r).erase prev) = update Q (c, l) xs := by
      funext r
      by_cases hr : r = (c, l)
      · simp [hr, hq]
      · rw [update_of_ne hr]
        exact List.erase_of_not_mem fun h => hr (hl.unique h hmem)
    rw [if_neg (by simpa using hne), Kernel.dequeueProcMLFQ, hl.rq _ _ hmem, hQ]
    refine ⟨_, hd, hl'.drop (Set.empty_subset _) ?_, fun _ r => (hl.nodup r).not_mem_erase⟩
    rintro q (rfl | hq) _
    · exact hs
    · exact absurd hq (Set.notMem_empty q)

/-- `schedule`. A `prev` that is not ready has to be the idle process or the head of one of
this CPU's queues, and if it is alone in level 3 that queue has to be null-terminated. -/
theorem schedule (hl : Links Z k Q ∅) (hcur : k.curproc c = some prev)
    (hi : k.idleproc c = some i)
    (hprev : ¬ (k.proc prev).state.Ready → prev = i ∨ ∃ l xs, Q (c, l) = prev :: xs ∧
      (l = .three → xs = [] → Z c ∨ (k.rqs (c, l)).NullEnd)) :
    ∃ rqs k', k.schedule true c = .ok k' ∧
      k' = { k with rqs := rqs }.dispatch c prev ((first (afterSchedule k Q prev) c).getD i) ∧
      Links Z k' (afterSchedule k Q prev) ∅ := by
  obtain ⟨rqs, hd, hl', hout⟩ := hl.removePrev hi hprev
  refine ⟨rqs, _, ?_, rfl, hl'.dispatch hcur hout ?_⟩
  · unfold Kernel.schedule
    rw [hcur, deref_some, ok_bind, hd, ok_bind, hl'.pickNextProc hi, ok_bind, deref_some, ok_bind]
    rfl
  · rcases first_getD (afterSchedule k Q prev) c i with ⟨hn, -⟩ | ⟨l, hn⟩
    · rw [hn]
      exact .inl ⟨c, hi⟩
    · exact .inr ⟨(c, l), List.mem_of_head? hn⟩

theorem yieldProc (hl : Links Z k Q F)
    (hz : Q (c, .one) = [] → Q (c, .two) = [] → Z c → Q (c, .three) = []) :
    ∃ rqs Q', k.yieldProc true c = .ok { k with rqs := rqs } ∧
      Links Z { k with rqs := rqs } Q' F ∧ ∀ d l, d ≠ c → Q' (d, l) = Q (d, l) := by
  have hnil : ∀ l, (k.rqs (c, l)).nextToRun = none ↔ Q (c, l) = [] := fun l =>
    (hl.holds (c, l)).nextToRun_eq_none
  have hy : ∀ l, (l = .three → ¬ Z c ∨ Q (c, l) = []) →
      ∃ rqs Q', k.subYieldProc (c, l) = .ok { k with rqs := rqs } ∧
        Links Z { k with rqs := rqs } Q' F ∧ ∀ d l, d ≠ c → Q' (d, l) = Q (d, l) := by
    intro l hl₃
    obtain ⟨rq', hk, hl'⟩ := hl.yield (c, l) hl₃
    exact ⟨_, _, hk, hl', fun d l' hd => update_of_ne (by simp [hd]) _ _⟩
  unfold Kernel.yieldProc Kernel.yieldProcMLFQ
  rw [if_neg (by decide)]
  split_ifs with h₁ h₂ h₃
  · exact hy .one nofun
  · exact hy .two nofun
  · have h₁' := (hnil .one).mp (not_not.mp h₁)
    have h₂' := (hnil .two).mp (not_not.mp h₂)
    exact hy .three fun _ => (em (Z c)).symm.imp_right (hz h₁' h₂')
  · exact ⟨k.rqs, Q, rfl, hl, fun _ _ _ => rfl⟩

theorem enqueueProc (hl : Links Z k Q F) (hp : ∀ r, p ∉ Q r) (hs : (k.proc p).state.Ready)
    (hi : ¬ k.Idle p) (c : Fin NCPU) : ∃ k', k.enqueueProc true c p = .ok k' ∧
      Links Z k' (update Q (c, .one) (Q (c, .one) ++ [p])) (F \ {p}) := by
  obtain ⟨rq', he, hl'⟩ := hl.enqueue hp hs hi (c, .one)
  have hfree := (hl.holds (c, .one)).freeList_ne_none.mpr (hl.length_lt (hp _))
  refine ⟨_, ?_, hl'⟩
  unfold Kernel.enqueueProc
  rw [if_neg (by decide), if_neg hfree]
  exact he

theorem wake_enqueue (hl : Links Z k Q ∅) (hs : ¬ (k.proc p).state.Ready)
    (hc : ∀ d, k.curproc d ≠ some p) (hi : ¬ k.Idle p) (c : Fin NCPU) :
    ∃ k', (k.setState p .runnable).enqueueProc true c p = .ok k' ∧
      Links Z k' (update Q (c, .one) (Q (c, .one) ++ [p])) ∅ := by
  obtain ⟨k', he, hl'⟩ := (hl.wake hs hc).enqueueProc (hl.notMem_of_not_ready hs hc)
    (by simp [ProcState.Ready]) hi c
  exact ⟨k', he, by simpa using hl'⟩

/-- `wakeup1` queues the processes it wakes at the end of this CPU's first level, provided
none of them is still current. -/
theorem wakeup1 (hl : Links Z k Q ∅) (chan : Option (Chan NPROC))
    (hs : ∀ p, (k.proc p).state = .sleeping → (k.proc p).chan = chan →
      (∀ d, k.curproc d ≠ some p) ∧ ¬ k.Idle p) (c : Fin NCPU) :
    ∃ k' ys, k.wakeup1 true c chan = .ok k' ∧
      Links Z k' (update Q (c, .one) (Q (c, .one) ++ ys)) ∅ := by
  have key := foldlM_ok (f := Kernel.wakeOne true c chan) (l := List.finRange NPROC) (b := k)
    (P := fun k' => Moved k k' ∧
      (∀ p, (k'.proc p).state = .sleeping → (k.proc p).state = .sleeping) ∧
      ∃ ys, Links Z k' (update Q (c, .one) (Q (c, .one) ++ ys)) ∅) ?_
    ⟨.refl k, fun _ h => h, [], by simpa using hl⟩
  · obtain ⟨k', hk, -, -, ys, hl'⟩ := key
    exact ⟨k', ys, hk, hl'⟩
  · intro p _ k₁ ⟨hm, hsl, ys, hl₁⟩
    by_cases hw : (k₁.proc p).state = .sleeping ∧ (k₁.proc p).chan = chan
    · obtain ⟨hcur, hidle⟩ := hs p (hsl p hw.1) ((hm.chan p).symm.trans hw.2)
      rw [← hm.curproc] at hcur
      rw [Kernel.Idle, ← hm.idleproc] at hidle
      obtain ⟨k₂, he, hl₂⟩ := hl₁.wake_enqueue (by simp [hw.1, ProcState.Ready]) hcur hidle c
      have hk : k₁.wakeOne true c chan p = .ok k₂ := by
        unfold Kernel.wakeOne
        rw [if_pos hw, he]
      obtain ⟨hm₂, hs₂, -⟩ := Kernel.wakeOne_ok hk
      refine ⟨k₂, hk, hm.trans hm₂, fun q hq => hsl q ?_, ys ++ [p], by simpa using hl₂⟩
      rw [hs₂ q] at hq
      split_ifs at hq
      exact hq
    · refine ⟨k₁, ?_, hm, hsl, ys, hl₁⟩
      unfold Kernel.wakeOne
      rw [if_neg hw]
      rfl

/-- The queues after CPU `c` has taken its share from CPU `src`. -/
def balanced (src c : Fin NCPU) (Q : RqId NCPU → List (Fin NPROC)) : RqId NCPU → List (Fin NPROC) :=
  fun r => (if r.1 = src then kept (Q r) else Q r) ++ (if r.1 = c then taken (Q (src, r.2)) else [])

theorem subEnqueueAll (hl : Links Z k Q F) {ms : List (Fin NPROC)} (hd : ms.Nodup)
    (hF : ∀ p ∈ ms, p ∈ F ∧ (k.proc p).state.Ready ∧ ¬ k.Idle p) (r : RqId NCPU) :
    ∃ k', k.subEnqueueAll r (ms.map some) = .ok k' ∧
      Links Z k' (update Q r (Q r ++ ms)) (F \ {p | p ∈ ms}) := by
  induction ms generalizing k Q F with
  | nil => exact ⟨k, rfl, by simpa using hl⟩
  | cons p ms ih =>
    obtain ⟨hp, hs, hi⟩ := hF p List.mem_cons_self
    obtain ⟨rq', he, hl₁⟩ := hl.enqueue (hl.transit p hp) hs hi r
    obtain ⟨hm₁, hs₁⟩ := Kernel.subEnqueueProc_state he
    obtain ⟨k', hk, hl'⟩ := ih hl₁ (List.nodup_cons.mp hd).2 (by
      intro q hq
      obtain ⟨hqF, hqs, hqi⟩ := hF q (List.mem_cons_of_mem p hq)
      have hqp : q ≠ p := ne_of_mem_of_not_mem hq (List.nodup_cons.mp hd).1
      exact ⟨⟨hqF, hqp⟩, by rw [hs₁ q]; exact hqs, hqi⟩)
    refine ⟨k', ?_, ?_⟩
    · unfold Kernel.subEnqueueAll
      rw [List.map_cons, List.foldlM_cons, deref_some, ok_bind, he, ok_bind]
      exact hk
    · have hF' : F \ {q | q ∈ p :: ms} = (F \ {p}) \ {q | q ∈ ms} := by
        ext q
        simp [and_assoc]
      rw [hF']
      simpa using hl'

theorem balanceGet (hl : Links Z k Q ∅) (src : Fin NCPU) :
    ∃ k', k.balanceGet src = .ok (k', fun l => (taken (Q (src, l))).map some) ∧
      Links Z k' (fun r => if r.1 = src then kept (Q r) else Q r)
        {p | ∃ l, p ∈ taken (Q (src, l))} := by
  have h₂₁ : ((src, .two) : RqId NCPU) ≠ (src, .one) := by simp
  have h₃₁ : ((src, .three) : RqId NCPU) ≠ (src, .one) := by simp
  have h₃₂ : ((src, .three) : RqId NCPU) ≠ (src, .two) := by simp
  obtain ⟨rq₁, h₁, hl₁⟩ := hl.getProc (src, .one)
  obtain ⟨rq₂, h₂, hl₂⟩ := hl₁.getProc (src, .two)
  rw [update_of_ne h₂₁] at h₂ hl₂
  obtain ⟨rq₃, h₃, hl₃⟩ := hl₂.getProc (src, .three)
  rw [update_of_ne h₃₂, update_of_ne h₃₁] at h₃ hl₃
  refine ⟨((k.setRq (src, .one) rq₁).setRq (src, .two) rq₂).setRq (src, .three) rq₃, ?_, ?_⟩
  · unfold Kernel.balanceGet
    simp only [h₁, h₂, h₃, ok_bind]
    refine congrArg (fun ms => Except.ok (_, ms)) (funext fun l => ?_)
    cases l <;> rfl
  · convert hl₃ using 1
    · funext r
      obtain ⟨d, l⟩ := r
      by_cases hd : d = src
      · cases l <;> simp [hd]
      · simp [hd]
    · ext p
      constructor
      · rintro ⟨l, hp⟩
        cases l
        · exact .inl (.inl (.inr hp))
        · exact .inl (.inr hp)
        · exact .inr hp
      · rintro (((h | hp) | hp) | hp)
        · exact absurd h (Set.notMem_empty p)
        · exact ⟨.one, hp⟩
        · exact ⟨.two, hp⟩
        · exact ⟨.three, hp⟩

theorem balancePut {ts : Level → List (Fin NPROC)}
    (hl : Links Z k Q {p | ∃ l, p ∈ ts l}) (hd : ∀ l, (ts l).Nodup)
    (huniq : ∀ l l' p, p ∈ ts l → p ∈ ts l' → l = l')
    (hr : ∀ l, ∀ p ∈ ts l, (k.proc p).state.Ready ∧ ¬ k.Idle p) (c : Fin NCPU) :
    ∃ k', k.balancePut c (fun l => (ts l).map some) = .ok k' ∧
      Links Z k' (fun r => Q r ++ if r.1 = c then ts r.2 else []) ∅ := by
  obtain ⟨k₁, h₁, hl₁⟩ := hl.subEnqueueAll (hd .one)
    (fun p hp => ⟨⟨.one, hp⟩, hr .one p hp⟩) (c, .one)
  obtain ⟨hm₁, hs₁⟩ := Kernel.subEnqueueAll_ok h₁
  obtain ⟨k₂, h₂, hl₂⟩ := hl₁.subEnqueueAll (hd .two) (fun p hp => by
    rw [hs₁ p, Kernel.Idle, hm₁.idleproc]
    exact ⟨⟨⟨.two, hp⟩, fun h => by cases huniq _ _ p hp h⟩, hr .two p hp⟩) (c, .two)
  obtain ⟨hm₂, hs₂⟩ := Kernel.subEnqueueAll_ok h₂
  obtain ⟨k₃, h₃, hl₃⟩ := hl₂.subEnqueueAll (hd .three) (fun p hp => by
    rw [hs₂ p, hs₁ p, Kernel.Idle, hm₂.idleproc, hm₁.idleproc]
    exact ⟨⟨⟨⟨.three, hp⟩, fun h => by cases huniq _ _ p hp h⟩,
      fun h => by cases huniq _ _ p hp h⟩, hr .three p hp⟩) (c, .three)
  refine ⟨k₃, ?_, ?_⟩
  · unfold Kernel.balancePut
    rw [h₁, ok_bind, h₂, ok_bind, h₃]
  · convert hl₃ using 1
    · funext r
      obtain ⟨d, l⟩ := r
      by_cases hd : d = c
      · subst hd
        cases l <;> simp
      · simp [hd]
    · ext p
      constructor
      · exact fun h => absurd h (Set.notMem_empty p)
      · rintro ⟨⟨⟨⟨l, hp⟩, h₁⟩, h₂⟩, h₃⟩
        cases l
        · exact h₁ hp
        · exact h₂ hp
        · exact h₃ hp

theorem loadBalance (hl : Links Z k Q ∅) (hr : ∀ r, ∀ p ∈ Q r, (k.proc p).state.Ready)
    (c : Fin NCPU) : ∃ k', k.loadBalanceMLFQ c = .ok k' ∧
      Links Z k' (k.busiest.elim Q fun src => balanced src c Q) ∅ := by
  unfold Kernel.loadBalanceMLFQ
  cases k.busiest with
  | none => exact ⟨k, rfl, hl⟩
  | some src =>
    have hmem : ∀ {l p}, p ∈ taken (Q (src, l)) → p ∈ Q (src, l) := fun h =>
      (taken_append_kept_perm _).mem_iff.mp (List.mem_append_right _ h)
    obtain ⟨k₀, h₀, hl₀⟩ := hl.balanceGet src
    obtain ⟨rqs, rfl⟩ := Kernel.balanceGet_ok h₀
    obtain ⟨k', h', hl'⟩ := hl₀.balancePut
      (fun l => ((taken_append_kept_perm _).nodup_iff.mpr (hl.nodup (src, l))).of_append_right)
      (fun l l' p h h' => (Prod.mk.inj (hl.unique (hmem h) (hmem h'))).2)
      (fun l p hp => ⟨hr _ p (hmem hp), hl.notIdle _ p (hmem hp)⟩) c
    refine ⟨k', ?_, hl'⟩
    simp only [h₀, ok_bind]
    exact h'

end Links

end Xv6Shed
