import Xv6Shed.Preemption

/-!
# Time slices and levels

The slice of a process is set only by `enqueue_proc_RR`, when `p->rq` is another queue, and
counted down only by `proc_tick_MLFQ`. What an operation does to a slot of the process table
is summed up in the preorder `Proc.Turn`: the slice stays within the bounds of its queue and,
unless the operation wakes the process, its level does not go back up.
-/

namespace Xv6Shed
open Function Transition

variable {NPROC NCPU : ℕ} {Z : Fin NCPU → Prop} {k k' k'' k₀ : Kernel NPROC NCPU}
  {Q : RqId NCPU → List (Fin NPROC)} {c b : Fin NCPU} {p : Fin NPROC} {l l' : Level} {r : RqId NCPU}
  {held : Bool} {q q' : Proc NPROC NCPU}

section
variable {cls : SchedClass} {rq rq' : Rq NPROC} {n : ℕ} {cnode : Option (Fin NPROC)}
  {ms : List (Option (Fin NPROC))}

theorem SchedClass.enqueueProc_maxSlices (h : cls.enqueueProc p rq = .ok rq') :
    rq'.maxSlices = rq.maxSlices := by
  cases cls with
  | RR =>
    obtain ⟨f, -, h⟩ := bind_eq_ok.mp h
    dsimp only at h
    split at h
    · cases h
      rfl
    · obtain ⟨last, -, h⟩ := bind_eq_ok.mp h
      cases h
      rfl
  | fifo =>
    obtain ⟨f, -, h⟩ := bind_eq_ok.mp h
    dsimp only at h
    split_ifs at h
    · cases h
      rfl
    · obtain ⟨last, -, h⟩ := bind_eq_ok.mp h
      cases h
      rfl

theorem SchedClass.dequeueProc_maxSlices (h : cls.dequeueProc p rq = .ok rq') :
    rq'.maxSlices = rq.maxSlices := by
  cases cls with
  | RR =>
    obtain ⟨head, -, h⟩ := bind_eq_ok.mp h
    obtain ⟨⟨m, node⟩, -, h⟩ := bind_eq_ok.mp h
    obtain ⟨n, -, h⟩ := bind_eq_ok.mp h
    -- the head of the queue may be moved before the node is unlinked
    have hhead : ∀ {rq₁ : Rq NPROC}, (if rq.proc head = some p then
        if rq.next n = some n then { rq with nextToRun := none }
        else { rq with nextToRun := rq.next head }
      else rq) = rq₁ → rq₁.maxSlices = rq.maxSlices := by
      rintro _ rfl
      split_ifs <;> rfl
    dsimp only at h
    generalize hrq : (if rq.proc head = some p then _ else rq) = rq₁ at h
    rw [← hhead hrq]
    split_ifs at h
    · obtain ⟨pv, -, h⟩ := bind_eq_ok.mp h
      obtain ⟨nx, -, h⟩ := bind_eq_ok.mp h
      cases h
      rfl
    · cases h
      rfl
  | fifo =>
    obtain ⟨⟨pnode, node⟩, -, h⟩ := bind_eq_ok.mp h
    obtain ⟨head, -, h⟩ := bind_eq_ok.mp h
    dsimp only at h
    split_ifs at h
    · obtain ⟨m, -, h⟩ := bind_eq_ok.mp h
      obtain ⟨rq₁, h₁, h⟩ := bind_eq_ok.mp h
      obtain ⟨n, -, h⟩ := bind_eq_ok.mp h
      cases h₁
      cases h
      rfl
    · obtain ⟨pn, -, h⟩ := bind_eq_ok.mp h
      obtain ⟨m, -, h⟩ := bind_eq_ok.mp h
      obtain ⟨rq₁, h₁, h⟩ := bind_eq_ok.mp h
      obtain ⟨n, -, h⟩ := bind_eq_ok.mp h
      cases h₁
      cases h
      rfl

theorem SchedClass.yieldProc_maxSlices (h : cls.yieldProc rq = .ok rq') :
    rq'.maxSlices = rq.maxSlices := by
  cases cls with
  | RR =>
    cases h
    unfold Rq.yieldProcRR
    split <;> rfl
  | fifo =>
    change rq.yieldProcFifo = .ok rq' at h
    unfold Rq.yieldProcFifo at h
    split at h
    · cases h
      rfl
    · split_ifs at h
      · cases h
        rfl
      · obtain ⟨last, -, h⟩ := bind_eq_ok.mp h
        cases h
        rfl

theorem Rq.getLoopRR_maxSlices (h : Rq.getLoopRR n cnode rq = .ok (rq', ms)) :
    rq'.maxSlices = rq.maxSlices := by
  induction n generalizing cnode rq ms with
  | zero =>
    cases h
    rfl
  | succ n ih =>
    obtain ⟨c, -, h⟩ := bind_eq_ok.mp h
    split_ifs at h
    obtain ⟨pv, -, h⟩ := bind_eq_ok.mp h
    obtain ⟨nx, -, h⟩ := bind_eq_ok.mp h
    obtain ⟨⟨rq₁, ms₁⟩, h₁, h⟩ := bind_eq_ok.mp h
    cases h
    exact (ih h₁).trans rfl

theorem Rq.getLoopFifo_maxSlices (h : Rq.getLoopFifo cnode n rq = .ok (rq', ms)) :
    rq'.maxSlices = rq.maxSlices := by
  induction n generalizing rq ms with
  | zero =>
    cases h
    rfl
  | succ n ih =>
    obtain ⟨c, -, h⟩ := bind_eq_ok.mp h
    split at h
    · cases h
    · obtain ⟨⟨rq₁, ms₁⟩, h₁, h⟩ := bind_eq_ok.mp h
      cases h
      apply (ih h₁).trans
      dsimp only
      split_ifs <;> rfl

theorem SchedClass.getProc_maxSlices (h : cls.getProc rq = .ok (rq', ms)) :
    rq'.maxSlices = rq.maxSlices := by
  cases cls with
  | RR =>
    obtain ⟨⟨rq₁, ms₁⟩, h₁, h⟩ := bind_eq_ok.mp h
    cases h
    change rq₁.maxSlices = rq.maxSlices
    exact Rq.getLoopRR_maxSlices h₁
  | fifo =>
    obtain ⟨⟨rq₁, ms₁⟩, h₁, h⟩ := bind_eq_ok.mp h
    cases h
    change rq₁.maxSlices = rq.maxSlices
    exact Rq.getLoopFifo_maxSlices h₁

end

/-- Every queue has the bound `pinit` gave it. -/
def Kernel.Full (k : Kernel NPROC NCPU) : Prop := ∀ r, (k.rqs r).maxSlices = r.2.maxSlices

theorem Level.rank_next (h : l.next = some l') : l'.rank = l.rank + 1 := by
  cases l with
  | one =>
    obtain rfl := Option.some.inj h
    rfl
  | two =>
    obtain rfl := Option.some.inj h
    rfl
  | three => cases h

/-- A slice within the bounds of the round-robin queue `p->rq`. -/
def Proc.Timed (q : Proc NPROC NCPU) : Prop :=
  ∀ r, q.rq = some r → r.2.subSchedClass = .RR → 1 ≤ q.timeslice ∧ q.timeslice ≤ r.2.maxSlices

/-- A slot that holds no process yet, or one that has never been queued. -/
def Proc.New (q : Proc NPROC NCPU) : Prop := q.state = .unused ∨ q.state = .embryo

/-- The second queue is of no higher level than the first; null stays null. -/
def Below : Option (RqId NCPU) → Option (RqId NCPU) → Prop
  | none, o' => o' = none
  | some r, o' => ∃ r', o' = some r' ∧ r.2.rank ≤ r'.2.rank

theorem Below.refl (o : Option (RqId NCPU)) : Below o o := by
  cases o with
  | none => rfl
  | some r => exact ⟨r, rfl, le_rfl⟩

theorem Below.trans {o o' o'' : Option (RqId NCPU)} (h : Below o o') (h' : Below o' o'') :
    Below o o'' := by
  cases o with
  | none =>
    obtain rfl : o' = none := h
    exact h'
  | some r =>
    obtain ⟨r', rfl, hr⟩ := h
    obtain ⟨r'', hr'', hle⟩ := h'
    exact ⟨r'', hr'', hr.trans hle⟩

/-- What a part of an operation may do to a slot. It is a preorder: such a part puts nobody to
sleep, so that a process it wakes stays awake to the end of the operation. -/
structure Proc.Turn (q q' : Proc NPROC NCPU) : Prop where
  timed : q.Timed → q'.Timed
  level : q.New ∨ ¬ q'.New ∧ (q.state = .sleeping ∧ q'.state ≠ .sleeping ∨
    (q'.state = .sleeping → q.state = .sleeping) ∧ Below q.rq q'.rq)

namespace Proc.Turn
variable {q q' q'' : Proc NPROC NCPU}

theorem refl (q : Proc NPROC NCPU) : q.Turn q := by
  refine ⟨id, ?_⟩
  by_cases h : q.New
  · exact .inl h
  · exact .inr ⟨h, .inr ⟨id, .refl _⟩⟩

theorem trans (h : q.Turn q') (h' : q'.Turn q'') : q.Turn q'' := by
  refine ⟨h'.timed ∘ h.timed, ?_⟩
  rcases h.level with hn | ⟨hn, h₁⟩
  · exact .inl hn
  rcases h'.level with hn' | ⟨hn', h₂⟩
  · exact absurd hn' hn
  refine .inr ⟨hn', ?_⟩
  rcases h₁ with ⟨hs, hs'⟩ | ⟨hs, hb⟩
  · rcases h₂ with ⟨hs₂, -⟩ | ⟨hs₂, -⟩
    · exact absurd hs₂ hs'
    · exact .inl ⟨hs, fun h => hs' (hs₂ h)⟩
  · rcases h₂ with ⟨hs₂, hs₂'⟩ | ⟨hs₂, hb₂⟩
    · exact .inl ⟨hs hs₂, hs₂'⟩
    · exact .inr ⟨fun h => hs (hs₂ h), hb.trans hb₂⟩

/-- Stores to fields other than `rq` and `timeslice`; the state stays or becomes one in which
the process is neither asleep nor new. -/
theorem store (hrq : q'.rq = q.rq) (ht : q'.timeslice = q.timeslice)
    (hs : q'.state = q.state ∨ q'.state.Ready ∨ q'.state = .zombie) : q.Turn q' := by
  constructor
  · intro h r hr
    rw [ht]
    exact h r (hrq ▸ hr)
  · by_cases hn : q.New
    · exact .inl hn
    · refine .inr ⟨?_, .inr ⟨?_, hrq ▸ .refl _⟩⟩
      · unfold Proc.New at hn ⊢
        rcases hs with hs | (hs | hs) | hs <;> simp [hs] at hn ⊢
        exact hn
      · rcases hs with hs | (hs | hs) | hs <;> simp [hs]

end Proc.Turn

/-- What a part of an operation does to the queues' bounds and to the slots. -/
structure Turns (k k' : Kernel NPROC NCPU) : Prop where
  idleproc : k'.idleproc = k.idleproc
  bound : ∀ r, (k'.rqs r).maxSlices = (k.rqs r).maxSlices
  slot : k.Full → ∀ p, (k.proc p).Turn (k'.proc p)

namespace Turns

theorem refl (k : Kernel NPROC NCPU) : Turns k k := ⟨rfl, fun _ => rfl, fun _ _ => .refl _⟩

theorem full (h : Turns k k') (hf : k.Full) : k'.Full := fun r => (h.bound r).trans (hf r)

theorem trans (h : Turns k k') (h' : Turns k' k'') : Turns k k'' where
  idleproc := h'.idleproc.trans h.idleproc
  bound r := (h'.bound r).trans (h.bound r)
  slot hf p := (h.slot hf p).trans (h'.slot (h.full hf) p)

theorem setProc {q : Proc NPROC NCPU} (h : k.Full → (k.proc p).Turn q) :
    Turns k (k.setProc p q) := by
  refine ⟨rfl, fun _ => rfl, fun hf p' => ?_⟩
  by_cases hp : p' = p
  · subst hp
    simpa using h hf
  · simpa [hp] using .refl (k.proc p')

theorem setRq {rq : Rq NPROC} (h : rq.maxSlices = (k.rqs r).maxSlices) :
    Turns k (k.setRq r rq) := by
  refine ⟨rfl, fun r' => ?_, fun _ p => .refl _⟩
  by_cases hr : r' = r
  · subst hr
    simpa using h
  · simp [hr]

theorem setState {s : ProcState} (hs : s.Ready ∨ s = .zombie) : Turns k (k.setState p s) :=
  setProc fun _ => .store rfl rfl (.inr hs)

end Turns

namespace Kernel

theorem subEnqueueProc_bound (h : k.subEnqueueProc r p = .ok k') :
    ∃ rq, rq.maxSlices = (k.rqs r).maxSlices ∧ k' = (k.setRq r rq).setProc p (k.stamp r p) := by
  rw [subEnqueueProc_eq] at h
  obtain ⟨rq, hrq, hk⟩ := bind_eq_ok.mp h
  exact ⟨rq, SchedClass.enqueueProc_maxSlices hrq, (Except.ok.inj hk).symm⟩

theorem enqueueProc_bound (h : k.enqueueProc held c p = .ok k') :
    ∃ rq, rq.maxSlices = (k.rqs (c, .one)).maxSlices ∧
      k' = (k.setRq (c, .one) rq).setProc p (k.stamp (c, .one) p) := by
  unfold enqueueProc at h
  split_ifs at h
  exact subEnqueueProc_bound h

/-- A process enters a round-robin queue with a full slice, or comes back to the one it left
with the slice it had. -/
theorem stamp_timed (hf : k.Full) (h : (k.proc p).rq = some r → (k.proc p).Timed) :
    (k.stamp r p).Timed := by
  intro r' hr' hcls
  obtain rfl : r = r' := Option.some.inj hr'
  rw [stamp_timeslice]
  split_ifs with hr
  · rw [hf r]
    cases hl : r.2 with
    | one => decide
    | two => decide
    | three =>
      rw [hl] at hcls
      cases hcls
  · have hrq : (k.proc p).rq = some r := by
      by_contra hne
      exact hr ⟨hcls, hne⟩
    exact h hrq r hrq hcls

end Kernel

namespace Turns

variable {chan : Option (Chan NPROC)} {q : Proc NPROC NCPU}

theorem subEnqueueProc (h : k.subEnqueueProc r p = .ok k') (hb : Below (k.proc p).rq (some r)) :
    Turns k k' := by
  obtain ⟨rq, hrq, rfl⟩ := Kernel.subEnqueueProc_bound h
  change Turns k ((k.setProc p (k.stamp r p)).setRq r rq)
  refine (setProc fun hf => ⟨fun ht => Kernel.stamp_timed hf fun _ => ht, ?_⟩).trans (setRq hrq)
  by_cases hn : (k.proc p).New
  · exact .inl hn
  · exact .inr ⟨hn, .inr ⟨id, hb⟩⟩

theorem subDequeueProc (h : k.subDequeueProc r p = .ok k') : Turns k k' := by
  obtain ⟨rq, hrq, hk⟩ := bind_eq_ok.mp h
  cases hk
  exact setRq (SchedClass.dequeueProc_maxSlices hrq)

theorem subYieldProc (h : k.subYieldProc r = .ok k') : Turns k k' := by
  obtain ⟨rq, hrq, hk⟩ := bind_eq_ok.mp h
  cases hk
  exact setRq (SchedClass.yieldProc_maxSlices hrq)

theorem subGetProc {ms : List (Option (Fin NPROC))} (h : k.subGetProc r = .ok (k', ms)) :
    Turns k k' := by
  obtain ⟨⟨rq, ms'⟩, hrq, hk⟩ := bind_eq_ok.mp h
  cases hk
  exact setRq (SchedClass.getProc_maxSlices hrq)

theorem dequeueProc (h : k.dequeueProc held c p = .ok k') : Turns k k' := by
  unfold Kernel.dequeueProc Kernel.dequeueProcMLFQ at h
  split_ifs at h
  · cases h
    exact refl k
  · split at h
    · cases h
      exact refl k
    · exact subDequeueProc h

theorem yieldProc (h : k.yieldProc held c = .ok k') : Turns k k' := by
  unfold Kernel.yieldProc Kernel.yieldProcMLFQ at h
  split_ifs at h
  · exact subYieldProc h
  · exact subYieldProc h
  · exact subYieldProc h
  · cases h
    exact refl k

theorem dispatch (c : Fin NCPU) (prev next : Fin NPROC) : Turns k (k.dispatch c prev next) := by
  have h : Turns { k with
      curproc := update k.curproc c (some next)
      switches := ⟨c, prev, next, (k.proc next).state⟩ :: k.switches }
      (k.dispatch c prev next) := setState (.inl (.inr rfl))
  exact ⟨h.idleproc, h.bound, h.slot⟩

theorem schedule (h : k.schedule held c = .ok k') : Turns k k' := by
  obtain ⟨prev, -, h⟩ := bind_eq_ok.mp h
  obtain ⟨k₁, h₁, h⟩ := bind_eq_ok.mp h
  obtain ⟨o, -, h⟩ := bind_eq_ok.mp h
  obtain ⟨next, -, h⟩ := bind_eq_ok.mp h
  cases h
  refine trans ?_ (dispatch c prev next)
  unfold Kernel.removePrev at h₁
  split_ifs at h₁
  · cases h₁
    exact refl k
  · exact dequeueProc h₁

theorem yield (h : k.yield held c = .ok k') : Turns k k' := by
  obtain ⟨p, -, h⟩ := bind_eq_ok.mp h
  obtain ⟨k₁, h₁, h⟩ := bind_eq_ok.mp h
  exact (setState (.inl (.inl rfl))).trans ((yieldProc h₁).trans (schedule h))

theorem wakeOne (h : k.wakeOne held c chan p = .ok k') :
    Turns k k' := by
  unfold Kernel.wakeOne at h
  split_ifs at h with hs
  · obtain ⟨rq, hrq, rfl⟩ := Kernel.enqueueProc_bound h
    have hk : ((k.setState p .runnable).setRq (c, .one) rq).setProc p
          ((k.setState p .runnable).stamp (c, .one) p) =
        (k.setProc p ((k.setState p .runnable).stamp (c, .one) p)).setRq (c, .one) rq := by
      simp [Kernel.setState, Kernel.setProc, Kernel.setRq]
    have ht : Turns k (k.setProc p ((k.setState p .runnable).stamp (c, .one) p)) := by
      apply setProc
      intro hf
      refine ⟨fun ht => Kernel.stamp_timed (k := k.setState p .runnable) hf fun _ => ?_,
        .inr ⟨?_, .inl ⟨hs.1, ?_⟩⟩⟩
      · simpa [Proc.Timed] using ht
      · simp [Proc.New]
      · simp
    rw [hk]
    exact ht.trans (setRq hrq)
  · cases h
    exact refl k

theorem wakeup1 (h : k.wakeup1 held c chan = .ok k') :
    Turns k k' :=
  foldlM_inv (P := Turns k) (fun _ _ _ _ hk hw => hk.trans (wakeOne hw)) (refl k) h

theorem reparentOne {me : Fin NPROC} (h : k.reparentOne held c me p = .ok k') : Turns k k' := by
  have hp : Turns k (k.setProc p { k.proc p with parent := k.initproc }) :=
    setProc fun _ => .store rfl rfl (.inl rfl)
  unfold Kernel.reparentOne at h
  dsimp only at h
  split_ifs at h
  · exact hp.trans (wakeup1 h)
  · cases h
    exact hp
  · cases h
    exact refl k

theorem exit (h : k.exit c = .ok k') : Turns k k' := by
  obtain ⟨k₁, h₁, h⟩ := bind_eq_ok.mp h
  obtain ⟨k₂, h₂, h⟩ := bind_eq_ok.mp h
  have ht₁ : Turns k k₁ := by
    obtain ⟨me, -, h₁⟩ := bind_eq_ok.mp h₁
    split_ifs at h₁
    cases h₁
    exact setProc fun _ => .store rfl rfl (.inl rfl)
  have ht₂ : Turns k₁ k₂ := by
    obtain ⟨me, -, h₂⟩ := bind_eq_ok.mp h₂
    obtain ⟨k₃, h₃, h₂⟩ := bind_eq_ok.mp h₂
    obtain ⟨k₄, h₄, h₂⟩ := bind_eq_ok.mp h₂
    cases h₂
    have ht₄ : Turns k₃ k₄ :=
      foldlM_inv (P := Turns k₃) (fun _ _ _ _ hk hw => hk.trans (reparentOne hw)) (refl k₃) h₄
    exact ((wakeup1 h₃).trans ht₄).trans (setProc fun _ => .store rfl rfl (.inr (.inr rfl)))
  exact (ht₁.trans ht₂).trans (schedule h)

/-- A process moves on to the next level. What its slot was before does not matter: the slice
of a process whose time is up is not within its bounds. -/
theorem requeue {k₁ k₂ : Kernel NPROC NCPU} (hq : q.rq = some r) (hs : q.state = (k.proc p).state)
    (hrq : (k.proc p).rq = some r) (hl : r.2.next = some l)
    (h₁ : (k.setProc p q).subDequeueProc r p = .ok k₁) (h₂ : k₁.subEnqueueProc (r.1, l) p = .ok k₂)
    : Turns k k₂ := by
  obtain ⟨rq₁, hrq₁, h₁⟩ := bind_eq_ok.mp h₁
  cases h₁
  obtain ⟨rq₂, hrq₂, rfl⟩ := Kernel.subEnqueueProc_bound h₂
  have hrank := Level.rank_next hl
  have hb₁ := SchedClass.dequeueProc_maxSlices hrq₁
  have ht : Turns k (k.setProc p (((k.setProc p q).setRq r rq₁).stamp (r.1, l) p)) := by
    apply setProc
    intro hf
    constructor
    · refine fun _ => Kernel.stamp_timed ?_ fun h => ?_
      · exact (setRq hb₁).full hf
      · simp only [Kernel.setRq_proc, Kernel.setProc_proc, update_self, hq] at h
        have hsame : r.2 = l := congrArg Prod.snd (Option.some.inj h)
        rw [hsame] at hrank
        omega
    · by_cases hn : (k.proc p).New
      · exact .inl hn
      · refine .inr ⟨by simpa [Proc.New, hs] using hn, .inr ⟨by simp [hs], ?_⟩⟩
        rw [hrq]
        exact ⟨(r.1, l), rfl, hrank ▸ Nat.le_succ _⟩
  have hk : (((k.setProc p q).setRq r rq₁).setRq (r.1, l) rq₂).setProc p
        (((k.setProc p q).setRq r rq₁).stamp (r.1, l) p) =
      ((k.setProc p (((k.setProc p q).setRq r rq₁).stamp (r.1, l) p)).setRq r rq₁).setRq
        (r.1, l) rq₂ := by
    simp [Kernel.setProc, Kernel.setRq]
  rw [hk]
  exact (ht.trans (setRq hb₁)).trans (setRq hrq₂)

theorem demote (hq : q.rq = some r) (hs : q.state = (k.proc p).state) (hrq : (k.proc p).rq = some r)
    (h : (k.setProc p q).demote held c p = .ok k') :
    Turns k k' := by
  unfold Kernel.demote at h
  rw [Kernel.setProc_proc, update_self, hq, deref_some, ok_bind] at h
  obtain ⟨k₁, h₁, h⟩ := bind_eq_ok.mp h
  obtain ⟨l, hl, h⟩ := bind_eq_ok.mp h
  obtain ⟨k₂, h₂, h⟩ := bind_eq_ok.mp h
  obtain ⟨me, -, h⟩ := bind_eq_ok.mp h
  have ht := requeue hq hs hrq (deref_eq_ok.mp hl) h₁ h₂
  exact ht.trans ((setState (.inl (.inl rfl))).trans (schedule h))

theorem procTick (h : k.procTick c p = .ok k') : Turns k k' := by
  unfold Kernel.procTick Kernel.procTickMLFQ at h
  split_ifs at h with hi hrq h₃
  · exact yield h
  · simp only [Kernel.setProc_proc, update_self] at h
    split_ifs at h with h₀
    · obtain ⟨r, hr⟩ : ∃ r, (k.proc p).rq = some r := by
        obtain hrq | hrq := hrq
        · exact ⟨_, hrq⟩
        · exact ⟨_, hrq⟩
      obtain ⟨⟨k₁, t⟩, h₁, h⟩ := bind_eq_ok.mp h
      cases h₁
      refine demote (q := { k.proc p with timeslice := (k.proc p).timeslice - 1 }) ?_ ?_ hr h
      · exact hr
      · rfl
    · cases h
      apply setProc
      intro _
      constructor
      · intro ht r hr hcls
        have := ht r hr hcls
        dsimp only
        omega
      · by_cases hn : (k.proc p).New
        · exact .inl hn
        · exact .inr ⟨hn, .inr ⟨id, .refl _⟩⟩
  · cases h
    exact refl k
  · cases h

theorem subEnqueueAll {ms : List (Fin NPROC)}
    (h : k.subEnqueueAll (c, l) (ms.map some) = .ok k')
    (hms : ∀ p ∈ ms, ∃ d, (k.proc p).rq = some (d, l)) :
    Turns k k' ∧ ∀ p, p ∉ ms → k'.proc p = k.proc p := by
  induction ms generalizing k with
  | nil =>
    cases h
    exact ⟨refl _, fun _ _ => rfl⟩
  | cons p ms ih =>
    unfold Kernel.subEnqueueAll at h
    rw [List.map_cons, List.foldlM_cons, deref_some, ok_bind] at h
    obtain ⟨k₁, h₁, h⟩ := bind_eq_ok.mp h
    obtain ⟨d, hd⟩ := hms p List.mem_cons_self
    have ht₁ : Turns k k₁ := subEnqueueProc h₁ (by rw [hd]; exact ⟨_, rfl, le_rfl⟩)
    obtain ⟨rq, rfl⟩ := Kernel.subEnqueueProc_ok h₁
    obtain ⟨ht, hout⟩ := ih h (by
      intro q hq
      by_cases hqp : q = p
      · exact ⟨c, by simp [hqp]⟩
      · simpa [hqp] using hms q (List.mem_cons_of_mem p hq))
    refine ⟨ht₁.trans ht, fun q hq => ?_⟩
    rw [List.mem_cons, not_or] at hq
    rw [hout q hq.2]
    simp [hq.1]

theorem loadBalance (hl : Links Z k Q ∅) (h : k.loadBalanceMLFQ c = .ok k') : Turns k k' := by
  unfold Kernel.loadBalanceMLFQ at h
  split at h
  · cases h
    exact refl k
  · next src hsrc =>
    obtain ⟨⟨k₁, ms⟩, h₁, h⟩ := bind_eq_ok.mp h
    have ht₁ : Turns k k₁ := by
      obtain ⟨⟨k₂, m₁⟩, h₂, h₁⟩ := bind_eq_ok.mp h₁
      obtain ⟨⟨k₃, m₂⟩, h₃, h₁⟩ := bind_eq_ok.mp h₁
      obtain ⟨⟨k₄, m₃⟩, h₄, h₁⟩ := bind_eq_ok.mp h₁
      cases h₁
      exact ((subGetProc h₂).trans (subGetProc h₃)).trans (subGetProc h₄)
    obtain ⟨rqs, rfl⟩ := Kernel.balanceGet_ok h₁
    obtain ⟨k₂, h₂, -⟩ := hl.balanceGet src
    obtain rfl : (fun l => (taken (Q (src, l))).map some) = ms :=
      (Prod.mk.inj (Except.ok.inj (h₂.symm.trans h₁))).2
    have hrq : ∀ {l p}, p ∈ taken (Q (src, l)) → (k.proc p).rq = some (src, l) := fun hp =>
      hl.rq _ _ ((taken_append_kept_perm _).mem_iff.mp (List.mem_append_right _ hp))
    have hout : ∀ {l l' p}, p ∈ taken (Q (src, l)) → l ≠ l' → p ∉ taken (Q (src, l')) := by
      intro l l' p hp hne hp'
      exact hne (Prod.mk.inj (Option.some.inj ((hrq hp).symm.trans (hrq hp')))).2
    obtain ⟨k₃, h₃, h⟩ := bind_eq_ok.mp h
    obtain ⟨k₄, h₄, h₅⟩ := bind_eq_ok.mp h
    obtain ⟨ht₃, hk₃⟩ := subEnqueueAll h₃ fun p hp => ⟨src, hrq hp⟩
    obtain ⟨ht₄, hk₄⟩ := subEnqueueAll h₄ fun p hp => ⟨src, by
      rw [hk₃ p (hout hp nofun)]
      exact hrq hp⟩
    obtain ⟨ht₅, -⟩ := subEnqueueAll h₅ fun p hp => ⟨src, by
      rw [hk₄ p (hout hp nofun), hk₃ p (hout hp nofun)]
      exact hrq hp⟩
    exact ((ht₁.trans ht₃).trans ht₄).trans ht₅

theorem tick (hI : Inv Z k Q none) {user : Bool} (h : k.tick user c = .ok k') : Turns k k' := by
  obtain ⟨k₁, h₁, h⟩ := bind_eq_ok.mp h
  obtain ⟨k₂, ys, h₂, hI₁, -⟩ := hI.tickWakeup c
  obtain rfl : k₂ = k₁ := Except.ok.inj (h₂.symm.trans h₁)
  have ht₁ : Turns k k₂ := by
    unfold Kernel.tickWakeup at h₁
    split_ifs at h₁
    · exact wakeup1 h₁
    · cases h₁
      exact refl k
  refine ht₁.trans ?_
  unfold Kernel.tickProc at h
  split at h
  · cases h
    exact refl _
  · next p _ =>
    split_ifs at h
    · exact exit h
    · obtain ⟨k₃, h₃, h⟩ := bind_eq_ok.mp h
      refine trans ?_ (procTick h)
      unfold Kernel.tickBalance at h₃
      split_ifs at h₃
      · exact loadBalance hI₁.links h₃
      · cases h₃
        exact refl _
    · cases h
      exact refl _

end Turns

/-- What an operation may do to a slot: the level goes up only when the operation wakes the
process. -/
structure Proc.Carried (q q' : Proc NPROC NCPU) : Prop where
  timed : q.Timed → q'.Timed
  level : q.New ∨ (q.state = .sleeping ∧ q'.state ≠ .sleeping) ∨ Below q.rq q'.rq

theorem Proc.Turn.carried (h : q.Turn q') : q.Carried q' :=
  ⟨h.timed, h.level.imp_right fun h => h.2.imp_right And.right⟩

theorem Proc.Carried.of_eq (hrq : q'.rq = q.rq) (ht : q'.timeslice = q.timeslice) :
    q.Carried q' := by
  refine ⟨fun h r hr => ?_, .inr (.inr (hrq ▸ .refl _))⟩
  rw [ht]
  exact h r (hrq ▸ hr)

/-- What an operation does to the queues' bounds and to the slots. -/
structure Carries (k k' : Kernel NPROC NCPU) : Prop where
  idleproc : k'.idleproc = k.idleproc
  bound : ∀ r, (k'.rqs r).maxSlices = (k.rqs r).maxSlices
  slot : k.Full → ∀ p, (k.proc p).Carried (k'.proc p)

theorem Turns.carries (h : Turns k k') : Carries k k' :=
  ⟨h.idleproc, h.bound, fun hf p => (h.slot hf p).carried⟩

theorem Kernel.schedule_slot (h : k.schedule held c = .ok k') (q : Fin NPROC) :
    (k'.proc q).rq = (k.proc q).rq ∧ (k'.proc q).timeslice = (k.proc q).timeslice := by
  obtain ⟨-, prev, next, rqs, -, rfl⟩ := Kernel.schedule_ok h
  by_cases hn : q = next
  · simp [hn]
  · simp [hn]

namespace Carries

variable {kstackOk memOk : Bool}

theorem sleep {chan : Chan NPROC} (h : k.sleep c chan = .ok k') : Carries k k' := by
  obtain ⟨k₁, h₁, h⟩ := bind_eq_ok.mp h
  obtain ⟨p, -, h₁⟩ := bind_eq_ok.mp h₁
  cases h₁
  refine ⟨(Turns.schedule h).idleproc, (Turns.schedule h).bound, fun _ q => ?_⟩
  obtain ⟨hrq, ht⟩ := Kernel.schedule_slot h q
  by_cases hp : q = p
  · subst hp
    exact .of_eq (by simpa using hrq) (by simpa using ht)
  · exact .of_eq (by simpa [hp] using hrq) (by simpa [hp] using ht)

theorem wait (h : k.wait c = .ok k') : Carries k k' := by
  obtain ⟨me, -, h⟩ := bind_eq_ok.mp h
  split at h
  · next q _ =>
    cases h
    refine ⟨rfl, fun _ => rfl, fun _ p => ?_⟩
    by_cases hp : p = q
    · subst hp
      apply Proc.Carried.of_eq
      · simp [Kernel.reap]
      · simp [Kernel.reap]
    · simpa [Kernel.reap, hp] using (Proc.Turn.refl (k.proc p)).carried
  · cases h
    exact (Turns.refl _).carries
  · exact sleep h

theorem copied {me : Fin NPROC} {o : Option (Fin NPROC)} (h : k.Copied me kstackOk memOk o k') :
    Carries k k' := by
  have hslot : ∀ {np p : Fin NPROC} {q : Proc NPROC NCPU}, (k.proc np).state = .unused →
      q.rq = none → (k.proc p).Carried (update k.proc np q p) := by
    intro np p q hu hq
    by_cases hp : p = np
    · subst hp
      rw [update_self]
      refine ⟨fun _ r hr => ?_, .inl (.inl hu)⟩
      rw [hq] at hr
      cases hr
    · rw [update_of_ne hp]
      exact (Proc.Turn.refl _).carried
  cases h with
  | full => exact (Turns.refl _).carries
  | nokstack hu => exact ⟨rfl, fun _ => rfl, fun _ _ => hslot hu rfl⟩
  | nomem hu => exact ⟨rfl, fun _ => rfl, fun _ _ => hslot hu rfl⟩
  | done hu => exact ⟨rfl, fun _ => rfl, fun _ _ => hslot hu rfl⟩

theorem forkEnqueue {np : Fin NPROC} (hnp : (k.proc np).New)
    (h : k.forkEnqueue held c np = .ok k') : Carries k k' := by
  obtain ⟨rq, hrq, rfl⟩ := Kernel.enqueueProc_bound h
  refine ⟨rfl, (Turns.setRq hrq).bound, fun hf p => ?_⟩
  by_cases hp : p = np
  · subst hp
    refine ⟨fun ht => ?_, .inl hnp⟩
    have hs : ((k.setState p .runnable).stamp (c, .one) p).Timed :=
      Kernel.stamp_timed (k := k.setState p .runnable) hf fun _ => by
        simpa [Proc.Timed] using ht
    simpa using hs
  · simpa [hp] using (Proc.Turn.refl (k.proc p)).carried

theorem fork (h : k.fork kstackOk memOk c = .ok k') : Carries k k' := by
  obtain ⟨⟨o, k₁⟩, h₁, h⟩ := bind_eq_ok.mp h
  obtain ⟨me, hme, -⟩ := bind_eq_ok.mp h₁
  obtain ⟨o', k₂, h₂, hc⟩ := Kernel.copyproc_copied (deref_eq_ok.mp hme) kstackOk memOk
  obtain ⟨rfl, rfl⟩ : o' = o ∧ k₂ = k₁ := Prod.mk.inj (Except.ok.inj (h₂.symm.trans h₁))
  cases o' with
  | none =>
    cases h
    exact copied hc
  | some np =>
    have hnew : (k.proc np).New := by
      cases hc with
      | done hu => exact .inl hu
    have h₁ := copied hc
    have h₂ := forkEnqueue (.inr hc.embryo) h
    refine ⟨h₂.idleproc.trans h₁.idleproc, fun r => (h₂.bound r).trans (h₁.bound r),
      fun hf p => ?_⟩
    have hf₁ : k₂.Full := fun r => (h₁.bound r).trans (hf r)
    refine ⟨(h₂.slot hf₁ p).timed ∘ (h₁.slot hf p).timed, ?_⟩
    by_cases hp : p = np
    · subst hp
      exact .inl hnew
    · -- the other slots are as `copyproc` left them
      have hp' : k'.proc p = k₂.proc p := by
        obtain ⟨-, rq, rfl⟩ := Kernel.enqueueProc_ok h
        simp [hp]
      rw [hp']
      exact (h₁.slot hf p).level

end Carries

theorem Inv.carries (hI : Inv Z k Q none) {a : Fin NCPU × Op NPROC} (hs : Step k a k') :
    Carries k k' := by
  obtain ⟨c, op⟩ := a
  obtain ⟨-, hen, hex⟩ := hs
  cases op with
  | runIdle =>
    obtain ⟨p, -, h⟩ := bind_eq_ok.mp hex
    cases h
    have ht := (Turns.setState (k := { k with curproc := update k.curproc c (some p) }) (p := p)
      (s := .running) (.inl (.inr rfl))).carries
    exact ⟨ht.idleproc, ht.bound, ht.slot⟩
  | fork kstackOk memOk => exact .fork hex
  | copyproc kstackOk memOk =>
    obtain ⟨⟨o, k₁⟩, h₁, h⟩ := bind_eq_ok.mp hex
    cases h
    obtain ⟨me, hme, -⟩ := bind_eq_ok.mp h₁
    obtain ⟨o', k₂, h₂, hc⟩ := Kernel.copyproc_copied (deref_eq_ok.mp hme) kstackOk memOk
    obtain ⟨rfl, rfl⟩ := Prod.mk.inj (Except.ok.inj (h₂.symm.trans h₁))
    exact .copied hc
  | forkEnqueue np => exact .forkEnqueue (.inr hen.2.2.1) hex
  | sleep chan => exact .sleep hex
  | sleepClear =>
    obtain ⟨p, -, h⟩ := bind_eq_ok.mp hex
    cases h
    apply Turns.carries
    apply Turns.setProc
    intro _
    exact .store rfl rfl (.inl rfl)
  | wakeup chan => exact (Turns.wakeup1 hex).carries
  | exit => exact (Turns.exit hex).carries
  | wait => exact .wait hex
  | tick user => exact (Turns.tick hI hex).carries

/-- The slices between operations; the idle processes are never queued. -/
structure Sliced (k : Kernel NPROC NCPU) : Prop where
  full : k.Full
  timed : ∀ p, (k.proc p).Timed
  idle : ∀ c i, k.idleproc c = some i → (k.proc i).rq = none

theorem Sliced.carries (h : Sliced k) (hI : Inv Z k Q none) (hc : Carries k k') : Sliced k' where
  full r := (hc.bound r).trans (h.full r)
  timed p := (hc.slot h.full p).timed (h.timed p)
  idle c i hi := by
    rw [hc.idleproc] at hi
    have hr : (k.proc i).state.Ready := hI.ready_of_idle hi
    rcases (hc.slot h.full i).level with hn | ⟨hs, -⟩ | hb
    · rcases hn with hn | hn <;> simp [hn, ProcState.Ready] at hr
    · simp [hs, ProcState.Ready] at hr
    · rw [h.idle c i hi] at hb
      exact hb

theorem Sliced.pinit (NPROC NCPU ncpu : ℕ) : Sliced (Kernel.pinit NPROC NCPU ncpu) where
  full _ := rfl
  timed _ := nofun
  idle := nofun

theorem Sliced.newProc (h : Sliced k) (hk : k.newProc = .ok (p, k')) :
    Sliced k' ∧ (k'.proc p).rq = none := by
  obtain ⟨-, rfl⟩ := Kernel.newProc_ok hk
  refine ⟨⟨h.full, fun q => ?_, fun c i hi => ?_⟩, by simp⟩
  · by_cases hq : q = p
    · subst hq
      intro r hr
      simp at hr
    · simpa [hq] using h.timed q
  · by_cases hip : i = p
    · simp [hip]
    · simpa [hip] using h.idle c i hi

theorem Sliced.userinit {ncpu : ℕ} (h : (Kernel.pinit NPROC NCPU ncpu).userinit b = .ok k₀) :
    Sliced k₀ := by
  obtain ⟨⟨p, k₁⟩, h₁, h⟩ := bind_eq_ok.mp h
  obtain ⟨k₂, h₂, h⟩ := bind_eq_ok.mp h
  obtain ⟨hs₁, -⟩ := (Sliced.pinit NPROC NCPU ncpu).newProc h₁
  refine foldlM_inv (P := Sliced) ?_ ?_ h
  · intro d _ k k' hk hd
    obtain ⟨⟨q, k₃⟩, h₃, hd⟩ := bind_eq_ok.mp hd
    obtain ⟨hs₃, hq⟩ := hk.newProc h₃
    cases hd
    refine ⟨hs₃.full, hs₃.timed, fun c i hi => ?_⟩
    dsimp only at hi
    by_cases hc : c = d
    · subst hc
      rw [update_self] at hi
      cases hi
      exact hq
    · rw [update_of_ne hc] at hi
      exact hs₃.idle c i hi
  · obtain ⟨-, hk₁⟩ := Kernel.newProc_ok h₁
    obtain ⟨rq, hrq, rfl⟩ := Kernel.enqueueProc_bound h₂
    refine ⟨(Turns.setRq hrq).full hs₁.full, fun q => ?_, fun c i hi => ?_⟩
    · by_cases hq : q = p
      · subst hq
        have := Kernel.stamp_timed (r := (b, .one)) hs₁.full fun _ => hs₁.timed q
        simpa using this
      · simpa [hq] using hs₁.timed q
    · rw [hk₁] at hi
      cases hi

theorem Kernel.demote_slot (h : k.demote held c p = .ok k') (hf : k.Full)
    (hrq : (k.proc p).rq = some r) (hl : r.2.next = some l') :
    (k'.proc p).rq = some (r.1, l') ∧
      (l'.subSchedClass = .RR → (k'.proc p).timeslice = l'.maxSlices) := by
  unfold Kernel.demote at h
  rw [hrq, deref_some, ok_bind] at h
  obtain ⟨k₁, h₁, h⟩ := bind_eq_ok.mp h
  obtain ⟨l, hl₁, h⟩ := bind_eq_ok.mp h
  obtain ⟨k₂, h₂, h⟩ := bind_eq_ok.mp h
  obtain ⟨me, -, h⟩ := bind_eq_ok.mp h
  obtain rfl : l = l' := Option.some.inj ((deref_eq_ok.mp hl₁).symm.trans hl)
  have hf₁ := (Turns.subDequeueProc h₁).full hf
  have hrq₁ : (k₁.proc p).rq ≠ some (r.1, l) := by
    obtain ⟨rq₁, rfl⟩ := Kernel.subDequeueProc_ok h₁
    rw [Kernel.setRq_proc, hrq]
    intro hr
    have hrank := Level.rank_next hl
    have hsame : r.2 = l := congrArg Prod.snd (Option.some.inj hr)
    rw [hsame] at hrank
    omega
  obtain ⟨rq₂, rfl⟩ := Kernel.subEnqueueProc_ok h₂
  obtain ⟨hr', ht'⟩ := Kernel.schedule_slot h p
  have hs : ∀ {k : Kernel NPROC NCPU}, ((k.setState me .runnable).proc p).rq = (k.proc p).rq ∧
      ((k.setState me .runnable).proc p).timeslice = (k.proc p).timeslice := by
    intro k
    by_cases hp : p = me
    · simp [hp]
    · simp [hp]
  rw [hr', ht', hs.1, hs.2]
  refine ⟨by simp, fun hcls => ?_⟩
  simp [hcls, hrq₁, hf₁ (r.1, l)]

/-- What a tick does to the current process `p`, which is on the round-robin level `l` of CPU
`c` above the level `l'`. -/
structure Ticked (c : Fin NCPU) (p : Fin NPROC) (l l' : Level) (k : Kernel NPROC NCPU)
    (Q : RqId NCPU → List (Fin NPROC)) (k' : Kernel NPROC NCPU)
    (Q' : RqId NCPU → List (Fin NPROC)) : Prop where
  counted : (k.proc p).timeslice - 1 ≠ 0 → (k'.proc p).rq = some (c, l) ∧ p ∈ Q' (c, l) ∧
    (k'.proc p).timeslice = (k.proc p).timeslice - 1
  ended : (k.proc p).timeslice - 1 = 0 → (k'.proc p).rq = some (c, l') ∧
    Q' (c, l') = Q (c, l') ++ [p] ∧ (∀ r, r ≠ (c, l') → p ∉ Q' r) ∧
    (l' = .two → (k'.proc p).timeslice = (k'.rqs (c, .two)).maxSlices)

section

variable (hI : Inv Z k Q none) (hf : k.Full) (hcur : k.curproc c = some p) (hp : p ∈ Q (c, l))
  (hl : l.next = some l')
include hI hf hcur hp hl

theorem Inv.procTick_ticked :
    ∃ k' Q', k.procTick c p = .ok k' ∧ Inv Z k' Q' none ∧ Ticked c p l l' k Q k' Q' := by
  have hrq := hI.links.rq (c, l) p hp
  have hi : k.idleproc c ≠ some p := fun h => hI.links.notIdle (c, l) p hp ⟨c, h⟩
  have hlevel : (k.proc p).rq = some (c, .one) ∨ (k.proc p).rq = some (c, .two) := by
    rw [hrq]
    cases l with
    | one => exact .inl rfl
    | two => exact .inr rfl
    | three => cases hl
  have hI₁ : Inv Z (k.setProc p { k.proc p with timeslice := (k.proc p).timeslice - 1 }) Q
      none := by
    refine (Tended.setProc (Tended.refl hI c) ?_ ?_ ?_).inv <;> rfl
  have hrq₁ : ((k.setProc p { k.proc p with
      timeslice := (k.proc p).timeslice - 1 }).proc p).rq = some (c, l) := by
    simpa using hrq
  unfold Kernel.procTick Kernel.procTickMLFQ
  rw [if_neg hi, if_pos hlevel]
  simp only [Kernel.setProc_proc, update_self]
  split_ifs with ht
  · obtain ⟨k', xs, -, hk, hI'⟩ := hI₁.demote hcur hi hrq₁ hl
    obtain ⟨hr', ht'⟩ := Kernel.demote_slot hk hf hrq₁ hl
    have hb := (Turns.demote (q := { k.proc p with timeslice := (k.proc p).timeslice - 1 })
      hrq rfl hrq hk).full hf
    refine ⟨k', _, hk, hI', fun h => absurd ht h, fun _ => ⟨hr', by simp, ?_, ?_⟩⟩
    · intro r hr hpr
      exact hr (hI'.links.unique hpr (by simp))
    · rintro rfl
      rw [hb (c, .two)]
      exact ht' rfl
  · refine ⟨_, Q, rfl, hI₁, fun _ => ⟨hrq₁, hp, by simp⟩, fun h => absurd h ht⟩

theorem Inv.tick_ticked {user : Bool} (hk : ¬ ((k.proc p).killed = true ∧ user = true)) :
    ∃ k' Q', k.tick user c = .ok k' ∧ Inv Z k' Q' none ∧ Ticked c p l l' k Q k' Q' := by
  have hrun := (hI.settled c nofun p hcur).running
  have hi : k.idleproc c ≠ some p := fun h => hI.links.notIdle (c, l) p hp ⟨c, h⟩
  obtain ⟨k₁, ys, hw, hI₁, hcur₁, hidle₁, hproc⟩ := hI.tickWakeup c
  have hp₁ : k₁.proc p = k.proc p := hproc p (by rw [hrun]; decide)
  have hf₁ : k₁.Full := by
    unfold Kernel.tickWakeup at hw
    split_ifs at hw
    · exact (Turns.wakeup1 hw).full hf
    · cases hw
      exact hf
  have hpQ : p ∈ update Q (c, .one) (Q (c, .one) ++ ys) (c, l) := by
    cases l with
    | one => simp [hp]
    | two => simpa using hp
    | three => simpa using hp
  have hl' : (c, l') ≠ (c, .one) := by
    intro h
    have hrank := Level.rank_next hl
    rw [(Prod.mk.inj h).2] at hrank
    cases hrank
  rw [← hcur₁] at hcur
  obtain ⟨k', Q', ht, hI', hT⟩ := hI₁.procTick_ticked hf₁ hcur hpQ hl
  refine ⟨k', Q', ?_, hI', ?_⟩
  · unfold Kernel.tick Kernel.tickProc Kernel.tickBalance
    simp only [hw, ok_bind, hcur, hp₁]
    rw [if_neg hk, if_pos hrun, hidle₁, if_neg hi]
    exact ht
  · obtain ⟨hcount, hend⟩ := hT
    rw [hp₁] at hcount hend
    rw [update_of_ne hl'] at hend
    exact ⟨hcount, hend⟩

end

/-- The step does not wake `p`, whose slot holds a process that has been queued. -/
def Undisturbed (p : Fin NPROC) (k k' : Kernel NPROC NCPU) : Prop :=
  ¬ (k.proc p).New ∧ ¬ ((k.proc p).state = .sleeping ∧ (k'.proc p).state ≠ .sleeping)

section
variable {ncpu : ℕ}

/-- The steps of a run with one CPU, or of one in which no step removes the only process of a
level-3 queue that is not null-terminated. -/
def SoundStep (ncpu : ℕ) (k : Kernel NPROC NCPU) (a : Fin NCPU × Op NPROC)
    (k' : Kernel NPROC NCPU) : Prop :=
  Step k a k' ∧ (ncpu = 1 ∨ Clean k a)

theorem sliced_of_reach (h₀ : (Kernel.pinit NPROC NCPU ncpu).userinit b = .ok k₀)
    (hr : Reach (SoundStep ncpu) k₀ k) : ∃ Q, Inv (fun _ => ncpu = 1) k Q none ∧ Sliced k := by
  induction hr with
  | start =>
    obtain ⟨Q, hI⟩ := Inv.userinit h₀
    exact ⟨Q, hI, Sliced.userinit h₀⟩
  | next _ hs ih =>
    obtain ⟨Q, hI, hS⟩ := ih
    obtain ⟨Q', hI'⟩ := hI.step hs.1 fun hl => hs.2.imp_right fun hc hd => hc ⟨hl, hd⟩
    exact ⟨Q', hI', hS.carries hI (hI.carries hs.1)⟩

theorem below_of_undisturbed (h₀ : (Kernel.pinit NPROC NCPU ncpu).userinit b = .ok k₀)
    (hr : Reach (SoundStep ncpu) k₀ k)
    (hr' : Reach (fun k a k' => SoundStep ncpu k a k' ∧ Undisturbed p k k') k k') :
    Below (k.proc p).rq (k'.proc p).rq := by
  have key : Reach (SoundStep ncpu) k₀ k' ∧ Below (k.proc p).rq (k'.proc p).rq := by
    induction hr' with
    | start => exact ⟨hr, .refl _⟩
    | next _ hs ih =>
      obtain ⟨hr₁, hb⟩ := ih
      obtain ⟨hs, hnew, hsleep⟩ := hs
      obtain ⟨Q, hI, hS⟩ := sliced_of_reach h₀ hr₁
      refine ⟨hr₁.next hs, ?_⟩
      rcases ((hI.carries hs.1).slot hS.full p).level with h | h | h
      · exact absurd h hnew
      · exact absurd h hsleep
      · exact hb.trans h
  exact key.2

/-- Slices and levels in every state of such a run. -/
theorem slices_and_levels (h₀ : (Kernel.pinit NPROC NCPU ncpu).userinit b = .ok k₀)
    (hr : Reach (SoundStep ncpu) k₀ k) :
    (∀ p r, (k.proc p).rq = some r → r.2 ≠ .three →
      1 ≤ (k.proc p).timeslice ∧ (k.proc p).timeslice ≤ (k.rqs r).maxSlices) ∧
    (∃ Q, Agreement k Q ∧ ∀ c p r l user, k.curproc c = some p → (k.proc p).rq = some r →
      r.2.next = some l → ¬ ((k.proc p).killed = true ∧ user = true) →
      r.1 = c ∧ ∃ k' Q', k.tick user c = .ok k' ∧ Agreement k' Q' ∧
        Ticked c p r.2 l k Q k' Q') ∧
    ∀ p r k', (k.proc p).rq = some r →
      Reach (fun k a k' => SoundStep ncpu k a k' ∧ Undisturbed p k k') k k' →
      ∃ r', (k'.proc p).rq = some r' ∧ r.2.rank ≤ r'.2.rank := by
  obtain ⟨Q, hI, hS⟩ := sliced_of_reach h₀ hr
  refine ⟨?_, ⟨Q, hI.agreement, ?_⟩, ?_⟩
  · intro p r hrq hl
    rw [hS.full r]
    refine hS.timed p r hrq ?_
    cases h : r.2 with
    | one => rfl
    | two => rfl
    | three => exact absurd h hl
  · intro c p r l user hcur hrq hl hk
    have hi : k.idleproc c ≠ some p := by
      intro hi
      rw [hS.idle c p hi] at hrq
      cases hrq
    obtain ⟨l₀, xs, hq⟩ := hI.head_of_curproc hcur hi
    have hp : p ∈ Q (c, l₀) := by simp [hq]
    obtain rfl : (c, l₀) = r := Option.some.inj ((hI.links.rq _ p hp).symm.trans hrq)
    obtain ⟨k', Q', ht, hI', hT⟩ := hI.tick_ticked hS.full hcur hp hl hk
    exact ⟨rfl, k', Q', ht, hI'.agreement, hT⟩
  · intro p r k' hrq hr'
    have hb := below_of_undisturbed h₀ hr hr'
    rw [hrq] at hb
    exact hb

/-- Init has sunk to level 2 with one tick left; the tick sends it to the end of level 3. -/
theorem slices_and_levels_sunk : ∃ k₀ k k' : Kernel 64 8, ∃ Q Q',
    (Kernel.pinit 64 8 1).userinit 0 = .ok k₀ ∧ Reach (SoundStep 1) k₀ k ∧ k.Sunk 0 0 9 1 ∧
    Agreement k Q ∧ 1 ≤ (k.proc 9).timeslice ∧ k.tick true 0 = .ok k' ∧ Agreement k' Q' ∧
    Q' (0, .three) = Q (0, .three) ++ [0] ∧ (k'.proc 0).rq = some (0, .three) := by
  obtain ⟨k₀, k, h₀, hr, hk, hs⟩ := exists_sunk
  have hr' : Reach (SoundStep 1) k₀ (k.spend 0 499) :=
    (hr.trans hs.reach).mono fun _ _ _ hs => ⟨hs, .inl rfl⟩
  have hk' : (k.spend 0 499).Sunk 0 0 9 1 := by
    obtain ⟨hcur, hrun, hrq, ht, hrest⟩ := hk
    exact ⟨hcur, by simpa [Kernel.spend] using hrun, by simpa [Kernel.spend] using hrq,
      by simp [Kernel.spend, ht], by simpa [Kernel.spend] using hrest⟩
  obtain ⟨hb, ⟨Q, hA, htick⟩, -⟩ := slices_and_levels h₀ hr'
  obtain ⟨hcur, hrun, hrq, ht, hkill, hs', hrq', hi⟩ := hk'
  obtain ⟨-, k', Q', hk', hA', hT⟩ := htick 0 0 (0, .two) .three true hcur hrq rfl
    (by simp [hkill])
  obtain ⟨hrq₃, hQ, -⟩ := hT.ended (by rw [ht]; rfl)
  exact ⟨k₀, _, k', Q, Q', h₀, hr', ⟨hcur, hrun, hrq, ht, hkill, hs', hrq', hi⟩,
    hA, (hb 9 _ hrq' (by decide)).1, hk', hA', hQ, hrq₃⟩

end

/-- The node that `n` links lead to from `next_to_run` -/
def Rq.nth (rq : Rq NPROC) : ℕ → Option (Fin NPROC)
  | 0 => rq.nextToRun
  | n + 1 => (rq.nth n).bind rq.next

theorem Rq.nth_add {rq : Rq NPROC} {n : ℕ} (h : rq.nth n = none) (m : ℕ) :
    rq.nth (n + m) = none := by
  induction m with
  | zero => exact h
  | succ m ih => rw [← Nat.add_assoc, Rq.nth, ih, Option.bind_none]

/-- What the counterexample reaches: `p` is current on level 2 of CPU `c` in the last tick of
its slice, and this tick leaves it runnable with `p->rq` on level 3, but with no process counted
there and no link from `next_to_run` to it. -/
def Kernel.Strands (c : Fin NCPU) (p : Fin NPROC) (k : Kernel NPROC NCPU) : Prop :=
  k.curproc c = some p ∧ (k.proc p).rq = some (c, .two) ∧ (k.proc p).timeslice = 1 ∧
  (k.proc p).killed = false ∧ (k.tick true c).toOption.any (fun k' =>
    (k'.proc p).state = .runnable ∧ (k'.proc p).rq = some (c, .three) ∧
    (k'.rqs (c, .three)).procNum = 0 ∧ (k'.rqs (c, .three)).nth NPROC = none ∧
    ∀ n < NPROC, ((k'.rqs (c, .three)).nth n).bind (k'.rqs (c, .three)).proc ≠ some p) = true

instance (c : Fin NCPU) (p : Fin NPROC) : DecidablePred (Kernel.Strands c p) := fun _ =>
  inferInstanceAs (Decidable (_ ∧ _))

/-- The process on CPU `d` stores what the one that came back from `sleep` on CPU `c` waits for.
This one forks and sleeps; its child uses up its slices. -/
def strandedRun (c d : Fin 8) : List (Stretch 64 8) :=
  [.op d (.wakeup (.addr 8)), .op c .sleepClear, .op c (.fork true true),
    .op c (.sleep (.addr 7)), .ticks c 19, .op c (.tick true), .ticks c 499]

/-- The process that should go to the end of level 3 is in no well-linked queue, and nobody who
starts at `next_to_run` comes to it. -/
theorem demoted_process_lost : ∃ k₀ k k' : Kernel 64 8,
    (Kernel.pinit 64 8 2).userinit 0 = .ok k₀ ∧ Reach Step k₀ k ∧ k.curproc 0 = some 18 ∧
    (k.proc 18).rq = some (0, .two) ∧ (k.proc 18).timeslice = 1 ∧ (k.proc 18).killed = false ∧
    k.tick true 0 = .ok k' ∧ (k'.proc 18).state = .runnable ∧
    (k'.proc 18).rq = some (0, .three) ∧
    (∀ xs, ¬ Holds Level.three.subSchedClass (k'.rqs (0, .three)) (xs ++ [18])) ∧
    ∀ n, ((k'.rqs (0, .three)).nth n).bind (k'.rqs (0, .three)).proc ≠ some 18 := by
  obtain ⟨k₀, h₀, h⟩ := exists_ok_of_any (x := (Kernel.pinit 64 8 2).userinit 0)
    (P := fun k₀ => ((rotatedRun ++ strandedRun 0 1).foldlM Stretch.run k₀).any
      fun k => k.Strands 0 18)
    (by decide +kernel)
  obtain ⟨k, hr, hk⟩ := exists_reach_of_any (fun _ _ _ => Stretch.reach) h
  rw [decide_eq_true_eq] at hk
  obtain ⟨hcur, hrq, ht, hkill, htick⟩ := hk
  obtain ⟨k', hk', hs⟩ := exists_ok_of_any htick
  rw [decide_eq_true_eq] at hs
  obtain ⟨hrun, hrq', hnum, hend, hwalk⟩ := hs
  refine ⟨k₀, k, k', h₀, hr, hcur, hrq, ht, hkill, hk', hrun, hrq', fun xs hxs => ?_, fun n => ?_⟩
  · have hlen := hxs.procNum
    rw [hnum, List.length_append, List.length_singleton] at hlen
    omega
  · by_cases hn : n < 64
    · exact hwalk n hn
    · obtain ⟨m, rfl⟩ := Nat.exists_eq_add_of_le (Nat.le_of_not_lt hn)
      rw [Rq.nth_add hend m]
      nofun

end Xv6Shed
