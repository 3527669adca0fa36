import Xv6Shed.Smp

/-!
# What the sections leave alone

`Steady k k'`: the fixed pointers of the kernel are the same and nobody was killed.
`Calm k k'`: moreover nobody fell asleep, exited or got a parent. Every section is steady
except for `kill`, and calm except for three.
-/

namespace Xv6Shed
open Function Threads

variable {NPROC NCPU : ℕ} {k k' k'' : Kernel NPROC NCPU} {p me : Fin NPROC} {c : Fin NCPU}
  {held : Bool}

structure Steady (k k' : Kernel NPROC NCPU) : Prop where
  idleproc : k'.idleproc = k.idleproc
  initproc : k'.initproc = k.initproc
  ncpu : k'.ncpu = k.ncpu
  killed : ∀ p, (k'.proc p).killed = true → (k.proc p).killed = true

structure Calm (k k' : Kernel NPROC NCPU) : Prop extends Steady k k' where
  chan : ∀ p, (k'.proc p).chan = (k.proc p).chan ∨ (k'.proc p).chan = none
  parent : ∀ p, (k'.proc p).parent = (k.proc p).parent ∨ (k'.proc p).parent = none
  state : ∀ p, (k'.proc p).state = (k.proc p).state ∨
    (k'.proc p).state ≠ .sleeping ∧ (k'.proc p).state ≠ .zombie

theorem Steady.refl (k : Kernel NPROC NCPU) : Steady k k := ⟨rfl, rfl, rfl, fun _ h => h⟩

theorem Steady.trans (h : Steady k k') (h' : Steady k' k'') : Steady k k'' :=
  ⟨h'.idleproc.trans h.idleproc, h'.initproc.trans h.initproc, h'.ncpu.trans h.ncpu,
    fun p hp => h.killed p (h'.killed p hp)⟩

theorem Steady.setProc {q : Proc NPROC NCPU} (hq : q.killed = true → (k.proc p).killed = true) :
    Steady k (k.setProc p q) := by
  refine ⟨rfl, rfl, rfl, fun p' => ?_⟩
  by_cases hp : p' = p
  · subst hp
    simpa using hq
  · simp [hp]

theorem Moved.steady (h : Moved k k') : Steady k k' :=
  ⟨h.idleproc, h.initproc, h.ncpu, fun p hp => by rwa [h.killed] at hp⟩

namespace Calm

theorem refl (k : Kernel NPROC NCPU) : Calm k k :=
  ⟨.refl k, fun _ => .inl rfl, fun _ => .inl rfl, fun _ => .inl rfl⟩

theorem trans (h : Calm k k') (h' : Calm k' k'') : Calm k k'' := by
  refine ⟨h.toSteady.trans h'.toSteady, fun p => ?_, fun p => ?_, fun p => ?_⟩
  · rcases h'.chan p with e | e
    · rw [e]
      exact h.chan p
    · exact .inr e
  · rcases h'.parent p with e | e
    · rw [e]
      exact h.parent p
    · exact .inr e
  · rcases h'.state p with e | e
    · rw [e]
      exact h.state p
    · exact .inr e

theorem setProc {q : Proc NPROC NCPU} (hk : q.killed = true → (k.proc p).killed = true)
    (hc : q.chan = (k.proc p).chan ∨ q.chan = none)
    (hp : q.parent = (k.proc p).parent ∨ q.parent = none)
    (hs : q.state = (k.proc p).state ∨ q.state ≠ .sleeping ∧ q.state ≠ .zombie) :
    Calm k (k.setProc p q) := by
  refine ⟨.setProc hk, fun p' => ?_, fun p' => ?_, fun p' => ?_⟩ <;>
    by_cases h : p' = p
  · simpa [h] using hc
  · simp [h]
  · simpa [h] using hp
  · simp [h]
  · simpa [h] using hs
  · simp [h]

theorem of_moved (h : Moved k k') (hs : ∀ p, (k'.proc p).state = (k.proc p).state ∨
    (k'.proc p).state ≠ .sleeping ∧ (k'.proc p).state ≠ .zombie) : Calm k k' :=
  ⟨h.steady, fun p => .inl (h.chan p), fun p => .inl (h.parent p), hs⟩

theorem of_proc (hidle : k'.idleproc = k.idleproc) (hinit : k'.initproc = k.initproc)
    (hn : k'.ncpu = k.ncpu) (hp : k'.proc = k.proc) : Calm k k' :=
  ⟨⟨hidle, hinit, hn, by simp [hp]⟩, by simp [hp], by simp [hp], by simp [hp]⟩

theorem setState {s : ProcState} (hs : s.Ready) : Calm k (k.setState p s) := by
  refine .setProc id (.inl rfl) (.inl rfl) (.inr ?_)
  rcases hs with rfl | rfl <;> simp

theorem dispatch (c : Fin NCPU) (prev next : Fin NPROC) (k : Kernel NPROC NCPU) :
    Calm k (k.dispatch c prev next) := by
  have h₀ : Calm k { k with
      curproc := update k.curproc c (some next)
      switches := ⟨c, prev, next, (k.proc next).state⟩ :: k.switches } := .of_proc rfl rfl rfl rfl
  exact h₀.trans (.setState (.inr rfl))

end Calm

/-- Moreover no CPU has switched. -/
structure Still (k k' : Kernel NPROC NCPU) : Prop extends Calm k k' where
  curproc : k'.curproc = k.curproc

namespace Still

theorem refl (k : Kernel NPROC NCPU) : Still k k := ⟨.refl k, rfl⟩

theorem trans (h : Still k k') (h' : Still k' k'') : Still k k'' :=
  ⟨h.toCalm.trans h'.toCalm, h'.curproc.trans h.curproc⟩

theorem wakeup1 {chan : Option (Chan NPROC)} (h : k.wakeup1 held c chan = .ok k') : Still k k' := by
  obtain ⟨hm, hs, -⟩ := Kernel.wakeup1_ok h
  refine ⟨.of_moved hm fun p => ?_, hm.curproc⟩
  rw [hs p]
  split_ifs
  · exact .inr (by simp)
  · exact .inl rfl

theorem enqueueProc (h : k.enqueueProc held c p = .ok k') : Still k k' := by
  obtain ⟨-, rq, rfl⟩ := Kernel.enqueueProc_ok h
  have hm : Moved k ((k.setRq (c, .one) rq).setProc p (k.stamp (c, .one) p)) :=
    (Moved.setRq _ rq k).trans (.setProc (by simp [Kernel.stamp]))
  refine ⟨.of_moved hm fun q => .inl ?_, rfl⟩
  by_cases hq : q = p
  · simp [hq]
  · simp [hq]

theorem reap (p : Fin NPROC) (k : Kernel NPROC NCPU) : Still k (k.reap p) := by
  have h₀ : Calm k ((k.kfree (k.proc p).mem).kfree (k.proc p).kstack) := .of_proc rfl rfl rfl rfl
  exact ⟨h₀.trans (.setProc id (.inl rfl) (.inr rfl) (.inr (by simp))), rfl⟩

theorem allocproc {o : Option (Fin NPROC)} (h : k.allocproc = (o, k')) : Still k k' := by
  cases o with
  | none =>
    rw [Kernel.allocproc_none h]
    exact .refl k
  | some np =>
    obtain ⟨-, rfl⟩ := Kernel.allocproc_some h
    have h₀ : Calm k { k with nextpid := (k.nextpid + 1).bmod (2 ^ 32) } := .of_proc rfl rfl rfl rfl
    exact ⟨h₀.trans (.setProc id (.inl rfl) (.inl rfl) (.inr (by simp))), rfl⟩

theorem forkEnqueue (h : k.forkEnqueue held c p = .ok k') : Still k k' :=
  trans ⟨.setState (.inl rfl), rfl⟩ (.enqueueProc h)

theorem balancePut {ms : Level → List (Option (Fin NPROC))} (h : k.balancePut c ms = .ok k') :
    Still k k' := by
  obtain ⟨hm, hs⟩ := Kernel.balancePut_ok h
  exact ⟨.of_moved hm fun p => .inl (hs p), hm.curproc⟩

theorem procTickMLFQ {t : Kernel.Tick} (h : k.procTickMLFQ c p = .ok (k', t)) : Still k k' := by
  unfold Kernel.procTickMLFQ at h
  split_ifs at h <;> cases h
  · exact .refl k
  · exact ⟨.setProc id (.inl rfl) (.inl rfl) (.inl rfl), rfl⟩
  · exact .refl k

end Still

/-- CPU `c` has made some process current. -/
structure Switched (c : Fin NCPU) (k k' : Kernel NPROC NCPU) : Prop extends Calm k k' where
  others : ∀ d, d ≠ c → k'.curproc d = k.curproc d
  current : k'.curproc c ≠ none

namespace Switched

theorem of_still (h : Still k k') (h' : Switched c k' k'') : Switched c k k'' :=
  ⟨h.toCalm.trans h'.toCalm, fun d hd => by rw [h'.others d hd, h.curproc], h'.current⟩

theorem schedule (h : k.schedule held c = .ok k') : Switched c k k' := by
  obtain ⟨-, prev, next, rqs, -, rfl⟩ := Kernel.schedule_ok h
  have h₀ : Calm k { k with rqs := rqs } := .of_proc rfl rfl rfl rfl
  exact ⟨h₀.trans (.dispatch c prev next _), fun d hd => by simp [hd], by simp⟩

theorem yield (h : k.yield held c = .ok k') : Switched c k k' := by
  obtain ⟨p, -, h⟩ := bind_eq_ok.mp h
  obtain ⟨k₁, h₁, h⟩ := bind_eq_ok.mp h
  obtain ⟨-, rqs, rfl⟩ := Kernel.yieldProc_ok h₁
  have h₀ : Calm k { k.setState p .runnable with rqs := rqs } :=
    (Calm.setState (.inl rfl)).trans (.of_proc rfl rfl rfl rfl)
  exact .of_still ⟨h₀, rfl⟩ (.schedule h)

theorem demote (h : k.demote held c p = .ok k') : Switched c k k' := by
  obtain ⟨r, -, h⟩ := bind_eq_ok.mp h
  obtain ⟨k₁, h₁, h⟩ := bind_eq_ok.mp h
  obtain ⟨l, -, h⟩ := bind_eq_ok.mp h
  obtain ⟨k₂, h₂, h⟩ := bind_eq_ok.mp h
  obtain ⟨me, -, hsched⟩ := bind_eq_ok.mp h
  obtain ⟨rq, rfl⟩ := Kernel.subDequeueProc_ok h₁
  obtain ⟨hm, hs⟩ := Kernel.subEnqueueProc_state h₂
  have h₀ : Calm k (k₂.setState me .runnable) :=
    (Calm.of_moved ((Moved.setRq r rq k).trans hm) fun q => .inl (hs q)).trans
      (.setState (.inl rfl))
  exact .of_still ⟨h₀, hm.curproc⟩ (.schedule hsched)

theorem runIdle (h : k.runIdle c = .ok k') : Switched c k k' := by
  obtain ⟨p, -, h⟩ := bind_eq_ok.mp h
  cases h
  have h₀ : Calm k { k with curproc := update k.curproc c (some p) } := .of_proc rfl rfl rfl rfl
  exact ⟨h₀.trans (.setState (.inr rfl)), fun d hd => by simp [hd], by simp⟩

end Switched

/-- The processes a process `me` wakes when it exits: those that sleep on its parent, and
those that sleep on init if it leaves a zombie child. -/
def Kernel.ExitWakes (k : Kernel NPROC NCPU) (me q : Fin NPROC) : Prop :=
  (k.proc q).chan = (k.proc me).parent.map .proc ∨
    (k.proc q).chan = k.initproc.map .proc ∧
      ∃ z, (k.proc z).parent = some me ∧ (k.proc z).state = .zombie

namespace Kernel

theorem reparentOne_ok (h : k.reparentOne held c me p = .ok k') : Steady k k' ∧
    k'.curproc = k.curproc ∧ (∀ q, (k'.proc q).chan = (k.proc q).chan) ∧
    (∀ q, (k'.proc q).parent =
      if q = p ∧ (k.proc q).parent = some me then k.initproc else (k.proc q).parent) ∧
    ∀ q, (k'.proc q).state =
      if (k.proc q).state = .sleeping ∧ (k.proc q).chan = k.initproc.map .proc ∧
        (k.proc p).parent = some me ∧ (k.proc p).state = .zombie then .runnable
      else (k.proc q).state := by
  unfold reparentOne at h
  dsimp only at h
  split_ifs at h with hp hz
  · obtain ⟨hm, hs, -⟩ := wakeup1_ok h
    have h₀ : Steady k (k.setProc p { k.proc p with parent := k.initproc }) := .setProc id
    simp only [setProc_proc, update_self] at hz
    refine ⟨h₀.trans hm.steady, hm.curproc, fun q => ?_, fun q => ?_, fun q => ?_⟩
    · rw [hm.chan q]
      by_cases hq : q = p <;> simp [hq]
    · rw [hm.parent q]
      by_cases hq : q = p <;> simp [hq, hp]
    · rw [hs q]
      by_cases hq : q = p <;> simp [hq, hp, hz]
  · cases h
    simp only [setProc_proc, update_self] at hz
    refine ⟨.setProc id, rfl, fun q => ?_, fun q => ?_, fun q => ?_⟩
    · by_cases hq : q = p <;> simp [hq]
    · by_cases hq : q = p <;> simp [hq, hp]
    · by_cases hq : q = p <;> simp [hq, hz]
  · cases h
    refine ⟨.refl k, rfl, fun q => rfl, fun q => ?_, fun q => ?_⟩
    · rw [if_neg]
      rintro ⟨rfl, h⟩
      exact hp h
    · simp [hp]

theorem reparent_ok {l : List (Fin NPROC)}
    (h : l.foldlM (reparentOne held c me) k = .ok k') : Steady k k' ∧
    k'.curproc = k.curproc ∧ (∀ q, (k'.proc q).chan = (k.proc q).chan) ∧
    (∀ q, (q ∈ l ∧ (k.proc q).parent = some me → (k'.proc q).parent = k.initproc) ∧
      (¬ (q ∈ l ∧ (k.proc q).parent = some me) → (k'.proc q).parent = (k.proc q).parent)) ∧
    ∀ q, (((k.proc q).state = .sleeping ∧ (k.proc q).chan = k.initproc.map .proc ∧
        ∃ z ∈ l, (k.proc z).parent = some me ∧ (k.proc z).state = .zombie) →
        (k'.proc q).state = .runnable) ∧
      (¬ ((k.proc q).state = .sleeping ∧ (k.proc q).chan = k.initproc.map .proc ∧
        ∃ z ∈ l, (k.proc z).parent = some me ∧ (k.proc z).state = .zombie) →
        (k'.proc q).state = (k.proc q).state) := by
  induction l generalizing k with
  | nil =>
    cases h
    exact ⟨.refl _, rfl, fun _ => rfl, by simp, by simp⟩
  | cons p l ih =>
    rw [List.foldlM_cons] at h
    obtain ⟨k₁, h₁, h₂⟩ := bind_eq_ok.mp h
    obtain ⟨hst₁, hcur₁, hch₁, hpar₁, hs₁⟩ := reparentOne_ok h₁
    obtain ⟨hst₂, hcur₂, hch₂, hpar₂, hs₂⟩ := ih h₂
    have hz : ∀ q, (k₁.proc q).state = .zombie ↔ (k.proc q).state = .zombie := by
      intro q
      rw [hs₁ q]
      split_ifs with hq
      · simp [hq.1]
      · rfl
    refine ⟨hst₁.trans hst₂, hcur₂.trans hcur₁, fun q => (hch₂ q).trans (hch₁ q), fun q => ?_,
      fun q => ?_⟩
    · have h₂ := hpar₂ q
      rw [hpar₁ q, hst₁.initproc] at h₂
      by_cases hq : q = p <;> grind
    · have hex : (∃ z ∈ p :: l, (k.proc z).parent = some me ∧ (k.proc z).state = .zombie) ↔
          ((k.proc p).parent = some me ∧ (k.proc p).state = .zombie) ∨
            ∃ z ∈ l, (k₁.proc z).parent = some me ∧ (k₁.proc z).state = .zombie := by
        constructor
        · rintro ⟨z, hzl, hzp, hzz⟩
          by_cases hzeq : z = p
          · subst hzeq
            exact .inl ⟨hzp, hzz⟩
          · refine .inr ⟨z, (List.mem_cons.mp hzl).resolve_left hzeq, ?_, (hz z).mpr hzz⟩
            rw [hpar₁ z, if_neg (fun h => hzeq h.1), hzp]
        · rintro (⟨hpp, hpz⟩ | ⟨z, hzl, hzp, hzz⟩)
          · exact ⟨p, List.mem_cons_self, hpp, hpz⟩
          · rw [hpar₁ z] at hzp
            split_ifs at hzp with hc
            · exact ⟨z, List.mem_cons_of_mem p hzl, hc.2, (hz z).mp hzz⟩
            · exact ⟨z, List.mem_cons_of_mem p hzl, hzp, (hz z).mp hzz⟩
      have h₂ := hs₂ q
      rw [hch₁ q, hst₁.initproc, hs₁ q] at h₂
      rw [hex]
      by_cases hE : (k.proc p).parent = some me ∧ (k.proc p).state = .zombie
      · by_cases hq : (k.proc q).state = .sleeping ∧ (k.proc q).chan = k.initproc.map .proc
        · simpa [hq, hE] using h₂
        · simp only [← and_assoc, hq, false_and, if_false] at h₂ ⊢
          exact h₂
      · simpa only [hE, and_false, if_false, false_or] using h₂

theorem exitTable_ok (h : k.exitTable held c = .ok k') : ∃ me, k.curproc c = some me ∧
    Steady k k' ∧ k'.curproc = k.curproc ∧ (∀ q, (k'.proc q).chan = (k.proc q).chan) ∧
    (∀ q, (k'.proc q).parent =
      if (k.proc q).parent = some me then k.initproc else (k.proc q).parent) ∧
    (k'.proc me).state = .zombie ∧
    ∀ q, q ≠ me →
      (k.proc q).state = .sleeping ∧ k.ExitWakes me q ∧ (k'.proc q).state = .runnable ∨
      ¬ ((k.proc q).state = .sleeping ∧ k.ExitWakes me q) ∧
        (k'.proc q).state = (k.proc q).state := by
  obtain ⟨me, hme, h⟩ := bind_eq_ok.mp h
  obtain ⟨k₁, h₁, h⟩ := bind_eq_ok.mp h
  obtain ⟨k₂, h₂, h⟩ := bind_eq_ok.mp h
  cases h
  obtain ⟨hm, hs₁, -⟩ := wakeup1_ok h₁
  obtain ⟨hst, hcur, hch, hpar, hs₂⟩ := reparent_ok h₂
  have hz : ∀ z, (k₁.proc z).state = .zombie ↔ (k.proc z).state = .zombie := by
    intro z
    rw [hs₁ z]
    split_ifs with hz
    · simp [hz.1]
    · rfl
  refine ⟨me, deref_eq_ok.mp hme, (hm.steady.trans hst).trans (.setProc nofun),
    hcur.trans hm.curproc, fun q => ?_, fun q => ?_, by simp, fun q hq => ?_⟩
  · rw [← hm.chan q, ← hch q]
    by_cases hq : q = me <;> simp [hq]
  · obtain ⟨h₁, h₂⟩ := hpar q
    simp only [hm.parent, hm.initproc, List.mem_finRange, true_and] at h₁ h₂
    have hp : (k₂.proc q).parent =
        if (k.proc q).parent = some me then k.initproc else (k.proc q).parent := by
      split_ifs with h
      · exact h₁ h
      · exact h₂ h
    rw [← hp]
    by_cases hq : q = me <;> simp [hq]
  · simp only [setProc_proc, update_of_ne hq]
    have h₁ := hs₁ q
    obtain ⟨h₂, h₃⟩ := hs₂ q
    simp only [List.mem_finRange, true_and, hm.chan, hm.initproc, hm.parent, hz] at h₂ h₃
    unfold ExitWakes
    by_cases hsl : (k.proc q).state = .sleeping
    · by_cases hpar : (k.proc q).chan = (k.proc me).parent.map .proc
      · simp only [hsl, hpar, and_self, if_true] at h₁
        refine .inl ⟨hsl, .inl hpar, ?_⟩
        rw [h₃ (fun h => by simp [h₁] at h), h₁]
      · simp only [hsl, hpar, and_false, if_false] at h₁
        rw [h₁] at h₂ h₃
        by_cases hc : (k.proc q).chan = k.initproc.map .proc ∧
            ∃ z, (k.proc z).parent = some me ∧ (k.proc z).state = .zombie
        · exact .inl ⟨hsl, .inr hc, h₂ ⟨rfl, hc⟩⟩
        · refine .inr ⟨?_, (h₃ fun h => hc h.2).trans hsl.symm⟩
          rintro ⟨-, h | h⟩
          · exact hpar h
          · exact hc h
    · simp only [hsl, false_and, if_false] at h₁
      rw [h₁] at h₃
      exact .inr ⟨fun h => hsl h.1, h₃ fun h => hsl h.1⟩

theorem waitScan_sleep {ps : List (Fin NPROC)} {b : Bool} (h : k.waitScan me ps b = .sleep) :
    ∀ p ∈ ps, (k.proc p).parent = some me → (k.proc p).state ≠ .zombie := by
  induction ps generalizing b with
  | nil => simp
  | cons q ps ih =>
    unfold waitScan at h
    split_ifs at h with hu hp hz
    · simpa [hu] using ih h
    · simpa [hz] using ih h
    · simpa [hp] using ih h

theorem kill_unlocked_ok {pid r : ℤ} (h : k.kill false c pid = .ok (k', r)) :
    k' = k ∨ ∃ p, k' = k.setProc p { k.proc p with killed := true } := by
  rw [kill_unlocked] at h
  split at h
  · cases h
    exact .inl rfl
  · split_ifs at h
    cases h
    exact .inr ⟨_, rfl⟩

theorem copyRest_frame (k : Kernel NPROC NCPU) (kstackOk memOk : Bool) (me np : Fin NPROC) :
    Steady k (k.copyRest kstackOk memOk (some me) np).2 ∧
    (k.copyRest kstackOk memOk (some me) np).2.curproc = k.curproc ∧
    (k.copyRest kstackOk memOk (some me) np).2.rqs = k.rqs ∧
    (∀ q, q ≠ np → (k.copyRest kstackOk memOk (some me) np).2.proc q = k.proc q) ∧
    ((k.copyRest kstackOk memOk (some me) np).2.proc np).chan = (k.proc np).chan ∧
    ((k.copyRest kstackOk memOk (some me) np).2.proc np).rq = (k.proc np).rq ∧
    ((k.copyRest kstackOk memOk (some me) np).2.proc np).state =
      if (k.copyRest kstackOk memOk (some me) np).1 then (k.proc np).state else .unused := by
  cases kstackOk with
  | false =>
    rw [copyRest_nokstack]
    exact ⟨.setProc id, rfl, rfl, fun q hq => by simp [hq], by simp, by simp, by simp⟩
  | true =>
    cases memOk with
    | false =>
      have h₀ : Steady k { k with blocks := k.blocks + 1, freed := k.blocks :: k.freed } :=
        ⟨rfl, rfl, rfl, fun _ => id⟩
      rw [copyRest_nomem]
      exact ⟨h₀.trans (.setProc id), rfl, rfl, fun q hq => by simp [hq], by simp, by simp, by simp⟩
    | true =>
      have h₀ : Steady k { k with blocks := k.blocks + 2 } := ⟨rfl, rfl, rfl, fun _ => id⟩
      rw [copyRest_done]
      exact ⟨h₀.trans (.setProc id), rfl, rfl, fun q hq => by simp [hq], by simp, by simp, by simp⟩

theorem copyRest_parent (k : Kernel NPROC NCPU) (kstackOk memOk : Bool) (me np : Fin NPROC) :
    ((k.copyRest kstackOk memOk (some me) np).2.proc np).parent = (k.proc np).parent ∨
    ((k.copyRest kstackOk memOk (some me) np).2.proc np).parent = some me ∨
    ((k.copyRest kstackOk memOk (some me) np).2.proc np).parent = none := by
  cases kstackOk with
  | false => simp [copyRest_nokstack]
  | true =>
    cases memOk with
    | false => simp [copyRest_nomem]
    | true => simp [copyRest_done]

end Kernel

namespace Act

/-- The sections that end in `swtch` -/
def isSwitch : Act NPROC NCPU → Bool
  | .schedule | .yield | .demote _ | .runIdle => true
  | _ => false

/-- All sections but those that kill a process, put one to sleep, end one or make one -/
def isCalm : Act NPROC NCPU → Bool
  | .kill _ | .sleepSet _ | .exitTable | .copyproc _ _ _ => false
  | _ => true

variable {cfg : Config NCPU} {s : Shared NPROC NCPU} {a : Act NPROC NCPU}
  {out : Outcome (Fin NPROC) (LockId NCPU) (Act NPROC NCPU) (Shared NPROC NCPU)}

theorem run_switched (h : a.run cfg c held s = .ok out) (ha : a.isSwitch = true) :
    Switched c s.kernel out.mem.kernel := by
  cases a <;> simp only [isSwitch, Bool.false_eq_true] at ha
  all_goals
    obtain ⟨k', hk, h⟩ := bind_eq_ok.mp h
    cases h
  · exact .schedule hk
  · exact .yield hk
  · exact .demote hk
  · exact .runIdle hk

theorem run_still (h : a.run cfg c held s = .ok out) (ha : a.isCalm = true)
    (hs : a.isSwitch = false) : Still s.kernel out.mem.kernel := by
  cases a <;> simp only [isCalm, isSwitch, Bool.false_eq_true, Bool.true_eq_false] at ha hs
  case test | sleepEnd | setCond =>
    cases h
    exact .refl _
  case sleep =>
    unfold run at h
    dsimp only at h
    split_ifs at h
    cases h
    exact .refl _
  case sleepClear =>
    obtain ⟨k', hk, h⟩ := bind_eq_ok.mp h
    obtain ⟨p, -, hk⟩ := bind_eq_ok.mp hk
    cases hk
    cases h
    exact ⟨.setProc id (.inr rfl) (.inl rfl) (.inl rfl), rfl⟩
  case wakeup1 =>
    obtain ⟨k', hk, h⟩ := bind_eq_ok.mp h
    cases h
    exact .wakeup1 hk
  case killed =>
    obtain ⟨p, -, h⟩ := bind_eq_ok.mp h
    cases h
    exact .refl _
  case exitFiles =>
    obtain ⟨k', hk, h⟩ := bind_eq_ok.mp h
    cases h
    obtain ⟨p, -, hk⟩ := bind_eq_ok.mp hk
    split_ifs at hk
    cases hk
    exact ⟨.setProc id (.inl rfl) (.inl rfl) (.inl rfl), rfl⟩
  case panic => cases h
  case wait =>
    obtain ⟨p, -, h⟩ := bind_eq_ok.mp h
    split at h <;> cases h
    · exact .reap _ _
    · exact .refl _
    · exact .refl _
  case allocproc =>
    unfold run at h
    dsimp only at h
    split at h <;> cases h
    · exact .allocproc ‹_›
    · exact .allocproc ‹_›
  case forkEnqueue =>
    obtain ⟨k', hk, h⟩ := bind_eq_ok.mp h
    cases h
    exact .forkEnqueue hk
  case trap =>
    unfold run at h
    dsimp only at h
    split at h <;> cases h
    · exact .refl _
    · exact .refl _
  case loadBalance =>
    unfold run at h
    dsimp only at h
    split at h <;> cases h
    · exact .refl _
    · exact .refl _
  case balanceGet =>
    obtain ⟨⟨k', ms⟩, hk, h⟩ := bind_eq_ok.mp h
    cases h
    obtain ⟨rqs, rfl⟩ := Kernel.balanceGet_ok hk
    exact ⟨.of_proc rfl rfl rfl rfl, rfl⟩
  case balancePut =>
    obtain ⟨k', hk, h⟩ := bind_eq_ok.mp h
    cases h
    exact .balancePut hk
  case procTick =>
    obtain ⟨⟨k', t⟩, hk, h⟩ := bind_eq_ok.mp h
    cases t <;> cases h <;> exact .procTickMLFQ hk

theorem run_copyproc {ks mo : Bool} {np : Fin NPROC}
    (h : (copyproc ks mo np).run cfg c held s = .ok out) : ∃ me, s.kernel.curproc c = some me ∧
      out.mem.kernel = (s.kernel.copyRest ks mo (some me) np).2 := by
  obtain ⟨me, hme, h⟩ := bind_eq_ok.mp h
  refine ⟨me, deref_eq_ok.mp hme, ?_⟩
  split at h <;> cases h
  all_goals exact (congrArg Prod.snd ‹_›).symm

theorem run_steady (h : a.run cfg c held s = .ok out) (hk : ∀ pid, a ≠ .kill pid)
    (hs : a.isSwitch = false) : Steady s.kernel out.mem.kernel ∧
      out.mem.kernel.curproc = s.kernel.curproc := by
  by_cases ha : a.isCalm = true
  · have hst := run_still h ha hs
    exact ⟨hst.toSteady, hst.curproc⟩
  cases a <;> simp only [isCalm, not_true_eq_false] at ha
  case kill pid => exact absurd rfl (hk pid)
  case sleepSet =>
    obtain ⟨k', hk, h⟩ := bind_eq_ok.mp h
    obtain ⟨p, -, hk⟩ := bind_eq_ok.mp hk
    cases hk
    cases h
    exact ⟨.setProc id, rfl⟩
  case exitTable =>
    obtain ⟨k', hk, h⟩ := bind_eq_ok.mp h
    cases h
    obtain ⟨me, -, hst, hcur, -⟩ := Kernel.exitTable_ok hk
    exact ⟨hst, hcur⟩
  case copyproc kstackOk memOk np =>
    obtain ⟨me, -, hout⟩ := run_copyproc h
    obtain ⟨hst, hcur, -⟩ := s.kernel.copyRest_frame kstackOk memOk me np
    rw [hout]
    exact ⟨hst, hcur⟩

theorem run_cond (h : a.run cfg c held s = .ok out) (ha : ∀ n b, a ≠ .setCond n b) :
    out.mem.cond = s.cond := by
  cases a <;> unfold run at h <;> dsimp only at h
  case setCond n b => exact absurd rfl (ha n b)
  case sleep =>
    split_ifs at h
    cases h
    rfl
  case test | sleepEnd =>
    cases h
    rfl
  case panic => cases h
  case wait | copyproc =>
    obtain ⟨_, -, h⟩ := bind_eq_ok.mp h
    split at h <;> cases h <;> rfl
  case allocproc | trap | loadBalance => split at h <;> cases h <;> rfl
  case procTick =>
    obtain ⟨_, -, h⟩ := bind_eq_ok.mp h
    split at h <;> cases h <;> rfl
  all_goals
    obtain ⟨_, -, h⟩ := bind_eq_ok.mp h
    cases h
    rfl

end Act

end Xv6Shed
