import Xv6Shed.Schedule

/-!
# What the operations leave alone

One inversion lemma for each function: if it returns, the state it returns differs from
the one it was given only in the parts named. None of them needs the queues to be well
linked. `Moved k k'` is the common case, in which only run queues and the fields
`state`, `rq` and `timeslice` of processes have changed.
-/

namespace Xv6Shed
open Function

variable {NPROC NCPU : ℕ} {k k' k'' : Kernel NPROC NCPU} {p : Fin NPROC} {c : Fin NCPU}
  {r : RqId NCPU} {held : Bool}

section
variable {α β : Type} {f : β → α → Except Fault β} {P : β → Prop} {l : List α} {b : β}

theorem foldlM_inv {b' : β} (h : ∀ a ∈ l, ∀ b b', P b → f b a = .ok b' → P b') (hb : P b)
    (he : l.foldlM f b = .ok b') : P b' := by
  induction l generalizing b with
  | nil =>
    cases he
    exact hb
  | cons a l ih =>
    rw [List.foldlM_cons] at he
    obtain ⟨b₁, h₁, h₂⟩ := bind_eq_ok.mp he
    exact ih (fun a' ha' => h a' (List.mem_cons_of_mem a ha'))
      (h a List.mem_cons_self b b₁ hb h₁) h₂

theorem foldlM_ok (h : ∀ a ∈ l, ∀ b, P b → ∃ b', f b a = .ok b' ∧ P b') (hb : P b) :
    ∃ b', l.foldlM f b = .ok b' ∧ P b' := by
  induction l generalizing b with
  | nil => exact ⟨b, rfl, hb⟩
  | cons a l ih =>
    obtain ⟨b₁, h₁, hb₁⟩ := h a List.mem_cons_self b hb
    rw [List.foldlM_cons, h₁, ok_bind]
    exact ih (fun a' ha' => h a' (List.mem_cons_of_mem a ha')) hb₁

end

/-- Only run queues and the scheduling fields of processes have changed. -/
structure Moved (k k' : Kernel NPROC NCPU) : Prop where
  kernel : k' = { k with proc := k'.proc, rqs := k'.rqs }
  proc : ∀ p, k'.proc p = { k.proc p with
    state := (k'.proc p).state, rq := (k'.proc p).rq, timeslice := (k'.proc p).timeslice }

namespace Moved

theorem refl (k : Kernel NPROC NCPU) : Moved k k := ⟨rfl, fun _ => rfl⟩

theorem trans (h : Moved k k') (h' : Moved k' k'') : Moved k k'' := by
  constructor
  · rw [h'.kernel, h.kernel]
  · intro p
    rw [h'.proc p, h.proc p]

theorem setRq (r : RqId NCPU) (rq : Rq NPROC) (k : Kernel NPROC NCPU) : Moved k (k.setRq r rq) :=
  ⟨rfl, fun _ => rfl⟩

theorem setProc {q : Proc NPROC NCPU}
    (hq : q = { k.proc p with state := q.state, rq := q.rq, timeslice := q.timeslice }) :
    Moved k (k.setProc p q) := by
  refine ⟨rfl, fun p' => ?_⟩
  by_cases h : p' = p
  · subst h
    simpa using hq
  · simp [h]

theorem setState (s : ProcState) : Moved k (k.setState p s) := setProc rfl

section fields
variable (h : Moved k k')
include h

theorem curproc : k'.curproc = k.curproc := by rw [h.kernel]
theorem idleproc : k'.idleproc = k.idleproc := by rw [h.kernel]
theorem initproc : k'.initproc = k.initproc := by rw [h.kernel]
theorem ncpu : k'.ncpu = k.ncpu := by rw [h.kernel]
theorem switches : k'.switches = k.switches := by rw [h.kernel]
theorem chan (p : Fin NPROC) : (k'.proc p).chan = (k.proc p).chan := by rw [h.proc]
theorem parent (p : Fin NPROC) : (k'.proc p).parent = (k.proc p).parent := by rw [h.proc]
theorem killed (p : Fin NPROC) : (k'.proc p).killed = (k.proc p).killed := by rw [h.proc]

end fields

end Moved

namespace Kernel

variable {chan : Option (Chan NPROC)} {ms : List (Option (Fin NPROC))} {src : Fin NCPU}

theorem subEnqueueProc_ok (h : k.subEnqueueProc r p = .ok k') :
    ∃ rq, k' = (k.setRq r rq).setProc p (k.stamp r p) := by
  rw [subEnqueueProc_eq] at h
  obtain ⟨rq, -, hk⟩ := bind_eq_ok.mp h
  exact ⟨rq, (Except.ok.inj hk).symm⟩

theorem enqueueProc_ok (h : k.enqueueProc held c p = .ok k') :
    held = true ∧ ∃ rq, k' = (k.setRq (c, .one) rq).setProc p (k.stamp (c, .one) p) := by
  unfold enqueueProc at h
  split_ifs at h with h₁ h₂
  exact ⟨by simpa using h₁, subEnqueueProc_ok h⟩

theorem subDequeueProc_ok (h : k.subDequeueProc r p = .ok k') : ∃ rq, k' = k.setRq r rq := by
  obtain ⟨rq, -, hk⟩ := bind_eq_ok.mp h
  exact ⟨rq, (Except.ok.inj hk).symm⟩

theorem dequeueProc_ok (h : k.dequeueProc held c p = .ok k') :
    held = true ∧ ∃ rqs, k' = { k with rqs := rqs } := by
  unfold dequeueProc at h
  split_ifs at h with h₁ h₂
  · cases h
    exact ⟨by simpa using h₁, k.rqs, rfl⟩
  · refine ⟨by simpa using h₁, ?_⟩
    unfold dequeueProcMLFQ at h
    split at h
    · cases h
      exact ⟨k.rqs, rfl⟩
    · obtain ⟨rq, rfl⟩ := subDequeueProc_ok h
      exact ⟨_, rfl⟩

theorem subYieldProc_ok (h : k.subYieldProc r = .ok k') : ∃ rq, k' = k.setRq r rq := by
  obtain ⟨rq, -, hk⟩ := bind_eq_ok.mp h
  exact ⟨rq, (Except.ok.inj hk).symm⟩

theorem yieldProc_ok (h : k.yieldProc held c = .ok k') :
    held = true ∧ ∃ rqs, k' = { k with rqs := rqs } := by
  unfold yieldProc at h
  split_ifs at h with h₁
  refine ⟨by simpa using h₁, ?_⟩
  have hr : ∀ r, k.subYieldProc r = .ok k' → ∃ rqs, k' = { k with rqs := rqs } := by
    intro r hy
    obtain ⟨rq, rfl⟩ := subYieldProc_ok hy
    exact ⟨_, rfl⟩
  unfold yieldProcMLFQ at h
  split_ifs at h
  · exact hr _ h
  · exact hr _ h
  · exact hr _ h
  · cases h
    exact ⟨k.rqs, rfl⟩

theorem schedule_ok (h : k.schedule held c = .ok k') :
    held = true ∧ ∃ prev next rqs, k.curproc c = some prev ∧
      k' = { k with rqs := rqs }.dispatch c prev next := by
  obtain ⟨prev, hprev, h⟩ := bind_eq_ok.mp h
  obtain ⟨k₁, h₁, h⟩ := bind_eq_ok.mp h
  obtain ⟨o, ho, h⟩ := bind_eq_ok.mp h
  obtain ⟨next, -, hk⟩ := bind_eq_ok.mp h
  have hheld : held = true := by
    unfold pickNextProc at ho
    split_ifs at ho with hh
    simpa using hh
  have hrqs : ∃ rqs, k₁ = { k with rqs := rqs } := by
    unfold removePrev at h₁
    split_ifs at h₁
    · cases h₁
      exact ⟨k.rqs, rfl⟩
    · exact (dequeueProc_ok h₁).2
  obtain ⟨rqs, rfl⟩ := hrqs
  exact ⟨hheld, prev, next, rqs, deref_eq_ok.mp hprev, (Except.ok.inj hk).symm⟩

theorem wakeOne_ok (h : k.wakeOne held c chan p = .ok k') :
    Moved k k' ∧ (∀ q, (k'.proc q).state =
      if q = p ∧ (k.proc q).state = .sleeping ∧ (k.proc q).chan = chan then .runnable
      else (k.proc q).state) ∧ ∀ r, r ≠ (c, .one) → k'.rqs r = k.rqs r := by
  unfold wakeOne at h
  split_ifs at h with hs
  · obtain ⟨-, rq, rfl⟩ := enqueueProc_ok h
    refine ⟨((Moved.setState .runnable).trans (.setRq _ rq _)).trans (.setProc ?_), fun q => ?_, ?_⟩
    · simp [stamp]
    · by_cases hq : q = p
      · subst hq
        simp [hs]
      · simp [hq]
    · intro r hr
      simp [hr]
  · cases h
    refine ⟨.refl k, fun q => (if_neg ?_).symm, fun _ _ => rfl⟩
    rintro ⟨rfl, hq⟩
    exact hs hq

theorem wakeup1_ok (h : k.wakeup1 held c chan = .ok k') :
    Moved k k' ∧ (∀ q, (k'.proc q).state =
      if (k.proc q).state = .sleeping ∧ (k.proc q).chan = chan then .runnable
      else (k.proc q).state) ∧ ∀ r, r ≠ (c, .one) → k'.rqs r = k.rqs r := by
  have key : ∀ (l : List (Fin NPROC)) (k : Kernel NPROC NCPU),
      l.foldlM (wakeOne held c chan) k = .ok k' → Moved k k' ∧ (∀ q, (k'.proc q).state =
        if q ∈ l ∧ (k.proc q).state = .sleeping ∧ (k.proc q).chan = chan then .runnable
        else (k.proc q).state) ∧ ∀ r, r ≠ (c, .one) → k'.rqs r = k.rqs r := by
    intro l
    induction l with
    | nil =>
      intro k h
      cases h
      exact ⟨.refl _, fun q => by simp, fun _ _ => rfl⟩
    | cons p l ih =>
      intro k h
      rw [List.foldlM_cons] at h
      obtain ⟨k₁, h₁, h₂⟩ := bind_eq_ok.mp h
      obtain ⟨hm₁, hs₁, hr₁⟩ := wakeOne_ok h₁
      obtain ⟨hm₂, hs₂, hr₂⟩ := ih k₁ h₂
      refine ⟨hm₁.trans hm₂, fun q => ?_, fun r hr => (hr₂ r hr).trans (hr₁ r hr)⟩
      have h₁ := hs₁ q
      have h₂ := hs₂ q
      rw [hm₁.chan q] at h₂
      grind
  simpa using key _ k h

theorem subEnqueueProc_state (h : k.subEnqueueProc r p = .ok k') :
    Moved k k' ∧ ∀ q, (k'.proc q).state = (k.proc q).state := by
  obtain ⟨rq, rfl⟩ := subEnqueueProc_ok h
  refine ⟨(Moved.setRq r rq k).trans (.setProc (by simp [stamp])), fun q => ?_⟩
  by_cases hq : q = p
  · simp [hq]
  · simp [hq]

theorem subEnqueueAll_ok (h : k.subEnqueueAll r ms = .ok k') :
    Moved k k' ∧ ∀ q, (k'.proc q).state = (k.proc q).state := by
  refine foldlM_inv (P := fun k' => Moved k k' ∧ ∀ q, (k'.proc q).state = (k.proc q).state)
    ?_ ⟨.refl k, fun _ => rfl⟩ h
  intro m _ k₁ k₂ ⟨hm, hs⟩ he
  obtain ⟨p, -, he⟩ := bind_eq_ok.mp he
  obtain ⟨hm', hs'⟩ := subEnqueueProc_state he
  exact ⟨hm.trans hm', fun q => (hs' q).trans (hs q)⟩

theorem subGetProc_ok (h : k.subGetProc r = .ok (k', ms)) :
    ∃ rq, k' = k.setRq r rq := by
  obtain ⟨⟨rq, ms'⟩, -, hk⟩ := bind_eq_ok.mp h
  cases hk
  exact ⟨rq, rfl⟩

theorem balanceGet_ok {ms : Level → List (Option (Fin NPROC))} (h : k.balanceGet src = .ok (k', ms))
    : ∃ rqs, k' = { k with rqs := rqs } := by
  obtain ⟨⟨k₁, m₁⟩, h₁, h⟩ := bind_eq_ok.mp h
  obtain ⟨⟨k₂, m₂⟩, h₂, h⟩ := bind_eq_ok.mp h
  obtain ⟨⟨k₃, m₃⟩, h₃, h⟩ := bind_eq_ok.mp h
  obtain ⟨rq₁, rfl⟩ := subGetProc_ok h₁
  obtain ⟨rq₂, rfl⟩ := subGetProc_ok h₂
  obtain ⟨rq₃, rfl⟩ := subGetProc_ok h₃
  cases h
  exact ⟨_, rfl⟩

theorem balancePut_ok {ms : Level → List (Option (Fin NPROC))} (h : k.balancePut c ms = .ok k') :
    Moved k k' ∧ ∀ q, (k'.proc q).state = (k.proc q).state := by
  obtain ⟨k₁, h₁, h⟩ := bind_eq_ok.mp h
  obtain ⟨k₂, h₂, h₃⟩ := bind_eq_ok.mp h
  obtain ⟨hm₁, hs₁⟩ := subEnqueueAll_ok h₁
  obtain ⟨hm₂, hs₂⟩ := subEnqueueAll_ok h₂
  obtain ⟨hm₃, hs₃⟩ := subEnqueueAll_ok h₃
  exact ⟨(hm₁.trans hm₂).trans hm₃, fun q => ((hs₃ q).trans (hs₂ q)).trans (hs₁ q)⟩

theorem loadBalanceMLFQ_ok (h : k.loadBalanceMLFQ c = .ok k') :
    Moved k k' ∧ ∀ q, (k'.proc q).state = (k.proc q).state := by
  unfold loadBalanceMLFQ at h
  split at h
  · cases h
    exact ⟨.refl _, fun _ => rfl⟩
  · obtain ⟨⟨k₁, ms⟩, h₁, h₂⟩ := bind_eq_ok.mp h
    obtain ⟨rqs, rfl⟩ := balanceGet_ok h₁
    obtain ⟨hm, hs⟩ := balancePut_ok h₂
    have h₀ : Moved k { k with rqs := rqs } := ⟨rfl, fun _ => rfl⟩
    exact ⟨h₀.trans hm, hs⟩

theorem busiest_lt (h : k.busiest = some src) : src.val < k.ncpu := by
  have key : ∀ (l : List (Fin NCPU)) (o : Option (Fin NCPU) × ℤ), (∀ i ∈ l, i.val < k.ncpu) →
      (∀ i, o.1 = some i → i.val < k.ncpu) →
        ∀ i, (l.foldl k.busier o).1 = some i → i.val < k.ncpu := by
    intro l
    induction l with
    | nil => exact fun o _ ho => ho
    | cons j l ih =>
      intro o hl ho
      refine ih _ (fun i hi => hl i (List.mem_cons_of_mem j hi)) ?_
      unfold busier
      split_ifs
      · rintro i ⟨⟩
        exact hl j List.mem_cons_self
      · exact ho
  refine key k.cpus (none, 0) ?_ nofun src h
  intro i hi
  simpa [cpus] using hi

theorem allocproc_some (h : k.allocproc = (some p, k')) : (k.proc p).state = .unused ∧
    k' = { k with nextpid := (k.nextpid + 1).bmod (2 ^ 32) }.setProc p
      { k.proc p with state := .embryo, pid := k.nextpid, rq := none } := by
  unfold allocproc at h
  split at h
  · cases h
  · next p' hf =>
    cases h
    exact ⟨by simpa using List.find?_some hf, rfl⟩

theorem allocproc_none (h : k.allocproc = (none, k')) : k' = k := by
  unfold allocproc at h
  split at h <;> cases h
  rfl

variable {np : Fin NPROC} {memOk : Bool}

theorem copyRest_nokstack {o : Option (Fin NPROC)} : k.copyRest false memOk o np =
    (false, k.setProc np { k.proc np with kstack := none, state := .unused }) := rfl

theorem copyRest_nomem : k.copyRest true false (some p) np =
    (false, { k with blocks := k.blocks + 1, freed := k.blocks :: k.freed }.setProc np
      { k.proc np with mem := none, kstack := none, state := .unused, parent := none }) := by
  simp [copyRest, kalloc, setProc, kfree]

theorem copyRest_done : k.copyRest true true (some p) np =
    (true, { k with blocks := k.blocks + 2 }.setProc np { k.proc np with
      kstack := some k.blocks
      parent := some p
      mem := some (k.blocks + 1)
      ofile := fun i => if (k.proc p).ofile i ≠ none then (k.proc p).ofile i
        else (k.proc np).ofile i
      cwd := (k.proc p).cwd }) := by
  by_cases hp : p = np
  · simp [copyRest, kalloc, setProc, hp]
  · simp [copyRest, kalloc, setProc, hp]

theorem copyRest_first : k.copyRest true memOk none np =
    (true, { k with blocks := k.blocks + 1 }.setProc np
      { k.proc np with kstack := some k.blocks }) := rfl

theorem waitScan_found {me : Fin NPROC} {ps : List (Fin NPROC)} {b : Bool}
    (h : k.waitScan me ps b = .found p) :
    (k.proc p).state = .zombie ∧ (k.proc p).parent = some me := by
  induction ps generalizing b with
  | nil =>
    unfold waitScan at h
    split_ifs at h
  | cons q ps ih =>
    unfold waitScan at h
    split_ifs at h with hu hp hz
    · exact ih h
    · cases h
      exact ⟨hz, hp⟩
    · exact ih h
    · exact ih h

/-- The slot `kill(pid)` stores to. -/
def target (pid : ℤ) (k : Kernel NPROC NCPU) : Option (Fin NPROC) :=
  (List.finRange NPROC).find? (fun p => (k.proc p).pid = pid)

theorem enqueueProc_unlocked : k.enqueueProc false c p = .error (.panic "enqueue_proc no lock") :=
  if_pos rfl

theorem kill_unlocked (c : Fin NCPU) (pid : ℤ) (k : Kernel NPROC NCPU) : k.kill false c pid =
    match k.target pid with
    | none => .ok (k, -1)
    | some p =>
      if (k.proc p).state = .sleeping then .error (.panic "enqueue_proc no lock")
      else .ok (k.setProc p { k.proc p with killed := true }, 0) := by
  unfold kill target
  cases (List.finRange NPROC).find? (fun p => (k.proc p).pid = pid) with
  | none => rfl
  | some p =>
    simp only [setProc_proc, update_self]
    split_ifs
    · rw [enqueueProc_unlocked]
      rfl
    · rfl

end Kernel

end Xv6Shed
