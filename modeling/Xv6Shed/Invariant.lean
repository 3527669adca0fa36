import Xv6Shed.Operations
import Xv6Shed.System

/-!
# The invariant of the atomic system

Between two operations the queues agree with the process table, every current process is
`RUNNING` and either its CPU's idle process, whose lower queues are then empty, or the head
of one of its CPU's queues. Inside an operation of CPU `c` the last clause is given up for
`c`; `schedule` restores it.
-/

namespace Xv6Shed
open Function

variable {NPROC NCPU : ℕ} {Z : Fin NCPU → Prop} {k k' : Kernel NPROC NCPU}
  {Q : RqId NCPU → List (Fin NPROC)} {p prev i : Fin NPROC} {c d : Fin NCPU}

/-- A dispatch of a process that was `RUNNABLE`, or that was current already and ready, or of
the CPU's idle process when that was ready. -/
structure Dispatch.Safe (idle : Fin NCPU → Option (Fin NPROC)) (e : Dispatch NPROC NCPU) :
    Prop where
  ready : e.state.Ready
  kind : e.state = .runnable ∨ e.next = e.prev ∨ idle e.cpu = some e.next

/-- What is true of the current process of CPU `d` between operations. -/
structure Settled (k : Kernel NPROC NCPU) (Q : RqId NCPU → List (Fin NPROC)) (d : Fin NCPU)
    (p : Fin NPROC) : Prop where
  running : (k.proc p).state = .running
  place : k.idleproc d = some p ∧ Q (d, .two) = [] ∧ Q (d, .three) = [] ∨
    ∃ l, (Q (d, l)).head? = some p

/-- `busy` is the CPU that is inside an operation, if any. -/
structure Inv (Z : Fin NCPU → Prop) (k : Kernel NPROC NCPU) (Q : RqId NCPU → List (Fin NPROC))
    (busy : Option (Fin NCPU)) : Prop where
  links : Links Z k Q ∅
  settled : ∀ d, busy ≠ some d → ∀ p, k.curproc d = some p → Settled k Q d p
  unstarted : ∀ d, k.curproc d = none → Q (d, .two) = [] ∧ Q (d, .three) = []
  current : ∀ p, (k.proc p).state = .running → ∃ d, k.curproc d = some p
  idle : ∀ c, ∃ i, k.idleproc c = some i ∧ (k.proc i).state.Ready ∧ (k.proc i).killed = false
  idle_inj : ∀ c d i, k.idleproc c = some i → k.idleproc d = some i → c = d
  switches : ∀ e ∈ k.switches, e.Safe k.idleproc
  ncpu : ∀ c, Z c → k.ncpu = 1

namespace Inv
variable {busy : Option (Fin NCPU)}

theorem ready_of_idle (hI : Inv Z k Q busy) (hi : k.idleproc c = some i) :
    (k.proc i).state.Ready := by
  obtain ⟨i', hi', hs, -⟩ := hI.idle c
  rw [hi, Option.some_inj] at hi'
  rwa [hi']

theorem not_idle_of_not_ready (hI : Inv Z k Q busy) (hs : ¬ (k.proc p).state.Ready) :
    ¬ k.Idle p := by
  rintro ⟨c, hi⟩
  exact hs (hI.ready_of_idle hi)

theorem curproc_ne (hI : Inv Z k Q none) (hs : (k.proc p).state ≠ .running) (d : Fin NCPU) :
    k.curproc d ≠ some p := fun h => hs (hI.settled d nofun p h).running

theorem ready_of_mem (hI : Inv Z k Q none) {r : RqId NCPU} (hp : p ∈ Q r) :
    (k.proc p).state.Ready := by
  rcases hI.links.ready r p hp with h | h
  · exact h
  · exact .inr (hI.settled r.1 nofun p h).running

theorem curproc_of_running (hI : Inv Z k Q (some c)) (hs : (k.proc p).state = .running)
    {l : Level} (hp : p ∈ Q (c, l)) : k.curproc c = some p := by
  obtain ⟨d, hd⟩ := hI.current p hs
  by_cases hdc : d = c
  · rw [← hdc, hd]
  · rcases (hI.settled d (by simpa using Ne.symm hdc) p hd).place with ⟨hi, -⟩ | ⟨l', hl'⟩
    · exact absurd ⟨d, hi⟩ (hI.links.notIdle _ p hp)
    · have := hI.links.unique (List.mem_of_head? hl') hp
      exact absurd (Prod.mk.inj this).1 hdc

theorem schedule (hI : Inv Z k Q (some c)) (hcur : k.curproc c = some prev)
    (hrun : (k.proc prev).state ≠ .running)
    (hprev : ¬ (k.proc prev).state.Ready → ∃ l xs, Q (c, l) = prev :: xs ∧
      (l = .three → xs = [] → Z c ∨ (k.rqs (c, l)).NullEnd)) :
    ∃ k', k.schedule true c = .ok k' ∧ Inv Z k' (Links.afterSchedule k Q prev) none := by
  obtain ⟨i, hi, hir, -⟩ := hI.idle c
  obtain ⟨rqs, k', hk, rfl, hl⟩ := hI.links.schedule hcur hi (fun h => .inr (hprev h))
  have hsub : ∀ {r p}, p ∈ Links.afterSchedule k Q prev r → p ∈ Q r ∧
      (¬ (k.proc prev).state.Ready → p ≠ prev) := by
    intro r p hp
    unfold Links.afterSchedule at hp
    split_ifs at hp with hs
    · exact ⟨hp, absurd hs⟩
    · exact ⟨List.mem_of_mem_erase hp, fun _ h => (hI.links.nodup r).not_mem_erase (h ▸ hp)⟩
  have hQ : ∀ d l, d ≠ c → Links.afterSchedule k Q prev (d, l) = Q (d, l) := by
    intro d l hd
    unfold Links.afterSchedule
    split_ifs with hs
    · rfl
    · obtain ⟨l', xs, hq, -⟩ := hprev hs
      refine List.erase_of_not_mem fun h => hd ?_
      exact (Prod.mk.inj (hI.links.unique h (by rw [hq]; exact List.mem_cons_self))).1
  have hplace := first_getD (Links.afterSchedule k Q prev) c i
  generalize (first (Links.afterSchedule k Q prev) c).getD i = next at hk hl hplace
  have hnext : (k.proc next).state.Ready ∧
      ((k.proc next).state = .runnable ∨ next = prev ∨ k.idleproc c = some next) := by
    rcases hplace with ⟨rfl, -⟩ | ⟨l, hn⟩
    · exact ⟨hir, .inr (.inr hi)⟩
    · obtain ⟨hmem, hne⟩ := hsub (List.mem_of_head? hn)
      have hr : (k.proc next).state.Ready := by
        by_contra hs
        have hc := (hI.links.ready _ next hmem).resolve_left hs
        obtain rfl : prev = next := Option.some.inj (hcur.symm.trans hc)
        exact hne hs rfl
      refine ⟨hr, hr.imp_right fun hrun => .inl ?_⟩
      exact Option.some.inj ((hI.curproc_of_running hrun hmem).symm.trans hcur)
  refine ⟨_, hk, ⟨hl, ?_, ?_, ?_, ?_, hI.idle_inj, ?_, hI.ncpu⟩⟩
  · intro d _ p hd
    by_cases hdc : d = c
    · subst hdc
      simp only [Kernel.dispatch_curproc, update_self, Option.some_inj] at hd
      subst hd
      refine ⟨by simp, ?_⟩
      rcases hplace with ⟨rfl, hnil⟩ | hn
      · exact .inl ⟨hi, hnil .two, hnil .three⟩
      · exact .inr hn
    · simp only [Kernel.dispatch_curproc, update_of_ne hdc] at hd
      obtain ⟨hrun, hpl⟩ := hI.settled d (by simpa using Ne.symm hdc) p hd
      constructor
      · by_cases hp : p = next
        · simp [hp]
        · simpa [hp] using hrun
      · simp only [hQ d _ hdc]
        exact hpl
  · intro d hd
    by_cases hdc : d = c
    · simp [hdc] at hd
    · rw [hQ d _ hdc, hQ d _ hdc]
      exact hI.unstarted d (by simpa [hdc] using hd)
  · intro p hs
    by_cases hp : p = next
    · exact ⟨c, by simp [hp]⟩
    · simp only [Kernel.dispatch_proc, update_of_ne hp] at hs
      obtain ⟨d, hd⟩ := hI.current p hs
      have hdc : d ≠ c := by
        rintro rfl
        obtain rfl : prev = p := Option.some.inj (hcur.symm.trans hd)
        exact hrun hs
      exact ⟨d, by simpa [hdc] using hd⟩
  · intro d
    obtain ⟨j, hj, hjr, hjk⟩ := hI.idle d
    refine ⟨j, hj, ?_⟩
    by_cases hp : j = next
    · simpa [hp, ProcState.Ready] using hp ▸ hjk
    · simpa [hp] using ⟨hjr, hjk⟩
  · intro e he
    simp only [Kernel.dispatch_switches, List.mem_cons] at he
    rcases he with rfl | he
    · exact ⟨hnext.1, hnext.2⟩
    · exact hI.switches e he

theorem head_of_curproc (hI : Inv Z k Q none) (hcur : k.curproc c = some p)
    (hi : k.idleproc c ≠ some p) : ∃ l xs, Q (c, l) = p :: xs := by
  rcases (hI.settled c nofun p hcur).place with ⟨h, -⟩ | ⟨l, hl⟩
  · exact absurd h hi
  · exact ⟨l, List.head?_eq_some_iff.mp hl⟩

theorem enter (hI : Inv Z k Q none) (c : Fin NCPU) : Inv Z k Q (some c) :=
  { hI with settled := fun d _ => hI.settled d nofun }

theorem place_of_curproc (hI : Inv Z k Q none) (hcur : k.curproc c = some p) :
    k.idleproc c = some p ∨ ∃ l, p ∈ Q (c, l) :=
  (hI.settled c nofun p hcur).place.imp And.left fun ⟨l, hl⟩ => ⟨l, List.mem_of_head? hl⟩

theorem setProc (hI : Inv Z k Q (some c)) (hcur : k.curproc c = some p)
    (hplace : k.idleproc c = some p ∨ ∃ l, p ∈ Q (c, l)) {q : Proc NPROC NCPU}
    (hrq : q.rq = (k.proc p).rq)
    (hi : k.idleproc c = some p → q.state.Ready ∧ q.killed = false) :
    Inv Z (k.setProc p q) Q (some c) := by
  have hmem : ∀ r, p ∈ Q r → r.1 = c := by
    intro r hp
    rcases hplace with h | ⟨l, hl⟩
    · exact absurd ⟨c, h⟩ (hI.links.notIdle r p hp)
    · rw [hI.links.unique hp hl]
  have hidle : ∀ d, k.idleproc d = some p → k.idleproc c = some p := by
    intro d hd
    rcases hplace with h | ⟨l, hl⟩
    · exact h
    · exact absurd ⟨d, hd⟩ (hI.links.notIdle _ p hl)
  refine ⟨hI.links.of_proc rfl rfl ?_ ?_ ?_ (by simp), ?_, hI.unstarted, ?_, ?_,
    hI.idle_inj, hI.switches, hI.ncpu⟩
  · intro r p' _
    by_cases hp : p' = p
    · simp [hp, hrq]
    · simp [hp]
  · intro r p' hp'
    by_cases hp : p' = p
    · subst hp
      rw [hmem r hp']
      exact .inr hcur
    · simpa [hp] using hI.links.ready r p' hp'
  · intro p' hs hni
    by_cases hp : p' = p
    · subst hp
      obtain ⟨l, hl⟩ := hplace.resolve_left fun h => hni ⟨c, h⟩
      exact .inl ⟨(c, l), hl⟩
    · rw [Kernel.setProc_proc, update_of_ne hp] at hs
      exact hI.links.queued p' hs hni
  · intro d hd p' hp'
    obtain ⟨hrun, hpl⟩ := hI.settled d hd p' hp'
    have hne : p' ≠ p := by
      rintro rfl
      refine hd (congrArg some ?_)
      rcases hpl with ⟨h, -⟩ | ⟨l, hl⟩
      · exact hI.idle_inj c d p' (hidle d h) h
      · exact (hmem _ (List.mem_of_head? hl)).symm
    exact ⟨by simpa [hne] using hrun, hpl⟩
  · intro p' hs
    by_cases hp : p' = p
    · exact ⟨c, by rw [hp]; exact hcur⟩
    · rw [Kernel.setProc_proc, update_of_ne hp] at hs
      exact hI.current p' hs
  · intro d
    obtain ⟨i, hid, hs, hk⟩ := hI.idle d
    refine ⟨i, hid, ?_⟩
    by_cases hp : i = p
    · subst hp
      simpa using hi (hidle d hid)
    · simpa [hp] using ⟨hs, hk⟩

theorem relink (hI : Inv Z k Q (some c)) (hc : k.curproc c ≠ none)
    {Q' : RqId NCPU → List (Fin NPROC)} (hl : Links Z k' Q' ∅)
    (hQ : ∀ d l, d ≠ c → (Q' (d, l)).head? = (Q (d, l)).head?) (hm : Moved k k')
    (hs : ∀ p, (k'.proc p).state = (k.proc p).state) : Inv Z k' Q' (some c) := by
  have hnil : ∀ {d l}, d ≠ c → Q (d, l) = [] → Q' (d, l) = [] := by
    intro d l hd h
    rw [← List.head?_eq_none_iff, hQ d l hd, h]
    rfl
  refine ⟨hl, ?_, ?_, ?_, ?_, ?_, ?_, by rw [hm.ncpu]; exact hI.ncpu⟩
  · intro d hd p hp
    rw [hm.curproc] at hp
    have hdc : d ≠ c := fun h => hd (congrArg some h.symm)
    obtain ⟨hrun, hpl⟩ := hI.settled d hd p hp
    refine ⟨by rw [hs, hrun], ?_⟩
    rw [hm.idleproc]
    refine hpl.imp ?_ ?_
    · rintro ⟨hi, h₂, h₃⟩
      exact ⟨hi, hnil hdc h₂, hnil hdc h₃⟩
    · rintro ⟨l, hl⟩
      exact ⟨l, by rw [hQ d l hdc, hl]⟩
  · intro d hd
    rw [hm.curproc] at hd
    have hdc : d ≠ c := by
      rintro rfl
      exact hc hd
    exact (hI.unstarted d hd).imp (hnil hdc) (hnil hdc)
  · intro p hp
    rw [hs] at hp
    rw [hm.curproc]
    exact hI.current p hp
  · intro d
    obtain ⟨i, hi, hr, hk⟩ := hI.idle d
    exact ⟨i, by rw [hm.idleproc, hi], by rw [hs]; exact hr, by rw [hm.killed, hk]⟩
  · rw [hm.idleproc]
    exact hI.idle_inj
  · rw [hm.idleproc, hm.switches]
    exact hI.switches

/-- Stores that change the scheduling fields of no process, apart from slots that are not
ready, before or after, and on no CPU. -/
theorem congr (hI : Inv Z k Q busy) (hrqs : k'.rqs = k.rqs) (hcur : k'.curproc = k.curproc)
    (hidle : k'.idleproc = k.idleproc) (hsw : k'.switches = k.switches) (hn : k'.ncpu = k.ncpu)
    (hp : ∀ p, ((k'.proc p).state = (k.proc p).state ∧ (k'.proc p).rq = (k.proc p).rq ∧
        (k'.proc p).killed = (k.proc p).killed) ∨
      (¬ (k.proc p).state.Ready ∧ (∀ d, k.curproc d ≠ some p) ∧ ¬ (k'.proc p).state.Ready)) :
    Inv Z k' Q busy := by
  have hready : ∀ p, (k'.proc p).state.Ready ↔ (k.proc p).state.Ready := by
    intro p
    rcases hp p with ⟨h, -⟩ | ⟨h, -, h'⟩
    · rw [h]
    · exact iff_of_false h' h
  have hrun : ∀ p, (k'.proc p).state = .running ↔ (k.proc p).state = .running := by
    intro p
    rcases hp p with ⟨h, -⟩ | ⟨h, -, h'⟩
    · rw [h]
    · exact iff_of_false (fun hr => h' (.inr hr)) (fun hr => h (.inr hr))
  refine ⟨hI.links.of_proc hrqs hidle ?_ ?_ ?_ (by simp), ?_, by rw [hcur]; exact hI.unstarted,
    ?_, ?_, ?_, ?_, by rw [hn]; exact hI.ncpu⟩
  · intro r p hpr
    rcases hp p with ⟨-, h, -⟩ | ⟨h, hc, -⟩
    · exact h
    · exact absurd hpr (hI.links.notMem_of_not_ready h hc r)
  · intro r p hpr
    rw [hready, hcur]
    exact hI.links.ready r p hpr
  · intro p hs
    exact hI.links.queued p ((hready p).mp hs)
  · intro d hd p hpd
    rw [hcur] at hpd
    obtain ⟨hr, hpl⟩ := hI.settled d hd p hpd
    exact ⟨(hrun p).mpr hr, by rw [hidle]; exact hpl⟩
  · intro p hs
    rw [hcur]
    exact hI.current p ((hrun p).mp hs)
  · intro d
    obtain ⟨i, hi, hs, hk⟩ := hI.idle d
    refine ⟨i, by rw [hidle, hi], (hready i).mpr hs, ?_⟩
    rcases hp i with ⟨-, -, h⟩ | ⟨h, -, -⟩
    · rw [h, hk]
    · exact absurd hs h
  · rw [hidle]
    exact hI.idle_inj
  · rw [hidle, hsw]
    exact hI.switches

theorem append (hI : Inv Z k Q busy) {ys : List (Fin NPROC)}
    (hl : Links Z k' (update Q (c, .one) (Q (c, .one) ++ ys)) ∅) (hcur : k'.curproc = k.curproc)
    (hidle : k'.idleproc = k.idleproc) (hsw : k'.switches = k.switches) (hn : k'.ncpu = k.ncpu)
    (hkilled : ∀ p, (k'.proc p).killed = (k.proc p).killed)
    (hs : ∀ p, (k'.proc p).state = (k.proc p).state ∨
      ¬ (k.proc p).state.Ready ∧ (k'.proc p).state = .runnable) :
    Inv Z k' (update Q (c, .one) (Q (c, .one) ++ ys)) busy := by
  have hready : ∀ p, (k.proc p).state.Ready → (k'.proc p).state = (k.proc p).state := fun p h =>
    (hs p).resolve_right fun h' => h'.1 h
  refine ⟨hl, ?_, ?_, ?_, ?_, ?_, ?_, by rw [hn]; exact hI.ncpu⟩
  · intro d hd p hp
    rw [hcur] at hp
    obtain ⟨hrun, hpl⟩ := hI.settled d hd p hp
    refine ⟨by rw [hready p (.inr hrun), hrun], ?_⟩
    rw [hidle]
    refine hpl.imp ?_ ?_
    · rintro ⟨hi, h₂, h₃⟩
      exact ⟨hi, by simpa using h₂, by simpa using h₃⟩
    · rintro ⟨l, hl⟩
      refine ⟨l, ?_⟩
      by_cases hr : (d, l) = (c, .one)
      · rw [hr, update_self, List.head?_append, ← hr, hl]
        rfl
      · rw [update_of_ne hr, hl]
  · intro d hd
    rw [hcur] at hd
    simpa using hI.unstarted d hd
  · intro p hp
    rw [hcur]
    rcases hs p with h | ⟨-, h⟩
    · exact hI.current p (h.symm.trans hp)
    · rw [h] at hp
      cases hp
  · intro d
    obtain ⟨i, hi, hir, hk⟩ := hI.idle d
    exact ⟨i, by rw [hidle, hi], by rw [hready i hir]; exact hir, by rw [hkilled, hk]⟩
  · rw [hidle]
    exact hI.idle_inj
  · rw [hidle, hsw]
    exact hI.switches

end Inv

end Xv6Shed
