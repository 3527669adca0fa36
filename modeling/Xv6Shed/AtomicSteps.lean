import Xv6Shed.Invariant

/-!
# Every operation keeps the invariant

One lemma for each operation of the atomic system. None of them faults, apart from the
panic of an exiting init.
-/

namespace Xv6Shed
open Function

variable {NPROC NCPU : ℕ} {Z : Fin NCPU → Prop} {k k' : Kernel NPROC NCPU}
  {Q : RqId NCPU → List (Fin NPROC)} {p : Fin NPROC} {c : Fin NCPU}

namespace Inv

theorem wakeup1 (hI : Inv Z k Q none) (c : Fin NCPU) (chan : Option (Chan NPROC)) :
    ∃ k' ys, k.wakeup1 true c chan = .ok k' ∧
      Inv Z k' (update Q (c, .one) (Q (c, .one) ++ ys)) none := by
  obtain ⟨k', ys, hk, hl⟩ := hI.links.wakeup1 chan (fun p hs _ =>
    ⟨hI.curproc_ne (by simp [hs]), hI.not_idle_of_not_ready (by simp [hs, ProcState.Ready])⟩) c
  obtain ⟨hm, hs, -⟩ := Kernel.wakeup1_ok hk
  refine ⟨k', ys, hk, hI.append hl hm.curproc hm.idleproc hm.switches hm.ncpu hm.killed
    fun p => ?_⟩
  rw [hs p]
  split_ifs with h
  · exact .inr ⟨by simp [h.1, ProcState.Ready], rfl⟩
  · exact .inl rfl

section

variable (hI : Inv Z k Q none) (hcur : k.curproc c = some p) (hi : k.idleproc c ≠ some p)
  (hb : Q (c, .three) = [p] → Z c ∨ (k.rqs (c, .three)).NullEnd)
include hI hcur hi hb

theorem block {q : Proc NPROC NCPU} (hrq : q.rq = (k.proc p).rq) (hs : ¬ q.state.Ready) :
    ∃ k' Q', (k.setProc p q).schedule true c = .ok k' ∧ Inv Z k' Q' none := by
  obtain ⟨l, xs, hq⟩ := hI.head_of_curproc hcur hi
  obtain ⟨k', hk, hI'⟩ := ((hI.enter c).setProc hcur (hI.place_of_curproc hcur) hrq
    fun h => absurd h hi).schedule hcur (by simpa using fun h => hs (.inr h))
    (fun _ => ⟨l, xs, hq, by rintro rfl rfl; exact hb hq⟩)
  exact ⟨k', _, hk, hI'⟩

theorem sleep (chan : Chan NPROC) : ∃ k' Q', k.sleep c chan = .ok k' ∧ Inv Z k' Q' none := by
  obtain ⟨k', Q', hk, hI'⟩ := hI.block hcur hi hb (q := { k.proc p with
    chan := some chan, state := .sleeping }) rfl (by simp [ProcState.Ready])
  refine ⟨k', Q', ?_, hI'⟩
  unfold Kernel.sleep Kernel.sleepSet
  rw [hcur, deref_some, ok_bind]
  exact hk

end

/-- `k₁` differs from `k` by wakeups on CPU `c` and by stores to fields that do not concern
scheduling. -/
structure Tended (Z : Fin NCPU → Prop) (c : Fin NCPU) (k : Kernel NPROC NCPU)
    (Q : RqId NCPU → List (Fin NPROC)) (k₁ : Kernel NPROC NCPU)
    (Q₁ : RqId NCPU → List (Fin NPROC)) : Prop where
  inv : Inv Z k₁ Q₁ none
  curproc : k₁.curproc = k.curproc
  idleproc : k₁.idleproc = k.idleproc
  queue : Q₁ (c, .three) = Q (c, .three)
  rqs : k₁.rqs (c, .three) = k.rqs (c, .three)

namespace Tended
variable {k₁ : Kernel NPROC NCPU} {Q₁ : RqId NCPU → List (Fin NPROC)}

theorem refl (hI : Inv Z k Q none) (c : Fin NCPU) : Tended Z c k Q k Q :=
  ⟨hI, rfl, rfl, rfl, rfl⟩

theorem wakeup1 (h : Tended Z c k Q k₁ Q₁) (chan : Option (Chan NPROC)) :
    ∃ k₂ Q₂, k₁.wakeup1 true c chan = .ok k₂ ∧ Tended Z c k Q k₂ Q₂ := by
  obtain ⟨k₂, ys, hk, hI⟩ := h.inv.wakeup1 c chan
  obtain ⟨hm, -, hr⟩ := Kernel.wakeup1_ok hk
  refine ⟨k₂, _, hk, hI, hm.curproc.trans h.curproc, hm.idleproc.trans h.idleproc, ?_, ?_⟩
  · rw [update_of_ne (by simp), h.queue]
  · rw [hr _ (by simp), h.rqs]

theorem setProc (h : Tended Z c k Q k₁ Q₁) {q : Proc NPROC NCPU}
    (hs : q.state = (k₁.proc p).state) (hrq : q.rq = (k₁.proc p).rq)
    (hk : q.killed = (k₁.proc p).killed) : Tended Z c k Q (k₁.setProc p q) Q₁ := by
  refine ⟨h.inv.congr rfl rfl rfl rfl rfl fun p' => .inl ?_, h.curproc, h.idleproc, h.queue,
    h.rqs⟩
  by_cases hp : p' = p
  · subst hp
    simpa using ⟨hs, hrq, hk⟩
  · simp [hp]

end Tended

theorem reparentOne {k₁ : Kernel NPROC NCPU} {Q₁ : RqId NCPU → List (Fin NPROC)}
    (h : Tended Z c k Q k₁ Q₁) (me : Fin NPROC) :
    ∃ k₂ Q₂, k₁.reparentOne true c me p = .ok k₂ ∧ Tended Z c k Q k₂ Q₂ := by
  have hp : Tended Z c k Q (k₁.setProc p { k₁.proc p with parent := k₁.initproc }) Q₁ :=
    h.setProc rfl rfl rfl
  unfold Kernel.reparentOne
  dsimp only
  split_ifs
  · exact hp.wakeup1 _
  · exact ⟨_, _, rfl, hp⟩
  · exact ⟨_, _, rfl, h⟩

section

variable (hI : Inv Z k Q none)
include hI

theorem exit (hcur : k.curproc c = some p) (hi : k.idleproc c ≠ some p)
    (hb : Q (c, .three) = [p] → Z c ∨ (k.rqs (c, .three)).NullEnd) :
    k.exit c = .error (.panic "init exiting") ∨ ∃ k' Q', k.exit c = .ok k' ∧ Inv Z k' Q' none := by
  by_cases hp : k.initproc = some p
  · left
    unfold Kernel.exit Kernel.exitFiles
    simp only [hcur, deref_some, ok_bind, if_pos hp, error_bind]
  right
  have h₀ : Tended Z c k Q (k.setProc p { k.proc p with ofile := fun _ => none, cwd := none }) Q :=
    (Tended.refl hI c).setProc rfl rfl rfl
  obtain ⟨k₁, Q₁, h₁, ht₁⟩ := h₀.wakeup1 ((k.proc p).parent.map .proc)
  obtain ⟨k₂, h₂, Q₂, ht₂⟩ := foldlM_ok (l := List.finRange NPROC) (b := k₁)
    (f := Kernel.reparentOne true c p) (P := fun k' => ∃ Q', Tended Z c k Q k' Q')
    (fun q _ k' ⟨Q', h⟩ => by
      obtain ⟨k'', Q'', h₁, h₂⟩ := reparentOne h p
      exact ⟨k'', h₁, Q'', h₂⟩) ⟨Q₁, ht₁⟩
  obtain ⟨k', Q', hk, hI'⟩ := ht₂.inv.block (by rw [ht₂.curproc, hcur]) (by rwa [ht₂.idleproc])
    (by rw [ht₂.queue, ht₂.rqs]; exact hb)
    (q := { k₂.proc p with killed := false, state := .zombie }) rfl (by simp [ProcState.Ready])
  refine ⟨k', Q', ?_, hI'⟩
  have hf : k.exitFiles c =
      .ok (k.setProc p { k.proc p with ofile := fun _ => none, cwd := none }) := by
    unfold Kernel.exitFiles
    rw [hcur, deref_some, ok_bind, if_neg hp]
    rfl
  unfold Kernel.exit Kernel.exitTable
  rw [hf, ok_bind, Kernel.setProc_curproc, hcur, deref_some, ok_bind]
  simp only [Kernel.setProc_proc, update_self, h₁, h₂, ok_bind]
  exact hk

theorem wait (hcur : k.curproc c = some p) (hi : k.idleproc c ≠ some p)
    (hb : k.waitScan p (List.finRange NPROC) false = .sleep →
      Q (c, .three) = [p] → Z c ∨ (k.rqs (c, .three)).NullEnd) :
    ∃ k' Q', k.wait c = .ok k' ∧ Inv Z k' Q' none := by
  unfold Kernel.wait
  rw [hcur, deref_some, ok_bind]
  cases hw : k.waitScan p (List.finRange NPROC) false with
  | sleep => exact hI.sleep hcur hi (hb hw) _
  | none => exact ⟨k, Q, rfl, hI⟩
  | found q =>
    obtain ⟨hz, -⟩ := Kernel.waitScan_found hw
    refine ⟨k.reap q, Q, rfl, hI.congr rfl rfl rfl rfl rfl fun p' => ?_⟩
    by_cases hq : p' = q
    · subst hq
      exact .inr ⟨by simp [hz, ProcState.Ready], hI.curproc_ne (by simp [hz]),
        by simp [Kernel.reap, ProcState.Ready]⟩
    · simp [Kernel.reap, hq]

theorem copied {kstackOk memOk : Bool} {o : Option (Fin NPROC)}
    (h : k.Copied p kstackOk memOk o k') : Inv Z k' Q none := by
  obtain ⟨hrqs, hcur, hidle, hsw, hn, hp⟩ := h.frame
  refine hI.congr hrqs hcur hidle hsw hn fun p' => ?_
  rcases hp p' with h | ⟨hu, h⟩
  · simp [h]
  · refine .inr ⟨by simp [hu, ProcState.Ready], hI.curproc_ne (by simp [hu]), ?_⟩
    rcases h with h | h <;> simp [h, ProcState.Ready]

theorem forkEnqueue (hp : (k.proc p).state = .embryo) (c : Fin NCPU) :
    ∃ k' Q', k.forkEnqueue true c p = .ok k' ∧ Inv Z k' Q' none := by
  have hs : ¬ (k.proc p).state.Ready := by simp [hp, ProcState.Ready]
  obtain ⟨k', hk, hl⟩ := hI.links.wake_enqueue hs (hI.curproc_ne (by simp [hp]))
    (hI.not_idle_of_not_ready hs) c
  refine ⟨k', update Q (c, .one) (Q (c, .one) ++ [p]), hk, ?_⟩
  obtain ⟨-, rq, rfl⟩ := Kernel.enqueueProc_ok hk
  refine hI.append hl rfl rfl rfl rfl ?_ ?_
  · intro p'
    by_cases h : p' = p
    · simp [h]
    · simp [h]
  · intro p'
    by_cases h : p' = p
    · subst h
      exact .inr ⟨hs, by simp⟩
    · simp [h]

theorem fork (hcur : k.curproc c = some p) (kstackOk memOk : Bool) :
    ∃ k' Q', k.fork kstackOk memOk c = .ok k' ∧ Inv Z k' Q' none := by
  obtain ⟨o, k₁, h₁, hc⟩ := Kernel.copyproc_copied hcur kstackOk memOk
  unfold Kernel.fork
  rw [h₁, ok_bind]
  cases o with
  | none => exact ⟨k₁, Q, rfl, hI.copied hc⟩
  | some np => exact (hI.copied hc).forkEnqueue hc.embryo c

theorem sleepClear (hcur : k.curproc c = some p) :
    ∃ k', k.sleepClear c = .ok k' ∧ Inv Z k' Q none := by
  refine ⟨_, by unfold Kernel.sleepClear; rw [hcur, deref_some, ok_bind]; rfl, ?_⟩
  refine (Tended.setProc (Tended.refl hI c) ?_ ?_ ?_).inv <;> rfl

theorem runIdle (hcur : k.curproc c = none) : ∃ k', k.runIdle c = .ok k' ∧ Inv Z k' Q none := by
  obtain ⟨i, hi, hr, hkl⟩ := hI.idle c
  have hne : ∀ {r p}, p ∈ Q r → p ≠ i := by
    rintro r p hp rfl
    exact hI.links.notIdle r p hp ⟨c, hi⟩
  have hc : ∀ {d p}, k.curproc d = some p → d ≠ c := by
    rintro d p hd rfl
    rw [hcur] at hd
    cases hd
  refine ⟨_, by unfold Kernel.runIdle; rw [hi, deref_some, ok_bind]; rfl, ?_⟩
  refine ⟨hI.links.of_proc rfl rfl ?_ ?_ ?_ (by simp), ?_, ?_, ?_, ?_, hI.idle_inj, hI.switches,
    hI.ncpu⟩
  · intro r p hp
    simp [hne hp]
  · intro r p hp
    simp only [Kernel.setState_proc, update_of_ne (hne hp), Kernel.setState_curproc]
    exact (hI.links.ready r p hp).imp_right fun h => by rwa [update_of_ne (hc h)]
  · intro p hs hp
    have hpi : p ≠ i := fun h => hp ⟨c, h ▸ hi⟩
    simp only [Kernel.setState_proc, update_of_ne hpi] at hs
    exact hI.links.queued p hs hp
  · intro d _ p hd
    by_cases hdc : d = c
    · subst hdc
      simp only [Kernel.setState_curproc, update_self, Option.some_inj] at hd
      subst hd
      exact ⟨by simp, .inl ⟨hi, hI.unstarted d hcur⟩⟩
    · simp only [Kernel.setState_curproc, update_of_ne hdc] at hd
      obtain ⟨hs, hpl⟩ := hI.settled d nofun p hd
      refine ⟨?_, hpl⟩
      by_cases hpi : p = i
      · simp [hpi]
      · simpa [hpi] using hs
  · intro d hd
    by_cases hdc : d = c
    · simp [hdc] at hd
    · exact hI.unstarted d (by simpa [hdc] using hd)
  · intro p hs
    by_cases hpi : p = i
    · exact ⟨c, by simp [hpi]⟩
    · simp only [Kernel.setState_proc, update_of_ne hpi] at hs
      obtain ⟨d, hd⟩ := hI.current p hs
      exact ⟨d, by simpa [hc hd] using hd⟩
  · intro d
    obtain ⟨j, hj, hjr, hjk⟩ := hI.idle d
    refine ⟨j, hj, ?_⟩
    by_cases hji : j = i
    · simpa [hji, ProcState.Ready] using hkl
    · simpa [hji] using ⟨hjr, hjk⟩

end

section

variable (hI : Inv Z k Q (some c)) (hcur : k.curproc c = some p)
  (hplace : k.idleproc c = some p ∨ ∃ l, p ∈ Q (c, l))
include hI hcur hplace

theorem setRunnable : Inv Z (k.setState p .runnable) Q (some c) := by
  refine hI.setProc hcur hplace rfl fun hi => ⟨.inl rfl, ?_⟩
  obtain ⟨i, hi', -, hk⟩ := hI.idle c
  obtain rfl : p = i := Option.some.inj (hi.symm.trans hi')
  exact hk

theorem yield (hz : Q (c, .one) = [] → Q (c, .two) = [] → Z c → Q (c, .three) = []) :
    ∃ k' Q', k.yield true c = .ok k' ∧ Inv Z k' Q' none := by
  have hI₁ := hI.setRunnable hcur hplace
  obtain ⟨rqs, Q₂, h₂, hl₂, hQ₂⟩ := hI₁.links.yieldProc hz
  have hI₂ : Inv Z { k.setState p .runnable with rqs := rqs } Q₂ (some c) :=
    hI₁.relink (by simp [hcur]) hl₂ (fun d l hd => by rw [hQ₂ d l hd])
      ⟨rfl, fun _ => rfl⟩ (fun _ => rfl)
  have hrun : ((k.setState p .runnable).proc p).state = .runnable := by simp
  obtain ⟨k', h', hI'⟩ := hI₂.schedule hcur (by dsimp only; rw [hrun]; nofun)
    (fun h => absurd (.inl hrun) h)
  refine ⟨k', _, ?_, hI'⟩
  unfold Kernel.yield
  simp only [hcur, deref_some, ok_bind, h₂, h']

end

section

variable (hI : Inv Z k Q none) (hcur : k.curproc c = some p)
include hI hcur

theorem demote (hi : k.idleproc c ≠ some p) {l l' : Level} (hrq : (k.proc p).rq = some (c, l))
    (hl : l.next = some l') :
    ∃ k' xs, Q (c, l) = p :: xs ∧ k.demote true c p = .ok k' ∧
      Inv Z k' (update (update Q (c, l) xs) (c, l') (Q (c, l') ++ [p])) none := by
  obtain ⟨l₀, xs, hq⟩ := hI.head_of_curproc hcur hi
  have hrq' := hI.links.rq (c, l₀) p (by simp [hq])
  obtain rfl : l₀ = l := by simpa [hrq] using hrq'.symm
  have hne : l₀ ≠ .three := by
    rintro rfl
    cases hl
  obtain ⟨rq₁, h₁, hl₁⟩ := hI.links.dequeue_head hq (fun h => absurd h hne)
  have hrun := (hI.settled c nofun p hcur).running
  obtain ⟨rq₂, h₂, hl₂⟩ := hl₁.enqueue (hl₁.transit p (.inl rfl)) (.inr hrun)
    (hI.links.notIdle (c, l₀) p (by simp [hq])) (c, l')
  obtain ⟨hm, hs⟩ := Kernel.subEnqueueProc_state h₂
  have hI₂ := (hI.enter c).relink (by simp [hcur])
    (hl₂.drop (Set.empty_subset _) (by
      rintro q ⟨rfl | h, hn⟩ _
      · exact absurd rfl hn
      · exact absurd h (Set.notMem_empty q)))
    (fun d l hd => by rw [update_of_ne (by simp [hd]), update_of_ne (by simp [hd])])
    ((Moved.setRq _ _ k).trans hm) hs
  have hcur₂ := congrFun hm.curproc c
  rw [Kernel.setRq_curproc, hcur] at hcur₂
  have hI₃ := hI₂.setRunnable hcur₂ (.inr ⟨l', by simp⟩)
  obtain ⟨k', h', hI'⟩ := hI₃.schedule hcur₂ (by simp) (by simp [ProcState.Ready])
  have hll : (c, l') ≠ (c, l₀) := by
    rintro ⟨⟩
    cases l' <;> cases hl
  unfold Links.afterSchedule at hI'
  rw [if_pos (by simp [ProcState.Ready]), update_of_ne hll] at hI'
  refine ⟨k', xs, hq, ?_, hI'⟩
  unfold Kernel.demote
  simp only [hrq, deref_some, ok_bind, h₁, hl, h₂, hcur₂, h']

theorem loadBalance :
    ∃ k', k.loadBalanceMLFQ c = .ok k' ∧
      Inv Z k' (k.busiest.elim Q fun src => Links.balanced src c Q) (some c) := by
  obtain ⟨k', hk, hl⟩ := hI.links.loadBalance (fun r p => hI.ready_of_mem) c
  obtain ⟨hm, hs⟩ := Kernel.loadBalanceMLFQ_ok hk
  refine ⟨k', hk, (hI.enter c).relink (by simp [hcur]) hl (fun d l hd => ?_) hm hs⟩
  cases k.busiest with
  | none => rfl
  | some src =>
    simp only [Option.elim_some, Links.balanced, if_neg hd, List.append_nil]
    split_ifs
    · exact head?_kept _
    · rfl

/-- A tick while the idle process runs. With one CPU the idle process finds nothing to take
and level 3 stays null-terminated. -/
theorem tickIdle (hi : k.idleproc c = some p) (hc : c.val < k.ncpu) :
    ∃ k' Q', (do (← k.tickBalance c p).procTick c p) = .ok k' ∧ Inv Z k' Q' none := by
  obtain ⟨k₁, h₁, hI₁⟩ := hI.loadBalance hcur
  obtain ⟨hm, -⟩ := Kernel.loadBalanceMLFQ_ok h₁
  have hi₁ : k₁.idleproc c = some p := by rw [hm.idleproc, hi]
  obtain ⟨k', Q', h', hI'⟩ := hI₁.yield (by rw [hm.curproc, hcur]) (.inl hi₁) (by
    intro _ _ hZ
    have h₃ : Q (c, .three) = [] := by
      rcases (hI.settled c nofun p hcur).place with ⟨-, -, h⟩ | ⟨l, hl⟩
      · exact h
      · exact absurd ⟨c, hi⟩ (hI.links.notIdle _ p (List.mem_of_head? hl))
    cases hsrc : k.busiest with
    | none => exact h₃
    | some src =>
      have hlt := Kernel.busiest_lt hsrc
      obtain rfl : src = c := Fin.ext (by have := hI.ncpu c hZ; omega)
      simp [Links.balanced, h₃, kept, taken])
  refine ⟨k', Q', ?_, hI'⟩
  unfold Kernel.tickBalance Kernel.procTick Kernel.procTickMLFQ
  rw [if_pos hi, h₁, ok_bind, if_pos hi₁]
  exact h'

theorem tickOther (hi : k.idleproc c ≠ some p) :
    ∃ k' Q', (do (← k.tickBalance c p).procTick c p) = .ok k' ∧ Inv Z k' Q' none := by
  obtain ⟨l, xs, hq⟩ := hI.head_of_curproc hcur hi
  have hrq := hI.links.rq (c, l) p (by simp [hq])
  have hI₁ : Inv Z (k.setProc p { k.proc p with timeslice := (k.proc p).timeslice - 1 })
      Q none := by
    refine (Tended.setProc (Tended.refl hI c) ?_ ?_ ?_).inv <;> rfl
  -- levels 1 and 2 count the slice down; the end of the slice moves the process on
  have hRR : ∀ l', l.next = some l' → ∃ k' Q', k.procTick c p = .ok k' ∧ Inv Z k' Q' none := by
    intro l' hl'
    have hl : (k.proc p).rq = some (c, .one) ∨ (k.proc p).rq = some (c, .two) := by
      rw [hrq]
      cases l with
      | one => exact .inl rfl
      | two => exact .inr rfl
      | three => cases hl'
    unfold Kernel.procTick Kernel.procTickMLFQ
    rw [if_neg hi, if_pos hl]
    simp only [Kernel.setProc_proc, update_self]
    split_ifs
    · obtain ⟨k', xs, -, hk, hI'⟩ := hI₁.demote hcur hi (by simpa using hrq) hl'
      exact ⟨k', _, hk, hI'⟩
    · exact ⟨_, Q, rfl, hI₁⟩
  unfold Kernel.tickBalance
  rw [if_neg hi]
  cases l with
  | one => exact hRR .two rfl
  | two => exact hRR .three rfl
  | three =>
    refine ⟨k, Q, ?_, hI⟩
    show k.procTick c p = .ok k
    unfold Kernel.procTick Kernel.procTickMLFQ
    rw [if_neg hi, if_neg (by simp [hrq]), if_pos hrq]
    rfl

end

theorem tickProc (hI : Inv Z k Q none) {user : Bool} (hc : c.val < k.ncpu)
    (hcur : k.curproc c = some p) (hb : (k.proc p).killed = true ∧ user = true →
      Q (c, .three) = [p] → Z c ∨ (k.rqs (c, .three)).NullEnd)
    (h : k.tickProc user c = .ok k') : ∃ Q', Inv Z k' Q' none := by
  unfold Kernel.tickProc at h
  simp only [hcur, (hI.settled c nofun p hcur).running, if_true] at h
  split_ifs at h with hk
  · have hi : k.idleproc c ≠ some p := by
      intro hi
      obtain ⟨i, hi', -, hik⟩ := hI.idle c
      obtain rfl : p = i := Option.some.inj (hi.symm.trans hi')
      simp [hik] at hk
    rcases hI.exit hcur hi (hb hk) with he | ⟨k₁, Q₁, he, hI₁⟩
    · rw [he] at h
      cases h
    · obtain rfl : k₁ = k' := Except.ok.inj (he.symm.trans h)
      exact ⟨Q₁, hI₁⟩
  · have key : ∃ k' Q', (do (← k.tickBalance c p).procTick c p) = .ok k' ∧ Inv Z k' Q' none := by
      by_cases hi : k.idleproc c = some p
      · exact hI.tickIdle hcur hi hc
      · exact hI.tickOther hcur hi
    obtain ⟨k₁, Q₁, he, hI₁⟩ := key
    obtain rfl : k₁ = k' := Except.ok.inj (he.symm.trans h)
    exact ⟨Q₁, hI₁⟩

theorem tick (hI : Inv Z k Q none) {user : Bool} (hc : c.val < k.ncpu) (hcur : k.curproc c = some p)
    (hb : (k.proc p).killed = true ∧ user = true →
      Q (c, .three) = [p] → Z c ∨ (k.rqs (c, .three)).NullEnd)
    (h : k.tick user c = .ok k') : ∃ Q', Inv Z k' Q' none := by
  obtain ⟨k₁, h₁, h⟩ := bind_eq_ok.mp h
  unfold Kernel.tickWakeup at h₁
  split_ifs at h₁
  · obtain ⟨k₂, Q₂, h₂, ht⟩ := (Tended.refl hI c).wakeup1 (some ticksChan)
    obtain rfl : k₂ = k₁ := Except.ok.inj (h₂.symm.trans h₁)
    obtain ⟨hm, -, -⟩ := Kernel.wakeup1_ok h₂
    refine ht.inv.tickProc (by rwa [hm.ncpu]) (by rw [ht.curproc, hcur]) ?_ h
    rw [hm.killed, ht.queue, ht.rqs]
    exact hb
  · cases h₁
    exact hI.tickProc hc hcur hb h

end Inv

/-- The operation takes the current process out of its queue. -/
def Op.Leaves (c : Fin NCPU) (k : Kernel NPROC NCPU) : Op NPROC → Prop
  | .sleep _ | .exit => True
  | .wait => ∃ p, k.curproc c = some p ∧ k.waitScan p (List.finRange NPROC) false = .sleep
  | .tick user => user = true ∧ ∃ p, k.curproc c = some p ∧ (k.proc p).killed = true
  | _ => False

/-- The current process is alone in its level-3 queue and the `next` link of the node
`last_to_run` is not null. -/
def Kernel.Dangling (c : Fin NCPU) (k : Kernel NPROC NCPU) : Prop :=
  ∃ p, k.curproc c = some p ∧ (k.proc p).rq = some (c, .three) ∧
    (k.rqs (c, .three)).procNum = 1 ∧ ¬ (k.rqs (c, .three)).NullEnd

theorem Inv.nullEnd_of_not_dangling (hI : Inv Z k Q none) (hcur : k.curproc c = some p)
    (hd : Z c ∨ ¬ k.Dangling c) (hq : Q (c, .three) = [p]) :
    Z c ∨ (k.rqs (c, .three)).NullEnd := by
  refine hd.imp_right fun h => by_contra fun hn => h ⟨p, hcur, ?_, ?_, hn⟩
  · exact hI.links.rq _ p (by simp [hq])
  · have := (hI.links.holds (c, .three)).procNum
    rw [hq] at this
    exact this

/-- One step of the system keeps the invariant, if level 3 is not dangling whenever the
current process leaves it. -/
theorem Inv.step (hI : Inv Z k Q none) {a : Fin NCPU × Op NPROC} (hs : Step k a k')
    (hd : a.2.Leaves a.1 k → Z a.1 ∨ ¬ k.Dangling a.1) :
    ∃ Q', Inv Z k' Q' none := by
  obtain ⟨c, op⟩ := a
  obtain ⟨hc, hen, hex⟩ := hs
  dsimp only at *
  have done : (∃ k₁ Q₁, op.exec c k = .ok k₁ ∧ Inv Z k₁ Q₁ none) → ∃ Q', Inv Z k' Q' none := by
    rintro ⟨k₁, Q₁, h, hI₁⟩
    obtain rfl : k₁ = k' := Except.ok.inj (h.symm.trans hex)
    exact ⟨Q₁, hI₁⟩
  cases hcur : k.curproc c with
  | none =>
    cases op with
    | runIdle =>
      obtain ⟨k₁, h₁, hI₁⟩ := hI.runIdle hcur
      exact done ⟨k₁, Q, h₁, hI₁⟩
    | wakeup _ | tick _ => exact absurd hcur hen
    | _ => exact absurd hcur hen.1
  | some p =>
    have hb := hI.nullEnd_of_not_dangling hcur
    have hsys : k.curproc c ≠ k.idleproc c → k.idleproc c ≠ some p := fun h hi =>
      h (hcur.trans hi.symm)
    cases op with
    | runIdle => cases hcur.symm.trans hen
    | fork kstackOk memOk => exact done (hI.fork hcur kstackOk memOk)
    | copyproc kstackOk memOk =>
      obtain ⟨o, k₁, h₁, hcp⟩ := Kernel.copyproc_copied hcur kstackOk memOk
      refine done ⟨k₁, Q, ?_, hI.copied hcp⟩
      simp only [Op.exec, h₁, ok_bind]
      rfl
    | forkEnqueue np => exact done (hI.forkEnqueue hen.2.2.1 c)
    | sleep chan => exact done (hI.sleep hcur (hsys hen.2) (hb (hd trivial)) chan)
    | sleepClear =>
      obtain ⟨k₁, h₁, hI₁⟩ := hI.sleepClear hcur
      exact done ⟨k₁, Q, h₁, hI₁⟩
    | wakeup chan =>
      obtain ⟨k₁, ys, h₁, hI₁⟩ := hI.wakeup1 c (some chan)
      exact done ⟨k₁, _, h₁, hI₁⟩
    | exit =>
      rcases hI.exit hcur (hsys hen.2) (hb (hd trivial)) with he | he
      · cases he.symm.trans hex
      · exact done he
    | wait => exact done (hI.wait hcur (hsys hen.2) fun hw => hb (hd ⟨p, hcur, hw⟩))
    | tick user =>
      exact hI.tick hc hcur (fun hk => hb (hd ⟨hk.2, p, hcur, hk.1⟩)) hex

end Xv6Shed
