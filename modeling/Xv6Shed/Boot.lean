import Xv6Shed.Invariant

/-!
# The state `pinit` and `userinit` build

After `userinit` the boot CPU's first level holds init, every CPU has its own idle process,
no process is current and nothing has been dispatched: the invariant holds.
-/

namespace Xv6Shed
open Function

variable {NPROC NCPU : ℕ} {k k' : Kernel NPROC NCPU} {p : Fin NPROC} {b : Fin NCPU}

namespace Kernel

theorem newProc_ok (h : k.newProc = .ok (p, k')) : (k.proc p).state = .unused ∧
    k' = { k with
        nextpid := (k.nextpid + 1).bmod (2 ^ 32)
        blocks := k.blocks + 2 }.setProc p { k.proc p with
      pid := k.nextpid
      rq := none
      kstack := some k.blocks
      mem := some (k.blocks + 1)
      cwd := some rootInode
      state := .runnable } := by
  unfold newProc at h
  rcases ha : k.allocproc with ⟨_ | np, k₁⟩
  · rw [ha] at h
    cases h
  · rw [ha] at h
    obtain ⟨hu, rfl⟩ := allocproc_some ha
    simp only [deref_some, ok_bind, copyRest_first] at h
    cases h
    refine ⟨hu, ?_⟩
    simp [kalloc, setProc]

end Kernel

/-- The state while `userinit` fills the slots: `ds` are the CPUs that have an idle process. -/
structure Booting (k : Kernel NPROC NCPU) (Q : RqId NCPU → List (Fin NPROC))
    (ds : List (Fin NCPU)) : Prop where
  links : Links (fun _ => True) k Q ∅
  curproc : ∀ c, k.curproc c = none
  state : ∀ p, (k.proc p).state = .unused ∨ (k.proc p).state = .runnable
  killed : ∀ p, (k.proc p).killed = false
  idle : ∀ c, k.idleproc c ≠ none ↔ c ∈ ds
  idle_ready : ∀ c i, k.idleproc c = some i → (k.proc i).state = .runnable
  idle_inj : ∀ c d i, k.idleproc c = some i → k.idleproc d = some i → c = d
  switches : k.switches = []
  low : ∀ c l, l ≠ .one → Q (c, l) = []

namespace Booting
variable {Q : RqId NCPU → List (Fin NPROC)} {ds : List (Fin NCPU)}

theorem inv (h : Booting k Q ds) (hds : ∀ c, c ∈ ds) {ncpu : ℕ} (hn : k.ncpu = ncpu) :
    Inv (fun _ => ncpu = 1) k Q none where
  links := { h.links with nullEnd := fun c _ => h.links.nullEnd c trivial }
  settled d _ p hp := by simp [h.curproc d] at hp
  unstarted d _ := ⟨h.low d .two nofun, h.low d .three nofun⟩
  current p hp := by
    rcases h.state p with hs | hs <;> simp [hs] at hp
  idle c := by
    obtain ⟨i, hi⟩ := Option.ne_none_iff_exists'.mp ((h.idle c).mpr (hds c))
    exact ⟨i, hi, .inl (h.idle_ready c i hi), h.killed i⟩
  idle_inj := h.idle_inj
  switches := by simp [h.switches]
  ncpu _ h₁ := hn.trans h₁

theorem pinit (NPROC NCPU ncpu : ℕ) :
    Booting (Kernel.pinit NPROC NCPU ncpu) (fun _ => []) [] where
  links := by
    refine ⟨fun r => Holds.init _ _, by simp, by simp, by simp, by simp, ?_, by simp, by simp⟩
    intro p hp
    simp [Kernel.pinit, Kernel.zeroProc, ProcState.Ready] at hp
  curproc _ := rfl
  state _ := .inl rfl
  killed _ := rfl
  idle := by simp [Kernel.pinit]
  idle_ready := nofun
  idle_inj := nofun
  switches := rfl
  low _ _ _ := rfl

theorem newProc (h : Booting k Q ds) (hk : k.newProc = .ok (p, k')) :
    Links (fun _ => True) k' Q {p} ∧
    (∀ q, (k'.proc q).state = .unused ∨ (k'.proc q).state = .runnable) ∧
      (∀ q, (k'.proc q).killed = false) ∧ (k'.proc p).state = .runnable ∧
      (∀ c, k.idleproc c ≠ some p) ∧
      (∀ c i, k.idleproc c = some i → (k'.proc i).state = .runnable) := by
  obtain ⟨hu, rfl⟩ := Kernel.newProc_ok hk
  have hp : ∀ r, p ∉ Q r := h.links.notMem_of_not_ready (by simp [hu, ProcState.Ready])
    (by simp [h.curproc])
  have hi : ∀ c, k.idleproc c ≠ some p := by
    intro c hc
    have := h.idle_ready c p hc
    rw [hu] at this
    cases this
  refine ⟨h.links.of_proc rfl rfl ?_ ?_ ?_ ?_, ?_, ?_, by simp, hi, ?_⟩
  · intro r q hq
    simp [ne_of_mem_of_not_mem hq (hp r)]
  · intro r q hq
    simpa [ne_of_mem_of_not_mem hq (hp r)] using h.links.ready r q hq
  · intro q hq hqi
    by_cases hqp : q = p
    · exact .inr hqp
    · simp only [Kernel.setProc_proc, update_of_ne hqp] at hq
      exact .inl ((h.links.queued q hq hqi).resolve_right (Set.notMem_empty q))
  · rintro q rfl
    exact hp
  · intro q
    by_cases hqp : q = p
    · simp [hqp]
    · simpa [hqp] using h.state q
  · intro q
    by_cases hqp : q = p
    · simpa [hqp] using h.killed p
    · simpa [hqp] using h.killed q
  · intro c i hc
    have hip : i ≠ p := fun hip => hi c (hip ▸ hc)
    simpa [hip] using h.idle_ready c i hc

theorem allocIdle (h : Booting k Q ds) {d : Fin NCPU} (hd : d ∉ ds) (hk : k.allocIdle d = .ok k') :
    Booting k' Q (d :: ds) := by
  obtain ⟨⟨p, k₁⟩, h₁, hk⟩ := bind_eq_ok.mp hk
  obtain ⟨hl, hstate, hkilled, hs, hip, hidle⟩ := h.newProc h₁
  obtain ⟨-, hk₁⟩ := Kernel.newProc_ok h₁
  have hid : k₁.idleproc = k.idleproc := by rw [hk₁]; rfl
  have hcur : k₁.curproc = k.curproc := by rw [hk₁]; rfl
  have hsw : k₁.switches = k.switches := by rw [hk₁]; rfl
  cases hk
  have hnew : ∀ {c i}, update k₁.idleproc d (some p) c = some i →
      c = d ∧ i = p ∨ c ≠ d ∧ k.idleproc c = some i := by
    intro c i hi
    by_cases hc : c = d
    · subst hc
      rw [update_self, Option.some_inj] at hi
      exact .inl ⟨rfl, hi.symm⟩
    · rw [update_of_ne hc, hid] at hi
      exact .inr ⟨hc, hi⟩
  refine ⟨⟨hl.holds, hl.nodup, hl.rq, ?_, hl.ready, ?_, by simp, hl.nullEnd⟩, ?_, hstate, hkilled,
    ?_, ?_, ?_, ?_, h.low⟩
  · rintro r q hq ⟨c, hc⟩
    rcases hnew hc with ⟨-, rfl⟩ | ⟨-, hc⟩
    · exact hl.transit q rfl r hq
    · exact hl.notIdle r q hq ⟨c, by rw [hid, hc]⟩
  · intro q hq hqi
    have hqp : q ≠ p := by
      rintro rfl
      exact hqi ⟨d, by simp⟩
    refine .inl ((hl.queued q hq ?_).resolve_right hqp)
    rintro ⟨c, hc⟩
    have hcd : c ≠ d := by
      rintro rfl
      rw [hid] at hc
      exact absurd ((h.idle c).mp (by simp [hc])) hd
    exact hqi ⟨c, by simpa [hcd] using hc⟩
  · intro c
    exact (congrFun hcur c).trans (h.curproc c)
  · intro c
    by_cases hc : c = d
    · simp [hc]
    · simp [hc, hid, ← h.idle c]
  · intro c i hi
    rcases hnew hi with ⟨-, rfl⟩ | ⟨-, hi⟩
    · exact hs
    · exact hidle c i hi
  · intro c c' i hc hc'
    rcases hnew hc with ⟨h₁, hi₁⟩ | ⟨-, hc₁⟩ <;> rcases hnew hc' with ⟨h₂, hi₂⟩ | ⟨-, hc₂⟩
    · exact h₁.trans h₂.symm
    · exact absurd (hi₁ ▸ hc₂) (hip c')
    · exact absurd (hi₂ ▸ hc₁) (hip c)
    · exact h.idle_inj c c' i hc₁ hc₂
  · exact hsw.trans h.switches

theorem first (h : Booting k (fun _ => []) []) (hk : k.newProc = .ok (p, k'))
    {k₁ : Kernel NPROC NCPU} (h₁ : k'.enqueueProc true b p = .ok k₁) :
    Booting { k₁ with initproc := some p } (update (fun _ => []) (b, .one) [p]) [] := by
  obtain ⟨hl, hstate, hkilled, hs, hip, hidle⟩ := h.newProc hk
  obtain ⟨-, hk'⟩ := Kernel.newProc_ok hk
  have hcur : k'.curproc = k.curproc := by rw [hk']; rfl
  have hid : k'.idleproc = k.idleproc := by rw [hk']; rfl
  have hsw : k'.switches = k.switches := by rw [hk']; rfl
  obtain ⟨k₂, h₂, hl₂⟩ := hl.enqueueProc (p := p) (by simp) (.inl hs)
    (by rintro ⟨c, hc⟩; exact hip c (hid ▸ hc)) b
  obtain rfl : k₂ = k₁ := Except.ok.inj (h₂.symm.trans h₁)
  obtain ⟨-, rq, rfl⟩ := Kernel.enqueueProc_ok h₂
  have hst : ∀ q, (((k'.setRq (b, .one) rq).setProc p (k'.stamp (b, .one) p)).proc q).state =
      (k'.proc q).state := by
    intro q
    by_cases hq : q = p <;> simp [hq]
  have hnone : ∀ c, k.idleproc c = none := fun c => by simpa using (h.idle c)
  refine ⟨?_, ?_, ?_, ?_, ?_, ?_, ?_, ?_, ?_⟩
  · rw [Set.sdiff_self, List.nil_append] at hl₂
    exact ⟨hl₂.holds, hl₂.nodup, hl₂.rq, hl₂.notIdle, hl₂.ready, hl₂.queued, hl₂.transit,
      hl₂.nullEnd⟩
  · intro c
    exact (congrFun hcur c).trans (h.curproc c)
  · intro q
    rw [hst]
    exact hstate q
  · intro q
    by_cases hq : q = p <;> simp [hq, hkilled]
  · simp [hid, hnone]
  · simp [hid, hnone]
  · simp [hid, hnone]
  · exact hsw.trans h.switches
  · intro c l hl
    exact update_of_ne (by simp [hl]) _ _

theorem allocIdles {cs : List (Fin NCPU)} (h : Booting k Q ds) (hd : (cs ++ ds).Nodup)
    (hk : cs.foldlM Kernel.allocIdle k = .ok k') : Booting k' Q (cs.reverse ++ ds) := by
  induction cs generalizing k ds with
  | nil =>
    cases hk
    exact h
  | cons c cs ih =>
    rw [List.foldlM_cons] at hk
    obtain ⟨k₁, h₁, hk⟩ := bind_eq_ok.mp hk
    have hc : c ∉ ds := fun hc => (List.nodup_cons.mp hd).1 (List.mem_append_right cs hc)
    rw [List.reverse_cons, List.append_assoc]
    exact ih (h.allocIdle hc h₁) (List.nodup_middle.mpr hd) hk

end Booting

theorem Inv.userinit {ncpu : ℕ} {k₀ : Kernel NPROC NCPU}
    (h : (Kernel.pinit NPROC NCPU ncpu).userinit b = .ok k₀) :
    ∃ Q, Inv (fun _ => ncpu = 1) k₀ Q none := by
  obtain ⟨⟨p, k₁⟩, h₁, h⟩ := bind_eq_ok.mp h
  obtain ⟨k₂, h₂, h⟩ := bind_eq_ok.mp h
  have hb := ((Booting.pinit NPROC NCPU ncpu).first h₁ h₂).allocIdles
    (by simpa using List.nodup_finRange NCPU) h
  refine ⟨_, hb.inv (by simp) ?_⟩
  refine foldlM_inv (P := fun k => k.ncpu = ncpu) ?_ ?_ h
  · intro d _ k k' hn hk
    obtain ⟨⟨p, k₁⟩, h₁, hk⟩ := bind_eq_ok.mp hk
    obtain ⟨-, rfl⟩ := Kernel.newProc_ok h₁
    cases hk
    exact hn
  · obtain ⟨-, rfl⟩ := Kernel.newProc_ok h₁
    obtain ⟨-, rq, rfl⟩ := Kernel.enqueueProc_ok h₂
    rfl

end Xv6Shed
