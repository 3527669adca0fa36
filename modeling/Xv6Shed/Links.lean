import Mathlib.Data.Fintype.Card
import Xv6Shed.Schedule

/-!
# Agreement of the process table and the run queues

`Links Z k Q F` relates a kernel state to the contents `Q` of all its run queues: every
queue is well linked, a process is in at most the one queue its `rq` field names, what is
queued may be dispatched or is the current process of the queue's CPU, and every ready
process other than an idle one is queued or in the set `F` of processes in transit. For
the CPUs in `Z` the level-3 queue is known to be null-terminated.

The abstract state is `Q`; each elementary store or queue operation of the kernel is one
lemma about it, and every larger operation is assembled from these.
-/

namespace Xv6Shed
open Function

variable {NPROC NCPU : ℕ}

/-- `p` is the idle process of some CPU. -/
def Kernel.Idle (k : Kernel NPROC NCPU) (p : Fin NPROC) : Prop := ∃ c, k.idleproc c = some p

structure Links (Z : Fin NCPU → Prop) (k : Kernel NPROC NCPU)
    (Q : RqId NCPU → List (Fin NPROC)) (F : Set (Fin NPROC)) : Prop where
  holds : ∀ r, Holds r.2.subSchedClass (k.rqs r) (Q r)
  nodup : ∀ r, (Q r).Nodup
  rq : ∀ r, ∀ p ∈ Q r, (k.proc p).rq = some r
  notIdle : ∀ r, ∀ p ∈ Q r, ¬ k.Idle p
  ready : ∀ r, ∀ p ∈ Q r, (k.proc p).state.Ready ∨ k.curproc r.1 = some p
  queued : ∀ p, (k.proc p).state.Ready → ¬ k.Idle p → (∃ r, p ∈ Q r) ∨ p ∈ F
  transit : ∀ p ∈ F, ∀ r, p ∉ Q r
  nullEnd : ∀ c, Z c → Q (c, .three) ≠ [] → (k.rqs (c, .three)).NullEnd

namespace Links
variable {Z : Fin NCPU → Prop} {k k' : Kernel NPROC NCPU} {Q : RqId NCPU → List (Fin NPROC)}
  {F F' : Set (Fin NPROC)} {p : Fin NPROC} {r r' : RqId NCPU} {c : Fin NCPU}

section

variable (hl : Links Z k Q F)
include hl

theorem unique (h : p ∈ Q r) (h' : p ∈ Q r') : r = r' :=
  Option.some.inj ((hl.rq r p h).symm.trans (hl.rq r' p h'))

theorem length_lt (hp : p ∉ Q r) : (Q r).length < NPROC := by
  have hd : (p :: Q r).Nodup := List.nodup_cons.mpr ⟨hp, hl.nodup r⟩
  have h := List.Nodup.length_le_card hd
  simp only [List.length_cons, Fintype.card_fin] at h
  omega

theorem of_proc (hrqs : k'.rqs = k.rqs) (hidle : k'.idleproc = k.idleproc)
    (hrq : ∀ r, ∀ p ∈ Q r, (k'.proc p).rq = (k.proc p).rq)
    (hready : ∀ r, ∀ p ∈ Q r, (k'.proc p).state.Ready ∨ k'.curproc r.1 = some p)
    (hqueued : ∀ p, (k'.proc p).state.Ready → ¬ k.Idle p → (∃ r, p ∈ Q r) ∨ p ∈ F')
    (htransit : ∀ p ∈ F', ∀ r, p ∉ Q r) : Links Z k' Q F' where
  holds := by rw [hrqs]; exact hl.holds
  nodup := hl.nodup
  rq r p hp := (hrq r p hp).trans (hl.rq r p hp)
  notIdle := by simpa only [Kernel.Idle, hidle] using hl.notIdle
  ready := hready
  queued := by simpa only [Kernel.Idle, hidle] using hqueued
  transit := htransit
  nullEnd := by rw [hrqs]; exact hl.nullEnd

theorem drop (h : F' ⊆ F) (hn : ∀ p ∈ F, p ∉ F' → ¬ (k.proc p).state.Ready) : Links Z k Q F' :=
  hl.of_proc rfl rfl (fun _ _ _ => rfl) hl.ready
    (fun p hp hi => by
      rcases hl.queued p hp hi with hq | hf
      · exact .inl hq
      · exact .inr (by_contra fun hf' => hn p hf hf' hp))
    (fun p hp => hl.transit p (h hp))

theorem notMem_of_not_ready (hs : ¬ (k.proc p).state.Ready) (hc : ∀ c, k.curproc c ≠ some p)
    (r : RqId NCPU) : p ∉ Q r := fun hp =>
  (hl.ready r p hp).elim hs (hc r.1)

theorem wake (hs : ¬ (k.proc p).state.Ready) (hc : ∀ c, k.curproc c ≠ some p) :
    Links Z (k.setState p .runnable) Q (insert p F) := by
  have hp := hl.notMem_of_not_ready hs hc
  refine hl.of_proc rfl rfl ?_ ?_ ?_ ?_
  · intro r q hq
    rw [Kernel.setState_proc, update_of_ne (ne_of_mem_of_not_mem hq (hp r))]
  · intro r q hq
    rw [Kernel.setState_proc, update_of_ne (ne_of_mem_of_not_mem hq (hp r))]
    exact hl.ready r q hq
  · intro q hq hi
    by_cases hqp : q = p
    · exact .inr (.inl hqp)
    · rw [Kernel.setState_proc, update_of_ne hqp] at hq
      exact (hl.queued q hq hi).imp_right .inr
  · rintro q (rfl | hf)
    · exact hp
    · exact hl.transit q hf

theorem enqueue (hp : ∀ r, p ∉ Q r) (hs : (k.proc p).state.Ready) (hi : ¬ k.Idle p)
    (r : RqId NCPU) :
    ∃ rq', k.subEnqueueProc r p = .ok ((k.setRq r rq').setProc p (k.stamp r p)) ∧
      Links Z ((k.setRq r rq').setProc p (k.stamp r p)) (update Q r (Q r ++ [p]))
        (F \ {p}) := by
  obtain ⟨rq', he, hq', hmax, hz⟩ := (hl.holds r).enqueue (hl.length_lt (hp r)) p
  refine ⟨rq', by simp only [Kernel.subEnqueueProc_eq, he, ok_bind]; rfl, ?_⟩
  have hne : ∀ {r' q}, q ∈ Q r' → q ≠ p := fun hq => ne_of_mem_of_not_mem hq (hp _)
  have hmem : ∀ {r' q}, q ∈ update Q r (Q r ++ [p]) r' → q ∈ Q r' ∨ q = p ∧ r' = r := by
    intro r' q hq
    by_cases hr : r' = r
    · subst hr
      simpa using hq
    · rw [update_of_ne hr] at hq
      exact .inl hq
  refine ⟨?_, ?_, ?_, ?_, ?_, ?_, ?_, ?_⟩
  · intro r'
    by_cases hr : r' = r
    · subst hr
      simpa using hq'
    · simpa [hr] using hl.holds r'
  · intro r'
    by_cases hr : r' = r
    · subst hr
      simpa [List.nodup_append] using ⟨hl.nodup r', fun q hq => hne hq⟩
    · simpa [hr] using hl.nodup r'
  · intro r' q hq
    rcases hmem hq with hq | ⟨rfl, rfl⟩
    · simpa [hne hq] using hl.rq r' q hq
    · simp
  · intro r' q hq
    rcases hmem hq with hq | ⟨rfl, rfl⟩
    · exact hl.notIdle r' q hq
    · exact hi
  · intro r' q hq
    rcases hmem hq with hq | ⟨rfl, rfl⟩
    · simpa [hne hq] using hl.ready r' q hq
    · simpa using .inl hs
  · intro q hq hqi
    by_cases hqp : q = p
    · exact .inl ⟨r, by simp [hqp]⟩
    · simp only [Kernel.setProc_proc, update_of_ne hqp, Kernel.setRq_proc] at hq
      rcases hl.queued q hq hqi with ⟨r', hr'⟩ | hf
      · refine .inl ⟨r', ?_⟩
        by_cases hr : r' = r
        · subst hr
          simp [hr']
        · rwa [update_of_ne hr]
      · exact .inr ⟨hf, hqp⟩
  · rintro q ⟨hf, hqp⟩ r' hq
    rcases hmem hq with hq | ⟨rfl, -⟩
    · exact hl.transit q hf r' hq
    · exact hqp rfl
  · intro c hc hne'
    by_cases hr : (c, Level.three) = r
    · subst hr
      simpa using hz rfl
    · simp only [update_of_ne hr] at hne'
      simpa [hr] using hl.nullEnd c hc hne'

/-- A queue operation that only removes processes or reorders them; those it removes are
then in transit. -/
theorem set_queue (r : RqId NCPU) {rq' : Rq NPROC} {xs : List (Fin NPROC)}
    (hh : Holds r.2.subSchedClass rq' xs) (hd : xs.Nodup) (hsub : ∀ p ∈ xs, p ∈ Q r)
    (hz : ∀ c, r = (c, .three) → Z c → xs ≠ [] → rq'.NullEnd) :
    Links Z (k.setRq r rq') (update Q r xs)
      (F ∪ {p | p ∈ Q r ∧ p ∉ xs}) := by
  have hmem : ∀ {r' q}, q ∈ update Q r xs r' → q ∈ Q r' := by
    intro r' q hq
    by_cases hr : r' = r
    · subst hr
      rw [update_self] at hq
      exact hsub q hq
    · rwa [update_of_ne hr] at hq
  refine ⟨?_, ?_, fun r' q hq => hl.rq r' q (hmem hq), fun r' q hq => hl.notIdle r' q (hmem hq),
    fun r' q hq => hl.ready r' q (hmem hq), ?_, ?_, ?_⟩
  · intro r'
    by_cases hr : r' = r
    · subst hr
      simpa using hh
    · simpa [hr] using hl.holds r'
  · intro r'
    by_cases hr : r' = r
    · subst hr
      simpa using hd
    · simpa [hr] using hl.nodup r'
  · intro q hq hi
    rcases hl.queued q hq hi with ⟨r', hr'⟩ | hf
    · by_cases hr : r' = r
      · subst hr
        by_cases hx : q ∈ xs
        · exact .inl ⟨r', by simpa using hx⟩
        · exact .inr (.inr ⟨hr', hx⟩)
      · exact .inl ⟨r', by rwa [update_of_ne hr]⟩
    · exact .inr (.inl hf)
  · rintro q (hf | ⟨hq, hx⟩) r' hq'
    · exact hl.transit q hf r' (hmem hq')
    · obtain rfl := hl.unique hq (hmem hq')
      rw [update_self] at hq'
      exact hx hq'
  · intro c hc hne
    by_cases hr : (c, Level.three) = r
    · subst hr
      rw [update_self] at hne
      simpa using hz c rfl hc hne
    · rw [update_of_ne hr] at hne
      simpa [hr] using hl.nullEnd c hc hne

/-- `rq->sub_sched_class->dequeue_proc(rq, p)` for the process at the head. From level 3 it
is safe if others are queued or the queue is null-terminated. -/
theorem dequeue_head {xs : List (Fin NPROC)} (hq : Q r = p :: xs)
    (hb : r.2 = .three → xs = [] → Z r.1 ∨ (k.rqs r).NullEnd) :
    ∃ rq', k.subDequeueProc r p = .ok (k.setRq r rq') ∧
      Links Z (k.setRq r rq') (update Q r xs) (insert p F) := by
  have hd := hl.nodup r
  rw [hq] at hd
  have hh : Holds r.2.subSchedClass (k.rqs r) ([] ++ p :: xs) := by
    rw [List.nil_append, ← hq]
    exact hl.holds r
  have hcond : r.2.subSchedClass = .fifo → xs ≠ [] ∨ ([] : List (Fin NPROC)) = [] ∧
      (k.rqs r).NullEnd := by
    intro hcls
    have hr : r.2 = .three := by
      cases h : r.2 <;> simp [h, Level.subSchedClass] at hcls ⊢
    by_cases hx : xs = []
    · refine .inr ⟨rfl, (hb hr hx).elim (fun hz => ?_) id⟩
      have := hl.nullEnd r.1 hz
      rw [← hr] at this
      exact this (by simp [hq])
    · exact .inl hx
  obtain ⟨rq', he, hh', -, -, hz⟩ := hh.dequeue (by simp) hcond
  refine ⟨rq', by simp only [Kernel.subDequeueProc, he, ok_bind]; rfl, ?_⟩
  have hl' := hl.set_queue r hh' (List.nodup_cons.mp hd).2
    (fun q h => by rw [hq]; exact List.mem_cons_of_mem p h) (by
    rintro c rfl hc hne
    exact hz rfl hne (hl.nullEnd c hc (by simp [hq])))
  refine hl'.drop ?_ ?_
  · rintro q (rfl | hf)
    · exact .inr ⟨by simp [hq], (List.nodup_cons.mp hd).1⟩
    · exact .inl hf
  · rintro q (hf | ⟨hqm, hx⟩) hn
    · exact absurd (.inr hf) hn
    · rw [hq] at hqm
      exact absurd (.inl ((List.mem_cons.mp hqm).resolve_right hx)) hn

theorem yield (r : RqId NCPU) (hz : r.2 = .three → ¬ Z r.1 ∨ Q r = []) :
    ∃ rq', k.subYieldProc r = .ok (k.setRq r rq') ∧
      Links Z (k.setRq r rq') (update Q r ((Q r).rotate 1)) F := by
  obtain ⟨rq', hy, hh, -, hs⟩ := (hl.holds r).yield
  refine ⟨rq', by simp only [Kernel.subYieldProc, hy, ok_bind]; rfl, ?_⟩
  have hl' := hl.set_queue r hh (List.nodup_rotate.mpr (hl.nodup r)) (by simp) (by
    rintro c rfl hc hne
    rcases hz rfl with h | h
    · exact absurd hc h
    · exact absurd (by simp [h]) hne)
  refine hl'.drop Set.subset_union_left ?_
  rintro q (hf | ⟨hq, hx⟩) hn
  · exact absurd hf hn
  · exact absurd (List.mem_rotate.mpr hq) hx

theorem getProc (r : RqId NCPU) :
    ∃ rq', k.subGetProc r = .ok (k.setRq r rq', (taken (Q r)).map some) ∧
      Links Z (k.setRq r rq') (update Q r (kept (Q r))) (F ∪ {p | p ∈ taken (Q r)}) := by
  obtain ⟨rq', hg, hh, -, hz⟩ := (hl.holds r).getProc
  refine ⟨rq', by simp only [Kernel.subGetProc, hg, ok_bind]; rfl, ?_⟩
  have hperm := taken_append_kept_perm (Q r)
  have hd : (kept (Q r) ++ taken (Q r)).Nodup := hperm.nodup_iff.mpr (hl.nodup r)
  have hl' := hl.set_queue r hh hd.of_append_left
    (fun p hp => hperm.mem_iff.mp (List.mem_append_left _ hp)) (by
    rintro c rfl hc hne
    refine hz (hl.nullEnd c hc ?_) rfl
    rintro hq
    simp [hq, kept] at hne)
  refine hl'.drop ?_ ?_
  · rintro p (hf | hp)
    · exact .inl hf
    · exact .inr ⟨hperm.mem_iff.mp (List.mem_append_right _ hp),
        fun hk => List.disjoint_of_nodup_append hd hk hp⟩
  · rintro p (hf | ⟨hq, hx⟩) hn
    · exact absurd (.inl hf) hn
    · have := hperm.mem_iff.mpr hq
      rw [List.mem_append] at this
      exact absurd (.inr (this.resolve_left hx)) hn

end

end Links

end Xv6Shed
