import Xv6Shed.Operations

/-!
# Load balancing conserves processes

`load_balance_MLFQ` on any state with well-linked queues, whatever the process table says:
half of each level of a busiest CPU goes to the tail of the same level of the calling CPU,
and nothing is lost or queued twice on the way through the local arrays.
-/

namespace Xv6Shed
open Function

variable {NPROC NCPU : ℕ} {k k' : Kernel NPROC NCPU} {Q : RqId NCPU → List (Fin NPROC)}
  {p : Fin NPROC} {c src : Fin NCPU} {r r' : RqId NCPU}

/-- Every queue is well linked and holds `Q r`, level 3 is null-terminated, and no process is
queued twice. -/
structure Queues (k : Kernel NPROC NCPU) (Q : RqId NCPU → List (Fin NPROC)) : Prop where
  holds : ∀ r, Holds r.2.subSchedClass (k.rqs r) (Q r)
  nullEnd : ∀ c, Q (c, .three) ≠ [] → (k.rqs (c, .three)).NullEnd
  nodup : ∀ r, (Q r).Nodup
  unique : ∀ r r' p, p ∈ Q r → p ∈ Q r' → r = r'

/-- All queued processes, CPU by CPU and level by level. -/
def queued (Q : RqId NCPU → List (Fin NPROC)) : List (Fin NPROC) :=
  (List.finRange NCPU ×ˢ [Level.one, Level.two, Level.three]).flatMap Q

theorem mem_queued : p ∈ queued Q ↔ ∃ r, p ∈ Q r := by
  have hall : ∀ l : Level, l ∈ [Level.one, Level.two, Level.three] := by
    intro l
    cases l <;> decide
  unfold queued
  rw [List.mem_flatMap]
  constructor
  · rintro ⟨r, -, hp⟩
    exact ⟨r, hp⟩
  · rintro ⟨r, hp⟩
    exact ⟨r, List.pair_mem_product.mpr ⟨List.mem_finRange r.1, hall r.2⟩, hp⟩

theorem Queues.nodup_queued (hq : Queues k Q) : (queued Q).Nodup := by
  unfold queued
  rw [List.nodup_flatMap]
  refine ⟨fun r _ => hq.nodup r, ?_⟩
  have hd : (List.finRange NCPU ×ˢ [Level.one, Level.two, Level.three]).Nodup :=
    (List.nodup_finRange NCPU).product (by decide)
  refine hd.imp ?_
  intro r r' hne p hp hp'
  exact hne (hq.unique r r' p hp hp')

namespace Queues

theorem set_queue (hq : Queues k Q) (r : RqId NCPU) {rq' : Rq NPROC} {xs : List (Fin NPROC)}
    (hh : Holds r.2.subSchedClass rq' xs) (hd : xs.Nodup)
    (hx : ∀ p ∈ xs, p ∈ Q r ∨ ∀ r', p ∉ Q r')
    (hz : r.2 = .three → xs ≠ [] → rq'.NullEnd) :
    Queues (k.setRq r rq') (update Q r xs) := by
  have hother : ∀ {p r'}, r' ≠ r → p ∈ xs → p ∉ Q r' := by
    intro p r' hr hp hp'
    rcases hx p hp with h | h
    · exact hr (hq.unique r' r p hp' h)
    · exact h r' hp'
  constructor
  · intro r'
    by_cases hr : r' = r
    · subst hr
      simpa using hh
    · simpa [hr] using hq.holds r'
  · intro c hne
    by_cases hr : (c, Level.three) = r
    · subst hr
      rw [update_self] at hne
      simpa using hz rfl hne
    · rw [update_of_ne hr] at hne
      simpa [hr] using hq.nullEnd c hne
  · intro r'
    by_cases hr : r' = r
    · subst hr
      simpa using hd
    · simpa [hr] using hq.nodup r'
  · intro r₁ r₂ p h₁ h₂
    by_cases hr₁ : r₁ = r
    · by_cases hr₂ : r₂ = r
      · rw [hr₁, hr₂]
      · rw [hr₁, update_self] at h₁
        rw [update_of_ne hr₂] at h₂
        exact absurd h₂ (hother hr₂ h₁)
    · rw [update_of_ne hr₁] at h₁
      by_cases hr₂ : r₂ = r
      · rw [hr₂, update_self] at h₂
        exact absurd h₁ (hother hr₁ h₂)
      · rw [update_of_ne hr₂] at h₂
        exact hq.unique r₁ r₂ p h₁ h₂

theorem getProc (hq : Queues k Q) (r : RqId NCPU) :
    ∃ rq', k.subGetProc r = .ok (k.setRq r rq', (taken (Q r)).map some) ∧
      Queues (k.setRq r rq') (update Q r (kept (Q r))) := by
  obtain ⟨rq', hg, hh, -, hz⟩ := (hq.holds r).getProc
  have hperm := taken_append_kept_perm (Q r)
  have hd : (kept (Q r) ++ taken (Q r)).Nodup := hperm.nodup_iff.mpr (hq.nodup r)
  refine ⟨rq', by simp only [Kernel.subGetProc, hg, ok_bind]; rfl, ?_⟩
  apply hq.set_queue r hh hd.of_append_left
  · intro p hp
    exact .inl (hperm.mem_iff.mp (List.mem_append_left _ hp))
  · intro h₃ hne
    have hrq : k.rqs r = k.rqs (r.1, .three) := by rw [← h₃]
    apply hz
    · rw [hrq]
      apply hq.nullEnd
      rw [← h₃]
      intro hnil
      have hnil : Q r = [] := hnil
      simp [hnil, kept] at hne
    · rw [h₃]
      rfl

theorem enqueue (hq : Queues k Q) (hp : ∀ r, p ∉ Q r) (r : RqId NCPU) :
    ∃ rq', k.subEnqueueProc r p = .ok ((k.setRq r rq').setProc p (k.stamp r p)) ∧
      Queues ((k.setRq r rq').setProc p (k.stamp r p)) (update Q r (Q r ++ [p])) := by
  have hd : (Q r ++ [p]).Nodup := by
    rw [List.nodup_append_comm]
    exact List.nodup_cons.mpr ⟨hp r, hq.nodup r⟩
  have hlen : (Q r).length < NPROC := by
    have h := hd.length_le_card
    rw [List.length_append, List.length_singleton, Fintype.card_fin] at h
    omega
  obtain ⟨rq', he, hh, -, hz⟩ := (hq.holds r).enqueue hlen p
  refine ⟨rq', by simp only [Kernel.subEnqueueProc_eq, he, ok_bind]; rfl, ?_⟩
  have hs : Queues (k.setRq r rq') (update Q r (Q r ++ [p])) := by
    apply hq.set_queue r hh hd
    · intro q hq'
      rw [List.mem_append, List.mem_singleton] at hq'
      rcases hq' with h | rfl
      · exact .inl h
      · exact .inr hp
    · intro h₃ _
      apply hz
      rw [h₃]
      rfl
  exact ⟨hs.holds, hs.nullEnd, hs.nodup, hs.unique⟩

/-- What queueing the processes `ms` in `r` changes. -/
structure Enqueued (k : Kernel NPROC NCPU) (r : RqId NCPU) (ms : List (Fin NPROC))
    (k' : Kernel NPROC NCPU) : Prop where
  rq : ∀ p ∈ ms, (k'.proc p).rq = some r
  proc : ∀ p, p ∉ ms → k'.proc p = k.proc p
  rqs : ∀ r', r' ≠ r → k'.rqs r' = k.rqs r'

theorem enqueueAll {ms : List (Fin NPROC)} (hq : Queues k Q) (hd : ms.Nodup)
    (hout : ∀ p ∈ ms, ∀ r, p ∉ Q r) (r : RqId NCPU) :
    ∃ k', k.subEnqueueAll r (ms.map some) = .ok k' ∧ Queues k' (update Q r (Q r ++ ms)) ∧
      Enqueued k r ms k' := by
  induction ms generalizing k Q with
  | nil => exact ⟨k, rfl, by simpa using hq, by simp, fun _ _ => rfl, fun _ _ => rfl⟩
  | cons p ms ih =>
    obtain ⟨hpm, hd⟩ := List.nodup_cons.mp hd
    obtain ⟨rq', he, hq₁⟩ := hq.enqueue (hout p List.mem_cons_self) r
    have hout₁ : ∀ q ∈ ms, ∀ r', q ∉ update Q r (Q r ++ [p]) r' := by
      intro q hqm r' hq'
      have hqp : q ≠ p := ne_of_mem_of_not_mem hqm hpm
      have hqQ := hout q (List.mem_cons_of_mem p hqm)
      by_cases hr : r' = r
      · subst hr
        rw [update_self, List.mem_append, List.mem_singleton] at hq'
        exact hq'.elim (hqQ r') hqp
      · rw [update_of_ne hr] at hq'
        exact hqQ r' hq'
    obtain ⟨k', hk, hq', hrq, hproc, hrqs⟩ := ih hq₁ hd hout₁
    refine ⟨k', ?_, by simpa using hq', ?_, ?_, ?_⟩
    · unfold Kernel.subEnqueueAll
      rw [List.map_cons, List.foldlM_cons, deref_some, ok_bind, he, ok_bind]
      exact hk
    · intro q hqm
      rcases List.mem_cons.mp hqm with rfl | hqm
      · rw [hproc q hpm]
        simp
      · exact hrq q hqm
    · intro q hqm
      obtain ⟨hqp, hqm⟩ := List.ne_and_not_mem_of_not_mem_cons hqm
      rw [hproc q hqm]
      simp [hqp]
    · intro r' hr
      rw [hrqs r' hr]
      simp [hr]

theorem balanceGet (hq : Queues k Q) (src : Fin NCPU) :
    ∃ rqs, k.balanceGet src = .ok ({ k with rqs := rqs }, fun l => (taken (Q (src, l))).map some) ∧
      Queues { k with rqs := rqs } (fun r => if r.1 = src then kept (Q r) else Q r) ∧
      ∀ r : RqId NCPU, r.1 ≠ src → rqs r = k.rqs r := by
  have h₂₁ : ((src, .two) : RqId NCPU) ≠ (src, .one) := by simp
  have h₃₁ : ((src, .three) : RqId NCPU) ≠ (src, .one) := by simp
  have h₃₂ : ((src, .three) : RqId NCPU) ≠ (src, .two) := by simp
  obtain ⟨rq₁, h₁, hq₁⟩ := hq.getProc (src, .one)
  obtain ⟨rq₂, h₂, hq₂⟩ := hq₁.getProc (src, .two)
  rw [update_of_ne h₂₁] at h₂ hq₂
  obtain ⟨rq₃, h₃, hq₃⟩ := hq₂.getProc (src, .three)
  rw [update_of_ne h₃₂, update_of_ne h₃₁] at h₃ hq₃
  refine ⟨update (update (update k.rqs (src, .one) rq₁) (src, .two) rq₂) (src, .three) rq₃,
    ?_, ?_, ?_⟩
  · unfold Kernel.balanceGet
    simp only [h₁, h₂, h₃, ok_bind]
    refine congrArg (fun ms => Except.ok (_, ms)) (funext fun l => ?_)
    cases l <;> rfl
  · refine cast (congrArg (Queues _) ?_) hq₃
    funext r
    obtain ⟨d, l⟩ := r
    by_cases hd : d = src
    · cases l <;> simp [hd]
    · simp [hd]
  · intro r hr
    have hne : ∀ l, r ≠ (src, l) := by
      intro l h
      exact hr (by rw [h])
    rw [update_of_ne (hne _), update_of_ne (hne _), update_of_ne (hne _)]

theorem balancePut {ts : Level → List (Fin NPROC)} (hq : Queues k Q) (hd : ∀ l, (ts l).Nodup)
    (huniq : ∀ l l' p, p ∈ ts l → p ∈ ts l' → l = l') (hout : ∀ l, ∀ p ∈ ts l, ∀ r, p ∉ Q r)
    (c : Fin NCPU) :
    ∃ k', k.balancePut c (fun l => (ts l).map some) = .ok k' ∧
      Queues k' (fun r => Q r ++ if r.1 = c then ts r.2 else []) ∧
      (∀ l, ∀ p ∈ ts l, (k'.proc p).rq = some (c, l)) ∧
      ∀ r : RqId NCPU, r.1 ≠ c → k'.rqs r = k.rqs r := by
  have hstep : ∀ {Q' : RqId NCPU → List (Fin NPROC)} {l l' : Level}, l' ≠ l →
      (∀ p ∈ ts l', ∀ r, p ∉ Q' r) →
        ∀ p ∈ ts l', ∀ r, p ∉ update Q' (c, l) (Q' (c, l) ++ ts l) r := by
    intro Q' l l' hl ho p hp r hpr
    by_cases hr : r = (c, l)
    · subst hr
      rw [update_self, List.mem_append] at hpr
      exact hpr.elim (ho p hp _) fun h => hl (huniq l' l p hp h)
    · rw [update_of_ne hr] at hpr
      exact ho p hp r hpr
  obtain ⟨k₁, h₁, hq₁, he₁⟩ := hq.enqueueAll (hd .one) (hout .one) (c, .one)
  obtain ⟨k₂, h₂, hq₂, he₂⟩ := hq₁.enqueueAll (hd .two)
    (hstep (by decide) (hout .two)) (c, .two)
  obtain ⟨k₃, h₃, hq₃, he₃⟩ := hq₂.enqueueAll (hd .three)
    (hstep (by decide) (hstep (by decide) (hout .three))) (c, .three)
  have hnot : ∀ {l l' p}, l' ≠ l → p ∈ ts l → p ∉ ts l' := fun hl hp hp' =>
    hl (huniq _ _ _ hp' hp)
  refine ⟨k₃, ?_, ?_, ?_, ?_⟩
  · unfold Kernel.balancePut
    rw [h₁, ok_bind, h₂, ok_bind, h₃]
  · convert hq₃ using 1
    funext r
    obtain ⟨d, l⟩ := r
    by_cases hd : d = c
    · subst hd
      cases l <;> simp
    · simp [hd]
  · intro l p hp
    cases l with
    | one =>
      rw [he₃.proc p (hnot (by decide) hp), he₂.proc p (hnot (by decide) hp)]
      exact he₁.rq p hp
    | two =>
      rw [he₃.proc p (hnot (by decide) hp)]
      exact he₂.rq p hp
    | three => exact he₃.rq p hp
  · intro r hr
    have hne : ∀ l, r ≠ (c, l) := by
      intro l h
      exact hr (by rw [h])
    rw [he₃.rqs r (hne _), he₂.rqs r (hne _), he₁.rqs r (hne _)]

end Queues

namespace Kernel

theorem foldl_busier (l : List (Fin NCPU)) (o : Option (Fin NCPU) × ℤ)
    (ho : ∀ i, o.1 = some i → k.load i = o.2) :
    (∀ i ∈ l, k.load i ≤ (l.foldl k.busier o).2) ∧ o.2 ≤ (l.foldl k.busier o).2 ∧
      ∀ i, (l.foldl k.busier o).1 = some i → k.load i = (l.foldl k.busier o).2 := by
  induction l generalizing o with
  | nil => exact ⟨by simp, le_refl _, ho⟩
  | cons j l ih =>
    have hj : ∀ i, (k.busier o j).1 = some i → k.load i = (k.busier o j).2 := by
      unfold busier
      split_ifs
      · rintro i ⟨⟩
        rfl
      · exact ho
    have hle : k.load j ≤ (k.busier o j).2 ∧ o.2 ≤ (k.busier o j).2 := by
      unfold busier
      split_ifs with h
      · exact ⟨le_refl _, le_of_lt h⟩
      · exact ⟨not_lt.mp h, le_refl _⟩
    obtain ⟨h₁, h₂, h₃⟩ := ih (k.busier o j) hj
    refine ⟨?_, hle.2.trans h₂, h₃⟩
    intro i hi
    rcases List.mem_cons.mp hi with rfl | hi
    · exact hle.1.trans h₂
    · exact h₁ i hi

theorem mem_cpus {d : Fin NCPU} : d ∈ k.cpus ↔ d.val < k.ncpu := by simp [cpus]

theorem load_le_of_busiest (h : k.busiest = some src) {d : Fin NCPU} (hd : d.val < k.ncpu) :
    k.load d ≤ k.load src := by
  obtain ⟨h₁, -, h₃⟩ := foldl_busier (k := k) k.cpus (none, 0) nofun
  rw [h₃ src h]
  exact h₁ d (mem_cpus.mpr hd)

end Kernel

theorem Queues.eq_nil_of_busiest (hq : Queues k Q) (h : k.busiest = none) {d : Fin NCPU}
    (hd : d.val < k.ncpu) (l : Level) : Q (d, l) = [] := by
  have key : ∀ (cs : List (Fin NCPU)) (o : Option (Fin NCPU) × ℤ),
      (cs.foldl k.busier o).1 = none → o.1 = none ∧ ∀ i ∈ cs, k.load i ≤ o.2 := by
    intro cs
    induction cs with
    | nil => exact fun o ho => ⟨ho, by simp⟩
    | cons j cs ih =>
      intro o ho
      obtain ⟨h₁, h₂⟩ := ih _ ho
      unfold Kernel.busier at h₁ h₂
      split_ifs at h₁ h₂ with hj
      refine ⟨h₁, ?_⟩
      intro i hi
      rcases List.mem_cons.mp hi with rfl | hi
      · exact not_lt.mp hj
      · exact h₂ i hi
  have hle : k.load d ≤ 0 := (key k.cpus (none, 0) h).2 d (Kernel.mem_cpus.mpr hd)
  unfold Kernel.load at hle
  have h₁ := (hq.holds (d, .one)).procNum
  have h₂ := (hq.holds (d, .two)).procNum
  have h₃ := (hq.holds (d, .three)).procNum
  apply List.length_eq_zero_iff.mp
  cases l <;> omega

/-- CPU `c` has taken its share from CPU `src`: of each level, `⌊n/2⌋` processes from behind
the head went in order to the tail of the same level of `c`. -/
structure Rebalanced (k : Kernel NPROC NCPU) (Q : RqId NCPU → List (Fin NPROC))
    (src c : Fin NCPU) (k' : Kernel NPROC NCPU) (Q' : RqId NCPU → List (Fin NPROC)) : Prop where
  exists_src : src.val < k.ncpu
  busiest : ∀ d : Fin NCPU, d.val < k.ncpu → k.load d ≤ k.load src
  moved : ∀ l, ∃ hd ms rest, Q (src, l) = hd ++ ms ++ rest ∧ hd = (Q (src, l)).take 1 ∧
    ms.length = (Q (src, l)).length / 2 ∧
    (src = c → Q' (c, l) = hd ++ rest ++ ms) ∧
    (src ≠ c → Q' (src, l) = hd ++ rest ∧ Q' (c, l) = Q (c, l) ++ ms) ∧
    ∀ p ∈ ms, (k'.proc p).rq = some (c, l)
  others : ∀ d l, d ≠ src → d ≠ c → Q' (d, l) = Q (d, l) ∧ k'.rqs (d, l) = k.rqs (d, l)

theorem mem_queued_balanced (src c : Fin NCPU) :
    p ∈ queued (Links.balanced src c Q) ↔ p ∈ queued Q := by
  have hsplit : ∀ l, p ∈ Q (src, l) ↔ p ∈ kept (Q (src, l)) ∨ p ∈ taken (Q (src, l)) := by
    intro l
    rw [← List.mem_append]
    exact (taken_append_kept_perm _).mem_iff.symm
  rw [mem_queued, mem_queued]
  constructor
  · rintro ⟨⟨d, l⟩, hp⟩
    rw [Links.balanced, List.mem_append] at hp
    rcases hp with hp | hp
    · refine ⟨(d, l), ?_⟩
      split_ifs at hp with hd
      · change d = src at hd
        subst hd
        exact (hsplit l).mpr (.inl hp)
      · exact hp
    · split_ifs at hp with hd
      · exact ⟨(src, l), (hsplit l).mpr (.inr hp)⟩
      · cases hp
  · rintro ⟨⟨d, l⟩, hp⟩
    by_cases hd : d = src
    · subst hd
      rcases (hsplit l).mp hp with hp | hp
      · exact ⟨(d, l), by simp [Links.balanced, hp]⟩
      · exact ⟨(c, l), by simp [Links.balanced, hp]⟩
    · exact ⟨(d, l), by simp [Links.balanced, hd, hp]⟩

theorem head_taken_rest (xs : List (Fin NPROC)) :
    xs = xs.take 1 ++ taken xs ++ xs.drop (1 + xs.length / 2) := by
  rw [taken, List.append_assoc, ← List.drop_drop, List.take_append_drop, List.take_append_drop]

theorem length_taken (xs : List (Fin NPROC)) : (taken xs).length = xs.length / 2 := by
  rw [taken, List.length_take, List.length_drop]
  omega

theorem load_balance_conserves (hq : Queues k Q) (c : Fin NCPU) :
    ∃ k' Q', k.loadBalanceMLFQ c = .ok k' ∧ Queues k' Q' ∧ (queued Q').Perm (queued Q) ∧
      ((k' = k ∧ Q' = Q ∧ ∀ d l, d.val < k.ncpu → Q (d, l) = []) ∨
        ∃ src, Rebalanced k Q src c k' Q') := by
  unfold Kernel.loadBalanceMLFQ
  cases hb : k.busiest with
  | none => exact ⟨k, Q, rfl, hq, .refl _,
      .inl ⟨rfl, rfl, fun d l hd => hq.eq_nil_of_busiest hb hd l⟩⟩
  | some src =>
    have hsub : ∀ {l p}, p ∈ taken (Q (src, l)) → p ∈ Q (src, l) := fun h =>
      (taken_append_kept_perm _).mem_iff.mp (List.mem_append_right _ h)
    have hd : ∀ l, (kept (Q (src, l)) ++ taken (Q (src, l))).Nodup := fun l =>
      (taken_append_kept_perm _).nodup_iff.mpr (hq.nodup (src, l))
    obtain ⟨rqs, h₀, hq₀, hrqs⟩ := hq.balanceGet src
    -- what was taken is in no queue while it is in the local arrays
    have hout : ∀ l, ∀ p ∈ taken (Q (src, l)), ∀ r : RqId NCPU,
        p ∉ if r.1 = src then kept (Q r) else Q r := by
      intro l p hp r hpr
      split_ifs at hpr with hr
      · have hmem : p ∈ Q r := (taken_append_kept_perm _).mem_iff.mp (List.mem_append_left _ hpr)
        obtain rfl := hq.unique _ _ p (hsub hp) hmem
        exact List.disjoint_of_nodup_append (hd l) hpr hp
      · obtain rfl := hq.unique _ _ p (hsub hp) hpr
        exact hr rfl
    obtain ⟨k', h', hq', hrq, hrqs'⟩ := hq₀.balancePut (fun l => (hd l).of_append_right)
      (fun l l' p h h' => (Prod.mk.inj (hq.unique _ _ p (hsub h) (hsub h'))).2) hout c
    change Queues k' (Links.balanced src c Q) at hq'
    refine ⟨k', Links.balanced src c Q, ?_, hq', ?_, .inr ⟨src, ?_⟩⟩
    · simp only [h₀, ok_bind]
      exact h'
    · rw [List.perm_ext_iff_of_nodup (Queues.nodup_queued hq') hq.nodup_queued]
      intro p
      exact mem_queued_balanced src c
    · refine ⟨Kernel.busiest_lt hb, fun d hd => Kernel.load_le_of_busiest hb hd, ?_, ?_⟩
      · intro l
        refine ⟨_, _, _, head_taken_rest (Q (src, l)), rfl, length_taken _, ?_, ?_, hrq l⟩
        · rintro rfl
          simp [Links.balanced, kept]
        · intro hne
          simp [Links.balanced, kept, hne, hne.symm]
      · intro d l hds hdc
        refine ⟨by simp [Links.balanced, hds, hdc], ?_⟩
        rw [hrqs' (d, l) hdc]
        exact hrqs (d, l) hds

theorem Queues.pinit (NPROC NCPU ncpu : ℕ) :
    Queues (Kernel.pinit NPROC NCPU ncpu) (fun _ => []) where
  holds r := Holds.init _ _
  nullEnd _ h := absurd rfl h
  nodup _ := List.nodup_nil
  unique _ _ _ h := by cases h

/-- CPU 1 takes a process from the first level of CPU 0, which has three. -/
theorem load_balance_conserves_three : ∃ k : Kernel 64 8, ∃ Q, Queues k Q ∧
    Q (0, .one) = [0, 1, 2] ∧ ∃ k' Q', k.loadBalanceMLFQ 1 = .ok k' ∧ Queues k' Q' ∧
      (queued Q').Perm (queued Q) ∧
      ((k' = k ∧ Q' = Q ∧ ∀ d l, d.val < k.ncpu → Q (d, l) = []) ∨
        ∃ src, Rebalanced k Q src 1 k' Q') := by
  have hd : ([0, 1, 2] : List (Fin 64)).Nodup := by decide
  obtain ⟨k, -, hq, -⟩ := (Queues.pinit 64 8 2).enqueueAll hd (by simp) (0, .one)
  exact ⟨k, _, hq, by simp, load_balance_conserves hq 1⟩

end Xv6Shed
