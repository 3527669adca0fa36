import Xv6Shed.LockSafety

/-!
# No lost wakeup

A process that has found its condition false and the CPU that meets the condition exclude
each other through the lock of the condition until the process holds `proc_table_lock`, and
through `proc_table_lock` until it is asleep. The phases of the lock discipline say who is
where on this way.
-/

namespace Xv6Shed
open Function Threads Transition

variable {NPROC NCPU : ℕ} {cfg : Config NCPU} {idle : Fin NCPU → Option (Fin NPROC)}
  {quiet : Set (Fin NPROC)} {dead : Prop} {m m' : Smp NPROC NCPU}
  {H H' : Fin NCPU → List (LockId NCPU)} {φ φ' : Fin NCPU → Phase} {c d : Fin NCPU}
  {k k' : Kernel NPROC NCPU} {cond : ℕ → Bool} {p q : Fin NPROC} {ch : Chan NPROC}

/-- Process `p` is SLEEPING on `ch`. -/
def Kernel.Sleeps (k : Kernel NPROC NCPU) (p : Fin NPROC) (ch : Chan NPROC) : Prop :=
  (k.proc p).state = .sleeping ∧ (k.proc p).chan = some ch

theorem Calm.sleeps (h : Calm k k') (hs : k'.Sleeps p ch) : k.Sleeps p ch := by
  obtain ⟨hs, hc⟩ := hs
  constructor
  · rcases h.state p with e | e
    · rwa [← e]
    · exact absurd hs e.1
  · rcases h.chan p with e | e
    · rwa [← e]
    · rw [e] at hc
      cases hc

section
variable {s : Shared NPROC NCPU} {a : Act NPROC NCPU} {o : Option (Fin NPROC)}
  {L : List (LockId NCPU)} {x : Phase}
  {out : Outcome (Fin NPROC) (LockId NCPU) (Act NPROC NCPU) (Shared NPROC NCPU)}

theorem Act.run_sleeps (hpre : a.Pre cfg quiet o ⟨c, L, x⟩)
    (hrun : a.run cfg c (LockId.rq c ∈ L) s = .ok out) (ha : ∀ ch, a ≠ .sleepSet ch)
    (hs : out.mem.kernel.Sleeps p ch) : s.kernel.Sleeps p ch := by
  by_cases hcalm : a.isCalm = true
  · exact (Act.run_still hrun hcalm (Locking.isSwitch_of_pre hpre)).toCalm.sleeps hs
  cases a <;> simp only [isCalm, not_true_eq_false] at hcalm
  case kill pid =>
    obtain ⟨⟨k', r⟩, h, hrun⟩ := bind_eq_ok.mp hrun
    cases hrun
    obtain ⟨-, rfl, -⟩ := hpre
    rw [decide_eq_false (by simp)] at h
    rcases Kernel.kill_unlocked_ok h with rfl | ⟨p', rfl⟩
    · exact hs
    · unfold Kernel.Sleeps at hs ⊢
      by_cases hp : p = p'
      · subst hp
        simpa [Shared.go] using hs
      · simpa [Shared.go, hp] using hs
  case sleepSet ch' => exact absurd rfl (ha ch')
  case exitTable =>
    obtain ⟨k', h, hrun⟩ := bind_eq_ok.mp hrun
    cases hrun
    obtain ⟨me, -, -, -, hch, -, hz, hst⟩ := Kernel.exitTable_ok h
    obtain ⟨hs, hc⟩ := hs
    dsimp only [Shared.go] at hs hc
    have hp : p ≠ me := by
      rintro rfl
      rw [hz] at hs
      cases hs
    rcases hst p hp with ⟨-, -, h⟩ | ⟨-, h⟩
    · rw [h] at hs
      cases hs
    · exact ⟨h ▸ hs, hch p ▸ hc⟩
  case copyproc ks mo np =>
    obtain ⟨me, -, hout⟩ := run_copyproc hrun
    obtain ⟨-, -, -, hother, hch, -, hst⟩ := s.kernel.copyRest_frame ks mo me np
    rw [hout] at hs
    obtain ⟨hs, hc⟩ := hs
    by_cases hp : p = np
    · subst hp
      rw [hst] at hs
      split_ifs at hs
      exact ⟨hs, hch ▸ hc⟩
    · rw [hother p hp] at hs hc
      exact ⟨hs, hc⟩

@[simp] def Phase.Mute : Phase → Prop
  | .checked _ | .waking _ => False
  | _ => True

def Act.isMute : Act NPROC NCPU → Bool
  | .test _ | .setCond _ _ | .sleepSet _ | .wakeup1 _ => false
  | _ => true

theorem Phase.mute_of_free_or_handler (h : x = .free ∨ x = .handler) : x.Mute := by
  rcases h with rfl | rfl <;> trivial

theorem Act.next_mute (hpre : a.Pre cfg quiet o ⟨c, L, x⟩) (ha : a.isMute = true) :
    a.next c s x = x ∨ x.Mute ∧ (a.next c s x).Mute := by
  cases a
  case exitTable =>
    exact .inr ⟨Phase.mute_of_free_or_handler hpre.2.2, trivial⟩
  case wait =>
    simp only [Act.next]
    split_ifs
    · exact .inr ⟨Phase.mute_of_free_or_handler (.inl hpre.2.2), trivial⟩
    · exact .inl rfl
  case test | setCond | sleepSet | wakeup1 => cases ha
  all_goals exact .inl rfl

end

/-- A CPU that has found a condition false which now holds has let go of its lock, and some CPU
has yet to wake the processes that sleep on it, if there are any. -/
structure Alert (cfg : Config NCPU) (m : Smp NPROC NCPU) (H : Fin NCPU → List (LockId NCPU))
    (φ : Fin NCPU → Phase) : Prop where
  checked : ∀ c a, φ c = .checked a → m.mem.cond a = true → cfg.guard a ∉ H c ∧ ∃ d, φ d = .waking a
  asleep : ∀ p a, m.mem.kernel.Sleeps p (.addr a) → m.mem.cond a = true → ∃ d, φ d = .waking a

namespace Alert

theorem mute (hA : Alert cfg m H φ) (hcond : m'.mem.cond = m.mem.cond)
    (hsl : ∀ p a, m'.mem.kernel.Sleeps p (.addr a) → m.mem.kernel.Sleeps p (.addr a))
    (hH : ∀ c a, φ c = .checked a → cfg.guard a ∈ H' c → cfg.guard a ∈ H c)
    (hφ : φ' = φ ∨ ∃ x, φ' = update φ c x ∧ (φ c).Mute ∧ x.Mute) : Alert cfg m' H' φ' := by
  have hwaking : ∀ {d a}, φ d = .waking a → φ' d = .waking a := by
    intro d a hd
    rcases hφ with rfl | ⟨x, rfl, hc, -⟩
    · exact hd
    · rw [update_of_ne, hd]
      rintro rfl
      simp [hd] at hc
  have hchecked : ∀ {d a}, φ' d = .checked a → φ d = .checked a := by
    intro d a hd
    rcases hφ with rfl | ⟨x, rfl, -, hx⟩
    · exact hd
    · rwa [update_of_ne] at hd
      rintro rfl
      rw [update_self] at hd
      simp [hd] at hx
  refine ⟨fun c a hc ha => ?_, fun p a hp ha => ?_⟩
  · rw [hcond] at ha
    obtain ⟨hg, d, hd⟩ := hA.checked c a (hchecked hc) ha
    exact ⟨fun h => hg (hH c a (hchecked hc) h), d, hwaking hd⟩
  · rw [hcond] at ha
    obtain ⟨d, hd⟩ := hA.asleep p a (hsl p a hp) ha
    exact ⟨d, hwaking hd⟩

section
variable {a : Act NPROC NCPU}
  {out : Outcome (Fin NPROC) (LockId NCPU) (Act NPROC NCPU) (Shared NPROC NCPU)}

theorem act (hA : Alert cfg m H φ) (ha : a.isMute = true)
    (hpre : a.Pre cfg quiet (m.mem.kernel.curproc c) ⟨c, H c, φ c⟩)
    (hrun : a.run cfg c (LockId.rq c ∈ H c) m.mem = .ok out) (hmem : m'.mem = out.mem) :
    Alert cfg m' H (update φ c (a.next c m.mem (φ c))) := by
  have hcond : ∀ n b, a ≠ .setCond n b := by
    rintro n b rfl
    cases ha
  have hset : ∀ ch, a ≠ .sleepSet ch := by
    rintro ch rfl
    cases ha
  refine hA.mute (c := c) (hmem ▸ Act.run_cond hrun hcond)
    (fun p a hp => Act.run_sleeps hpre hrun hset (hmem ▸ hp)) (fun _ _ _ h => h) ?_
  rcases Act.next_mute (s := m.mem) hpre ha with h | h
  · left
    rw [h, update_eq_self]
  · exact .inr ⟨_, rfl, h⟩

theorem waking_update {a : ℕ} {x : Phase} (h : ∃ d, φ d = .waking a) (hc : φ c ≠ .waking a) :
    ∃ d, update φ c x d = .waking a := by
  obtain ⟨d, hd⟩ := h
  refine ⟨d, ?_⟩
  rwa [update_of_ne]
  rintro rfl
  exact hc hd

theorem test {b : ℕ} (hA : Alert cfg m H φ) (hφ : φ c = .free) (hmem : m'.mem = m.mem) :
    Alert cfg m' H (update φ c ((Act.test b).next c m.mem (φ c))) := by
  unfold Act.next
  dsimp only
  split_ifs with hb
  · rw [update_eq_self]
    exact ⟨hmem ▸ hA.checked, hmem ▸ hA.asleep⟩
  · refine ⟨fun d a hd ha => ?_, fun p a hp ha => ?_⟩
    · rw [hmem] at ha
      by_cases hdc : d = c
      · -- the CPU has just found the condition false
        subst hdc
        rw [update_self] at hd
        cases hd
        exact absurd ha hb
      · rw [update_of_ne hdc] at hd
        obtain ⟨hg, hw⟩ := hA.checked d a hd ha
        exact ⟨hg, waking_update hw (by simp [hφ])⟩
    · rw [hmem] at hp ha
      exact waking_update (hA.asleep p a hp ha) (by simp [hφ])

theorem setCond {b : ℕ} {v : Bool} (ht : Smp.Typed cfg idle quiet dead m H φ)
    (hA : Alert cfg m H φ) (hg : cfg.guard b ∈ H c) (hφ : φ c = .free ∨ φ c = .handler)
    (hmem : m'.mem = { m.mem with cond := update m.mem.cond b v }) :
    Alert cfg m' H (update φ c ((Act.setCond b v : Act NPROC NCPU).next c m.mem (φ c))) := by
  have hnw : ∀ a, φ c ≠ .waking a := by
    intro a h
    simp [h] at hφ
  cases v with
  | false =>
    have hcond : ∀ a, m'.mem.cond a = true → m.mem.cond a = true := by
      intro a ha
      rw [hmem] at ha
      by_cases hab : a = b
      · simp [hab] at ha
      · simpa [hab] using ha
    have hk : m'.mem.kernel = m.mem.kernel := by rw [hmem]
    simp only [Act.next, Bool.false_eq_true, if_false, update_eq_self]
    exact ⟨fun d a hd ha => hA.checked d a hd (hcond a ha),
      fun p a hp ha => hA.asleep p a (hk ▸ hp) (hcond a ha)⟩
  | true =>
    simp only [Act.next, if_true]
    have hwake : ∀ a, (m.mem.cond a = true → ∃ d, φ d = .waking a) → m'.mem.cond a = true →
        ∃ d, update φ c (.waking b) d = .waking a := by
      intro a h ha
      by_cases hab : a = b
      · exact ⟨c, by rw [update_self, hab]⟩
      · rw [hmem] at ha
        exact waking_update (h (by simpa [hab] using ha)) (hnw a)
    refine ⟨fun d a hd ha => ?_, fun p a hp ha => hwake a (hA.asleep p a ?_) ha⟩
    · by_cases hdc : d = c
      · subst hdc
        rw [update_self] at hd
        cases hd
      · rw [update_of_ne hdc] at hd
        refine ⟨fun hmg => ?_, hwake a (fun h => (hA.checked d a hd h).2) ha⟩
        by_cases hab : a = b
        · -- the lock of the condition is held by one CPU only
          subst hab
          exact hdc (ht.excl hmg hg)
        · rw [hmem] at ha
          exact (hA.checked d a hd (by simpa [hab] using ha)).1 hmg
    · rwa [hmem] at hp

theorem sleepSet (hA : Alert cfg m H φ) (hφ : (φ c).Sleeps (m.mem.kernel.curproc c) ch)
    (hrun : (Act.sleepSet ch).run cfg c (LockId.rq c ∈ H c) m.mem = .ok out)
    (hmem : m'.mem = out.mem) : Alert cfg m' H (update φ c .blocked) := by
  obtain ⟨k', hk, hrun⟩ := bind_eq_ok.mp hrun
  obtain ⟨p, -, hk⟩ := bind_eq_ok.mp hk
  cases hk
  cases hrun
  have hnw : ∀ a, φ c ≠ .waking a := by
    intro a h
    simp [h] at hφ
  have hcond : m'.mem.cond = m.mem.cond := by rw [hmem]; rfl
  refine ⟨fun d a hd ha => ?_, fun q a hq ha => ?_⟩
  · rw [hcond] at ha
    by_cases hdc : d = c
    · subst hdc
      rw [update_self] at hd
      cases hd
    · rw [update_of_ne hdc] at hd
      obtain ⟨hg, hw⟩ := hA.checked d a hd ha
      exact ⟨hg, waking_update hw (hnw a)⟩
  · rw [hcond] at ha
    refine waking_update ?_ (hnw a)
    by_cases hqp : q = p
    · -- the process that falls asleep has found the condition false before
      subst hqp
      have hch : ch = .addr a := by
        have := hq.2
        rw [hmem] at this
        simpa [Shared.go] using this
      subst hch
      have hc : φ c = .checked a := by
        cases hx : φ c <;> simp [hx] at hφ
        rw [hφ]
      exact (hA.checked c a hc ha).2
    · refine hA.asleep q a ?_ ha
      rw [hmem] at hq
      simpa [Kernel.Sleeps, Shared.go, hqp] using hq

theorem wakeup1 (ht : Smp.Typed cfg idle quiet dead m H φ) (hA : Alert cfg m H φ)
    (hpt : .procTable ∈ H c)
    (hφ : φ c = .free ∨ φ c = .handler ∨ ∃ a, φ c = .waking a ∧ ch = .addr a)
    (hrun : (Act.wakeup1 ch).run cfg c (LockId.rq c ∈ H c) m.mem = .ok out)
    (hmem : m'.mem = out.mem) : Alert cfg m' H (update φ c (φ c).woken) := by
  have hcond : m'.mem.cond = m.mem.cond := hmem ▸ Act.run_cond hrun nofun
  have hcalm := (Act.run_still hrun rfl rfl).toCalm
  rw [← hmem] at hcalm
  rcases or_assoc.mpr hφ with hφ | ⟨b, hb, rfl⟩
  · refine hA.mute (c := c) hcond (fun p a hp => hcalm.sleeps hp) (fun _ _ _ h => h) (.inl ?_)
    rcases hφ with h | h <;> rw [h] <;> simp [← h]
  · have hawake : ∀ p, ¬ m'.mem.kernel.Sleeps p (.addr b) := by
      rintro p ⟨hs, hc⟩
      obtain ⟨k', hk, hrun⟩ := bind_eq_ok.mp hrun
      cases hrun
      obtain ⟨hm, hst, -⟩ := Kernel.wakeup1_ok hk
      rw [hmem] at hs hc
      dsimp only [Shared.go] at hs hc
      rw [hm.chan] at hc
      rw [hst p] at hs
      split_ifs at hs with h
      exact h ⟨hs, hc⟩
    rw [hb]
    refine ⟨fun d a hd ha => ?_, fun p a hp ha => ?_⟩
    · rw [hcond] at ha
      by_cases hdc : d = c
      · subst hdc
        rw [update_self] at hd
        cases hd
      · rw [update_of_ne hdc] at hd
        obtain ⟨hg, hw⟩ := hA.checked d a hd ha
        refine ⟨hg, waking_update hw ?_⟩
        rw [hb]
        rintro ⟨⟩
        -- a CPU that has let go of the condition's lock holds `proc_table_lock`
        have hneed := (ht.need (Locking.sound cfg idle quiet) d).2
        simp only [hd] at hneed
        exact hdc (ht.excl (hneed.resolve_right hg) hpt)
    · rw [hcond] at ha
      refine waking_update (hA.asleep p a (hcalm.sleeps hp) ha) ?_
      rw [hb]
      rintro ⟨⟩
      exact hawake p hp

end

theorem effect (ht : Smp.Typed cfg idle quiet dead m H φ) (hA : Alert cfg m H φ)
    (he : Effect (smp cfg) (locking cfg idle quiet) c m H φ m' H' φ') : Alert cfg m' H' φ' := by
  cases he with
  | lock hcode hi hmem hcode' hctx hH htakes hφ =>
    refine hA.mute (c := c) (by rw [hmem]) (by rw [hmem]; exact fun _ _ => id)
      (fun d a hd hg => ?_) ?_
    · by_cases hdc : d = c
      · subst hdc
        rcases htakes _ hg with h | h
        · exact h
        · simp [hd] at h
      · rwa [hH d hdc] at hg
    · exact hφ.imp id fun ⟨h, hfree⟩ => ⟨_, h, Phase.mute_of_free_or_handler hfree,
        Phase.mute_of_free_or_handler (.inl rfl)⟩
  | @act a is out hcode hneed hpre hrun hm' hH hφ =>
    have hmem : m'.mem = out.mem := by rw [hm']; rfl
    change a.Pre cfg quiet (m.mem.kernel.curproc c) ⟨c, H c, φ c⟩ at hpre
    change a.run cfg c (LockId.rq c ∈ H c) m.mem = .ok out at hrun
    rw [hH, hφ]
    cases a
    case test b =>
      cases hrun
      exact hA.test hpre.2.2 hmem
    case setCond b v =>
      cases hrun
      exact hA.setCond ht hpre.1 hpre.2 hmem
    case sleepSet ch => exact hA.sleepSet hpre.2.2 hrun hmem
    case wakeup1 ch => exact hA.wakeup1 ht hpre.2.1 hpre.2.2 hrun hmem
    all_goals exact hA.act rfl hpre hrun hmem
  | @switch a is out hcode hown hleave hrun hm' hH hφ =>
    have hsw := Act.run_switched hrun (Locking.isSwitch_of_leave hleave)
    have hmem : m'.mem = out.mem := by rw [hm', Machine.swtch_mem]
    have hmute : (φ c).Mute := by
      cases a with
      | schedule =>
        rw [show φ c = .blocked from hleave]
        trivial
      | yield => exact Phase.mute_of_free_or_handler (.inr hleave.1)
      | demote p => exact Phase.mute_of_free_or_handler (.inr hleave.1)
      | runIdle => exact Phase.mute_of_free_or_handler (.inl hleave.1)
      | _ => exact hleave.elim
    refine hA.mute (c := c) ?_ (fun p a hp => hsw.toCalm.sleeps (hmem ▸ hp)) (fun _ _ _ h => hH ▸ h)
      (.inr ⟨_, hφ, hmute, Phase.mute_of_free_or_handler (.inl rfl)⟩)
    rw [hmem]
    refine Act.run_cond hrun ?_
    rintro n b rfl
    exact hleave.elim

theorem entered (hA : Alert cfg m H φ) (he : Smp.Entered c m H φ m' H' φ') :
    Alert cfg m' H' φ' := by
  refine hA.mute (c := c) (by rw [he.mem]) (by rw [he.mem]; exact fun _ _ => id)
    (fun _ _ _ h => he.locks ▸ h) (he.phase.imp id fun h => ⟨_, h, ?_, ?_⟩)
  · exact Phase.mute_of_free_or_handler (.inl he.free)
  · exact Phase.mute_of_free_or_handler (.inr rfl)

end Alert

/-- `z` is a zombie child of `p`. -/
def Kernel.ZombieChild (k : Kernel NPROC NCPU) (p z : Fin NPROC) : Prop :=
  (k.proc z).parent = some p ∧ (k.proc z).state = .zombie

/-- No process that sleeps in `wait` has a zombie child. -/
def Kernel.WaitSafe (k : Kernel NPROC NCPU) : Prop :=
  ∀ p, k.Sleeps p (.proc p) → ∀ z, ¬ k.ZombieChild p z

theorem Calm.zombieChild {z : Fin NPROC} (h : Calm k k') (hz : k'.ZombieChild p z) :
    k.ZombieChild p z := by
  obtain ⟨hp, hs⟩ := hz
  constructor
  · rcases h.parent z with e | e
    · rwa [← e]
    · rw [e] at hp
      cases hp
  · rcases h.state z with e | e
    · rwa [← e]
    · exact absurd hs e.2

/-- Neither has a process that has just scanned the table. Only init is its own parent. -/
structure Vigil (m : Smp NPROC NCPU) (φ : Fin NCPU → Phase) : Prop where
  asleep : m.mem.kernel.WaitSafe
  scanned : ∀ c p, φ c = .scanned → m.mem.kernel.curproc c = some p →
    ∀ z, ¬ m.mem.kernel.ZombieChild p z
  orphan : ∀ p, (m.mem.kernel.proc p).parent = some p → m.mem.kernel.initproc = some p

/-- `copyproc` is not given a zombie, nor the slot of its caller. -/
def Smp.Reserved (m : Smp NPROC NCPU) (c : Fin NCPU) : Prop :=
  match m.code c with
  | .act (.copyproc _ _ np) :: _ =>
    (m.mem.kernel.proc np).state ≠ .zombie ∧ m.mem.kernel.curproc c ≠ some np
  | _ => True

namespace Vigil

theorem frame (hV : Vigil m φ)
    (hsl : ∀ p, m'.mem.kernel.Sleeps p (.proc p) → m.mem.kernel.Sleeps p (.proc p))
    (hz : ∀ p z, m'.mem.kernel.ZombieChild p z → m.mem.kernel.ZombieChild p z)
    (hself : ∀ p, (m'.mem.kernel.proc p).parent = some p → (m.mem.kernel.proc p).parent = some p)
    (hinit : m'.mem.kernel.initproc = m.mem.kernel.initproc)
    (hφ : ∀ d, φ' d = .scanned → φ d = .scanned ∧
      m'.mem.kernel.curproc d = m.mem.kernel.curproc d) : Vigil m' φ' := by
  refine ⟨fun p hp z h => hV.asleep p (hsl p hp) z (hz p z h), fun d p hd hp z h => ?_,
    fun p hp => hinit ▸ hV.orphan p (hself p hp)⟩
  obtain ⟨hd, hcur⟩ := hφ d hd
  exact hV.scanned d p hd (hcur ▸ hp) z (hz p z h)

theorem calm (hV : Vigil m φ) (h : Calm m.mem.kernel m'.mem.kernel)
    (hφ : ∀ d, φ' d = .scanned → φ d = .scanned ∧
      m'.mem.kernel.curproc d = m.mem.kernel.curproc d) : Vigil m' φ' := by
  refine hV.frame (fun p => h.sleeps) (fun p z => h.zombieChild) (fun p hp => ?_) h.initproc hφ
  rcases h.parent p with e | e
  · rwa [← e]
  · rw [e] at hp
    cases hp

theorem not_scanned (ht : Smp.Typed cfg idle quiet dead m H φ) (hpt : .procTable ∈ H c)
    (hd : φ d = .scanned) : d = c := by
  have hneed := (ht.need (Locking.sound cfg idle quiet) d).2
  simp only [hd] at hneed
  exact ht.excl hneed hpt

section
variable {out : Outcome (Fin NPROC) (LockId NCPU) (Act NPROC NCPU) (Shared NPROC NCPU)}
  {a : Act NPROC NCPU}

theorem next_scanned {s : Shared NPROC NCPU} {x : Phase} (h : a.next c s x = .scanned) :
    x = .scanned ∨ a = .wait := by
  cases a with
  | test b =>
    simp only [Act.next] at h
    split_ifs at h
    exact .inl h
  | setCond b v => cases v <;> simp_all [Act.next]
  | wakeup1 ch => cases x <;> simp_all [Act.next]
  | sleepSet _ | exitTable => cases h
  | wait => exact .inr rfl
  | _ => exact .inl h

theorem sleepSet (ht : Smp.Typed cfg idle quiet dead m H φ) (hV : Vigil m φ)
    (hpt : .procTable ∈ H c) (hφ : (φ c).Sleeps (m.mem.kernel.curproc c) ch)
    (hrun : (Act.sleepSet ch).run cfg c (LockId.rq c ∈ H c) m.mem = .ok out)
    (hmem : m'.mem = out.mem) : Vigil m' (update φ c .blocked) := by
  obtain ⟨k', hk, hrun⟩ := bind_eq_ok.mp hrun
  obtain ⟨p, hp, hk⟩ := bind_eq_ok.mp hk
  cases hk
  cases hrun
  have hzom : ∀ {q z}, m'.mem.kernel.ZombieChild q z → m.mem.kernel.ZombieChild q z := by
    rintro q z ⟨hpar, hs⟩
    rw [hmem] at hpar hs
    by_cases hz : z = p
    · subst hz
      simp [Shared.go] at hs
    · simpa [Kernel.ZombieChild, Shared.go, hz] using And.intro hpar hs
  refine ⟨fun q hq z hz => ?_, fun d q hd hq z hz => ?_, fun q hq => ?_⟩
  · by_cases hqp : q = p
    · subst hqp
      have hch : ch = .proc q := by
        have := hq.2
        rw [hmem] at this
        simpa [Shared.go] using this
      subst hch
      have hc : φ c = .scanned := by
        cases hx : φ c <;> simp [hx] at hφ
        rfl
      exact hV.scanned c q hc (deref_eq_ok.mp hp) z (hzom hz)
    · refine hV.asleep q ?_ z (hzom hz)
      rw [hmem] at hq
      simpa [Kernel.Sleeps, Shared.go, hqp] using hq
  · by_cases hdc : d = c
    · subst hdc
      rw [update_self] at hd
      cases hd
    · rw [update_of_ne hdc] at hd
      exact absurd (not_scanned ht hpt hd) hdc
  · have hpar : (m'.mem.kernel.proc q).parent = (m.mem.kernel.proc q).parent := by
      rw [hmem]
      by_cases hqp : q = p <;> simp [Shared.go, hqp]
    rw [hmem]
    exact hV.orphan q (hpar ▸ hq)

theorem exitTable (ht : Smp.Typed cfg idle quiet dead m H φ) (hV : Vigil m φ)
    (hpt : .procTable ∈ H c)
    (hrun : Act.exitTable.run cfg c (LockId.rq c ∈ H c) m.mem = .ok out)
    (hmem : m'.mem = out.mem) : Vigil m' (update φ c .blocked) := by
  obtain ⟨k', hk, hrun⟩ := bind_eq_ok.mp hrun
  cases hrun
  obtain ⟨me, -, hst, -, hch, hpar, hme, hstate⟩ := Kernel.exitTable_ok hk
  have hk' : m'.mem.kernel = k' := by rw [hmem]; rfl
  refine ⟨?_, fun d q hd hq z hz => ?_, fun q hq => ?_⟩
  · rw [hk']
    rintro p ⟨hs, hc⟩ z ⟨hzp, hzs⟩
    have hne : p ≠ me := by
      rintro rfl
      rw [hme] at hs
      cases hs
    -- `p` slept before and was not woken
    obtain ⟨hnw, hsame⟩ :
        ¬ ((m.mem.kernel.proc p).state = .sleeping ∧ m.mem.kernel.ExitWakes me p) ∧
        (k'.proc p).state = (m.mem.kernel.proc p).state := by
      rcases hstate p hne with ⟨-, -, h⟩ | h
      · rw [h] at hs
        cases hs
      · exact h
    rw [hsame] at hs
    rw [hch] at hc
    rw [hpar] at hzp
    by_cases hz : z = me
    · -- the parent of the process that exits
      subst hz
      split_ifs at hzp with hself
      · rw [hV.orphan z hself] at hzp
        exact hne (Option.some.inj hzp).symm
      · exact hnw ⟨hs, .inl (by rw [hc, hzp]; rfl)⟩
    · have hzs : (m.mem.kernel.proc z).state = .zombie := by
        rcases hstate z hz with ⟨-, -, h⟩ | ⟨-, h⟩
        · rw [h] at hzs
          cases hzs
        · rwa [h] at hzs
      split_ifs at hzp with hchild
      · -- init inherits a zombie
        exact hnw ⟨hs, .inr ⟨by rw [hc, hzp]; rfl, z, hchild, hzs⟩⟩
      · exact hV.asleep p ⟨hs, hc⟩ z ⟨hzp, hzs⟩
  · by_cases hdc : d = c
    · subst hdc
      rw [update_self] at hd
      cases hd
    · rw [update_of_ne hdc] at hd
      exact absurd (not_scanned ht hpt hd) hdc
  · rw [hk'] at hq ⊢
    rw [hst.initproc]
    rw [hpar] at hq
    split_ifs at hq
    · exact hq
    · exact hV.orphan q hq

theorem kill {pid : ℤ} (hV : Vigil m φ) (hH : H c = [.procTable])
    (hrun : (Act.kill pid).run cfg c (LockId.rq c ∈ H c) m.mem = .ok out)
    (hmem : m'.mem = out.mem) : Vigil m' φ := by
  obtain ⟨⟨k', r⟩, hk, hrun⟩ := bind_eq_ok.mp hrun
  cases hrun
  rw [hH, decide_eq_false (by simp)] at hk
  have hk' : m'.mem.kernel = k' := by rw [hmem]; rfl
  rcases Kernel.kill_unlocked_ok hk with rfl | ⟨p, rfl⟩
  · exact hV.frame (by simp [hk']) (by simp [hk']) (by simp [hk']) (by simp [hk']) (by simp [hk'])
  · refine hV.frame (fun q => ?_) (fun q z => ?_) (fun q => ?_) (by simp [hk']) (by simp [hk'])
    · by_cases hq : q = p <;> simp [hk', Kernel.Sleeps, hq]
    · by_cases hz : z = p <;> simp [hk', Kernel.ZombieChild, hz]
    · by_cases hq : q = p <;> simp [hk', hq]

theorem copyproc {ks mo : Bool} {np : Fin NPROC} (hV : Vigil m φ)
    (hnp : (m.mem.kernel.proc np).state ≠ .zombie) (hcur : m.mem.kernel.curproc c ≠ some np)
    (hpre : (Act.copyproc ks mo np).Pre cfg quiet (m.mem.kernel.curproc c) ⟨c, H c, φ c⟩)
    (hrun : (Act.copyproc ks mo np).run cfg c (LockId.rq c ∈ H c) m.mem = .ok out)
    (hmem : m'.mem = out.mem) : Vigil m' φ := by
  obtain ⟨me, hme, hout⟩ := Act.run_copyproc hrun
  obtain ⟨hst, hcur', -, hother, -, -, hstate⟩ := m.mem.kernel.copyRest_frame ks mo me np
  have hparent := m.mem.kernel.copyRest_parent ks mo me np
  rw [← hmem] at hout
  rw [← hout] at hst hcur' hother hparent
  refine hV.frame (fun p hp => Act.run_sleeps hpre hrun nofun (hmem ▸ hp)) (fun q z hz => ?_)
    (fun q hq => ?_) hst.initproc (by simp [hcur'])
  · by_cases hz' : z = np
    · subst hz'
      have hs := hz.2
      rw [hout, hstate] at hs
      split_ifs at hs
      exact absurd hs hnp
    · unfold Kernel.ZombieChild at hz
      rwa [hother z hz'] at hz
  · by_cases hq' : q = np
    · subst hq'
      rcases hparent with e | e | e
      · rwa [← e]
      · rw [e] at hq
        exact absurd (hme.trans hq) hcur
      · rw [e] at hq
        cases hq
    · rwa [hother q hq'] at hq

theorem wait (hV : Vigil m φ) (hrun : Act.wait.run cfg c (LockId.rq c ∈ H c) m.mem = .ok out)
    (hmem : m'.mem = out.mem) : Vigil m' (update φ c (Act.wait.next c m.mem (φ c))) := by
  have hstill := Act.run_still hrun rfl rfl
  rw [← hmem] at hstill
  by_cases hw : ∃ me, m.mem.kernel.curproc c = some me ∧
      m.mem.kernel.waitScan me (List.finRange NPROC) false = .sleep
  · obtain ⟨me, hme, hw⟩ := hw
    have hV' : Vigil m' φ := hV.calm hstill.toCalm fun d hd => ⟨hd, by rw [hstill.curproc]⟩
    refine ⟨hV'.asleep, fun d p hd hp z hz => ?_, hV'.orphan⟩
    by_cases hdc : d = c
    · subst hdc
      obtain ⟨hzp, hzs⟩ := hstill.zombieChild hz
      rw [hstill.curproc, hme] at hp
      cases hp
      exact Kernel.waitScan_sleep hw z (List.mem_finRange z) hzp hzs
    · rw [update_of_ne hdc] at hd
      exact hV'.scanned d p hd hp z hz
  · have hnext : Act.wait.next c m.mem (φ c) = φ c := by
      simp only [Act.next]
      rw [if_neg]
      intro h
      rw [Option.any_eq_true] at h
      obtain ⟨me, hme, h⟩ := h
      exact hw ⟨me, hme, of_decide_eq_true h⟩
    rw [hnext, update_eq_self]
    exact hV.calm hstill.toCalm fun d hd => ⟨hd, by rw [hstill.curproc]⟩

end

theorem effect (ht : Smp.Typed cfg idle quiet dead m H φ) (hV : Vigil m φ) (hr : m.Reserved c)
    (he : Effect (smp cfg) (locking cfg idle quiet) c m H φ m' H' φ') : Vigil m' φ' := by
  cases he with
  | lock hcode hi hmem hcode' hctx hH htakes hφ =>
    refine hV.frame (by simp [hmem]) (by simp [hmem]) (by simp [hmem]) (by simp [hmem])
      fun d hd => ⟨?_, by rw [hmem]⟩
    rcases hφ with rfl | ⟨rfl, -⟩
    · exact hd
    · by_cases hdc : d = c
      · subst hdc
        rw [update_self] at hd
        cases hd
      · rwa [update_of_ne hdc] at hd
  | @act a is out hcode hneed hpre hrun hm' hH hφ =>
    have hmem : m'.mem = out.mem := by rw [hm']; rfl
    change a.Pre cfg quiet (m.mem.kernel.curproc c) ⟨c, H c, φ c⟩ at hpre
    change a.run cfg c (LockId.rq c ∈ H c) m.mem = .ok out at hrun
    have hcalm : a.isCalm = true → a ≠ .wait →
        Vigil m' (update φ c (a.next c m.mem (φ c))) := by
      intro hc hw
      have hstill := Act.run_still hrun hc (Locking.isSwitch_of_pre hpre)
      rw [← hmem] at hstill
      refine hV.calm hstill.toCalm fun d hd => ⟨?_, by rw [hstill.curproc]⟩
      by_cases hdc : d = c
      · subst hdc
        rw [update_self] at hd
        exact (next_scanned hd).resolve_right hw
      · rwa [update_of_ne hdc] at hd
    have hpt : ∀ l, H c = [l, .procTable] → .procTable ∈ H c := fun l h => by simp [h]
    cases a
    case wait => exact hφ ▸ hV.wait hrun hmem
    case sleepSet ch => exact hφ ▸ hV.sleepSet ht (hpt _ hpre.2.1) hpre.2.2 hrun hmem
    case exitTable => exact hφ ▸ hV.exitTable ht (hpt _ hpre.2.1) hrun hmem
    case kill pid =>
      rw [show φ' = φ from hφ.trans (update_eq_self c φ)]
      exact hV.kill hpre.2.1 hrun hmem
    case copyproc ks mo np =>
      rw [show φ' = φ from hφ.trans (update_eq_self c φ)]
      unfold Smp.Reserved at hr
      rw [hcode] at hr
      exact hV.copyproc hr.1 hr.2 hpre hrun hmem
    all_goals exact hφ ▸ hcalm rfl nofun
  | @switch a is out hcode hown hleave hrun hm' hH hφ =>
    have hsw := Act.run_switched hrun (Locking.isSwitch_of_leave hleave)
    have hmem : m'.mem = out.mem := by rw [hm', Machine.swtch_mem]
    rw [← hmem] at hsw
    refine hV.calm hsw.toCalm fun d hd => ?_
    rw [hφ] at hd
    by_cases hdc : d = c
    · subst hdc
      rw [update_self] at hd
      cases hd
    · rw [update_of_ne hdc] at hd
      exact ⟨hd, hsw.others d hdc⟩

theorem entered (hV : Vigil m φ) (he : Smp.Entered c m H φ m' H' φ') : Vigil m' φ' := by
  refine hV.frame (by simp [he.mem]) (by simp [he.mem]) (by simp [he.mem]) (by simp [he.mem])
    fun d hd => ⟨?_, by rw [he.mem]⟩
  rcases he.phase with h | h
  · rwa [h] at hd
  · rw [h] at hd
    by_cases hdc : d = c
    · subst hdc
      rw [update_self] at hd
      cases hd
    · rwa [update_of_ne hdc] at hd

end Vigil

/-- The code wakes the processes that sleep on `a` after some lock operations. -/
def Code.waking (a : ℕ) : Code NPROC NCPU → Bool
  | .act (.wakeup1 ch) :: _ => ch = .addr a
  | .acquire _ :: is => Code.waking a is
  | .release _ :: is => Code.waking a is
  | _ => false

/-- CPU `d` is between meeting the condition of `a` and waking the processes: it holds the
condition's lock and is in `wakeup`. -/
def Smp.Waking (cfg : Config NCPU) (m : Smp NPROC NCPU) (a : ℕ) (d : Fin NCPU) : Prop :=
  m.holder (cfg.guard a) = some d ∧ Code.waking a (m.code d) = true

theorem Locking.waking_of_ok {a : ℕ} {is : Code NPROC NCPU} {o : Option (Fin NPROC)}
    {L : List (LockId NCPU)} (h : Locking.Ok cfg idle quiet o is ⟨c, L, .waking a⟩) :
    Code.waking a is = true := by
  induction is generalizing L with
  | nil => cases h.2
  | cons i is ih =>
    have hat := h.head
    cases i with
    | acquire l =>
      obtain ⟨-, -, -, -, hok⟩ := hat
      exact ih hok
    | release l =>
      obtain ⟨-, -, -, hok⟩ := hat
      exact ih hok
    | sti =>
      obtain ⟨-, hneed, hL, -⟩ := hat
      have hg : cfg.guard a ∈ L := hneed.2
      rw [show L = [] from hL] at hg
      cases hg
    | act b =>
      obtain ⟨-, -, hpre, -⟩ := hat
      cases b with
      | wakeup1 ch => simpa [Code.waking] using hpre.2.2
      | _ => simp at hpre
    | switch b =>
      obtain ⟨-, -, hleave, -⟩ := hat
      cases b <;> simp at hleave

theorem Smp.Typed.waking {a : ℕ} (ht : Typed cfg idle quiet dead m H φ) (hd : φ d = .waking a) :
    m.Waking cfg a d := by
  have hneed := (ht.need (Locking.sound cfg idle quiet) d).2
  simp only [hd] at hneed
  refine ⟨(ht.holder _ d).mpr hneed, ?_⟩
  rcases ht.code d with h | ⟨-, h, -⟩
  · rw [hd] at h
    exact Locking.waking_of_ok h
  · rw [hd] at h
    cases h

theorem alert_of_reach (h₀ : ∀ p a, k.Sleeps p (.addr a) → cond a = false)
    (hr : Reach (SmpStep cfg) (Smp.start k cond) m) :
    ∃ H φ, Smp.Typed cfg k.idleproc ∅ True m H φ ∧ Alert cfg m H φ := by
  refine hr.invariant (P := fun m => ∃ H φ, Smp.Typed cfg k.idleproc ∅ True m H φ ∧ Alert cfg m H φ)
    ⟨_, _, Smp.typed_start nofun, nofun, fun p a hp ha => ?_⟩ ?_
  · have ha : cond a = true := ha
    rw [h₀ p a hp] at ha
    cases ha
  · rintro m ⟨c, e⟩ m' ⟨H, φ, ht, hA⟩ hs
    obtain ⟨H', φ', ht', ⟨-, he⟩ | he⟩ :=
      ht.step hs (.inl trivial) fun _ _ => ⟨nofun, fun _ _ => rfl⟩
    · exact ⟨H', φ', ht', hA.effect ht he⟩
    · exact ⟨H', φ', ht', hA.entered he⟩

theorem vigil_of_reach (h₀ : k.WaitSafe)
    (hself : ∀ p, (k.proc p).parent = some p → k.initproc = some p)
    (hr : Reach (fun m a m' => SmpStep cfg m a m' ∧ (a.2 = .exec → m.Reserved a.1))
      (Smp.start k cond) m) :
    ∃ H φ, Smp.Typed cfg k.idleproc ∅ True m H φ ∧ Vigil m φ := by
  refine hr.invariant (P := fun m => ∃ H φ, Smp.Typed cfg k.idleproc ∅ True m H φ ∧ Vigil m φ)
    ⟨_, _, Smp.typed_start nofun, h₀, nofun, hself⟩ ?_
  rintro m ⟨c, e⟩ m' ⟨H, φ, ht, hV⟩ ⟨hs, hres⟩
  obtain ⟨H', φ', ht', ⟨rfl, he⟩ | he⟩ :=
    ht.step hs (.inl trivial) fun _ _ => ⟨nofun, fun _ _ => rfl⟩
  · exact ⟨H', φ', ht', hV.effect ht (hres rfl) he⟩
  · exact ⟨H', φ', ht', hV.entered he⟩

/-- While a condition holds and nobody is about to wake its sleepers, there are none; and no
process sleeps in `wait` while it has a zombie child. -/
theorem no_lost_wakeup (h₀ : ∀ p a, k.Sleeps p (.addr a) → cond a = false)
    (hr : Reach (SmpStep cfg) (Smp.start k cond) m) :
    (∀ a, m.mem.cond a = true → (∀ d, ¬ m.Waking cfg a d) →
      ∀ p, ¬ m.mem.kernel.Sleeps p (.addr a)) ∧
    (k.WaitSafe → (∀ p, (k.proc p).parent = some p → k.initproc = some p) →
      Reach (fun m a m' => SmpStep cfg m a m' ∧ (a.2 = .exec → m.Reserved a.1))
        (Smp.start k cond) m → m.mem.kernel.WaitSafe) := by
  constructor
  · intro a ha hw p hp
    obtain ⟨H, φ, ht, hA⟩ := alert_of_reach h₀ hr
    obtain ⟨d, hd⟩ := hA.asleep p a hp ha
    exact hw d (ht.waking hd)
  · intro hsafe hself hr
    obtain ⟨H, φ, -, hV⟩ := vigil_of_reach hsafe hself hr
    exact hV.asleep

section runs

instance {m : Smp NPROC NCPU} : Decidable (m.Reserved c) := by
  unfold Smp.Reserved
  split <;> infer_instance

instance {m : Smp NPROC NCPU} {a : ℕ} : Decidable (m.Waking cfg a d) := by
  unfold Smp.Waking
  infer_instance

/-- Init forks, then sleeps on channel 3 and is woken by a device interrupt of CPU `d`. -/
def wakeRun (c d : Fin 8) : List (Fin 8 × Event) :=
  bootUp c ++ enter c .timer 13 ++ bootUp d ++ enter c (.call (.fork true true)) 10 ++
    enter c (.call (.sleep 3)) 12 ++ enter d (.device 3) 10

theorem no_lost_wakeup_device : ∃ k₀ m,
    (Kernel.pinit 64 8 2).userinit 0 = .ok k₀ ∧
    Reach (SmpStep (ownGuards false)) (Smp.start k₀ fun _ => false) m ∧
    m.mem.cond 3 = true ∧ (m.mem.kernel.proc 0).chan = some (.addr 3) ∧
    (∀ p, ¬ m.mem.kernel.Sleeps p (.addr 3)) ∧ m.mem.kernel.WaitSafe := by
  obtain ⟨k₀, h₀, h⟩ := exists_ok_of_any (x := (Kernel.pinit 64 8 2).userinit 0)
    (P := fun k₀ => decide (∀ p, (k₀.proc p).state ≠ .sleeping ∧ (k₀.proc p).parent ≠ some p) &&
      ((wakeRun 0 1).foldlM
        (Smp.performIf (ownGuards false) fun m a _ => a.2 = .exec → m.Reserved a.1)
        (Smp.start k₀ fun _ => false)).any fun m =>
          m.mem.cond 3 = true ∧ (m.mem.kernel.proc 0).chan = some (.addr 3) ∧
            ∀ d, ¬ m.Waking (ownGuards false) 3 d)
    (by decide +kernel)
  rw [Bool.and_eq_true, decide_eq_true_eq] at h
  obtain ⟨hk, h⟩ := h
  obtain ⟨m, hr, hm⟩ := exists_reach_of_any (fun _ _ _ => Smp.reach_of_performIf) h
  rw [decide_eq_true_eq] at hm
  have hs : ∀ p ch, ¬ k₀.Sleeps p ch := fun p ch hp => (hk p).1 hp.1
  have hr' := hr.mono fun _ _ _ h => h.1
  have hmain := no_lost_wakeup (fun p a hp => absurd hp (hs p _)) hr'
  exact ⟨k₀, m, h₀, hr', hm.1, hm.2.1, hmain.1 3 hm.1 hm.2.2,
    hmain.2 (fun p hp => absurd hp (hs p _)) (fun p hp => absurd hp (hk p).2) hr⟩

end runs

end Xv6Shed
