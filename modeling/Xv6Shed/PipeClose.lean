import Xv6Shed.Pipe
import Xv6Shed.Transition

/-!
# The last two closes of a pipe

`pipeclose` decides whether to free the page after it has released `p->lock`. The two calls are
named by `writable`; each clears its flag, tests both flags and calls `kfree`, in three steps.
-/

namespace Xv6Shed
open Function Transition

/-- `p->writeopen` or `p->readopen` -/
def Pipe.isOpen (p : Pipe) (writable : Bool) : Bool := if writable then p.writeopen else p.readopen

/-- The next step of a call of `pipeclose` -/
inductive ClosePc where
  | locked
  | test
  | free
  | done
  deriving DecidableEq

/-- The page, the two calls, how often the page has been given to `kfree`, and whether a call has
read it after that. -/
structure Closing where
  page : Pipe
  pc : Bool → ClosePc
  frees : ℕ
  stale : Bool

namespace Closing

/-- Both ends are open. -/
def start (page : Pipe) : Closing := ⟨{ page with readopen := true, writeopen := true },
  fun _ => .locked, 0, false⟩

/-- What a call reads: a page that is free may hold anything, here `junk`. -/
def read (junk : Pipe) (s : Closing) : Pipe := if s.frees = 0 then s.page else junk

/-- The next step of the call for `writable` -/
def step (s : Closing) (writable : Bool) (junk : Pipe) : Option Closing :=
  let p := s.read junk
  let stale := s.stale || s.frees != 0
  match s.pc writable with
  | .locked => some { s with page := p.shut writable, pc := update s.pc writable .test, stale }
  | .test =>
    let next := if p.readopen = false ∧ p.writeopen = false then .free else .done
    some { s with pc := update s.pc writable next, stale }
  | .free => some { s with pc := update s.pc writable .done, frees := s.frees + 1 }
  | .done => none

def Step (s : Closing) (a : Bool × Pipe) (s' : Closing) : Prop := s.step a.1 a.2 = some s'

/-- The page is freed at most once, after both flags have been cleared, and once when both calls
have returned. No call reads it after that. -/
structure FreedOnce (s : Closing) : Prop where
  once : s.frees ≤ 1
  closed : s.frees ≠ 0 → ∀ writable, s.pc writable ≠ .locked
  fresh : s.stale = false
  freed : (∀ writable, s.pc writable = .done) → s.frees = 1

/-- No call enters its locked part between those of the other. -/
def Apart (s : Closing) (a : Bool × Pipe) : Prop := s.pc a.1 = .locked → s.pc (!a.1) ≠ .test

variable {s s' : Closing} {b : Bool}

/-- Where the two calls can be, if they stay apart -/
structure Turns (s : Closing) : Prop where
  fresh : s.stale = false
  isOpen : s.frees = 0 → ∀ b, s.page.isOpen b = true ↔ s.pc b = .locked
  frees : s.frees = if ∀ b, s.pc b = .done then 1 else 0
  test : ∀ b, s.pc b = .test → s.pc (!b) = .locked ∨ s.pc (!b) = .done
  free : ∀ b, s.pc b = .free → s.pc (!b) = .done

theorem turns_start (page : Pipe) : (start page).Turns where
  fresh := rfl
  isOpen _ b := by cases b <;> simp [start, Pipe.isOpen]
  frees := rfl
  test _ h := nomatch h
  free _ h := nomatch h

theorem Turns.freedOnce (h : s.Turns) : s.FreedOnce := by
  have hf := h.frees
  refine ⟨?_, fun hne b hb => ?_, h.fresh, fun hdone => hf.trans (if_pos hdone)⟩
  · rw [hf]
    split <;> omega
  · by_cases hdone : ∀ b, s.pc b = .done
    · rw [hdone b] at hb
      cases hb
    · exact hne (hf.trans (if_neg hdone))

theorem Turns.live (h : s.Turns) (hb : s.pc b ≠ .done) : s.frees = 0 :=
  h.frees.trans (if_neg fun hdone => hb (hdone b))

@[simp] theorem isOpen_shut (p : Pipe) (b c : Bool) :
    (p.shut b).isOpen c = (p.isOpen c && c != b) := by
  cases b <;> cases c <;> simp [Pipe.shut, Pipe.isOpen]

theorem shut_iff (p : Pipe) : p.readopen = false ∧ p.writeopen = false ↔
    ∀ b, p.isOpen b = false := by
  rw [Bool.forall_bool]
  rfl

theorem turns_of (b : Bool) (hfresh : s.stale = false)
    (hopen : s.frees = 0 → (s.page.isOpen b = true ↔ s.pc b = .locked) ∧
      (s.page.isOpen (!b) = true ↔ s.pc (!b) = .locked))
    (hfrees : s.frees = if s.pc b = .done ∧ s.pc (!b) = .done then 1 else 0)
    (htest : s.pc b = .test → s.pc (!b) = .locked ∨ s.pc (!b) = .done)
    (htest' : s.pc (!b) = .test → s.pc b = .locked ∨ s.pc b = .done)
    (hfree : s.pc b = .free → s.pc (!b) = .done)
    (hfree' : s.pc (!b) = .free → s.pc b = .done) : s.Turns := by
  refine ⟨hfresh, fun h0 => (Bool.forall_bool' b).mpr (hopen h0), ?_,
    (Bool.forall_bool' b).mpr ⟨htest, ?_⟩, (Bool.forall_bool' b).mpr ⟨hfree, ?_⟩⟩
  · simp only [Bool.forall_bool' b]
    exact hfrees
  · rwa [Bool.not_not]
  · rwa [Bool.not_not]

theorem Turns.step (h : s.Turns) {junk : Pipe} (hapart : s.Apart (b, junk))
    (hs : s.step b junk = some s') : s'.Turns := by
  have hne : (!b) ≠ b := Bool.not_ne_self b
  have hpage : s.pc b ≠ .done → s.read junk = s.page ∧ (s.stale || s.frees != 0) = false :=
    fun hb => by simp [read, h.live hb, h.fresh]
  have hfree' : s.pc (!b) = .free → s.pc b = .done := by simpa using h.free (!b)
  unfold Closing.step at hs
  cases hpc : s.pc b with
  | locked =>
    simp only [hpc, Option.some_inj] at hs
    obtain ⟨hread, hstale⟩ := hpage (by simp [hpc])
    have hlive : s.frees = 0 := h.live (b := b) (by simp [hpc])
    obtain ⟨-, ho'⟩ := (Bool.forall_bool' b).mp (h.isOpen hlive)
    have hother := hapart hpc
    subst hs
    refine turns_of b hstale (fun _ => ?_) ?_ ?_ ?_ ?_ ?_
    · simp [hread, hne, ho']
    · simp [hlive]
    all_goals simp only [update_self, update_of_ne hne]
    · intro _
      cases hy : s.pc (!b) with
      | locked => exact .inl rfl
      | done => exact .inr rfl
      | test => exact absurd hy hother
      | free => simp [hfree' hy] at hpc
    · exact fun hy => absurd hy hother
    · exact nofun
    · intro hy
      simp [hfree' hy] at hpc
  | test =>
    simp only [hpc, Option.some_inj] at hs
    obtain ⟨hread, hstale⟩ := hpage (by simp [hpc])
    have hlive : s.frees = 0 := h.live (b := b) (by simp [hpc])
    obtain ⟨ho, ho'⟩ := (Bool.forall_bool' b).mp (h.isOpen hlive)
    rw [hread, if_congr (shut_iff s.page) rfl rfl] at hs
    simp only [hpc, reduceCtorEq, iff_false, Bool.not_eq_true] at ho
    simp only [Bool.forall_bool' b, ho, true_and] at hs
    subst hs
    rcases h.test b hpc with hy | hy
    · have hstay : s.page.isOpen (!b) = true := ho'.mpr hy
      refine turns_of b hstale ?_ ?_ ?_ ?_ ?_ ?_ <;> simp [hstay, hne, hy, ho, hlive]
    · have hshut : s.page.isOpen (!b) = false := by simpa [hy] using ho'
      refine turns_of b hstale ?_ ?_ ?_ ?_ ?_ ?_ <;> simp [hshut, hne, hy, ho, hlive]
  | free =>
    simp only [hpc, Option.some_inj] at hs
    have hy := h.free b hpc
    have hlive : s.frees = 0 := h.live (b := b) (by simp [hpc])
    subst hs
    refine turns_of b h.fresh ?_ ?_ ?_ ?_ ?_ ?_ <;> simp [hne, hy, hlive]
  | done =>
    simp only [hpc] at hs
    cases hs

/-- In every run in which the calls stay apart, the page is freed once. -/
theorem freedOnce_of_reach {page : Pipe}
    (h : Reach (fun s a s' => s.Apart a ∧ Step s a s') (start page) s) : s.FreedOnce := by
  have ht : s.Turns := h.invariant (turns_start page) fun _ _ _ hs ha => hs.step ha.1 ha.2
  exact ht.freedOnce

instance (s : Closing) (a : Bool × Pipe) : Decidable (s.Apart a) := by
  unfold Apart
  infer_instance

/-- The read end is closed first. -/
theorem freedOnce_in_turn : ∃ s,
    Reach (fun s a s' => s.Apart a ∧ Step s a s') (start (.alloc fun _ => 0)) s ∧
    (∀ b, s.pc b = .done) ∧ s.FreedOnce := by
  have hk : (([false, false, true, true, true].map fun b => (b, Pipe.alloc fun _ => 0)).foldlM
      (fun (s : Closing) a => if s.Apart a then s.step a.1 a.2 else none)
      (start (.alloc fun _ => 0))).any (fun s => ∀ b, s.pc b = .done) = true := by
    decide +kernel
  have hstep : ∀ (s : Closing) a s', (if s.Apart a then s.step a.1 a.2 else none) = some s' →
      Reach (fun s a s' => s.Apart a ∧ Step s a s') s s' :=
    fun _ _ _ h => .next .start (Option.ite_none_right_eq_some.mp h)
  obtain ⟨s, hr, hs⟩ := exists_reach_of_any hstep hk
  exact ⟨s, hr, of_decide_eq_true hs, freedOnce_of_reach hr⟩

/-- Both calls clear their flag before either tests. If both test before either frees, the page is
freed twice, and otherwise the second test reads a page that is free. -/
theorem freed_twice : (∃ s, Reach Step (start (.alloc fun _ => 0)) s ∧ s.frees = 2) ∧
    ∃ s, Reach Step (start (.alloc fun _ => 0)) s ∧ s.frees = 1 ∧ s.stale = true := by
  have hstep : ∀ (s : Closing) (a : Bool × Pipe) s', s.step a.1 a.2 = some s' → Reach Step s s' :=
    fun _ _ _ h => .next .start h
  have htwice : (([false, true, false, true, false, true].map
      fun b => (b, Pipe.alloc fun _ => 0)).foldlM (fun (s : Closing) a => s.step a.1 a.2)
      (start (.alloc fun _ => 0))).any (fun s => s.frees = 2) = true := by
    decide +kernel
  have hstale : (([false, true, false, false, true].map
      fun b => (b, Pipe.alloc fun _ => 0)).foldlM (fun (s : Closing) a => s.step a.1 a.2)
      (start (.alloc fun _ => 0))).any (fun s => s.frees = 1 ∧ s.stale = true) = true := by
    decide +kernel
  obtain ⟨s, hr, hs⟩ := exists_reach_of_any hstep htwice
  obtain ⟨s', hr', hs'⟩ := exists_reach_of_any hstep hstale
  exact ⟨⟨s, hr, of_decide_eq_true hs⟩, s', hr', of_decide_eq_true hs'⟩

end Closing

end Xv6Shed
