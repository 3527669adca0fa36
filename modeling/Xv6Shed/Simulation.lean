import Mathlib.Tactic.Common

/-!
# Runs of operations against a specification

A concrete state `σ` is driven by operations `ο` that may fail and return an output; an
abstract state `α` follows the same operations by a total specification. `Simulates` says
that along a whole run every operation whose precondition holds succeeds, returns the
specified output and establishes a postcondition. Where the code meets its specification
only under a further condition on the state before an operation, `Guarded` says that every
operation of the run meets it.
-/

namespace Xv6Shed.Simulation

variable {σ α ο ω ε : Type}

structure Spec (σ α ο ω ε : Type) where
  /-- the code -/
  exec : ο → σ → Except ε (σ × ω)
  /-- the specification -/
  spec : ο → α → α × ω
  /-- what the caller promises -/
  pre : ο → σ → α → Prop
  /-- what holds of the states before and after -/
  post : ο → σ → α → σ → Prop

/-- Every operation of the run meets the specification for as long as the caller keeps
its promise. -/
def Simulates (S : Spec σ α ο ω ε) : List ο → σ → α → Prop
  | [], _, _ => True
  | o :: os, s, a => S.pre o s a →
    ∃ s', S.exec o s = .ok (s', (S.spec o a).2) ∧ S.post o s a s' ∧
      Simulates S os s' (S.spec o a).1

/-- Every operation of the run is taken in a state that meets `fine`. -/
def Guarded (S : Spec σ α ο ω ε) (fine : ο → σ → α → Prop) : List ο → σ → α → Prop
  | [], _, _ => True
  | o :: os, s, a => S.pre o s a →
    fine o s a ∧ ∀ s' w, S.exec o s = .ok (s', w) → Guarded S fine os s' (S.spec o a).1

variable {S : Spec σ α ο ω ε} {I : σ → α → Prop} {fine : ο → σ → α → Prop} {s : σ} {a : α}

theorem simulates_of_inv (step : ∀ o s a, I s a → S.pre o s a →
      ∃ s', S.exec o s = .ok (s', (S.spec o a).2) ∧ S.post o s a s' ∧ I s' (S.spec o a).1)
    (os : List ο) (h : I s a) : Simulates S os s a := by
  induction os generalizing s a with
  | nil => trivial
  | cons o os ih =>
    intro hp
    obtain ⟨s', he, hpost, hi⟩ := step o s a h hp
    exact ⟨s', he, hpost, ih hi⟩

/-- When an operation establishes its postcondition exactly in the states that meet
`fine`, a run meets the specification exactly if all its operations are so guarded. -/
theorem simulates_iff_guarded (good : ∀ o s a, I s a → S.pre o s a → fine o s a →
      ∃ s', S.exec o s = .ok (s', (S.spec o a).2) ∧ S.post o s a s' ∧ I s' (S.spec o a).1)
    (bad : ∀ o s a, I s a → S.pre o s a → ¬ fine o s a →
      ∀ s' w, S.exec o s = .ok (s', w) → ¬ S.post o s a s') (os : List ο) (h : I s a) :
    Simulates S os s a ↔ Guarded S fine os s a := by
  induction os generalizing s a with
  | nil => exact Iff.rfl
  | cons o os ih =>
    constructor
    · intro hs hp
      obtain ⟨s', he, hpost, hrest⟩ := hs hp
      have hf : fine o s a := by
        by_contra hf
        exact bad o s a h hp hf s' _ he hpost
      refine ⟨hf, fun s'' w he' => ?_⟩
      obtain ⟨s₁, he₁, -, hi⟩ := good o s a h hp hf
      obtain ⟨rfl, -⟩ := Prod.mk.inj (Except.ok.inj (he.symm.trans he'))
      obtain ⟨rfl, -⟩ := Prod.mk.inj (Except.ok.inj (he.symm.trans he₁))
      exact (ih hi).mp hrest
    · intro hg hp
      obtain ⟨hf, hrest⟩ := hg hp
      obtain ⟨s', he, hpost, hi⟩ := good o s a h hp hf
      exact ⟨s', he, hpost, (ih hi).mpr (hrest s' _ he)⟩

end Xv6Shed.Simulation
