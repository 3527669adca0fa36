import Mathlib.Tactic.Common

/-!
# Runs of a transition system

`Reach step s₀ s`: some finite sequence of labelled steps leads from `s₀` to `s`.
-/

namespace Xv6Shed.Transition

variable {σ α β ε τ : Type*} {step step' : σ → α → σ → Prop} {s₀ s s' : σ} {f : σ → β → Option σ}
  {l : List β} {x : Except ε τ}

inductive Reach (step : σ → α → σ → Prop) (s₀ : σ) : σ → Prop
  | start : Reach step s₀ s₀
  | next {s s' : σ} {a : α} : Reach step s₀ s → step s a s' → Reach step s₀ s'

theorem Reach.invariant {P : σ → Prop} (h₀ : P s₀) (h : ∀ s a s', P s → step s a s' → P s')
    (hr : Reach step s₀ s) : P s := by
  induction hr with
  | start => exact h₀
  | next _ hs ih => exact h _ _ _ ih hs

theorem Reach.trans (h : Reach step s₀ s) (h' : Reach step s s') : Reach step s₀ s' := by
  induction h' with
  | start => exact h
  | next _ hs ih => exact .next ih hs

theorem Reach.mono (hle : ∀ s a s', step s a s' → step' s a s') (h : Reach step s₀ s) :
    Reach step' s₀ s := by
  induction h with
  | start => exact .start
  | next _ hs ih => exact .next ih (hle _ _ _ hs)

theorem Reach.of_foldlM (hf : ∀ s b s', f s b = some s' → Reach step s s')
    (h : l.foldlM f s₀ = some s) : Reach step s₀ s := by
  induction l generalizing s₀ with
  | nil =>
    cases h
    exact .start
  | cons b l ih =>
    rw [List.foldlM_cons, Option.bind_eq_bind, Option.bind_eq_some_iff] at h
    obtain ⟨s₁, h₁, h₂⟩ := h
    exact (hf _ _ _ h₁).trans (ih h₂)

theorem exists_reach_of_any (hf : ∀ s b s', f s b = some s' → Reach step s s') {P : σ → Bool}
    (h : (l.foldlM f s₀).any P = true) : ∃ s, Reach step s₀ s ∧ P s = true := by
  rw [Option.any_eq_true] at h
  obtain ⟨s, hs, hP⟩ := h
  exact ⟨s, .of_foldlM hf hs, hP⟩

theorem exists_ok_of_any {P : τ → Bool} (h : x.toOption.any P = true) :
    ∃ t, x = .ok t ∧ P t = true := by
  cases x with
  | error e => cases h
  | ok t => exact ⟨t, rfl, h⟩

/-- The error a computation stops with. -/
def error? {ε τ : Type*} : Except ε τ → Option ε
  | .error e => some e
  | .ok _ => none

theorem eq_error_of_error? {e : ε} (h : error? x = some e) :
    x = .error e := by
  cases x with
  | error e' =>
    cases h
    rfl
  | ok t => cases h

end Xv6Shed.Transition
