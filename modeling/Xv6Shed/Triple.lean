import Mathlib.Tactic.Common

/-!
# What a computation that can fail returns

`Meets E x Q` says that `x` returns a value with `Q` or fails with a fault in `E`. The rules
are those of pre- and postconditions; a precondition is a hypothesis.
-/

namespace Xv6Shed

variable {ε α β γ : Type} {E E' : ε → Prop} {Q Q' : α → Prop} {x : Except ε α}

def Meets (E : ε → Prop) (x : Except ε α) (Q : α → Prop) : Prop :=
  match x with
  | .ok a => Q a
  | .error e => E e

namespace Meets

variable {a : α} {e : ε} {R : β → Prop} {f : α → Except ε β}

theorem pure (h : Q a) : Meets E (Pure.pure a) Q := h

theorem error (h : E e) : Meets E (.error e) Q := h

section

variable (hx : Meets E x Q)
include hx

theorem bind (hf : ∀ a, Q a → Meets E (f a) R) : Meets E (x >>= f) R := by
  cases x with
  | ok a => exact hf a hx
  | error e => exact hx

theorem bind_eq (hf : ∀ a, x = .ok a → Q a → Meets E (f a) R) : Meets E (x >>= f) R := by
  cases x with
  | ok a => exact hf a rfl hx
  | error e => exact hx

theorem imp (h : ∀ a, Q a → Q' a) : Meets E x Q' := by
  cases x with
  | ok a => exact h a hx
  | error e => exact hx

theorem weaken (h : ∀ e, E e → E' e) : Meets E' x Q := by
  cases x with
  | ok a => exact hx
  | error e => exact h e hx

theorem of_ok (h : x = .ok a) : Q a := by
  rw [h] at hx
  exact hx

theorem of_error (h : x = .error e) : E e := by
  rw [h] at hx
  exact hx

theorem ok_or_error : (∃ e, x = .error e ∧ E e) ∨ ∃ a, x = .ok a ∧ Q a := by
  cases x with
  | ok a => exact .inr ⟨a, rfl, hx⟩
  | error e => exact .inl ⟨e, rfl, hx⟩

end

theorem foldlM {I : α → Prop} {f : α → β → Except ε α} {l : List β} (ha : I a)
    (hf : ∀ a b, b ∈ l → I a → Meets E (f a b) I) : Meets E (l.foldlM f a) I := by
  induction l generalizing a with
  | nil => exact ha
  | cons b l ih =>
    rw [List.foldlM_cons]
    refine (hf a b List.mem_cons_self ha).bind fun a' ha' => ?_
    exact ih ha' fun a b hb => hf a b (List.mem_cons_of_mem _ hb)

theorem foldlM_range {I : ℕ → α → Prop} {f : α → ℕ → Except ε α} (n : ℕ) (ha : I 0 a)
    (hf : ∀ k < n, ∀ a, I k a → Meets E (f a k) (I (k + 1))) :
    Meets E ((List.range n).foldlM f a) (I n) := by
  induction n with
  | zero => exact ha
  | succ n ih =>
    rw [List.range_succ, List.foldlM_append]
    refine (ih fun k hk => hf k (by omega)).bind fun a' ha' => ?_
    rw [List.foldlM_cons]
    exact (hf n (by omega) a' ha').bind fun _ h => h

end Meets

end Xv6Shed
