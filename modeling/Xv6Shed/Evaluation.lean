import Mathlib.Logic.Function.Basic
import Mathlib.Tactic.Common

/-!
# Evaluation of runs

The kernel does not evaluate what it stores in a function, so that a state that a run has
updated many times is computed again at every look. Here values are computed once, and the
rest of the computation gets them as numerals. None of this changes a value.
-/

namespace Xv6Shed.Evaluation
open Function

variable {α β : Type*}

/-- `f n`, with `n` evaluated first -/
def force (n : ℕ) (f : ℕ → β) : β :=
  match n with
  | 0 => f 0
  | n + 1 => f (n + 1)

theorem force_eq (n : ℕ) (f : ℕ → β) : force n f = f n := by
  cases n <;> rfl

/-- `f` of the values of `g` below `n`, all evaluated -/
def tabulate (g : ℕ → ℕ) : ℕ → List ℕ → (List ℕ → β) → β
  | 0, acc, f => f acc
  | n + 1, acc, f => force (g n) fun v => tabulate g n (v :: acc) f

theorem tabulate_eq (g : ℕ → ℕ) (n : ℕ) (acc : List ℕ) (f : List ℕ → β) :
    tabulate g n acc f = f ((List.range n).map g ++ acc) := by
  induction n generalizing acc with
  | zero => rfl
  | succ n ih =>
    rw [tabulate, force_eq, ih, List.range_succ, List.map_append, List.append_assoc]
    rfl

/-- `g`, with its values from `a` on taken from the list -/
def lookup (dec : ℕ → α) (a : ℕ) (l : List ℕ) (g : ℕ → α) (i : ℕ) : α :=
  if i < a then g i else
    match l[i - a]? with
    | some v => dec v
    | none => g i

theorem lookup_tabulated {dec : ℕ → α} {enc : α → ℕ} (h : ∀ x, dec (enc x) = x) (g : ℕ → α)
    (a n : ℕ) : lookup dec a ((List.range n).map fun i => enc (g (a + i))) g = g := by
  funext i
  unfold lookup
  by_cases hia : i < a
  · rw [if_pos hia]
  rw [if_neg hia]
  by_cases hi : i - a < n
  · rw [List.getElem?_map, List.getElem?_range hi]
    refine (h _).trans ?_
    rw [Nat.add_sub_cancel' (Nat.le_of_not_lt hia)]
  · rw [List.getElem?_eq_none (by simpa using hi)]

/-- `f g`, with the `n` values of `g` from `a` on evaluated first -/
def freeze (dec : ℕ → α) (enc : α → ℕ) (a n : ℕ) (g : ℕ → α) (f : (ℕ → α) → β) : β :=
  tabulate (fun i => enc (g (a + i))) n [] fun l => f (lookup dec a l g)

theorem freeze_eq {dec : ℕ → α} {enc : α → ℕ} (h : ∀ x, dec (enc x) = x) (a n : ℕ) (g : ℕ → α)
    (f : (ℕ → α) → β) : freeze dec enc a n g f = f g := by
  rw [freeze, tabulate_eq, List.append_nil, lookup_tabulated h]

/-- `f g`, with the values of `g` in some places evaluated first, by `one` -/
def freezeAt {ι : Type*} [DecidableEq ι] (one : α → (α → β) → β) :
    List ι → (ι → α) → ((ι → α) → β) → β
  | [], g, f => f g
  | i :: l, g, f => one (g i) fun a => freezeAt one l (update g i a) f

theorem freezeAt_eq {ι : Type*} [DecidableEq ι] {one : α → (α → β) → β}
    (h : ∀ a f, one a f = f a) (l : List ι) (g : ι → α) (f : (ι → α) → β) :
    freezeAt one l g f = f g := by
  induction l generalizing g with
  | nil => rfl
  | cons i l ih => rw [freezeAt, h, ih, update_eq_self]

end Xv6Shed.Evaluation
