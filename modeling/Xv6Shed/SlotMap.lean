import Mathlib.Logic.Function.Basic
import Mathlib.Tactic.Common

/-!
# Finite maps kept in slots

A slot is free or holds a key and a value. Slots with different keys are a map; to fill a free
slot is to add a binding, to clear a slot is to remove one.
-/

namespace Xv6Shed.SlotMap
open Function

variable {κ ν : Type*} {E : ℕ → Option (κ × ν)} {i j : ℕ} {a : κ} {b : ν}

/-- No key is in two slots. -/
def Distinct (E : ℕ → Option (κ × ν)) : Prop :=
  ∀ i j a b b', E i = some (a, b) → E j = some (a, b') → i = j

open Classical in
noncomputable def toMap (E : ℕ → Option (κ × ν)) (a : κ) : Option ν :=
  if h : ∃ i b, E i = some (a, b) then some h.choose_spec.choose else none

theorem toMap_eq_some (hd : Distinct E) (h : E i = some (a, b)) : toMap E a = some b := by
  have hex : ∃ i b, E i = some (a, b) := ⟨i, b, h⟩
  have hspec := hex.choose_spec.choose_spec
  have heq := hspec.symm.trans ((congrArg E (hd _ _ _ _ _ hspec h)).trans h)
  rw [toMap, dif_pos hex]
  exact congrArg some (Prod.mk.inj (Option.some.inj heq)).2

theorem toMap_eq_none (h : ∀ i b, E i ≠ some (a, b)) : toMap E a = none := by
  rw [toMap, dif_neg]
  rintro ⟨i, b, hi⟩
  exact h i b hi

theorem exists_of_toMap (h : toMap E a = some b) : ∃ i, E i = some (a, b) := by
  unfold toMap at h
  split at h
  · next hex =>
    have hspec := hex.choose_spec.choose_spec
    rw [Option.some.inj h] at hspec
    exact ⟨_, hspec⟩
  · cases h

theorem ne_of_toMap_eq_none (hd : Distinct E) (h : toMap E a = none) (i : ℕ) (b : ν) :
    E i ≠ some (a, b) := by
  intro hi
  rw [toMap_eq_some hd hi] at h
  cases h

theorem Distinct.add (hd : Distinct E) (ha : toMap E a = none) (i : ℕ) (b : ν) :
    Distinct (update E i (some (a, b))) := by
  have hnew : ∀ j k c v v', j = i → k ≠ i → update E i (some (a, b)) j = some (c, v) →
      update E i (some (a, b)) k ≠ some (c, v') := by
    intro j k c v v' hj hk hcj hck
    rw [hj, update_self] at hcj
    rw [update_of_ne hk, ← (Prod.mk.inj (Option.some.inj hcj)).1] at hck
    exact ne_of_toMap_eq_none hd ha k v' hck
  intro j k c v v' hj hk
  by_cases hji : j = i
  · by_contra hjk
    exact hnew j k c v v' hji (fun hki => hjk (hji.trans hki.symm)) hj hk
  · by_cases hki : k = i
    · exact absurd hj (hnew k j c v' v hki hji hk)
    · rw [update_of_ne hji] at hj
      rw [update_of_ne hki] at hk
      exact hd j k c v v' hj hk

theorem toMap_add [DecidableEq κ] (hd : Distinct E) (hi : E i = none) (ha : toMap E a = none)
    (b : ν) : toMap (update E i (some (a, b))) = update (toMap E) a (some b) := by
  have hd' := hd.add ha i b
  funext c
  by_cases hc : c = a
  · rw [hc, update_self]
    exact toMap_eq_some hd' (update_self ..)
  rw [update_of_ne hc]
  cases hm : toMap E c with
  | none =>
    refine toMap_eq_none fun j v => ?_
    by_cases hj : j = i
    · rw [hj, update_self]
      exact fun he => hc (Prod.mk.inj (Option.some.inj he)).1.symm
    · rw [update_of_ne hj]
      exact ne_of_toMap_eq_none hd hm j v
  | some v =>
    obtain ⟨j, hj⟩ := exists_of_toMap hm
    have hji : j ≠ i := by
      rintro rfl
      rw [hi] at hj
      cases hj
    exact toMap_eq_some hd' ((update_of_ne hji ..).trans hj)

theorem Distinct.clear (hd : Distinct E) (i : ℕ) : Distinct (update E i none) := by
  have hne : ∀ j c v, update E i none j = some (c, v) → E j = some (c, v) := by
    intro j c v hj
    by_cases hji : j = i
    · rw [hji, update_self] at hj
      cases hj
    · rwa [update_of_ne hji] at hj
  intro j k c v v' hj hk
  exact hd j k c v v' (hne j c v hj) (hne k c v' hk)

theorem toMap_clear [DecidableEq κ] (hd : Distinct E) (hi : E i = some (a, b)) :
    toMap (update E i none) = update (toMap E) a none := by
  funext c
  by_cases hc : c = a
  · rw [hc, update_self]
    refine toMap_eq_none fun j v => ?_
    by_cases hj : j = i
    · rw [hj, update_self]
      exact nofun
    · rw [update_of_ne hj]
      exact fun he => hj (hd j i a v b he hi)
  rw [update_of_ne hc]
  cases hm : toMap E c with
  | none =>
    refine toMap_eq_none fun j v => ?_
    by_cases hj : j = i
    · rw [hj, update_self]
      exact nofun
    · rw [update_of_ne hj]
      exact ne_of_toMap_eq_none hd hm j v
  | some v =>
    obtain ⟨j, hj⟩ := exists_of_toMap hm
    have hji : j ≠ i := by
      rintro rfl
      rw [hi] at hj
      exact hc (Prod.mk.inj (Option.some.inj hj)).1.symm
    exact toMap_eq_some (hd.clear i) ((update_of_ne hji ..).trans hj)

end Xv6Shed.SlotMap
