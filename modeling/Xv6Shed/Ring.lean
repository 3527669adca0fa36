import Mathlib.Data.Int.ModEq
import Mathlib.Data.List.Basic
import Mathlib.Logic.Function.Basic
import Mathlib.Tactic.Common

/-!
# Ring buffers with counters that wrap

`N` cells, a counter `r` of what has been taken out and a counter `w` of what has been put in,
both modulo `M`. If `N` divides `M` and is less than `M`, the counters and the cells say which
list is in the buffer.
-/

namespace Xv6Shed.Ring
open Function

variable {α : Type*} {N M r w : ℕ} {data : ℕ → α} {l : List α} {b : α}

/-- The buffer holds `l`. -/
structure Holds (N M r w : ℕ) (data : ℕ → α) (l : List α) : Prop where
  length : l.length ≤ N
  lt : r < M
  write : w = (r + l.length) % M
  cell : ∀ k (h : k < l.length), data ((r + k) % N) = l[k]

theorem mod_add_ne {a i n c : ℕ} (hi : i < n) (hn : n < i + c) : (a + i) % c ≠ (a + n) % c := by
  intro he
  have hd : c ∣ a + n - (a + i) := (Nat.modEq_iff_dvd' (by omega)).mp he
  have := Nat.le_of_dvd (by omega) hd
  omega

variable (hdvd : N ∣ M) (hlt : N < M)

include hlt in
theorem Holds.full_iff (h : Holds N M r w data l) : w = (r + N) % M ↔ l.length = N := by
  have hlen := h.length
  refine ⟨fun hw => ?_, fun hl => by rw [h.write, hl]⟩
  by_contra hne
  exact mod_add_ne (show l.length < N by omega) (by omega) (h.write.symm.trans hw)

include hlt in
theorem Holds.empty_iff (h : Holds N M r w data l) : r = w ↔ l = [] := by
  have hlen := h.length
  have hr : (r + 0) % M = r := Nat.mod_eq_of_lt h.lt
  constructor
  · intro hw
    by_contra hne
    have hpos := List.length_pos_iff.mpr hne
    exact mod_add_ne hpos (by omega) (hr.trans (hw.trans h.write))
  · rintro rfl
    exact hr.symm.trans h.write.symm

include hdvd in
theorem mod_mod_of_wrap (k : ℕ) : k % M % N = k % N := Nat.mod_mod_of_dvd k hdvd

include hdvd in
theorem Holds.push (h : Holds N M r w data l) (hroom : l.length < N) (b : α) :
    Holds N M r ((w + 1) % M) (update data (w % N) b) (l ++ [b]) where
  length := by
    rw [List.length_append]
    exact hroom
  lt := h.lt
  write := by
    rw [h.write, Nat.mod_add_mod, List.length_append]
    rfl
  cell k hk := by
    have hw : w % N = (r + l.length) % N := by rw [h.write, mod_mod_of_wrap hdvd]
    rw [List.length_append] at hk
    by_cases hkl : k < l.length
    · have hne : (r + k) % N ≠ w % N := by
        rw [hw]
        exact mod_add_ne hkl (by omega)
      rw [update_of_ne hne, h.cell k hkl, List.getElem_append_left hkl]
    · obtain rfl : k = l.length := by
        have : k < l.length + 1 := hk
        omega
      rw [← hw, update_self, List.getElem_concat_length rfl]

include hdvd in
theorem Holds.pop (h : Holds N M r w data (b :: l)) :
    data (r % N) = b ∧ Holds N M ((r + 1) % M) w data l where
  left := h.cell 0 (Nat.zero_lt_succ _)
  right :=
    { length := Nat.le_of_succ_le h.length
      lt := Nat.mod_lt _ (Nat.zero_lt_of_lt h.lt)
      write := by
        rw [h.write, Nat.mod_add_mod, List.length_cons]
        congr 1
        omega
      cell := fun k hk => by
        have := h.cell (k + 1) (Nat.succ_lt_succ hk)
        rw [Nat.add_mod, mod_mod_of_wrap hdvd, ← Nat.add_mod,
          show r + 1 + k = r + (k + 1) by omega]
        exact this }

theorem Holds.shorten {l' : List α} (h : Holds N M r w data (l ++ l')) :
    Holds N M r ((r + l.length) % M) data l where
  length := by
    have := h.length
    rw [List.length_append] at this
    omega
  lt := h.lt
  write := rfl
  cell k hk := by
    have hcell := h.cell k (by rw [List.length_append]; omega)
    rwa [List.getElem_append_left hk] at hcell

end Xv6Shed.Ring
