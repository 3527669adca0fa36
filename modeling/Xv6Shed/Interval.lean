import Mathlib.Tactic.Common

/-!
# Lists of intervals

An interval of addresses, the addresses a list of intervals covers, and lists whose
intervals follow each other with gaps in between.
-/

namespace Xv6Shed

/-- The addresses `addr, …, addr + len - 1`. -/
structure Interval where
  addr : ℕ
  len : ℕ
  deriving DecidableEq, Repr

namespace Interval

variable {r s : Interval}

/-- The first address behind the interval. -/
def stop (r : Interval) : ℕ := r.addr + r.len

def Has (r : Interval) (x : ℕ) : Prop := r.addr ≤ x ∧ x < r.stop

/-- No address is in both. -/
def Apart (r s : Interval) : Prop := r.stop ≤ s.addr ∨ s.stop ≤ r.addr

instance (r s : Interval) : Decidable (Apart r s) :=
  inferInstanceAs (Decidable (r.stop ≤ s.addr ∨ s.stop ≤ r.addr))

theorem Apart.symm (h : Apart r s) : Apart s r := Or.symm h

theorem Apart.not_has (h : Apart r s) {x : ℕ} (hr : r.Has x) : ¬ s.Has x := by
  intro hs
  have h₁ := hr.1
  have h₂ := hr.2
  have h₃ := hs.1
  have h₄ := hs.2
  unfold Apart at h
  omega

theorem apart_of_forall (hr : 0 < r.len) (hs : 0 < s.len) (h : ∀ x, r.Has x → ¬ s.Has x) :
    Apart r s := by
  unfold Apart stop
  by_contra hc
  have hc₁ : s.addr < r.addr + r.len := by omega
  have hc₂ : r.addr < s.addr + s.len := by omega
  -- the later of the two beginnings is in both
  apply h (max r.addr s.addr)
  · exact ⟨Nat.le_max_left _ _, by unfold stop; omega⟩
  · exact ⟨Nat.le_max_right _ _, by unfold stop; omega⟩

end Interval

open Xv6Shed.Interval

variable {r : Interval} {rs : List Interval}

/-- Some interval of the list has the address. -/
def Covers (rs : List Interval) (x : ℕ) : Prop := ∃ r ∈ rs, r.Has x

@[simp] theorem not_covers_nil (x : ℕ) : ¬ Covers [] x := by
  rintro ⟨r, hr, -⟩
  cases hr

@[simp] theorem covers_cons {x : ℕ} :
    Covers (r :: rs) x ↔ r.Has x ∨ Covers rs x := by
  simp [Covers]

/-- The intervals are in order, and between one and the next there is a gap. -/
def Separated (rs : List Interval) : Prop := rs.Pairwise fun r s => r.stop < s.addr

theorem separated_cons :
    Separated (r :: rs) ↔ (∀ s ∈ rs, r.stop < s.addr) ∧ Separated rs :=
  List.pairwise_cons

theorem Separated.order (h : Separated rs) {s : Interval} (hr : r ∈ rs) (hs : s ∈ rs) :
    r = s ∨ r.stop < s.addr ∨ s.stop < r.addr := by
  induction rs with
  | nil => cases hr
  | cons t rs ih =>
    obtain ⟨hlt, h⟩ := separated_cons.mp h
    rcases List.mem_cons.mp hr with hrt | hr'
    · rw [hrt]
      rcases List.mem_cons.mp hs with hst | hs'
      · exact .inl hst.symm
      · exact .inr (.inl (hlt s hs'))
    · rcases List.mem_cons.mp hs with hst | hs'
      · rw [hst]
        exact .inr (.inr (hlt r hr'))
      · exact ih h hr' hs'

theorem Separated.exists_of_covers (h : Separated rs) {a n : ℕ} (hn : 0 < n)
    (hc : ∀ x, a ≤ x → x < a + n → Covers rs x) :
    ∃ r ∈ rs, r.addr ≤ a ∧ a + n ≤ r.stop := by
  obtain ⟨r, hr, hra⟩ := hc a (Nat.le_refl a) (by omega)
  refine ⟨r, hr, hra.1, ?_⟩
  by_contra hlt
  have hra₂ := hra.2
  -- the address behind `r` would have to be in another interval
  obtain ⟨s, hs, hsx⟩ := hc r.stop (by omega) (by omega)
  have hs₁ := hsx.1
  have hs₂ := hsx.2
  have hr₁ := hra.1
  rcases h.order hr hs with rfl | h' | h'
  · omega
  · omega
  · omega

section Ext

variable {r s : Interval} {rs ss : List Interval} {x : ℕ}

section

variable (h : Separated (r :: rs))
include h

theorem Separated.le_of_covers (hx : Covers (r :: rs) x) : r.addr ≤ x := by
  rcases covers_cons.mp hx with hr | ⟨t, ht, htx⟩
  · exact hr.1
  · have h₁ := (separated_cons.mp h).1 t ht
    have h₂ := htx.1
    unfold Interval.stop at h₁
    omega

theorem Separated.not_covers_stop : ¬ Covers (r :: rs) r.stop := by
  intro hx
  rcases covers_cons.mp hx with hr | ⟨t, ht, htx⟩
  · exact absurd hr.2 (Nat.lt_irrefl _)
  · have h₁ := (separated_cons.mp h).1 t ht
    have h₂ := htx.1
    omega

theorem Separated.addr_le (hs : 0 < s.len) (hc : ∀ x, Covers (s :: ss) x → Covers (r :: rs) x) :
    r.addr ≤ s.addr := by
  apply h.le_of_covers
  apply hc
  exact covers_cons.mpr (.inl ⟨Nat.le_refl _, by unfold Interval.stop; omega⟩)

theorem Separated.stop_le (ha : s.addr ≤ r.stop)
    (hc : ∀ x, Covers (s :: ss) x → Covers (r :: rs) x) : s.stop ≤ r.stop := by
  by_contra hlt
  apply h.not_covers_stop
  apply hc
  exact covers_cons.mpr (.inl ⟨ha, by omega⟩)

theorem Separated.covers_tail : Covers rs x ↔ Covers (r :: rs) x ∧ r.stop ≤ x := by
  constructor
  · rintro ⟨t, ht, htx⟩
    have h₁ := (separated_cons.mp h).1 t ht
    have h₂ := htx.1
    exact ⟨⟨t, List.mem_cons_of_mem r ht, htx⟩, by omega⟩
  · rintro ⟨hx, hle⟩
    rcases covers_cons.mp hx with hr | hx
    · exact absurd hr.2 (by omega)
    · exact hx

end

theorem Separated.ext (hr : Separated rs) (hs : Separated ss) (hr₀ : ∀ r ∈ rs, 0 < r.len)
    (hs₀ : ∀ s ∈ ss, 0 < s.len) (h : ∀ x, Covers rs x ↔ Covers ss x) : rs = ss := by
  have hnil : ∀ {t : Interval} {ts : List Interval}, 0 < t.len → Covers (t :: ts) t.addr := by
    intro t ts ht
    exact covers_cons.mpr (.inl ⟨Nat.le_refl _, by unfold Interval.stop; omega⟩)
  induction rs generalizing ss with
  | nil =>
    cases ss with
    | nil => rfl
    | cons s ss => exact absurd ((h _).mpr (hnil (hs₀ s List.mem_cons_self))) (not_covers_nil _)
  | cons r rs ih =>
    cases ss with
    | nil => exact absurd ((h _).mp (hnil (hr₀ r List.mem_cons_self))) (not_covers_nil _)
    | cons s ss =>
      obtain ⟨hrl, hr₁⟩ := List.forall_mem_cons.mp hr₀
      obtain ⟨hsl, hs₁⟩ := List.forall_mem_cons.mp hs₀
      have ha₁ := hr.addr_le hsl fun x => (h x).mpr
      have ha₂ := hs.addr_le hrl fun x => (h x).mp
      have hb₁ := hr.stop_le (by unfold Interval.stop; omega) fun x => (h x).mpr
      have hb₂ := hs.stop_le (by unfold Interval.stop; omega) fun x => (h x).mp
      have he : r = s := by
        cases r
        cases s
        simp only [Interval.stop] at *
        congr 1 <;> omega
      subst he
      rw [ih (separated_cons.mp hr).2 (separated_cons.mp hs).2 hr₁ hs₁ fun x => ?_]
      rw [hr.covers_tail, hs.covers_tail, h]

end Ext

end Xv6Shed
