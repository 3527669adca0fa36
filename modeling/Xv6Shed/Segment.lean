import Mathlib.Data.List.Rotate
import Mathlib.Data.List.Nodup
import Mathlib.Logic.Function.Basic
import Mathlib.Order.Lattice

/-!
# Linked segments and rings

A linked structure over nodes of type `ν` is given by its link column, a function
`next : ν → Option ν` in which `none` is the null pointer. `Seg next xs e` says that
the links lead through the nodes of `xs` in order and from the last one to `e`; a
ring is a segment that arrives at its own first node. A doubly linked ring is a ring
of `next` on `xs` together with a ring of `prev` on `xs.reverse`.

Stores to a link are `Function.update`s of the column, so that every operation on
the structure is one of the update lemmas below.
-/

namespace Xv6Shed.Linked
open Function

variable {ν : Type*} {next next' : ν → Option ν} {xs ys : List ν} {e e' : Option ν} {a b : ν}

/-- Following `next` from the first node of `xs` visits `xs` and arrives at `e`. -/
def Seg (next : ν → Option ν) : List ν → Option ν → Prop
  | [], _ => True
  | a :: xs, e => next a = xs.head?.or e ∧ Seg next xs e

@[simp] theorem seg_nil : Seg next [] e := trivial

@[simp] theorem seg_cons : Seg next (a :: xs) e ↔ next a = xs.head?.or e ∧ Seg next xs e :=
  Iff.rfl

theorem seg_append :
    Seg next (xs ++ ys) e ↔ Seg next xs (ys.head?.or e) ∧ Seg next ys e := by
  induction xs with
  | nil => simp
  | cons a xs ih => simp only [List.cons_append, seg_cons, ih, List.head?_append,
      Option.or_assoc, and_assoc]

theorem seg_concat : Seg next (xs ++ [a]) e ↔ Seg next xs (some a) ∧ next a = e := by
  simp [seg_append]

theorem seg_congr (h : ∀ n ∈ xs, next n = next' n) : Seg next xs e ↔ Seg next' xs e := by
  induction xs with
  | nil => simp
  | cons a xs ih =>
    simp only [List.forall_mem_cons] at h
    rw [seg_cons, seg_cons, h.1, ih h.2]

section Update
variable [DecidableEq ν]

theorem seg_update_of_notMem (h : a ∉ xs) (v : Option ν) :
    Seg (update next a v) xs e ↔ Seg next xs e := by
  refine seg_congr fun n hn => update_of_ne ?_ _ _
  rintro rfl
  exact h hn

theorem Seg.update_last (hd : (xs ++ [a]).Nodup) (h : Seg next (xs ++ [a]) e)
    (e' : Option ν) : Seg (update next a e') (xs ++ [a]) e' := by
  have ha : a ∉ xs := by
    intro hx
    exact List.disjoint_of_nodup_append hd hx (List.mem_singleton_self a)
  rw [seg_concat] at h ⊢
  exact ⟨(seg_update_of_notMem ha _).mpr h.1, update_self ..⟩

end Update

/-- The links lead through `xs` and back to its first node. -/
def Ring (next : ν → Option ν) (xs : List ν) : Prop := Seg next xs xs.head?

theorem ring_singleton : Ring next [a] ↔ next a = some a := by simp [Ring]

theorem ring_append_comm (xs ys : List ν) : Ring next (xs ++ ys) ↔ Ring next (ys ++ xs) := by
  have swap : ∀ {xs ys : List ν}, Ring next (xs ++ ys) → Ring next (ys ++ xs) := by
    intro xs ys h
    cases xs with
    | nil => simpa using h
    | cons a xs =>
      cases ys with
      | nil => simpa using h
      | cons b ys =>
        rw [Ring, seg_append] at h ⊢
        simpa using h.symm
  exact ⟨swap, swap⟩

theorem Ring.next_head (h : Ring next (a :: xs)) : next a = xs.head?.or (some a) := by
  simpa [Ring] using h.1

section Update
variable [DecidableEq ν]

theorem Ring.unlink (hd : (xs ++ [b]).Nodup) (h : Ring next (a :: (xs ++ [b]))) :
    Ring (update next b (xs ++ [b]).head?) (xs ++ [b]) :=
  Seg.update_last hd h.2 _

theorem Ring.link (hd : (xs ++ [b]).Nodup) (ha : a ∉ xs ++ [b]) (h : Ring next (xs ++ [b])) :
    Ring (update (update next b (some a)) a (xs ++ [b]).head?) ((xs ++ [b]) ++ [a]) := by
  have hh : ((xs ++ [b]) ++ [a]).head? = (xs ++ [b]).head? := by cases xs <;> rfl
  rw [Ring, hh, seg_concat]
  refine ⟨?_, update_self ..⟩
  rw [seg_update_of_notMem ha]
  exact Seg.update_last hd h _

end Update

/-- A doubly linked ring: `prev` runs through the same nodes the other way. -/
def DRing (next prev : ν → Option ν) (xs : List ν) : Prop := Ring next xs ∧ Ring prev xs.reverse

variable {prev : ν → Option ν}

theorem dring_append_comm (xs ys : List ν) :
    DRing next prev (xs ++ ys) ↔ DRing next prev (ys ++ xs) := by
  rw [DRing, DRing, List.reverse_append, List.reverse_append, ring_append_comm xs,
    ring_append_comm ys.reverse]

theorem DRing.next_head (h : DRing next prev (a :: xs)) : next a = (xs ++ [a]).head? := by
  rw [h.1.next_head, List.head?_append]
  rfl

theorem DRing.prev_head (h : DRing next prev (a :: xs)) : prev a = (a :: xs).getLast? := by
  have hr : Ring prev (a :: xs.reverse) := by
    have := h.2
    rw [List.reverse_cons, ring_append_comm] at this
    exact this
  rw [hr.next_head, List.head?_reverse, List.getLast?_cons]
  cases xs.getLast? <;> rfl

theorem DRing.prev_next (h : DRing next prev xs) (ha : a ∈ xs) :
    ∃ b ∈ xs, next a = some b ∧ prev b = some a := by
  obtain ⟨ys, zs, rfl⟩ := List.append_of_mem ha
  have hr : DRing next prev (a :: (zs ++ ys)) := (dring_append_comm _ _).mp h
  rcases hw : zs ++ ys with _ | ⟨b, ws⟩
  · rw [hw] at hr
    exact ⟨a, ha, hr.next_head, hr.prev_head⟩
  · rw [hw] at hr
    have hb : b ∈ zs ++ ys := by simp [hw]
    refine ⟨b, ?_, hr.next_head, ?_⟩
    · simp only [List.mem_append, List.mem_cons] at hb ⊢
      tauto
    · have hr' : DRing next prev (b :: (ws ++ [a])) := (dring_append_comm [a] _).mp hr
      rw [hr'.prev_head, List.getLast?_cons, List.getLast?_concat]
      rfl

section Update
variable [DecidableEq ν]

/-- Unlinking the first node `a` of a ring of at least two: its neighbours `b` and `c`
are joined. They coincide when two nodes were left. -/
theorem DRing.unlink {c : ν} (hd : (a :: xs).Nodup) (hh : xs.head? = some c)
    (hl : xs.getLast? = some b) (h : DRing next prev (a :: xs)) :
    DRing (update next b (some c)) (update prev c (some b)) xs := by
  obtain ⟨ys, rfl⟩ := List.getLast?_eq_some_iff.mp hl
  have hd' := (List.nodup_cons.mp hd).2
  refine ⟨hh ▸ Ring.unlink hd' h.1, ?_⟩
  -- read backwards, the ring enters at `a` and ends with `c`
  have hr : Ring prev (a :: (ys ++ [b]).reverse) := by
    have := h.2
    rw [List.reverse_cons, ring_append_comm] at this
    exact this
  obtain ⟨zs, hz⟩ : ∃ zs, (ys ++ [b]).reverse = zs ++ [c] := by
    rw [← List.getLast?_eq_some_iff, List.getLast?_reverse, hh]
  have hb : (ys ++ [b]).reverse.head? = some b := by simp
  rw [← hb, hz]
  rw [hz] at hr
  exact Ring.unlink (hz ▸ List.nodup_reverse.mpr hd') hr

theorem DRing.link {c : ν} (hd : xs.Nodup) (ha : a ∉ xs) (hh : xs.head? = some c)
    (hl : xs.getLast? = some b) (h : DRing next prev xs) :
    DRing (update (update next b (some a)) a (some c))
      (update (update prev a (some b)) c (some a)) (xs ++ [a]) := by
  obtain ⟨ys, rfl⟩ := List.getLast?_eq_some_iff.mp hl
  refine ⟨hh ▸ Ring.link hd ha h.1, ?_⟩
  have hca : c ≠ a := by
    rintro rfl
    exact ha (List.mem_of_head? hh)
  obtain ⟨zs, hz⟩ : ∃ zs, (ys ++ [b]).reverse = zs ++ [c] := by
    rw [← List.getLast?_eq_some_iff, List.getLast?_reverse, hh]
  have hb : (ys ++ [b]).reverse.head? = some b := by simp
  rw [List.reverse_append, List.reverse_singleton, ring_append_comm, update_comm hca.symm, ← hb, hz]
  refine Ring.link (hz ▸ List.nodup_reverse.mpr hd) ?_ (hz ▸ h.2)
  rw [← hz, List.mem_reverse]
  exact ha

end Update

end Xv6Shed.Linked
