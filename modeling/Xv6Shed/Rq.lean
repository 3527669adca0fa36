import Mathlib.Data.List.Perm.Basic
import Mathlib.Tactic.Common
import Xv6Shed.Segment

/-!
# Run queues

A run queue (`struct rq` of `rq.h`) owns a table of `NPROC` nodes. Queued nodes are
linked from `next_to_run`; the others are linked through the same `next` field from
`free_list`. The node table is kept as its three columns, so `next i` is
`rq->nodes[i].next`; `none` is the null pointer. A queue's scheduling class, its lock
and its successor level are fixed by `pinit` and not stored here.
-/

namespace Xv6Shed
open Linked Function

/-- What stops a kernel path. -/
inductive Fault where
  /-- `panic(msg)` -/
  | panic (msg : String)
  /-- a null pointer is dereferenced -/
  | null
  /-- a loop that never leaves -/
  | hang
  deriving DecidableEq, Repr

def deref {α : Type*} : Option α → Except Fault α
  | some a => .ok a
  | none => .error .null

@[simp] theorem deref_some {α : Type*} (a : α) : deref (some a) = .ok a := rfl

@[simp] theorem deref_none {α : Type*} : deref (none : Option α) = .error .null := rfl

theorem deref_eq_ok {α : Type*} {o : Option α} {a : α} : deref o = .ok a ↔ o = some a := by
  cases o <;> simp

@[simp] theorem ok_bind {α β : Type} (a : α) (f : α → Except Fault β) :
    (Except.ok a >>= f) = f a := rfl

@[simp] theorem error_bind {α β : Type} (e : Fault) (f : α → Except Fault β) :
    ((Except.error e : Except Fault α) >>= f) = .error e := rfl

theorem bind_eq_ok {α β : Type} {x : Except Fault α} {f : α → Except Fault β} {b : β} :
    (x >>= f) = .ok b ↔ ∃ a, x = .ok a ∧ f a = .ok b := by
  cases x <;> simp

structure Rq (NPROC : ℕ) where
  proc : Fin NPROC → Option (Fin NPROC)
  next : Fin NPROC → Option (Fin NPROC)
  prev : Fin NPROC → Option (Fin NPROC)
  nextToRun : Option (Fin NPROC)
  lastToRun : Option (Fin NPROC)
  freeList : Option (Fin NPROC)
  maxSlices : ℤ
  procNum : ℤ

/-- The scheduling classes a level of the configured kernel is built from. -/
inductive SchedClass where
  | RR
  | fifo
  deriving DecidableEq, Repr

variable {NPROC : ℕ}

/-- `&rq->nodes[i]`, or null past the end of the table. -/
def nodeAt (NPROC i : ℕ) : Option (Fin NPROC) := if h : i < NPROC then some ⟨i, h⟩ else none

/-- `init_rq`, with `rq->sub_sched_class->init_rq` inlined: `init_rq_RR` clears the
`prev` column and `init_rq_fifo` does nothing. -/
def initRq (cls : SchedClass) (rq : Rq NPROC) : Rq NPROC :=
  { rq with
    proc := fun _ => none
    next := fun i => nodeAt NPROC (i + 1)
    prev := match cls with
      | .RR => fun _ => none
      | .fifo => rq.prev
    freeList := nodeAt NPROC 0
    nextToRun := none
    procNum := 0 }

/-- The search loop of the dequeue operations,
`while(node != stop && node->proc != p){ pnode = node; node = node->next; }`.
Past `NPROC + 1` rounds a node repeats and the loop never leaves. -/
def Rq.scan (p : Fin NPROC) (stop : Option (Fin NPROC)) (rq : Rq NPROC) :
    ℕ → Option (Fin NPROC) → Option (Fin NPROC) →
      Except Fault (Option (Fin NPROC) × Option (Fin NPROC))
  | 0, _, _ => .error .hang
  | fuel + 1, pnode, node =>
    if node = stop then pure (pnode, node)
    else do
      let n ← deref node
      if rq.proc n = some p then pure (pnode, node)
      else scan p stop rq fuel (some n) (rq.next n)

theorem Rq.scan_eq {rq : Rq NPROC} {as bs : List (Fin NPROC)} {n p : Fin NPROC}
    {e stop : Option (Fin NPROC)} (hs : Seg rq.next (as ++ n :: bs) e) (hp : rq.proc n = some p)
    (has : ∀ a ∈ as, rq.proc a ≠ some p ∧ stop ≠ some a)
    (pnode : Option (Fin NPROC)) {fuel : ℕ} (hf : as.length < fuel) :
    rq.scan p stop fuel pnode (as ++ n :: bs).head? = .ok (as.getLast?.or pnode, some n) := by
  induction as generalizing pnode fuel with
  | nil =>
    obtain ⟨fuel, rfl⟩ : ∃ m, fuel = m + 1 := ⟨fuel - 1, by simp at hf; omega⟩
    simp only [List.nil_append, List.head?_cons, Rq.scan, deref_some, ok_bind, hp, if_true]
    split_ifs <;> rfl
  | cons a as ih =>
    obtain ⟨fuel, rfl⟩ : ∃ m, fuel = m + 1 := ⟨fuel - 1, by simp at hf; omega⟩
    obtain ⟨⟨hpa, hla⟩, has⟩ := List.forall_mem_cons.mp has
    rw [List.cons_append, seg_cons] at hs
    obtain ⟨hna, hs⟩ := hs
    have hne : (as ++ n :: bs).head?.or e = (as ++ n :: bs).head? := by cases as <;> rfl
    simp only [List.cons_append, List.head?_cons, Rq.scan, deref_some, ok_bind, if_neg hpa,
      if_neg hla.symm]
    rw [hna, hne, ih hs has (some a) (by simp at hf; omega), List.getLast?_cons]
    cases as.getLast? <;> rfl

/-- The node table is split into the queued nodes `ns`, in order from `next_to_run`,
and the null-terminated free list `fs`. -/
structure Table (rq : Rq NPROC) (ns fs : List (Fin NPROC)) : Prop where
  nodup : (ns ++ fs).Nodup
  mem : ∀ n, n ∈ ns ++ fs
  head : rq.nextToRun = ns.head?
  free : rq.freeList = fs.head?
  chain : Seg rq.next fs none

namespace Table
variable {rq rq' : Rq NPROC} {ns fs : List (Fin NPROC)} {f n : Fin NPROC}

theorem nodup_queued (h : Table rq ns fs) : ns.Nodup := h.nodup.of_append_left

theorem notMem_free (h : Table rq ns fs) (hn : n ∈ ns) : n ∉ fs := fun hf =>
  List.disjoint_of_nodup_append h.nodup hn hf

theorem length_add (h : Table rq ns fs) : ns.length + fs.length = NPROC := by
  have hp : (ns ++ fs).Perm (List.finRange NPROC) :=
    (List.perm_ext_iff_of_nodup h.nodup (List.nodup_finRange _)).mpr (by simpa using h.mem)
  simpa using hp.length_eq

theorem freeList_ne_none (h : Table rq ns fs) : rq.freeList ≠ none ↔ ∃ f fs', fs = f :: fs' := by
  rw [h.free]
  cases fs <;> simp

/-- The search reaches the first node that holds `p` when it may only stop before
that at the last node. -/
theorem scan {as bs : List (Fin NPROC)} {p : Fin NPROC} {e : Option (Fin NPROC)}
    (h : Table rq (as ++ n :: bs) fs) (hs : Seg rq.next (as ++ n :: bs) e)
    (hp : rq.proc n = some p) (has : ∀ a ∈ as, rq.proc a ≠ some p) :
    rq.scan p (as ++ n :: bs).getLast? (NPROC + 1) none rq.nextToRun =
      .ok (as.getLast?, some n) := by
  have hlen : as.length < NPROC + 1 := by
    have := h.length_add
    simp at this
    omega
  have hlast : ∀ a ∈ as, (as ++ n :: bs).getLast? ≠ some a := by
    intro a ha hl
    rw [List.getLast?_append, List.getLast?_cons, Option.some_or] at hl
    have hm : a ∈ n :: bs := List.mem_of_getLast? (by rw [List.getLast?_cons]; exact hl)
    exact List.disjoint_of_nodup_append h.nodup_queued ha hm
  rw [h.head, Rq.scan_eq hs hp (fun a ha => ⟨has a ha, hlast a ha⟩) none hlen, Option.or_none]

theorem take (h : Table rq ns (f :: fs)) (hh : rq'.nextToRun = (ns ++ [f]).head?)
    (hf : rq'.freeList = fs.head?) (hc : ∀ n ∈ fs, rq'.next n = rq.next n) :
    Table rq' (ns ++ [f]) fs where
  nodup := by simpa using h.nodup
  mem := by simpa using h.mem
  head := hh
  free := hf
  chain := (seg_congr hc).mpr h.chain.2

theorem give (as bs : List (Fin NPROC)) (h : Table rq (as ++ n :: bs) fs)
    (hh : rq'.nextToRun = (as ++ bs).head?) (hf : rq'.freeList = some n)
    (hn : rq'.next n = rq.freeList) (hc : ∀ m ∈ fs, rq'.next m = rq.next m) :
    Table rq' (as ++ bs) (n :: fs) where
  nodup := by
    have hp : ((as ++ bs) ++ n :: fs).Perm ((as ++ n :: bs) ++ fs) := by
      refine List.perm_middle.trans ?_
      rw [List.append_assoc as (n :: bs), List.cons_append]
      exact (List.perm_middle.trans (by simp)).symm
    exact hp.nodup_iff.mpr h.nodup
  mem := by
    intro m
    have := h.mem m
    simp only [List.mem_append, List.mem_cons] at this ⊢
    tauto
  head := hh
  free := hf
  chain := by
    rw [seg_cons, Option.or_none, hn, h.free]
    exact ⟨rfl, (seg_congr hc).mpr h.chain⟩

end Table

theorem nodeAt_eq_head? {i : ℕ} : nodeAt NPROC i = ((List.finRange NPROC).drop i).head? := by
  rw [List.head?_drop, nodeAt]
  split_ifs with h
  · rw [List.getElem?_eq_getElem (by simpa using h), List.getElem_finRange]
    rfl
  · exact (List.getElem?_eq_none (by simpa using h)).symm

theorem seg_initRq (cls : SchedClass) (rq : Rq NPROC) (i : ℕ) :
    Seg (initRq cls rq).next ((List.finRange NPROC).drop i) none := by
  generalize hl : (List.finRange NPROC).drop i = l
  induction l generalizing i with
  | nil => trivial
  | cons a l ih =>
    have ha : (List.finRange NPROC)[i]? = some a := by rw [← List.head?_drop, hl]; rfl
    have hi : i = a.val := by
      obtain ⟨hi, h⟩ := List.getElem?_eq_some_iff.mp ha
      simpa using congrArg Fin.val h
    have hl' : (List.finRange NPROC).drop (i + 1) = l := by
      rw [← List.drop_drop, hl]
      rfl
    refine ⟨?_, ih _ hl'⟩
    rw [Option.or_none, ← hl', ← nodeAt_eq_head?, hi]
    rfl

theorem table_initRq (cls : SchedClass) (rq : Rq NPROC) :
    Table (initRq cls rq) [] (List.finRange NPROC) where
  nodup := by simpa using List.nodup_finRange NPROC
  mem := by simp
  head := rfl
  free := nodeAt_eq_head? (i := 0)
  chain := seg_initRq cls rq 0

end Xv6Shed
