import Xv6Shed.SchedFifo
import Xv6Shed.SchedRR

/-!
# Scheduling classes

The function table `struct sched_class` restricted to the two classes a level is built
from, and the one relation the rest of the kernel needs of a queue: `Holds cls rq xs`,
the queue is well linked for its class and holds the processes `xs` in order.
-/

namespace Xv6Shed
open Linked Function

variable {NPROC : ℕ}

namespace SchedClass

/-- `cls->enqueue_proc`, the stores to the queue. -/
def enqueueProc (cls : SchedClass) (p : Fin NPROC) (rq : Rq NPROC) : Except Fault (Rq NPROC) :=
  match cls with
  | .RR => rq.enqueueRR p
  | .fifo => rq.enqueueFifo p

/-- `cls->dequeue_proc` -/
def dequeueProc (cls : SchedClass) (p : Fin NPROC) (rq : Rq NPROC) : Except Fault (Rq NPROC) :=
  match cls with
  | .RR => rq.dequeueProcRR p
  | .fifo => rq.dequeueProcFifo p

/-- `cls->yield_proc` -/
def yieldProc (cls : SchedClass) (rq : Rq NPROC) : Except Fault (Rq NPROC) :=
  match cls with
  | .RR => pure rq.yieldProcRR
  | .fifo => rq.yieldProcFifo

/-- `cls->pick_next_proc` -/
def pickNextProc (cls : SchedClass) (rq : Rq NPROC) : Option (Fin NPROC) :=
  match cls with
  | .RR => rq.pickNextProcRR
  | .fifo => rq.pickNextProcFifo

/-- `cls->get_proc` -/
def getProc (cls : SchedClass) (rq : Rq NPROC) :
    Except Fault (Rq NPROC × List (Option (Fin NPROC))) :=
  match cls with
  | .RR => rq.getProcRR
  | .fifo => rq.getProcFifo

/-- The queued and the free nodes of a well-linked queue. -/
def Links (cls : SchedClass) (rq : Rq NPROC) (ns fs : List (Fin NPROC)) : Prop :=
  match cls with
  | .RR => RingLinks rq ns fs
  | .fifo => FifoLinks rq ns fs

theorem Links.table {cls : SchedClass} {rq : Rq NPROC} {ns fs : List (Fin NPROC)}
    (h : cls.Links rq ns fs) : Table rq ns fs := by
  cases cls
  · exact RingLinks.toTable h
  · exact FifoLinks.toTable h

end SchedClass

/-- The processes a balancing CPU takes from a queue. -/
def taken {α : Type*} (xs : List α) : List α := (xs.drop 1).take (xs.length / 2)

/-- The processes it leaves. -/
def kept {α : Type*} (xs : List α) : List α := xs.take 1 ++ xs.drop (1 + xs.length / 2)

theorem taken_append_kept_perm {α : Type*} (xs : List α) : (kept xs ++ taken xs).Perm xs := by
  rcases xs with _ | ⟨x, xs⟩
  · simp [kept, taken]
  · have hd : (x :: xs).drop (1 + (x :: xs).length / 2) = xs.drop ((x :: xs).length / 2) := by
      rw [Nat.add_comm]
      rfl
    simp only [kept, taken, hd, List.take_succ_cons, List.take_zero, List.drop_succ_cons,
      List.drop_zero, List.cons_append, List.nil_append]
    refine List.Perm.cons x (List.perm_append_comm.trans ?_)
    rw [List.take_append_drop]

theorem head?_kept {α : Type*} (xs : List α) : (kept xs).head? = xs.head? := by
  cases xs <;> simp [kept]

/-- The queue is well linked for its class and holds `xs`. -/
def Holds (cls : SchedClass) (rq : Rq NPROC) (xs : List (Fin NPROC)) : Prop :=
  ∃ ns fs, cls.Links rq ns fs ∧ rq.procNum = ns.length ∧ ns.map rq.proc = xs.map some

namespace Holds
variable {cls : SchedClass} {rq : Rq NPROC} {xs as bs : List (Fin NPROC)} {p : Fin NPROC}

theorem procNum (hq : Holds cls rq xs) : rq.procNum = xs.length := by
  obtain ⟨ns, fs, -, hn, hm⟩ := hq
  rw [hn, ← List.length_map (f := rq.proc), hm, List.length_map]

theorem nextToRun_eq_none (hq : Holds cls rq xs) : rq.nextToRun = none ↔ xs = [] := by
  obtain ⟨ns, fs, hl, -, hm⟩ := hq
  rw [hl.table.head, List.head?_eq_none_iff]
  constructor
  · rintro rfl
    exact (List.map_eq_nil_iff.mp hm.symm)
  · rintro rfl
    exact List.map_eq_nil_iff.mp hm

theorem init (cls : SchedClass) (rq : Rq NPROC) : Holds cls (initRq cls rq) [] := by
  refine ⟨[], List.finRange NPROC, ?_, rfl, rfl⟩
  cases cls
  · exact ringLinks_initRq _ rq
  · exact fifoLinks_initRq _ rq

theorem freeList_ne_none (hq : Holds cls rq xs) : rq.freeList ≠ none ↔ xs.length < NPROC := by
  obtain ⟨ns, fs, hl, -, hm⟩ := hq
  have h₁ := hl.table.length_add
  have h₂ := congrArg List.length hm
  simp only [List.length_map] at h₂
  rw [hl.table.free]
  cases fs <;> simp at h₁ ⊢ <;> omega

theorem enqueue (hq : Holds cls rq xs) (hn : xs.length < NPROC) (p : Fin NPROC) :
    ∃ rq', cls.enqueueProc p rq = .ok rq' ∧ Holds cls rq' (xs ++ [p]) ∧
      rq'.maxSlices = rq.maxSlices ∧ (cls = .fifo → rq'.NullEnd) := by
  have hfree := hq.freeList_ne_none.mpr hn
  obtain ⟨ns, fs, hl, hnum, hm⟩ := hq
  obtain ⟨f, fs, rfl⟩ := (hl.table.freeList_ne_none).mp hfree
  have hf : f ∉ ns := fun h => hl.table.notMem_free h (by simp)
  have hmap : ∀ proc, proc = update rq.proc f (some p) →
      (ns ++ [f]).map proc = (xs ++ [p]).map some := by
    rintro proc rfl
    rw [List.map_append, List.map_append, ← hm]
    refine congrArg₂ _ (List.map_congr_left fun n hn => ?_) (by simp)
    exact update_of_ne (ne_of_mem_of_not_mem hn hf) _ _
  cases cls
  · obtain ⟨rq', he, hl', hp, hn', hmax⟩ := RingLinks.enqueue hl p
    exact ⟨rq', he, ⟨_, _, hl', by rw [hn', hnum]; simp, hmap _ hp⟩, hmax, fun h => by cases h⟩
  · obtain ⟨rq', he, hl', hp, hn', hmax, hz⟩ := FifoLinks.enqueue hl p
    exact ⟨rq', he, ⟨_, _, hl', by rw [hn', hnum]; simp, hmap _ hp⟩, hmax, fun _ => hz⟩

theorem dequeue (hq : Holds cls rq (as ++ p :: bs)) (hp : p ∉ as)
    (hb : cls = .fifo → bs ≠ [] ∨ as = [] ∧ rq.NullEnd) :
    ∃ rq', cls.dequeueProc p rq = .ok rq' ∧ Holds cls rq' (as ++ bs) ∧
      rq'.maxSlices = rq.maxSlices ∧ (as ≠ [] → rq'.nextToRun = rq.nextToRun) ∧
      (cls = .fifo → bs ≠ [] → rq.NullEnd → rq'.NullEnd) := by
  obtain ⟨ns, fs, hl, hnum, hm⟩ := hq
  rw [List.map_append, List.map_cons] at hm
  obtain ⟨ms, ns', rfl, hms, hns⟩ := List.map_eq_append_iff.mp hm
  obtain ⟨n, ns, rfl, hn, hns⟩ := List.map_eq_cons_iff.mp hns
  have hne : ∀ a ∈ ms, rq.proc a ≠ some p := by
    intro a ha h
    have : some p ∈ ms.map rq.proc := List.mem_map.mpr ⟨a, ha, h⟩
    rw [hms] at this
    simp [hp] at this
  have hmap : ∀ proc, proc = rq.proc → (ms ++ ns).map proc = (as ++ bs).map some := by
    rintro proc rfl
    rw [List.map_append, List.map_append, hms, hns]
  have hlen : ∀ k, k = rq.procNum - 1 → k = ((ms ++ ns).length : ℤ) := by
    rintro k rfl
    rw [hnum]
    simp
    omega
  have hns_ne : bs ≠ [] → ns ≠ [] := by
    rintro hb rfl
    exact hb (List.map_eq_nil_iff.mp hns.symm)
  have hhead : ∀ rq' : Rq NPROC, Table rq' (ms ++ ns) (n :: fs) → as ≠ [] →
      rq'.nextToRun = rq.nextToRun := by
    intro rq' ht ha
    rw [ht.head, hl.table.head]
    cases ms with
    | nil => exact absurd (List.map_eq_nil_iff.mp hms.symm) ha
    | cons m ms => rfl
  cases cls
  · obtain ⟨rq', hd, hl', hp', hn', hmax⟩ := RingLinks.dequeue hl hn hne
    exact ⟨rq', hd, ⟨_, _, hl', hlen _ hn', hmap _ hp'⟩, hmax, hhead _ hl'.toTable,
      fun h => by cases h⟩
  · obtain ⟨rq', hd, hl', hp', hn', hmax, hz⟩ := FifoLinks.dequeue hl hn hne (by
      rcases hb rfl with hb | ⟨ha, hz⟩
      · exact .inl (hns_ne hb)
      · refine .inr ⟨?_, hz⟩
        subst ha
        simpa using hms)
    exact ⟨rq', hd, ⟨_, _, hl', hlen _ hn', hmap _ hp'⟩, hmax, hhead _ hl'.toTable,
      fun _ hb => hz (hns_ne hb)⟩

theorem yield (hq : Holds cls rq xs) :
    ∃ rq', cls.yieldProc rq = .ok rq' ∧ Holds cls rq' (xs.rotate 1) ∧
      rq'.maxSlices = rq.maxSlices ∧ (xs = [] → rq' = rq) := by
  have hnil := hq.nextToRun_eq_none
  obtain ⟨ns, fs, hl, hnum, hm⟩ := hq
  have hmap : (ns.rotate 1).map rq.proc = (xs.rotate 1).map some := by
    rw [List.map_rotate, hm, List.map_rotate]
  cases cls
  · obtain ⟨hl', hp, hn', hmax⟩ := RingLinks.yield hl
    refine ⟨_, rfl, ⟨_, _, hl', by rw [hn', hnum, List.length_rotate], by rw [hp, hmap]⟩, hmax, ?_⟩
    intro hx
    simp only [Rq.yieldProcRR, hnil.mpr hx]
  · obtain ⟨rq', hy, hl', hp, hn', hmax, hs⟩ := FifoLinks.yield hl
    refine ⟨_, hy, ⟨_, _, hl', by rw [hn', hnum, List.length_rotate], by rw [hp, hmap]⟩, hmax, ?_⟩
    rintro rfl
    refine hs ?_
    rw [List.map_eq_nil_iff.mp hm]
    simp

theorem pick (hq : Holds cls rq xs) : cls.pickNextProc rq = xs.head? := by
  obtain ⟨ns, fs, hl, hnum, hm⟩ := hq
  have hh := hl.table.head
  have hx : xs.head? = ns.head?.bind rq.proc := by
    cases ns <;> cases xs <;> simp at hm ⊢
    exact hm.1.symm
  rw [hx, ← hh]
  cases cls <;> simp only [SchedClass.pickNextProc, Rq.pickNextProcRR, Rq.pickNextProcFifo] <;>
    cases rq.nextToRun <;> rfl

theorem getProc (hq : Holds cls rq xs) :
    ∃ rq', cls.getProc rq = .ok (rq', (taken xs).map some) ∧ Holds cls rq' (kept xs) ∧
      rq'.maxSlices = rq.maxSlices ∧ (rq.NullEnd → cls = .fifo → rq'.NullEnd) := by
  obtain ⟨ns, fs, hl, hnum, hm⟩ := hq
  have hlen : ns.length = xs.length := by simpa using congrArg List.length hm
  have htaken : (taken ns).map rq.proc = (taken xs).map some := by
    rw [taken, taken, List.map_take, List.map_drop, hm, hlen, List.map_take, List.map_drop]
  have hkept : (kept ns).map rq.proc = (kept xs).map some := by
    rw [kept, kept, List.map_append, List.map_take, List.map_drop, hm, hlen, List.map_append,
      List.map_take, List.map_drop]
  have hnum' : ∀ k, k = rq.procNum - (ns.length / 2 : ℕ) → k = ((kept ns).length : ℤ) := by
    rintro k rfl
    rw [hnum]
    simp only [kept, List.length_append, List.length_take, List.length_drop]
    omega
  cases cls
  · obtain ⟨rq', hg, hl', hp, hn', hmax⟩ := RingLinks.getProc hl hnum
    refine ⟨rq', ?_, ⟨_, _, hl', hnum' _ hn', by rw [hp]; exact hkept⟩, hmax, fun _ h => by cases h⟩
    rw [← htaken]
    exact hg
  · obtain ⟨rq', hg, hl', hp, hn', hmax, hz⟩ := FifoLinks.getProc hl hnum
    refine ⟨rq', ?_, ⟨_, _, hl', hnum' _ hn', by rw [hp]; exact hkept⟩, hmax, fun h _ => hz h⟩
    rw [← htaken]
    exact hg

end Holds

end Xv6Shed
