import Xv6Shed.Simulation
import Xv6Shed.Schedule

/-!
# The run queues refine lists

The operations of one scheduling class on one run queue, run in any order from an
initialised queue, against the same operations on a list of processes.
-/

namespace Xv6Shed
open Linked Function Simulation

variable {NPROC NCPU : ℕ}

/-- The operations of `struct sched_class` on one queue. -/
inductive QueueOp (NPROC : ℕ) where
  | enqueueProc (p : Fin NPROC)
  | dequeueProc (p : Fin NPROC)
  | yieldProc
  | pickNextProc
  | getProc
  deriving DecidableEq

namespace QueueOp

/-- The operation on the run queue `r`, with the processes it returns. -/
def exec (r : RqId NCPU) (op : QueueOp NPROC) (k : Kernel NPROC NCPU) :
    Except Fault (Kernel NPROC NCPU × List (Option (Fin NPROC))) :=
  match op with
  | enqueueProc p => do pure (← k.subEnqueueProc r p, [])
  | dequeueProc p => do pure (← k.subDequeueProc r p, [])
  | yieldProc => do pure (← k.subYieldProc r, [])
  | pickNextProc => pure (k, [k.subPickNextProc r])
  | getProc => k.subGetProc r

/-- What the operation does to the list of queued processes. -/
def spec (op : QueueOp NPROC) (xs : List (Fin NPROC)) :
    List (Fin NPROC) × List (Option (Fin NPROC)) :=
  match op with
  | enqueueProc p => (xs ++ [p], [])
  | dequeueProc p => (xs.erase p, [])
  | yieldProc => (xs.rotate 1, [])
  | pickNextProc => (xs, [xs.head?])
  | getProc => (kept xs, (taken xs).map some)

/-- What the callers of a FIFO queue promise. -/
def FifoPre (r : RqId NCPU) (op : QueueOp NPROC) (k : Kernel NPROC NCPU)
    (xs : List (Fin NPROC)) : Prop :=
  match op with
  | enqueueProc _ => (k.rqs r).freeList ≠ none
  | dequeueProc p => p ∈ xs
  | _ => True

/-- What the callers of a round-robin queue promise. -/
def RRPre (r : RqId NCPU) (op : QueueOp NPROC) (k : Kernel NPROC NCPU)
    (xs : List (Fin NPROC)) : Prop :=
  match op with
  | enqueueProc p => (k.rqs r).freeList ≠ none ∧ p ∉ xs
  | dequeueProc p => p ∈ xs
  | getProc => xs ≠ []
  | _ => True

/-- `dequeue_proc_fifo` is not called for the process at the end of the queue, unless it
is the only one and its node's `next` is null. -/
def Fine (r : RqId NCPU) (op : QueueOp NPROC) (k : Kernel NPROC NCPU)
    (xs : List (Fin NPROC)) : Prop :=
  match op with
  | dequeueProc p => p ∈ xs.dropLast ∨ xs = [p] ∧ (k.rqs r).NullEnd
  | _ => True

end QueueOp

/-- What holds of a FIFO queue after an operation that leaves the list `xs`. -/
structure FifoQueue (rq : Rq NPROC) (xs : List (Fin NPROC)) : Prop where
  holds : Holds .fifo rq xs
  empty : rq.nextToRun = none ↔ xs = []
  num : rq.procNum = xs.length

/-- What holds of a round-robin queue after an operation that leaves the list `xs`. -/
structure RRQueue (rq : Rq NPROC) (xs : List (Fin NPROC)) : Prop where
  holds : Holds .RR rq xs
  inverse : ∀ ns fs, RingLinks rq ns fs → ∀ n ∈ ns, ∃ m ∈ ns, rq.next n = some m ∧
    rq.prev m = some n
  empty : rq.nextToRun = none ↔ xs = []
  num : rq.procNum = xs.length
  free : rq.freeList ≠ none ↔ xs.length < NPROC

/-- The FIFO class on the queue `r`. -/
def fifoSpec (r : RqId NCPU) : Spec (Kernel NPROC NCPU) (List (Fin NPROC)) (QueueOp NPROC)
    (List (Option (Fin NPROC))) Fault where
  exec := QueueOp.exec r
  spec := QueueOp.spec
  pre := QueueOp.FifoPre r
  post op _ xs k' := FifoQueue (k'.rqs r) (op.spec xs).1

/-- The round-robin class on the queue `r`. A process that is not at the head is removed
without touching `next_to_run`. -/
def rrSpec (r : RqId NCPU) : Spec (Kernel NPROC NCPU) (List (Fin NPROC)) (QueueOp NPROC)
    (List (Option (Fin NPROC))) Fault where
  exec := QueueOp.exec r
  spec := QueueOp.spec
  pre := QueueOp.RRPre r
  post op k xs k' := RRQueue (k'.rqs r) (op.spec xs).1 ∧
    ∀ p, op = .dequeueProc p → xs.head? ≠ some p → (k'.rqs r).nextToRun = (k.rqs r).nextToRun

variable {r : RqId NCPU} {k : Kernel NPROC NCPU} {cls : SchedClass} {xs : List (Fin NPROC)}

theorem Holds.fifoQueue {rq : Rq NPROC} (h : Holds .fifo rq xs) : FifoQueue rq xs :=
  ⟨h, h.nextToRun_eq_none, h.procNum⟩

theorem Holds.rrQueue {rq : Rq NPROC} (h : Holds .RR rq xs) : RRQueue rq xs :=
  ⟨h, fun _ _ hl _ hn => hl.ring.prev_next hn, h.nextToRun_eq_none, h.procNum, h.freeList_ne_none⟩

theorem QueueOp.exec_holds (hcls : r.2.subSchedClass = cls) (hq : Holds cls (k.rqs r) xs)
    (op : QueueOp NPROC) (hpre : op.FifoPre r k xs) (hfine : cls = .fifo → op.Fine r k xs) :
    ∃ k', op.exec r k = .ok (k', (op.spec xs).2) ∧ Holds cls (k'.rqs r) (op.spec xs).1 ∧
      ∀ p, op = .dequeueProc p → xs.head? ≠ some p →
        (k'.rqs r).nextToRun = (k.rqs r).nextToRun := by
  subst hcls
  cases op with
  | enqueueProc p =>
    obtain ⟨rq', he, hq', -⟩ := hq.enqueue (hq.freeList_ne_none.mp hpre) p
    refine ⟨_, by simp only [exec, Kernel.subEnqueueProc_eq, he, ok_bind, pure_bind]; rfl, ?_, ?_⟩
    · simpa [spec] using hq'
    · simp
  | dequeueProc p =>
    obtain ⟨as, bs, hp, rfl, her⟩ := List.exists_erase_eq hpre
    have hb : r.2.subSchedClass = .fifo → bs ≠ [] ∨ as = [] ∧ (k.rqs r).NullEnd := by
      intro hc
      rcases hfine hc with hd | ⟨hx, hz⟩
      · left
        rintro rfl
        rw [List.dropLast_concat] at hd
        exact hp hd
      · rcases as with _ | ⟨a, as⟩
        · exact .inr ⟨rfl, hz⟩
        · simp at hx
    obtain ⟨rq', hd, hq', -, hhead, -⟩ := hq.dequeue hp hb
    refine ⟨_, by simp only [exec, Kernel.subDequeueProc, hd, ok_bind, pure_bind]; rfl, ?_, ?_⟩
    · simpa [spec, her] using hq'
    · rintro _ ⟨⟩ hne
      have ha : as ≠ [] := by
        rintro rfl
        simp at hne
      simpa using hhead ha
  | yieldProc =>
    obtain ⟨rq', hy, hq', -⟩ := hq.yield
    refine ⟨_, by simp only [exec, Kernel.subYieldProc, hy, ok_bind, pure_bind]; rfl, ?_, ?_⟩
    · simpa [spec] using hq'
    · simp
  | pickNextProc =>
    refine ⟨k, ?_, hq, by simp⟩
    simp only [exec, Kernel.subPickNextProc, hq.pick]
    rfl
  | getProc =>
    obtain ⟨rq', hg, hq', -⟩ := hq.getProc
    refine ⟨_, by simp only [exec, Kernel.subGetProc, hg, ok_bind]; rfl, ?_, ?_⟩
    · simpa [spec] using hq'
    · simp

/-- Outside `Fine` the removed node stays `last_to_run`, or the emptied queue keeps a
`next_to_run`. -/
theorem QueueOp.exec_not_fine (hcls : r.2.subSchedClass = .fifo)
    (hq : Holds .fifo (k.rqs r) xs) (op : QueueOp NPROC) (hpre : op.FifoPre r k xs)
    (hfine : ¬ op.Fine r k xs) {k' : Kernel NPROC NCPU} {out : List (Option (Fin NPROC))}
    (he : op.exec r k = .ok (k', out)) : ¬ FifoQueue (k'.rqs r) (op.spec xs).1 := by
  cases op with
  | dequeueProc p =>
    obtain ⟨as, bs, hp, rfl, her⟩ := List.exists_erase_eq hpre
    obtain ⟨ns, fs, hl, -, hm⟩ := hq
    rw [List.map_append, List.map_cons] at hm
    obtain ⟨ms, ns', rfl, hms, hns⟩ := List.map_eq_append_iff.mp hm
    obtain ⟨n, ns, rfl, hn, hns⟩ := List.map_eq_cons_iff.mp hns
    have hne : ∀ a ∈ ms, (k.rqs r).proc a ≠ some p := by
      intro a ha h
      have : some p ∈ ms.map (k.rqs r).proc := List.mem_map.mpr ⟨a, ha, h⟩
      rw [hms] at this
      simp [hp] at this
    -- the process is at the end
    obtain rfl : bs = [] := by
      by_contra hb
      refine hfine (.inl ?_)
      rw [List.dropLast_append_of_ne_nil (by simp), List.dropLast_cons_of_ne_nil hb]
      simp
    obtain rfl : ns = [] := List.map_eq_nil_iff.mp hns
    simp only [exec, Kernel.subDequeueProc, hcls, SchedClass.dequeueProc] at he
    rcases List.eq_nil_or_concat' ms with rfl | ⟨ls, l, rfl⟩
    · -- the only process: `next_to_run` becomes the stale link of its node
      rw [FifoLinks.dequeue_head_eq hl hn hne rfl] at he
      obtain rfl : as = [] := List.map_eq_nil_iff.mp hms.symm
      simp only [ok_bind, pure_bind] at he
      obtain ⟨rfl, -⟩ := Prod.mk.inj (Except.ok.inj he)
      intro h
      have hz := h.empty
      simp only [Kernel.setRq_rqs, update_self, spec, her, List.append_nil, iff_true] at hz
      exact hfine (.inr ⟨rfl, (FifoLinks.nullEnd_iff [] hl).mpr hz⟩)
    · -- others are left: `last_to_run` is now a free node
      rw [FifoLinks.dequeue_inner_eq hl hn hne rfl] at he
      simp only [ok_bind, pure_bind] at he
      obtain ⟨rfl, -⟩ := Prod.mk.inj (Except.ok.inj he)
      intro h
      obtain ⟨ns', fs', hl', -, hm'⟩ := h.holds
      simp only [Kernel.setRq_rqs, update_self, spec, her, List.append_nil] at hl' hm'
      have hns' : ns' ≠ [] := by
        rintro rfl
        simp only [List.map_nil, ← hms] at hm'
        simp at hm'
      have hlast := FifoLinks.last hl' hns'
      have hfree := (FifoLinks.toTable hl').free
      rw [FifoLinks.last hl (by simp)] at hlast
      simp only [List.getLast?_concat] at hlast
      exact (FifoLinks.toTable hl').notMem_free (List.mem_of_getLast? hlast.symm)
        (List.mem_of_head? hfree.symm)
  | _ => exact absurd trivial hfine

/-- Run from an initialised queue, `sched_fifo.c` refines a list exactly as long as no
`dequeue_proc_fifo` removes the last node, one that is alone and null-terminated apart. -/
theorem fifo_simulates_iff_guarded (c : Fin NCPU) (k : Kernel NPROC NCPU) (rq : Rq NPROC)
    (ops : List (QueueOp NPROC)) :
    Simulates (fifoSpec (c, .three)) ops (k.setRq (c, .three) (initRq .fifo rq)) [] ↔
      Guarded (fifoSpec (c, .three)) (QueueOp.Fine (c, .three)) ops
        (k.setRq (c, .three) (initRq .fifo rq)) [] := by
  refine simulates_iff_guarded (I := fun k xs => Holds .fifo (k.rqs (c, .three)) xs) ?_ ?_ ops ?_
  · intro op k xs hq hpre hfine
    obtain ⟨k', he, hq', -⟩ := op.exec_holds (r := (c, .three)) rfl hq hpre (fun _ => hfine)
    exact ⟨k', he, hq'.fifoQueue, hq'⟩
  · intro op k xs hq hpre hfine k' out he
    exact op.exec_not_fine rfl hq hpre hfine he
  · rw [Kernel.setRq_rqs, update_self]
    exact Holds.init .fifo rq

/-- Two processes are queued and the second one is removed. -/
theorem fifo_dequeue_last_fails :
    ¬ Simulates (fifoSpec ((0 : Fin 8), .three))
      [.enqueueProc (0 : Fin 64), .enqueueProc 1, .dequeueProc 1]
      ((Kernel.pinit 64 8 1).setRq (0, .three) (initRq .fifo Kernel.zeroRq)) [] := by
  intro h
  obtain ⟨k₁, -, h₁, h⟩ := h (by simp [fifoSpec, QueueOp.FifoPre, initRq, nodeAt])
  obtain ⟨k₂, -, h₂, h⟩ := h (h₁.holds.freeList_ne_none.mpr (by simp [QueueOp.spec]))
  have hmem : (1 : Fin 64) ∈ [(0 : Fin 64), 1] := by decide
  obtain ⟨k₃, he, h₃, -⟩ := h hmem
  refine QueueOp.exec_not_fine rfl h₂.holds (.dequeueProc 1) hmem ?_ he h₃
  rintro (hd | ⟨hx, -⟩)
  · simp [fifoSpec, QueueOp.spec] at hd
  · simp [fifoSpec, QueueOp.spec] at hx

/-- Run from an initialised queue with distinct processes, `sched_RR.c` refines a list. -/
theorem rr_simulates (r : RqId NCPU) (hr : r.2.subSchedClass = .RR) (k : Kernel NPROC NCPU)
    (rq : Rq NPROC) (ops : List (QueueOp NPROC)) :
    Simulates (rrSpec r) ops (k.setRq r (initRq .RR rq)) [] := by
  refine simulates_of_inv (I := fun k xs => Holds .RR (k.rqs r) xs) ?_ ops ?_
  · intro op k xs hq hpre
    have hpre' : op.FifoPre r k xs := by
      cases op with
      | enqueueProc p => exact hpre.1
      | dequeueProc p => exact hpre
      | _ => trivial
    obtain ⟨k', he, hq', hhead⟩ := op.exec_holds hr hq hpre' (fun h => by cases h)
    exact ⟨k', he, ⟨hq'.rrQueue, hhead⟩, hq'⟩
  · rw [Kernel.setRq_rqs, update_self]
    exact Holds.init .RR rq

theorem rr_simulates_level_two :
    Level.subSchedClass .two = .RR ∧
      Simulates (rrSpec ((0 : Fin 8), .two))
        [.enqueueProc (0 : Fin 64), .enqueueProc 1, .enqueueProc 2, .dequeueProc 2, .yieldProc,
          .getProc, .pickNextProc]
        ((Kernel.pinit 64 8 1).setRq (0, .two) (initRq .RR Kernel.zeroRq)) [] :=
  ⟨rfl, rr_simulates (0, .two) rfl _ _ _⟩

end Xv6Shed
