import Xv6Shed.Rq

/-!
# The FIFO run queue

The operations of `sched_fifo.c` on one queue, statement by statement, and what each
does to the list of queued nodes.
-/

namespace Xv6Shed
open Linked Function

variable {NPROC : ℕ}

namespace Rq

/-- `enqueue_proc_fifo`, the stores to `*rq`. The store to `p->rq` is in
`Kernel.enqueueProcFifo`. -/
def enqueueFifo (p : Fin NPROC) (rq : Rq NPROC) : Except Fault (Rq NPROC) := do
  let pnode ← deref rq.freeList
  let rq := { rq with freeList := rq.next pnode }
  -- insert after last_to_run
  let rq := { rq with
    proc := update rq.proc pnode (some p)
    next := update rq.next pnode none }
  let rq ←
    if rq.nextToRun = none then
      pure { rq with nextToRun := some pnode, lastToRun := some pnode }
    else do
      let last ← deref rq.lastToRun
      pure { rq with next := update rq.next last (some pnode), lastToRun := some pnode }
  pure { rq with procNum := rq.procNum + 1 }

def dequeueProcFifo (p : Fin NPROC) (rq : Rq NPROC) : Except Fault (Rq NPROC) := do
  let (pnode, node) ← rq.scan p rq.lastToRun (NPROC + 1) none rq.nextToRun
  let head ← deref rq.nextToRun
  let rq ←
    if rq.proc head = some p then do
      let n ← deref node
      pure { rq with nextToRun := rq.next n }
    else do
      let pn ← deref pnode
      let n ← deref node
      pure { rq with next := update rq.next pn (rq.next n) }
  -- free
  let n ← deref node
  let rq := { rq with next := update rq.next n rq.freeList, freeList := some n }
  pure { rq with procNum := rq.procNum - 1 }

def yieldProcFifo (rq : Rq NPROC) : Except Fault (Rq NPROC) :=
  match rq.nextToRun with
  | none => pure rq
  | some head =>
    if rq.nextToRun = rq.lastToRun then pure rq
    else do
      let last ← deref rq.lastToRun
      let rq := { rq with next := update rq.next last (some head) }
      let rq := { rq with nextToRun := rq.next head }
      pure { rq with lastToRun := rq.next last }

def pickNextProcFifo (rq : Rq NPROC) : Option (Fin NPROC) :=
  match rq.nextToRun with
  | none => none
  | some pNode => rq.proc pNode

/-- The loop of `get_proc_fifo`; `cnode` stays at the head of the queue. -/
def getLoopFifo (cnode : Option (Fin NPROC)) :
    ℕ → Rq NPROC → Except Fault (Rq NPROC × List (Option (Fin NPROC)))
  | 0, rq => pure (rq, [])
  | i + 1, rq => do
    let c ← deref cnode
    match rq.next c with
    | none => .error (.panic "Not enough proc to move in get_proc_fifo\n")
    | some next =>
      let rq := if rq.lastToRun = some next then { rq with lastToRun := some c } else rq
      let moved := rq.proc next
      let rq := { rq with next := update rq.next c (rq.next next) }
      let rq := { rq with next := update rq.next next rq.freeList, freeList := some next }
      let (rq, ms) ← getLoopFifo cnode i rq
      pure (rq, moved :: ms)

/-- `get_proc_fifo`: the queue left and the processes stored to `procs_moved`. -/
def getProcFifo (rq : Rq NPROC) : Except Fault (Rq NPROC × List (Option (Fin NPROC))) := do
  let num := rq.procNum.tdiv 2
  let (rq, ms) ← getLoopFifo rq.nextToRun num.toNat rq
  pure ({ rq with procNum := rq.procNum - num }, ms)

end Rq

/-- The queued nodes `ns` are linked from `next_to_run` to `last_to_run`. Where the
last of them points is left open: `yield_proc_fifo` does not clear it. -/
structure FifoLinks (rq : Rq NPROC) (ns fs : List (Fin NPROC)) : Prop extends Table rq ns fs where
  seg : ∃ e, Seg rq.next ns e
  last : ns ≠ [] → rq.lastToRun = ns.getLast?

/-- `rq->last_to_run->next == NULL` -/
def Rq.NullEnd (rq : Rq NPROC) : Prop := ∀ n, rq.lastToRun = some n → rq.next n = none

variable {rq : Rq NPROC} {ns fs as bs : List (Fin NPROC)} {f n h : Fin NPROC} {p : Fin NPROC}

theorem fifoLinks_initRq (cls : SchedClass) (rq : Rq NPROC) :
    FifoLinks (initRq cls rq) [] (List.finRange NPROC) :=
  { table_initRq cls rq with seg := ⟨none, trivial⟩, last := fun h => absurd rfl h }

theorem FifoLinks.nullEnd_iff (as : List (Fin NPROC)) (hq : FifoLinks rq (as ++ [n]) fs) :
    rq.NullEnd ↔ rq.next n = none := by
  have hl : rq.lastToRun = some n := by simpa using hq.last (by simp)
  simp [Rq.NullEnd, hl]

theorem FifoLinks.enqueue (hq : FifoLinks rq ns (f :: fs)) (p : Fin NPROC) :
    ∃ rq', rq.enqueueFifo p = .ok rq' ∧ FifoLinks rq' (ns ++ [f]) fs ∧
      rq'.proc = update rq.proc f (some p) ∧ rq'.procNum = rq.procNum + 1 ∧
      rq'.maxSlices = rq.maxSlices ∧ rq'.NullEnd := by
  have hf : rq.freeList = some f := hq.free
  have hfs : f ∉ fs := (List.nodup_cons.mp hq.nodup.of_append_right).1
  have hnf : rq.next f = fs.head? := by simpa using hq.chain.1
  rcases List.eq_nil_or_concat' ns with rfl | ⟨ms, l, rfl⟩
  · have hh : rq.nextToRun = none := hq.head
    refine ⟨_, by simp only [Rq.enqueueFifo, hf, hh, deref_some, ok_bind, if_pos]; rfl, ?_⟩
    refine ⟨⟨hq.take rfl hnf ?_, ⟨none, by simp⟩, fun _ => rfl⟩, rfl, rfl, rfl,
      by simp [Rq.NullEnd]⟩
    intro n hn
    exact update_of_ne (ne_of_mem_of_not_mem hn hfs) _ _
  · have hh : rq.nextToRun ≠ none := by rw [hq.head]; cases ms <;> simp
    have hl : rq.lastToRun = some l := by simpa using hq.last (by simp)
    have hlf : l ≠ f := by
      rintro rfl
      exact hq.notMem_free (n := l) (by simp) (by simp)
    have hfl : f ≠ l := hlf.symm
    refine ⟨_, by simp only [Rq.enqueueFifo, hf, hh, hl, deref_some, ok_bind, if_neg,
      not_false_eq_true]; rfl, ?_⟩
    refine ⟨⟨hq.take ?_ hnf ?_, ⟨none, ?_⟩, fun _ => by simp⟩, rfl, rfl, rfl,
      by simp [Rq.NullEnd, update_of_ne hfl]⟩
    · rw [hq.head]
      cases ms <;> rfl
    · intro n hn
      have hlfs : l ∉ fs := fun hm => hq.notMem_free (n := l) (by simp) (by simp [hm])
      exact (update_of_ne (ne_of_mem_of_not_mem hn hlfs) _ _).trans
        (update_of_ne (ne_of_mem_of_not_mem hn hfs) _ _)
    · obtain ⟨e, hs⟩ := hq.seg
      have hfm : f ∉ ms ++ [l] := fun hm => hq.notMem_free hm (by simp)
      rw [seg_concat]
      refine ⟨?_, by simp [update_of_ne hfl]⟩
      exact Seg.update_last hq.nodup_queued ((seg_update_of_notMem hfm _).mpr hs) _

section Dequeue
variable (hq : FifoLinks rq (as ++ n :: bs) fs) (hp : rq.proc n = some p)
  (has : ∀ a ∈ as, rq.proc a ≠ some p)
include hq hp has

theorem FifoLinks.scan :
    rq.scan p rq.lastToRun (NPROC + 1) none rq.nextToRun = .ok (as.getLast?, some n) := by
  obtain ⟨e, hs⟩ := hq.seg
  rw [hq.last (by simp)]
  exact hq.toTable.scan hs hp has

theorem FifoLinks.dequeue_head_eq (ha : as = []) :
    rq.dequeueProcFifo p = .ok { rq with
      nextToRun := rq.next n
      next := update rq.next n rq.freeList
      freeList := some n
      procNum := rq.procNum - 1 } := by
  have hfind := hq.scan hp has
  subst ha
  have hh : rq.nextToRun = some n := hq.head
  rw [hh] at hfind
  simp only [Rq.dequeueProcFifo, hfind, hh, hp, deref_some, ok_bind, if_true]
  rfl

theorem FifoLinks.dequeue_inner_eq {ms : List (Fin NPROC)} {m : Fin NPROC} (ha : as = ms ++ [m]) :
    rq.dequeueProcFifo p = .ok { rq with
      next := update (update rq.next m (rq.next n)) n rq.freeList
      freeList := some n
      procNum := rq.procNum - 1 } := by
  have hfind := hq.scan hp has
  subst ha
  obtain ⟨h, hh⟩ : ∃ h, (ms ++ [m]).head? = some h := by cases ms <;> simp
  have hhead : rq.nextToRun = some h := by rw [hq.head, List.head?_append, hh]; rfl
  have hph : rq.proc h ≠ some p := has h (List.mem_of_head? hh)
  rw [hhead] at hfind
  simp only [Rq.dequeueProcFifo, hfind, hhead, hph, if_false, List.getLast?_concat, deref_some,
    ok_bind]
  rfl

/-- Removing a process that is not at the end, or the only one of a null-terminated
queue, leaves a linked queue. -/
theorem FifoLinks.dequeue (hb : bs ≠ [] ∨ as = [] ∧ rq.NullEnd) :
    ∃ rq', rq.dequeueProcFifo p = .ok rq' ∧ FifoLinks rq' (as ++ bs) (n :: fs) ∧
      rq'.proc = rq.proc ∧ rq'.procNum = rq.procNum - 1 ∧ rq'.maxSlices = rq.maxSlices ∧
      (bs ≠ [] → rq.NullEnd → rq'.NullEnd) := by
  obtain ⟨e, hs⟩ := hq.seg
  have hd := hq.nodup_queued
  obtain ⟨hs₁, hs₂⟩ := seg_append.mp hs
  have hnb : n ∉ bs := (List.nodup_cons.mp hd.of_append_right).1
  have hnf : n ∉ fs := hq.notMem_free (by simp)
  have hbs : bs ≠ [] → rq.next n = bs.head? ∧ rq.lastToRun = bs.getLast? := by
    intro hb
    obtain ⟨b, bs, rfl⟩ := List.exists_cons_of_ne_nil hb
    refine ⟨hs₂.1, ?_⟩
    rw [hq.last (by simp)]
    simp [List.getLast?_append, List.getLast?_cons]
  -- the stores leave the end of the queue alone
  have hend : ∀ rq' : Rq NPROC, rq'.lastToRun = rq.lastToRun →
      (∀ m ∈ bs, rq'.next m = rq.next m) → bs ≠ [] → rq.NullEnd → rq'.NullEnd := by
    intro rq' hl hc hb hz m hm
    rw [hl] at hm
    rw [hc m (List.mem_of_getLast? ((hbs hb).2 ▸ hm)), hz m hm]
  rcases List.eq_nil_or_concat' as with ha | ⟨ms, m, ha⟩
  · refine ⟨_, hq.dequeue_head_eq hp has ha, ?_⟩
    subst ha
    have hne : ∀ m ∈ bs, update rq.next n rq.freeList m = rq.next m := by
      intro m hm
      exact update_of_ne (ne_of_mem_of_not_mem hm hnb) _ _
    refine ⟨⟨hq.give _ _ ?_ rfl (update_self ..) ?_, ⟨e, ?_⟩, ?_⟩, rfl, rfl, rfl, hend _ rfl hne⟩
    · rcases hb with hb | ⟨-, hz⟩
      · exact (hbs hb).1
      · cases bs with
        | nil => exact (FifoLinks.nullEnd_iff [] hq).mp hz
        | cons b bs => exact (hbs (by simp)).1
    · intro m hm
      exact update_of_ne (ne_of_mem_of_not_mem hm hnf) _ _
    · exact (seg_update_of_notMem hnb _).mpr hs₂.2
    · intro hb
      exact (hbs hb).2
  · refine ⟨_, hq.dequeue_inner_eq hp has ha, ?_⟩
    subst ha
    have hb : bs ≠ [] := by
      rcases hb with hb | ⟨hc, -⟩
      · exact hb
      · simp at hc
    have hmn : m ≠ n := by
      rintro rfl
      exact List.disjoint_of_nodup_append hd (a := m) (by simp) (by simp)
    have hmb : m ∉ bs := fun h => List.disjoint_of_nodup_append hd (a := m) (by simp) (by simp [h])
    have hnm : n ∉ ms ++ [m] := fun h => List.disjoint_of_nodup_append hd h (by simp)
    have hne : ∀ x ∈ bs, update (update rq.next m (rq.next n)) n rq.freeList x = rq.next x := by
      intro x hx
      rw [update_of_ne (ne_of_mem_of_not_mem hx hnb), update_of_ne (ne_of_mem_of_not_mem hx hmb)]
    refine ⟨⟨hq.give _ _ ?_ rfl (update_self ..) ?_, ⟨e, ?_⟩, fun _ => ?_⟩, rfl, rfl, rfl,
      hend _ rfl hne⟩
    · rw [hq.head]
      cases ms <;> rfl
    · intro x hx
      have hmf : m ∉ fs := hq.notMem_free (by simp)
      dsimp only
      rw [update_of_ne (ne_of_mem_of_not_mem hx hnf), update_of_ne (ne_of_mem_of_not_mem hx hmf)]
    · rw [seg_append]
      refine ⟨?_, (seg_congr hne).mpr hs₂.2⟩
      rw [seg_update_of_notMem hnm, hs₂.1]
      exact Seg.update_last hd.of_append_left hs₁ _
    · rw [(hbs hb).2, List.getLast?_append]
      obtain ⟨b, bs, rfl⟩ := List.exists_cons_of_ne_nil hb
      simp [List.getLast?_cons]

end Dequeue

/-- `yield_proc_fifo` rotates the queue. With two processes or more it leaves the old
head, now at the end, pointing at the new head. -/
theorem FifoLinks.yield (hq : FifoLinks rq ns fs) :
    ∃ rq', rq.yieldProcFifo = .ok rq' ∧ FifoLinks rq' (ns.rotate 1) fs ∧
      rq'.proc = rq.proc ∧ rq'.procNum = rq.procNum ∧ rq'.maxSlices = rq.maxSlices ∧
      (ns.length ≤ 1 → rq' = rq) := by
  rcases ns with _ | ⟨h, ns⟩
  · refine ⟨rq, ?_, hq, rfl, rfl, rfl, fun _ => rfl⟩
    simp only [Rq.yieldProcFifo, show rq.nextToRun = none from hq.head]
    rfl
  have hh : rq.nextToRun = some h := hq.head
  rcases List.eq_nil_or_concat' ns with rfl | ⟨ms, l, rfl⟩
  · have hl : rq.lastToRun = some h := by simpa using hq.last (by simp)
    refine ⟨rq, ?_, by simpa using hq, rfl, rfl, rfl, fun _ => rfl⟩
    simp only [Rq.yieldProcFifo, hh, hl, if_true]
    rfl
  · have hl : rq.lastToRun = some l := by
      rw [hq.last (by simp), List.getLast?_cons, List.getLast?_concat]
      rfl
    have hd := hq.nodup_queued
    have hhm : h ∉ ms ++ [l] := (List.nodup_cons.mp hd).1
    have hhl : h ≠ l := by
      rintro rfl
      simp at hhm
    obtain ⟨e, hnh, hs⟩ := hq.seg
    have hrot : (h :: (ms ++ [l])).rotate 1 = (ms ++ [l]) ++ [h] := by simp
    have hhead : (ms ++ [l]).head?.or e = (ms ++ [l]).head? := by cases ms <;> rfl
    refine ⟨_, by
      simp only [Rq.yieldProcFifo, hh, hl, Option.some.injEq, hhl, if_false, deref_some, ok_bind,
        update_self, update_of_ne hhl]
      rfl, ?_⟩
    rw [hrot]
    refine ⟨⟨⟨?_, ?_, ?_, hq.free, ?_⟩, ⟨rq.next h, ?_⟩, fun _ => by simp⟩,
      rfl, rfl, rfl, ?_⟩
    · refine (List.Perm.nodup_iff ?_).mp hq.nodup
      exact List.Perm.append_right _ (List.perm_append_comm : ([h] ++ _).Perm _)
    · intro n
      have := hq.mem n
      simp only [List.mem_append, List.mem_cons, List.not_mem_nil, or_false] at this ⊢
      tauto
    · dsimp only
      rw [hnh, hhead]
      cases ms <;> rfl
    · refine (seg_update_of_notMem ?_ _).mpr hq.chain
      exact hq.notMem_free (by simp)
    · exact seg_concat.mpr ⟨Seg.update_last (List.nodup_cons.mp hd).2 hs _, update_of_ne hhl _ _⟩
    · intro hlen
      simp at hlen

theorem FifoLinks.unlink_second (hq : FifoLinks rq (h :: n :: ns) fs) {rq' : Rq NPROC}
    (hrq : rq' = { rq with
      next := update (update rq.next h (rq.next n)) n rq.freeList
      freeList := some n
      lastToRun := if rq.lastToRun = some n then some h else rq.lastToRun }) :
    FifoLinks rq' (h :: ns) (n :: fs) ∧ (rq.NullEnd → rq'.NullEnd) := by
  subst hrq
  obtain ⟨e, hnh, hnn, hs⟩ := hq.seg
  have hd := hq.nodup_queued
  have hhn : h ∉ n :: ns := (List.nodup_cons.mp hd).1
  have hnns : n ∉ ns := (List.nodup_cons.mp (List.nodup_cons.mp hd).2).1
  have hne : h ≠ n := List.ne_of_not_mem_cons hhn
  have hhns : h ∉ ns := List.not_mem_of_not_mem_cons hhn
  have hcong : ∀ m, m ≠ h → m ≠ n →
      update (update rq.next h (rq.next n)) n rq.freeList m = rq.next m := by
    intro m hmh hmn
    rw [update_of_ne hmn, update_of_ne hmh]
  have hself : update (update rq.next h (rq.next n)) n rq.freeList h = rq.next n := by
    rw [update_of_ne hne, update_self]
  have hlast : rq.lastToRun = (n :: ns).getLast? := by
    rw [hq.last (by simp), List.getLast?_cons_cons]
  refine ⟨⟨Table.give [h] ns hq.toTable hq.head rfl (update_self ..) ?_, ⟨e, ?_, ?_⟩, ?_⟩, ?_⟩
  · intro m hm
    exact hcong m (ne_of_mem_of_not_mem hm (hq.notMem_free (by simp)))
      (ne_of_mem_of_not_mem hm (hq.notMem_free (by simp)))
  · exact hself.trans hnn
  · exact (seg_congr fun m hm => hcong m (ne_of_mem_of_not_mem hm hhns)
      (ne_of_mem_of_not_mem hm hnns)).mpr hs
  · intro _
    dsimp only
    rcases ns with _ | ⟨m, ns⟩
    · simp [hlast]
    · rw [hlast, List.getLast?_cons_cons, List.getLast?_cons_cons, if_neg]
      intro hl
      exact hnns (List.mem_of_getLast? hl)
  · intro hz m hm
    dsimp only at hm ⊢
    rcases ns with _ | ⟨x, ns⟩
    · have hln : rq.lastToRun = some n := by simpa using hlast
      rw [if_pos hln, Option.some.injEq] at hm
      rw [← hm, hself, hz n hln]
    · have hln : rq.lastToRun = (x :: ns).getLast? := by rw [hlast, List.getLast?_cons_cons]
      rw [if_neg (fun hl => hnns (List.mem_of_getLast? (hln ▸ hl)))] at hm
      have hmem : m ∈ x :: ns := List.mem_of_getLast? (hln ▸ hm)
      rw [hcong m (ne_of_mem_of_not_mem hmem hhns) (ne_of_mem_of_not_mem hmem hnns), hz m hm]

theorem FifoLinks.getLoop {ms : List (Fin NPROC)} (hq : FifoLinks rq (h :: (ms ++ ns)) fs) :
    ∃ rq', rq.getLoopFifo (some h) ms.length = .ok (rq', ms.map rq.proc) ∧
      FifoLinks rq' (h :: ns) (ms.reverse ++ fs) ∧ rq'.proc = rq.proc ∧
      rq'.procNum = rq.procNum ∧ rq'.maxSlices = rq.maxSlices ∧ (rq.NullEnd → rq'.NullEnd) := by
  induction ms generalizing rq fs with
  | nil => exact ⟨rq, rfl, hq, rfl, rfl, rfl, id⟩
  | cons m ms ih =>
    have hnh : rq.next h = some m := by
      obtain ⟨e, hnh, -⟩ := hq.seg
      exact hnh
    have hhm : h ≠ m := List.ne_of_not_mem_cons (List.nodup_cons.mp hq.nodup_queued).1
    obtain ⟨hq', hz⟩ := hq.unlink_second rfl
    obtain ⟨rq', hrun, hq', hproc, hnum, hmax, hz'⟩ := ih hq'
    refine ⟨rq', ?_, by simpa using hq', hproc, hnum, hmax, hz' ∘ hz⟩
    have hstep : rq.getLoopFifo (some h) (ms.length + 1) = (do
        let (rq', ms') ← Rq.getLoopFifo (some h) ms.length { rq with
          next := update (update rq.next h (rq.next m)) m rq.freeList
          freeList := some m
          lastToRun := if rq.lastToRun = some m then some h else rq.lastToRun }
        pure (rq', rq.proc m :: ms')) := by
      simp only [Rq.getLoopFifo, deref_some, ok_bind, hnh]
      split_ifs <;> rfl
    rw [List.length_cons, hstep, hrun]
    rfl

theorem FifoLinks.getProc (hq : FifoLinks rq ns fs) (hn : rq.procNum = ns.length) :
    ∃ rq', rq.getProcFifo = .ok (rq', ((ns.drop 1).take (ns.length / 2)).map rq.proc) ∧
      FifoLinks rq' (ns.take 1 ++ ns.drop (1 + ns.length / 2))
        (((ns.drop 1).take (ns.length / 2)).reverse ++ fs) ∧
      rq'.proc = rq.proc ∧ rq'.procNum = rq.procNum - (ns.length / 2 : ℕ) ∧
      rq'.maxSlices = rq.maxSlices ∧ (rq.NullEnd → rq'.NullEnd) := by
  have hnum : rq.procNum.tdiv 2 = (ns.length / 2 : ℕ) := by
    rw [hn]
    rfl
  rcases ns with _ | ⟨h, ns⟩
  · have hz : rq.procNum - ((0 : ℕ) : ℤ) = rq.procNum := by simp
    refine ⟨rq, ?_, by simpa using hq, rfl, by simp, rfl, id⟩
    simp only [Rq.getProcFifo, hnum, List.length_nil, Nat.zero_div, Int.toNat_natCast]
    simp only [Rq.getLoopFifo, pure_bind, hz]
    rfl
  · set i := (h :: ns).length / 2 with hi
    have hle : i ≤ ns.length := by
      simp only [List.length_cons] at hi
      omega
    have hlen : (ns.take i).length = i := by simp [hle]
    have hq' : FifoLinks rq (h :: (ns.take i ++ ns.drop i)) fs := by
      rw [List.take_append_drop]
      exact hq
    obtain ⟨rq', hrun, hl, hproc, hpn, hmax, hz⟩ := hq'.getLoop
    rw [hlen] at hrun
    rw [show (h :: ns).drop (1 + i) = ns.drop i by rw [Nat.add_comm]; rfl]
    refine ⟨{ rq' with procNum := rq'.procNum - i }, ?_, ⟨⟨hl.nodup, hl.mem, hl.head, hl.free,
      hl.chain⟩, hl.seg, hl.last⟩, hproc, by simp only [hpn], hmax, hz⟩
    have hhead : rq.nextToRun = some h := hq.head
    simp only [Rq.getProcFifo, hnum, hhead, Int.toNat_natCast, hrun, ok_bind]
    rfl

end Xv6Shed
