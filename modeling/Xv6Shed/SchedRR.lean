import Xv6Shed.Rq

/-!
# The round-robin run queue

The operations of `sched_RR.c` on one queue. Queued nodes form a doubly linked ring
that is entered at `next_to_run`; `last_to_run` is written once and never read.
-/

namespace Xv6Shed
open Linked Function

variable {NPROC : ℕ}

namespace Rq

/-- `enqueue_proc_RR`, the stores to `*rq`. Those to `p->timeslice` and `p->rq` are in
`Kernel.enqueueProcRR`. -/
def enqueueRR (p : Fin NPROC) (rq : Rq NPROC) : Except Fault (Rq NPROC) := do
  let pnode ← deref rq.freeList
  let rq := { rq with freeList := rq.next pnode }
  let rq := { rq with proc := update rq.proc pnode (some p) }
  let rq ←
    match rq.nextToRun with
    | none => pure { rq with
        nextToRun := some pnode
        lastToRun := some pnode
        next := update rq.next pnode (some pnode)
        prev := update rq.prev pnode (some pnode) }
    | some head => do
      let last ← deref (rq.prev head)
      let rq := { rq with next := update rq.next last (some pnode) }
      let rq := { rq with prev := update rq.prev pnode (rq.prev head) }
      let rq := { rq with next := update rq.next pnode (some head) }
      pure { rq with prev := update rq.prev head (some pnode) }
  pure { rq with procNum := rq.procNum + 1 }

def dequeueProcRR (p : Fin NPROC) (rq : Rq NPROC) : Except Fault (Rq NPROC) := do
  let head ← deref rq.nextToRun
  let (_, node) ← rq.scan p (rq.prev head) (NPROC + 1) none rq.nextToRun
  let n ← deref node
  let rq :=
    if rq.proc head = some p then
      if rq.next n = some n then { rq with nextToRun := none }
      else { rq with nextToRun := rq.next head }
    else rq
  let rq ←
    if rq.next n ≠ some n then do
      let pv ← deref (rq.prev n)
      let rq := { rq with next := update rq.next pv (rq.next n) }
      let nx ← deref (rq.next n)
      pure { rq with prev := update rq.prev nx (rq.prev n) }
    else pure rq
  -- free
  let rq := { rq with next := update rq.next n rq.freeList, freeList := some n }
  pure { rq with procNum := rq.procNum - 1 }

def yieldProcRR (rq : Rq NPROC) : Rq NPROC :=
  match rq.nextToRun with
  | none => rq
  | some head => { rq with nextToRun := rq.next head }

def pickNextProcRR (rq : Rq NPROC) : Option (Fin NPROC) :=
  match rq.nextToRun with
  | none => none
  | some pNode => rq.proc pNode

/-- The loop of `get_proc_RR`. -/
def getLoopRR : ℕ → Option (Fin NPROC) → Rq NPROC →
    Except Fault (Rq NPROC × List (Option (Fin NPROC)))
  | 0, _, rq => pure (rq, [])
  | i + 1, cnode, rq => do
    let c ← deref cnode
    if rq.next c = none then
      .error (.panic "Not enough proc to move in get_proc_simple\n")
    else
      let moved := rq.proc c
      let prev := rq.prev c
      let next := rq.next c
      let pv ← deref prev
      let rq := { rq with next := update rq.next pv next }
      let nx ← deref next
      let rq := { rq with prev := update rq.prev nx prev }
      let rq := { rq with next := update rq.next c rq.freeList, freeList := some c }
      let (rq, ms) ← getLoopRR i next rq
      pure (rq, moved :: ms)

/-- `get_proc_RR`: the queue left and the processes stored to `procs_moved`. On an empty
queue the first `cnode` is read through a null `next_to_run` and not used. -/
def getProcRR (rq : Rq NPROC) : Except Fault (Rq NPROC × List (Option (Fin NPROC))) := do
  let num := rq.procNum.tdiv 2
  let (rq, ms) ← getLoopRR num.toNat (rq.nextToRun.bind rq.next) rq
  pure ({ rq with procNum := rq.procNum - num }, ms)

end Rq

/-- The queued nodes `ns` form a doubly linked ring. -/
structure RingLinks (rq : Rq NPROC) (ns fs : List (Fin NPROC)) : Prop extends Table rq ns fs where
  ring : DRing rq.next rq.prev ns

variable {rq : Rq NPROC} {ns fs as bs : List (Fin NPROC)} {f n h : Fin NPROC} {p : Fin NPROC}

theorem ringLinks_initRq (cls : SchedClass) (rq : Rq NPROC) :
    RingLinks (initRq cls rq) [] (List.finRange NPROC) :=
  { table_initRq cls rq with ring := ⟨trivial, trivial⟩ }

theorem RingLinks.enqueue (hq : RingLinks rq ns (f :: fs)) (p : Fin NPROC) :
    ∃ rq', rq.enqueueRR p = .ok rq' ∧ RingLinks rq' (ns ++ [f]) fs ∧
      rq'.proc = update rq.proc f (some p) ∧ rq'.procNum = rq.procNum + 1 ∧
      rq'.maxSlices = rq.maxSlices := by
  have hf : rq.freeList = some f := hq.free
  have hfs : f ∉ fs := (List.nodup_cons.mp hq.nodup.of_append_right).1
  have hnf : rq.next f = fs.head? := by simpa using hq.chain.1
  rcases ns with _ | ⟨h, ns⟩
  · have hh : rq.nextToRun = none := hq.head
    refine ⟨_, by simp only [Rq.enqueueRR, hf, hh, deref_some, ok_bind]; rfl, ?_⟩
    refine ⟨⟨hq.take rfl hnf ?_, ?_⟩, rfl, rfl, rfl⟩
    · intro n hn
      exact update_of_ne (ne_of_mem_of_not_mem hn hfs) _ _
    · exact ⟨ring_singleton.mpr (update_self ..), ring_singleton.mpr (update_self ..)⟩
  · have hh : rq.nextToRun = some h := hq.head
    obtain ⟨l, hl⟩ : ∃ l, (h :: ns).getLast? = some l := ⟨_, List.getLast?_cons ..⟩
    have hp : rq.prev h = some l := hq.ring.prev_head.trans hl
    have hfq : f ∉ h :: ns := fun hm => hq.notMem_free hm (by simp)
    have hhf : h ≠ f := fun e => hfq (by simp [e])
    refine ⟨_, by
      simp only [Rq.enqueueRR, hf, hh, hp, deref_some, ok_bind]
      rfl, ?_⟩
    refine ⟨⟨hq.take rfl hnf ?_, DRing.link hq.nodup_queued hfq rfl hl hq.ring⟩, rfl, rfl, rfl⟩
    intro n hn
    have hlf : l ∉ fs := fun hm => hq.notMem_free (List.mem_of_getLast? hl) (by simp [hm])
    exact (update_of_ne (ne_of_mem_of_not_mem hn hfs) _ _).trans
      (update_of_ne (ne_of_mem_of_not_mem hn hlf) _ _)

theorem RingLinks.unlink (as bs : List (Fin NPROC)) (hq : RingLinks rq (as ++ n :: bs) fs)
    (hne : bs ++ as ≠ []) :
    ∃ b c, rq.prev n = some b ∧ rq.next n = some c ∧ b ≠ n ∧ c ≠ n ∧ (bs ++ as).head? = some c ∧
      ∀ rq' : Rq NPROC, rq'.next = update (update rq.next b (some c)) n rq.freeList →
        rq'.prev = update rq.prev c (some b) → rq'.freeList = some n →
        rq'.nextToRun = (as ++ bs).head? → RingLinks rq' (as ++ bs) (n :: fs) := by
  have hring : DRing rq.next rq.prev (n :: (bs ++ as)) := (dring_append_comm _ _).mp hq.ring
  have hperm : (as ++ n :: bs).Perm (n :: (bs ++ as)) := List.perm_append_comm
  have hd : (n :: (bs ++ as)).Nodup := hperm.nodup_iff.mp hq.nodup_queued
  have hn : n ∉ bs ++ as := (List.nodup_cons.mp hd).1
  obtain ⟨c, hc⟩ : ∃ c, (bs ++ as).head? = some c :=
    ⟨_, List.head?_eq_some_head hne⟩
  obtain ⟨b, hb⟩ : ∃ b, (bs ++ as).getLast? = some b := ⟨_, List.getLast?_eq_some_getLast hne⟩
  have hbm : b ∈ bs ++ as := List.mem_of_getLast? hb
  have hcm : c ∈ bs ++ as := List.mem_of_head? hc
  have hprev : rq.prev n = some b := by
    rw [hring.prev_head, List.getLast?_cons, hb]
    rfl
  have hnext : rq.next n = some c := by
    rw [hring.next_head, List.head?_append, hc]
    rfl
  have hmem : ∀ m ∈ bs ++ as, m ∈ as ++ n :: bs := fun m hm =>
    hperm.mem_iff.mpr (List.mem_cons_of_mem _ hm)
  refine ⟨b, c, hprev, hnext, ne_of_mem_of_not_mem hbm hn, ne_of_mem_of_not_mem hcm hn, hc, ?_⟩
  intro rq' hrn hrp hrf hrh
  refine ⟨hq.give as bs hrh hrf (by rw [hrn, update_self]) ?_, ?_⟩
  · intro m hm
    rw [hrn, update_of_ne (ne_of_mem_of_not_mem hm (hq.notMem_free (by simp))),
      update_of_ne (ne_of_mem_of_not_mem hm (hq.notMem_free (hmem b hbm)))]
  · rw [dring_append_comm as, hrn, hrp]
    obtain ⟨h₁, h₂⟩ := DRing.unlink hd hc hb hring
    exact ⟨(seg_update_of_notMem hn _).mpr h₁, h₂⟩

theorem RingLinks.dequeue (hq : RingLinks rq (as ++ n :: bs) fs) (hp : rq.proc n = some p)
    (has : ∀ a ∈ as, rq.proc a ≠ some p) :
    ∃ rq', rq.dequeueProcRR p = .ok rq' ∧ RingLinks rq' (as ++ bs) (n :: fs) ∧
      rq'.proc = rq.proc ∧ rq'.procNum = rq.procNum - 1 ∧ rq'.maxSlices = rq.maxSlices := by
  obtain ⟨h, ms, hns⟩ : ∃ h ms, as ++ n :: bs = h :: ms := by cases as <;> simp
  have hh : rq.nextToRun = some h := by rw [hq.head, hns]; rfl
  have hph : rq.prev h = (as ++ n :: bs).getLast? := by
    have := hq.ring
    rw [hns] at this ⊢
    exact this.prev_head
  have hscan := hq.toTable.scan hq.ring.1 hp has
  rw [← hph, hh] at hscan
  by_cases hne : bs ++ as = []
  · -- the only process
    obtain ⟨rfl, rfl⟩ := List.append_eq_nil_iff.mp hne
    obtain rfl : h = n := by simpa using (List.cons.inj hns).1.symm
    have hnn : rq.next h = some h := ring_singleton.mp hq.ring.1
    refine ⟨_, by
      simp only [Rq.dequeueProcRR, hh, hscan, deref_some, ok_bind, hp, hnn, if_true, ne_eq,
        not_true_eq_false, if_false]
      rfl, ?_⟩
    refine ⟨⟨Table.give [] [] hq.toTable rfl rfl (update_self ..) ?_,
      ⟨trivial, trivial⟩⟩, rfl, rfl, rfl⟩
    intro m hm
    exact update_of_ne (ne_of_mem_of_not_mem hm (hq.notMem_free (by simp))) _ _
  · obtain ⟨b, c, hpn, hnn, hbn, hcn, hc, hlinks⟩ := hq.unlink as bs hne
    have hnb : n ≠ b := hbn.symm
    rcases as with _ | ⟨a, as⟩
    · obtain rfl : n = h := (List.cons.inj hns).1
      rw [List.append_nil] at hc
      rw [hpn] at hscan
      refine ⟨_, by
        simp only [Rq.dequeueProcRR, hh, hscan, deref_some, ok_bind, hp, hnn, hpn, if_true, ne_eq,
          Option.some.injEq, hcn, not_false_eq_true, if_false, update_of_ne hnb]
        rfl, ?_⟩
      exact ⟨hlinks _ rfl rfl rfl hc.symm, rfl, rfl, rfl⟩
    · obtain rfl : a = h := (List.cons.inj hns).1
      have hpa : rq.proc a ≠ some p := has a (by simp)
      refine ⟨_, by
        simp only [Rq.dequeueProcRR, hh, hscan, deref_some, ok_bind, hpa, hnn, hpn, ne_eq,
          Option.some.injEq, hcn, not_false_eq_true, if_true, if_false, update_of_ne hnb]
        rfl, ?_⟩
      exact ⟨hlinks _ rfl rfl rfl rfl, rfl, rfl, rfl⟩

theorem RingLinks.yield (hq : RingLinks rq ns fs) :
    RingLinks rq.yieldProcRR (ns.rotate 1) fs ∧ rq.yieldProcRR.proc = rq.proc ∧
      rq.yieldProcRR.procNum = rq.procNum ∧ rq.yieldProcRR.maxSlices = rq.maxSlices := by
  rcases ns with _ | ⟨h, ns⟩
  · have hy : rq.yieldProcRR = rq := by
      simp only [Rq.yieldProcRR, show rq.nextToRun = none from hq.head]
    rw [hy]
    exact ⟨hq, rfl, rfl, rfl⟩
  · have hy : rq.yieldProcRR = { rq with nextToRun := rq.next h } := by
      simp only [Rq.yieldProcRR, show rq.nextToRun = some h from hq.head]
    rw [hy, show (h :: ns).rotate 1 = ns ++ [h] by simp]
    refine ⟨⟨⟨?_, ?_, hq.ring.next_head, hq.free, hq.chain⟩, (dring_append_comm _ _).mpr hq.ring⟩,
      rfl, rfl, rfl⟩
    · refine (List.Perm.nodup_iff ?_).mp hq.nodup
      exact List.Perm.append_right _ (List.perm_append_comm : ([h] ++ ns).Perm _)
    · intro n
      have := hq.mem n
      simp only [List.mem_append, List.mem_cons, List.not_mem_nil, or_false] at this ⊢
      tauto

theorem RingLinks.getLoop {ms : List (Fin NPROC)} (hq : RingLinks rq (h :: (ms ++ ns)) fs) :
    ∃ rq', rq.getLoopRR ms.length (rq.next h) = .ok (rq', ms.map rq.proc) ∧
      RingLinks rq' (h :: ns) (ms.reverse ++ fs) ∧ rq'.proc = rq.proc ∧
      rq'.procNum = rq.procNum ∧ rq'.maxSlices = rq.maxSlices := by
  induction ms generalizing rq fs with
  | nil => exact ⟨rq, rfl, hq, rfl, rfl, rfl⟩
  | cons m ms ih =>
    have hnh : rq.next h = some m := hq.ring.next_head
    obtain ⟨b, c, hpm, hnm, hbm, hcm, -, hlinks⟩ := RingLinks.unlink [h] _ hq (by simp)
    have hbh : b = h := by
      -- the node before the first moved one is the head
      have hr : DRing rq.next rq.prev (m :: ((ms ++ ns) ++ [h])) :=
        (dring_append_comm [h] _).mp hq.ring
      have := hr.prev_head
      rw [hpm, List.getLast?_cons, List.getLast?_concat] at this
      simpa using this
    subst hbh
    have hq' := hlinks { rq with
      next := update (update rq.next b (some c)) m rq.freeList
      prev := update rq.prev c (some b)
      freeList := some m } rfl rfl rfl hq.head
    obtain ⟨rq', hrun, hq', hproc, hnum, hmax⟩ := ih hq'
    refine ⟨rq', ?_, by simpa using hq', hproc, hnum, hmax⟩
    dsimp only at hrun
    rw [show update (update rq.next b (some c)) m rq.freeList b = some c by
      rw [update_of_ne hbm, update_self]] at hrun
    simp only [List.length_cons, Rq.getLoopRR, hnh, hnm, hpm, deref_some, ok_bind, reduceCtorEq,
      if_false]
    rw [hrun]
    rfl

theorem RingLinks.getProc (hq : RingLinks rq ns fs) (hn : rq.procNum = ns.length) :
    ∃ rq', rq.getProcRR = .ok (rq', ((ns.drop 1).take (ns.length / 2)).map rq.proc) ∧
      RingLinks rq' (ns.take 1 ++ ns.drop (1 + ns.length / 2))
        (((ns.drop 1).take (ns.length / 2)).reverse ++ fs) ∧
      rq'.proc = rq.proc ∧ rq'.procNum = rq.procNum - (ns.length / 2 : ℕ) ∧
      rq'.maxSlices = rq.maxSlices := by
  have hnum : rq.procNum.tdiv 2 = (ns.length / 2 : ℕ) := by
    rw [hn]
    rfl
  rcases ns with _ | ⟨h, ns⟩
  · have hz : rq.procNum - ((0 : ℕ) : ℤ) = rq.procNum := by simp
    refine ⟨rq, ?_, by simpa using hq, rfl, by simp, rfl⟩
    simp only [Rq.getProcRR, hnum, List.length_nil, Nat.zero_div, Int.toNat_natCast]
    simp only [Rq.getLoopRR, pure_bind, hz]
    rfl
  · set i := (h :: ns).length / 2 with hi
    have hle : i ≤ ns.length := by
      simp only [List.length_cons] at hi
      omega
    have hlen : (ns.take i).length = i := by simp [hle]
    have hq' : RingLinks rq (h :: (ns.take i ++ ns.drop i)) fs := by
      rw [List.take_append_drop]
      exact hq
    obtain ⟨rq', hrun, hl, hproc, hpn, hmax⟩ := hq'.getLoop
    rw [hlen] at hrun
    rw [show (h :: ns).drop (1 + i) = ns.drop i by rw [Nat.add_comm]; rfl]
    refine ⟨{ rq' with procNum := rq'.procNum - i }, ?_, ⟨⟨hl.nodup, hl.mem, hl.head, hl.free,
      hl.chain⟩, hl.ring⟩, hproc, by simp only [hpn], hmax⟩
    have hhead : rq.nextToRun = some h := hq.head
    simp only [Rq.getProcRR, hnum, hhead, Option.bind_some, Int.toNat_natCast, hrun, ok_bind]
    rfl

end Xv6Shed
