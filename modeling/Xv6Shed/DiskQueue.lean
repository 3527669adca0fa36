import Xv6Shed.BufferList
import Xv6Shed.Transition

/-!
# The disk request queue

Any number of processes call `ide_rw`, each on a buffer that no other has passed to it, and the
controller raises one interrupt for every command. Buffers outside `ide_rw` may change in any way.
The history has the buffers that were passed to `ide_rw`, those that `ide_start_request` was called
for, and those whose interrupt has arrived, in the order of time.
-/

namespace Xv6Shed
open Function Linked Transition

variable {NBUF : ℕ} {P D : Type} [DecidableEq P]

structure Ide (NBUF : ℕ) (P D : Type) where
  bio : Bio NBUF D
  /-- the buffer a process has passed to `ide_rw`, and how many were appended before it -/
  pc : P → Option (Fin NBUF × ℕ)
  appended : List (Fin NBUF)
  done : List (Fin NBUF)

inductive IdeOp (NBUF : ℕ) (P D : Type) where
  /-- `ide_rw(b)`, up to its loop -/
  | ideRw (p : P) (b : Fin NBUF)
  | ideIntr
  /-- the loop of `ide_rw` ends -/
  | wait (p : P)
  /-- a store to a buffer, outside the driver -/
  | change (b : Fin NBUF) (x : Buf D)

namespace Ide

/-- `p` has appended `b`, and started the disk if necessary. -/
def enter (p : P) (b : Fin NBUF) (bio : Bio NBUF D) (s : Ide NBUF P D) : Ide NBUF P D :=
  { s with
    bio := bio
    pc := update s.pc p (some (b, s.appended.length))
    appended := s.appended ++ [b] }

/-- The interrupt of the command that was started last -/
def intr (s : Ide NBUF P D) : Ide NBUF P D :=
  { s with bio := s.bio.ideIntr, done := s.done ++ s.bio.started.getLast?.toList }

/-- No process is in `ide_rw` with this buffer. -/
def Free (s : Ide NBUF P D) (b : Fin NBUF) : Prop := ∀ p, (s.pc p).map Prod.fst ≠ some b

inductive Step (s : Ide NBUF P D) : IdeOp NBUF P D → Ide NBUF P D → Prop
  | ideRw {p : P} {b : Fin NBUF} {bio : Bio NBUF D} : s.pc p = none → s.Free b →
      s.bio.ideRw b = .ok bio → Step s (.ideRw p b) (s.enter p b bio)
  | ideIntr : s.bio.cmd.isSome = true → Step s .ideIntr s.intr
  | wait {p : P} {b : Fin NBUF} {k : ℕ} : s.pc p = some (b, k) → (s.bio.buf b).valid = true →
      (s.bio.buf b).dirty = false → Step s (.wait p) { s with pc := update s.pc p none }
  | change {b : Fin NBUF} {x : Buf D} : s.Free b →
      Step s (.change b x) { s with bio := s.bio.setBuf b x }

/-- No request yet -/
def start (bio : Bio NBUF D) : Ide NBUF P D := ⟨bio, fun _ => none, [], []⟩

/-- What holds in every state, when `qs` is the queue. -/
structure Inv (s : Ide NBUF P D) (qs : List (Fin NBUF)) : Prop where
  queued : Queued s.bio qs
  cmd : s.bio.cmd = qs.head?.map fun b => Bio.request (s.bio.buf b)
  appended : s.appended = s.done ++ qs
  started : s.bio.started = s.done ++ qs.head?.toList
  unfinished : ∀ b ∈ qs, (s.bio.buf b).valid = true → (s.bio.buf b).dirty = true
  busy : ∀ b ∈ qs, ¬ s.Free b
  ticket : ∀ p b k, s.pc p = some (b, k) → s.appended[k]? = some b

variable {s s' : Ide NBUF P D} {qs : List (Fin NBUF)} {p : P} {b : Fin NBUF} {a : IdeOp NBUF P D}

omit [DecidableEq P] in
theorem Inv.notMem (h : s.Inv qs) (hb : s.Free b) : b ∉ qs := fun hq => h.busy b hq hb

theorem not_free_enter {bio : Bio NBUF D} {c : Fin NBUF} (hp : s.pc p = none)
    (hc : c = b ∨ ¬ s.Free c) : ¬ (s.enter p b bio).Free c := by
  intro hfree
  rcases hc with rfl | hc
  · apply hfree p
    simp [Ide.enter]
  · apply hc
    intro r hr
    have hne : r ≠ p := by
      rintro rfl
      rw [hp] at hr
      cases hr
    apply hfree r
    simp only [Ide.enter, update_of_ne hne]
    exact hr

theorem Inv.enter (h : s.Inv qs) {bio : Bio NBUF D} (hp : s.pc p = none) (hb : s.Free b)
    (hr : s.bio.ideRw b = .ok bio) : (s.enter p b bio).Inv (qs ++ [b]) := by
  have hq := h.notMem hb
  obtain ⟨hflags, q, qnext, rfl, hqueued⟩ := h.queued.ideRw hq hr
  refine ⟨hqueued, ?_, ?_, ?_, fun c hc => ?_, fun c hc => ?_, fun r c k hr => ?_⟩
  · cases qs with
    | nil => rfl
    | cons x qs => exact h.cmd
  · change s.appended ++ [b] = s.done ++ (qs ++ [b])
    rw [h.appended, List.append_assoc]
  · -- the disk is started if the queue was empty
    change (if qs = [] then s.bio.started ++ [b] else s.bio.started) = s.done ++ _
    rw [h.started]
    cases qs with
    | nil => simp
    | cons x qs => rfl
  · rcases List.mem_append.mp hc with hc | hc
    · exact h.unfinished c hc
    · rw [List.mem_singleton.mp hc]
      exact hflags
  · apply not_free_enter hp
    rcases List.mem_append.mp hc with hc | hc
    · exact .inr (h.busy c hc)
    · exact .inl (List.mem_singleton.mp hc)
  · simp only [Ide.enter] at hr ⊢
    by_cases hrp : r = p
    · subst hrp
      rw [update_self] at hr
      obtain ⟨rfl, rfl⟩ := Prod.mk.inj (Option.some.inj hr)
      simp
    · rw [update_of_ne hrp] at hr
      have hk := h.ticket r c k hr
      have hlt := (List.getElem?_eq_some_iff.mp hk).1
      rw [List.getElem?_append_left hlt]
      exact hk

omit [DecidableEq P] in
theorem Inv.intr (h : s.Inv (b :: qs)) : s.intr.Inv qs := by
  have hb : b ∉ qs := (List.nodup_cons.mp h.queued.nodup).1
  have hbuf : ∀ c, c ≠ b → s.bio.ideIntr.buf c = s.bio.buf c := by
    intro c hc
    rw [h.queued.ideIntr_cons]
    exact update_of_ne hc _ _
  have hne : ∀ c ∈ qs, c ≠ b := by
    rintro c hc rfl
    exact hb hc
  have hdone : s.done ++ s.bio.started.getLast?.toList = s.done ++ [b] := by
    rw [h.started]
    simp
  refine ⟨h.queued.ideIntr, ?_, ?_, ?_, fun c hc => ?_, fun c hc => ?_, h.ticket⟩
  · change s.bio.ideIntr.cmd = qs.head?.map fun c => Bio.request (s.bio.ideIntr.buf c)
    cases hh : qs.head? with
    | none =>
      rw [h.queued.ideIntr_cons, hh]
      rfl
    | some c =>
      rw [Option.map_some, hbuf c (hne c (List.mem_of_head? hh)), h.queued.ideIntr_cons, hh]
      rfl
  · change s.appended = s.done ++ s.bio.started.getLast?.toList ++ qs
    rw [hdone, h.appended, List.append_assoc]
    rfl
  · change s.bio.ideIntr.started = s.done ++ s.bio.started.getLast?.toList ++ _
    rw [hdone, h.queued.ideIntr_cons]
    change s.bio.started ++ qs.head?.toList = _
    rw [h.started]
    rfl
  · change (s.bio.ideIntr.buf c).valid = true → (s.bio.ideIntr.buf c).dirty = true
    rw [hbuf c (hne c hc)]
    exact h.unfinished c (List.mem_cons_of_mem b hc)
  · exact h.busy c (List.mem_cons_of_mem b hc)

omit [DecidableEq P] in
theorem Inv.lt_done (h : s.Inv qs) {k : ℕ} (hp : s.pc p = some (b, k))
    (hv : (s.bio.buf b).valid = true) (hd : (s.bio.buf b).dirty = false) :
    b ∉ qs ∧ k < s.done.length ∧ s.done[k]? = some b := by
  have hq : b ∉ qs := by
    intro hq
    rw [h.unfinished b hq hv] at hd
    cases hd
  have hk := h.ticket p b k hp
  rw [h.appended] at hk
  have hlt : k < s.done.length := by
    by_contra hge
    rw [List.getElem?_append_right (by omega)] at hk
    exact hq (List.mem_of_getElem? hk)
  rw [List.getElem?_append_left hlt] at hk
  exact ⟨hq, hlt, hk⟩

theorem Inv.wait (h : s.Inv qs) {k : ℕ} (hp : s.pc p = some (b, k))
    (hv : (s.bio.buf b).valid = true) (hd : (s.bio.buf b).dirty = false) :
    ({ s with pc := update s.pc p none } : Ide NBUF P D).Inv qs := by
  have hq := (h.lt_done hp hv hd).1
  refine ⟨h.queued, h.cmd, h.appended, h.started, h.unfinished, fun c hc hfree => ?_,
    fun r c k hr => ?_⟩
  · apply h.busy c hc
    intro r hr
    by_cases hrp : r = p
    · subst hrp
      rw [hp] at hr
      obtain rfl : b = c := Option.some.inj hr
      exact hq hc
    · apply hfree r
      dsimp only
      rw [update_of_ne hrp]
      exact hr
  · dsimp only at hr
    by_cases hrp : r = p
    · rw [hrp, update_self] at hr
      cases hr
    · rw [update_of_ne hrp] at hr
      exact h.ticket r c k hr

omit [DecidableEq P] in
theorem Inv.change (h : s.Inv qs) (hb : s.Free b) (x : Buf D) :
    ({ s with bio := s.bio.setBuf b x } : Ide NBUF P D).Inv qs := by
  have hne : ∀ c ∈ qs, c ≠ b := by
    rintro c hc rfl
    exact h.notMem hb hc
  refine ⟨⟨h.queued.head, h.queued.chain, h.queued.nodup⟩, ?_, h.appended, h.started,
    fun c hc => ?_, h.busy, h.ticket⟩
  · refine h.cmd.trans ?_
    cases hh : qs.head? with
    | none => rfl
    | some c => simp [update_of_ne (hne c (List.mem_of_head? hh))]
  · simp only [Bio.setBuf_buf, update_of_ne (hne c hc)]
    exact h.unfinished c hc

theorem Inv.step (h : s.Inv qs) (hs : s.Step a s') : ∃ qs', s'.Inv qs' := by
  cases hs with
  | ideRw hp hb hr => exact ⟨_, h.enter hp hb hr⟩
  | ideIntr hcmd =>
    cases qs with
    | nil =>
      rw [h.cmd] at hcmd
      cases hcmd
    | cons b qs => exact ⟨_, h.intr⟩
  | wait hp hv hd => exact ⟨_, h.wait hp hv hd⟩
  | change hb => exact ⟨_, h.change hb _⟩

/-- In every run from an empty queue: the queue has no duplicates, a command is under way exactly
if it is not empty, and that command is for its head; `ide_start_request` is called for the buffers
in the order in which they were appended, once for each, and only for the head of the queue is its
interrupt outstanding; and `ide_rw(b)` returns after the interrupt of the command for its own
request, with `b` valid and not dirty. -/
theorem disk_queue_in_order {bio : Bio NBUF D} (hq : bio.ideQueue = none) (hcmd : bio.cmd = none)
    (hnew : bio.started = []) {s : Ide NBUF P D} (hr : Reach Step (start bio) s) :
    (∃ qs, Seg s.bio.qnext qs none ∧ s.bio.ideQueue = qs.head? ∧ qs.Nodup ∧
      s.bio.cmd = qs.head?.map (fun b => Bio.request (s.bio.buf b)) ∧
      s.appended = s.done ++ qs ∧ s.bio.started = s.done ++ qs.head?.toList) ∧
    ∀ p b k s', s.pc p = some (b, k) → s.Step (.wait p) s' →
      s.appended[k]? = some b ∧ s.done[k]? = some b ∧
      (s'.bio.buf b).valid = true ∧ (s'.bio.buf b).dirty = false := by
  obtain ⟨qs, h⟩ : ∃ qs, s.Inv qs := by
    apply hr.invariant (P := fun s => ∃ qs, s.Inv qs)
    · exact ⟨[], ⟨hq, trivial, List.nodup_nil⟩, hcmd, rfl, hnew, by simp, by simp, by simp [start]⟩
    · rintro s a s' ⟨qs, h⟩ hs
      exact h.step hs
  refine ⟨⟨qs, h.queued.chain, h.queued.head, h.queued.nodup, h.cmd, h.appended, h.started⟩, ?_⟩
  intro p b k s' hp hs
  cases hs with
  | wait hp' hv hd =>
    obtain ⟨rfl, rfl⟩ := Prod.mk.inj (Option.some.inj (hp.symm.trans hp'))
    exact ⟨h.ticket p b k hp, (h.lt_done hp hv hd).2.2, hv, hd⟩

/-- Two buffers that are to be read, and an idle disk -/
def twoReads : Bio 2 ℕ where
  buf b := ⟨true, false, false, 0, b, 0⟩
  next := fun _ => none
  prev := fun _ => none
  ideQueue := none
  qnext := fun _ => none
  disk1Present := false
  cmd := none
  started := []
  disk := fun _ sector => sector

/-- Two processes append a buffer each, and the first interrupt arrives: the first process may
return, and the disk works on the second buffer. -/
theorem disk_queue_in_order_two : ∃ s : Ide 2 Bool ℕ, Reach Step (start twoReads) s ∧
    s.appended = [0, 1] ∧ s.done = [0] ∧ s.pc false = some (0, 0) ∧ s.pc true = some (1, 1) ∧
    ∃ qs, s.bio.ideQueue = qs.head? ∧ s.appended = s.done ++ qs ∧
      s.bio.started = s.done ++ qs.head?.toList := by
  have hfree : ∀ (s : Ide 2 Bool ℕ) b,
      (s.pc false).map Prod.fst ≠ some b ∧ (s.pc true).map Prod.fst ≠ some b → s.Free b := by
    intro s b hb p
    cases p with
    | false => exact hb.1
    | true => exact hb.2
  obtain ⟨s, hr, happ, hdone, h₀, h₁⟩ : ∃ s : Ide 2 Bool ℕ, Reach Step (start twoReads) s ∧
      s.appended = [0, 1] ∧ s.done = [0] ∧ s.pc false = some (0, 0) ∧ s.pc true = some (1, 1) := by
    refine ⟨_, .next (.next (.next .start (.ideRw (p := false) (b := 0) rfl ?_ rfl))
      (.ideRw (p := true) (b := 1) rfl ?_ rfl)) (.ideIntr ?_), rfl, rfl, rfl, rfl⟩
    · exact hfree _ _ (by decide)
    · exact hfree _ _ (by decide)
    · rfl
  obtain ⟨⟨qs, -, hhead, -, -, happ', hstart⟩, -⟩ := disk_queue_in_order rfl rfl rfl hr
  exact ⟨s, hr, happ, hdone, h₀, h₁, qs, hhead, happ', hstart⟩

end Ide

end Xv6Shed
