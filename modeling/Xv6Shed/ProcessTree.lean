import Mathlib.Tactic.Common
import Mathlib.Logic.Function.Basic
import Xv6Shed.Transition

/-!
# Parents, children and what is told about them

An abstract process table. A slot is unused, or its process is being made, is alive, or has
exited; every process made has a serial number of its own. A process makes another one in
several steps, exits, and collects those of its children that have exited. The history
records the results: a process was made by another, has exited, was collected.
-/

namespace Xv6Shed
open Function Transition

/-- How far a process is in its life. -/
inductive Life where
  | unused
  | embryo
  | alive
  | zombie
  deriving DecidableEq

/-- Where a process is: `forking`, `copied` and `failing` are inside `fork`, with the slot that
was allocated; `failing` has given the slot up and has still to clear its parent field. -/
inductive Stage (P : Type) where
  | user
  | forking (np : P)
  | copied (np : P)
  | failing (np : P)
  | waiting
  | exiting
  deriving DecidableEq

/-- The slot in which a process is making another. -/
def Stage.makes {P : Type} : Stage P → Option P
  | .forking np => some np
  | .copied np => some np
  | _ => none

/-- Processes are named by numbers of type `N`. -/
inductive TreeEvent (N : Type) where
  /-- `fork` returned `child` to `creator` -/
  | forked (creator child : N)
  /-- the process became a zombie -/
  | exited (n : N)
  /-- `wait` returned `child` to `caller` -/
  | waited (caller child : N)
  deriving DecidableEq

/-- The process an event is about. -/
def TreeEvent.subject {N : Type} : TreeEvent N → N
  | .forked _ child => child
  | .exited n => n
  | .waited _ child => child

/-- The numbers in an event have property `Q`. -/
def TreeEvent.All {N : Type} (Q : N → Prop) : TreeEvent N → Prop
  | .forked creator child => Q creator ∧ Q child
  | .exited n => Q n
  | .waited caller child => Q caller ∧ Q child

variable {N : Type} {Q : N → Prop} {e : TreeEvent N}

theorem TreeEvent.All.subject (h : e.All Q) :
    Q e.subject := by
  cases e with
  | forked creator child => exact h.2
  | exited n => exact h
  | waited caller child => exact h.2

theorem TreeEvent.All.mono {R : N → Prop} (hQ : ∀ n, Q n → R n) (h : e.All Q) : e.All R := by
  cases e with
  | forked creator child => exact ⟨hQ _ h.1, hQ _ h.2⟩
  | exited n => exact hQ _ h
  | waited caller child => exact ⟨hQ _ h.1, hQ _ h.2⟩

/-- The same event, with other names. -/
def TreeEvent.map {N M : Type} (f : N → M) : TreeEvent N → TreeEvent M
  | .forked creator child => .forked (f creator) (f child)
  | .exited n => .exited (f n)
  | .waited caller child => .waited (f caller) (f child)

/-- A history, the latest event first, in which no number is returned twice by `fork` or by
`wait`, and `wait` returns a process that has exited, to its creator or, if that has exited, to
`init`. -/
def Accounted {N : Type} (init : N) : List (TreeEvent N) → Prop
  | [] => True
  | .forked _ child :: history =>
    (∀ creator, .forked creator child ∉ history) ∧ Accounted init history
  | .exited _ :: history => Accounted init history
  | .waited caller child :: history =>
    .exited child ∈ history ∧ (∀ caller', .waited caller' child ∉ history) ∧
    (∃ creator, .forked creator child ∈ history ∧
      (caller = creator ∧ .exited creator ∉ history ∨
        caller = init ∧ .exited creator ∈ history)) ∧ Accounted init history

section
variable {N M : Type} {f : N → M} {Q : N → Prop} {history : List (TreeEvent N)} {m m' : M}

theorem Accounted.creator_eq {init n n' child : N} (h : Accounted init history)
    (hn : .forked n child ∈ history) (hn' : .forked n' child ∈ history) : n = n' := by
  induction history with
  | nil => cases hn
  | cons e history ih =>
    have hrest : Accounted init history := by
      cases e with
      | forked _ _ => exact h.2
      | exited _ => exact h
      | waited _ _ => exact h.2.2.2
    rcases List.mem_cons.mp hn with rfl | hm
    · rcases List.mem_cons.mp hn' with he | hm'
      · exact (TreeEvent.forked.inj he).1.symm
      · exact absurd hm' (h.1 n')
    · rcases List.mem_cons.mp hn' with rfl | hm'
      · exact absurd hm (h.1 n)
      · exact ih hrest hm hm'

theorem exists_of_forked_mem_map (h : TreeEvent.forked m m' ∈ history.map (TreeEvent.map f)) :
    ∃ n n', TreeEvent.forked n n' ∈ history ∧ f n = m ∧ f n' = m' := by
  obtain ⟨e, he, hem⟩ := List.mem_map.mp h
  cases e with
  | forked n n' => exact ⟨n, n', he, (TreeEvent.forked.inj hem).1, (TreeEvent.forked.inj hem).2⟩
  | exited n => cases hem
  | waited n n' => cases hem

theorem exists_of_exited_mem_map (h : TreeEvent.exited m ∈ history.map (TreeEvent.map f)) :
    ∃ n, TreeEvent.exited n ∈ history ∧ f n = m := by
  obtain ⟨e, he, hem⟩ := List.mem_map.mp h
  cases e with
  | forked n n' => cases hem
  | exited n => exact ⟨n, he, TreeEvent.exited.inj hem⟩
  | waited n n' => cases hem

theorem exists_of_waited_mem_map (h : TreeEvent.waited m m' ∈ history.map (TreeEvent.map f)) :
    ∃ n n', TreeEvent.waited n n' ∈ history ∧ f n' = m' := by
  obtain ⟨e, he, hem⟩ := List.mem_map.mp h
  cases e with
  | forked n n' => cases hem
  | exited n => cases hem
  | waited n n' => exact ⟨n, n', he, (TreeEvent.waited.inj hem).2⟩

theorem Accounted.map (hf : ∀ n m, Q n → Q m → f n = f m → n = m) {init : N}
    (hall : ∀ e ∈ history, e.All Q) (h : Accounted init history) :
    Accounted (f init) (history.map (TreeEvent.map f)) := by
  induction history with
  | nil => trivial
  | cons e history ih =>
    have hall' : ∀ e ∈ history, e.All Q := fun e he => hall e (List.mem_cons_of_mem _ he)
    have he := hall e List.mem_cons_self
    cases e with
    | forked creator child =>
      refine ⟨fun m hm => ?_, ih hall' h.2⟩
      obtain ⟨n, n', hn, -, hnm⟩ := exists_of_forked_mem_map hm
      obtain rfl := hf n' child (hall' _ hn).2 he.2 hnm
      exact h.1 n hn
    | exited n => exact ih hall' h
    | waited caller child =>
      obtain ⟨hex, honce, ⟨creator, hcr, hby⟩, hrest⟩ := h
      refine ⟨List.mem_map_of_mem hex, fun m hm => ?_, ⟨f creator, List.mem_map_of_mem hcr, ?_⟩,
        ih hall' hrest⟩
      · obtain ⟨n, n', hn, hnm⟩ := exists_of_waited_mem_map hm
        obtain rfl := hf n' child (hall' _ hn).2 he.2 hnm
        exact honce n hn
      · rcases hby with ⟨rfl, hno⟩ | ⟨rfl, hyes⟩
        · refine .inl ⟨rfl, fun hm => ?_⟩
          obtain ⟨n, hn, hnm⟩ := exists_of_exited_mem_map hm
          obtain rfl := hf n caller (hall' _ hn) he.1 hnm
          exact hno hn
        · exact .inr ⟨rfl, List.mem_map_of_mem hyes⟩

end

structure Tree (P : Type) where
  life : P → Life
  serial : P → ℕ
  parent : P → Option P
  /-- the number of processes made so far -/
  count : ℕ
  init : P
  stage : P → Stage P
  history : List (TreeEvent ℕ)

variable {P : Type} [DecidableEq P]

namespace Tree

/-- The steps of process `p`. -/
inductive Step (t : Tree P) (p : P) : Tree P → Prop
  | alloc {np : P} : t.life p = .alive → t.stage p = .user → t.life np = .unused →
      Step t p { t with
        life := update t.life np .embryo
        serial := update t.serial np t.count
        count := t.count + 1
        stage := update t.stage p (.forking np) }
  | giveUp {np : P} : t.life p = .alive → t.stage p = .forking np →
      Step t p { t with
        life := update t.life np .unused
        stage := update t.stage p .user }
  | copy {np : P} : t.life p = .alive → t.stage p = .forking np →
      Step t p { t with
        parent := update t.parent np (some p)
        stage := update t.stage p (.copied np) }
  | fail {np : P} : t.life p = .alive → t.stage p = .forking np →
      Step t p { t with
        life := update t.life np .unused
        parent := update t.parent np (some p)
        stage := update t.stage p (.failing np) }
  | drop {np : P} : t.life p = .alive → t.stage p = .failing np →
      Step t p { t with
        parent := update t.parent np none
        stage := update t.stage p .user }
  | fork {np : P} : t.life p = .alive → t.stage p = .copied np →
      Step t p { t with
        life := update t.life np .alive
        stage := update (update t.stage p .user) np .user
        history := .forked (t.serial p) (t.serial np) :: t.history }
  | exit : t.life p = .alive → t.stage p = .user → p ≠ t.init →
      Step t p { t with stage := update t.stage p .exiting }
  | exited : t.life p = .alive → t.stage p = .exiting →
      Step t p { t with
        life := update t.life p .zombie
        parent := fun q => if t.parent q = some p then some t.init else t.parent q
        stage := update t.stage p .user
        history := .exited (t.serial p) :: t.history }
  | wait : t.life p = .alive → t.stage p = .user →
      Step t p { t with stage := update t.stage p .waiting }
  | waited {q : P} : t.life p = .alive → t.stage p = .waiting → t.life q = .zombie →
      t.parent q = some p →
      Step t p { t with
        life := update t.life q .unused
        parent := update t.parent q none
        stage := update t.stage p .user
        history := .waited (t.serial p) (t.serial q) :: t.history }
  | childless : t.life p = .alive → t.stage p = .waiting →
      Step t p { t with stage := update t.stage p .user }

/-- What holds along every run. -/
structure Inv (t : Tree P) : Prop where
  count : ∀ p, t.life p ≠ .unused → t.serial p < t.count
  inj : ∀ p p', t.life p ≠ .unused → t.life p' ≠ .unused → t.serial p = t.serial p' → p = p'
  past : ∀ e ∈ t.history, e.All (· < t.count)
  init : t.life t.init = .alive ∧ t.stage t.init ≠ .exiting
  busy : ∀ p, t.stage p ≠ .user → t.life p = .alive
  makes : ∀ p np, (t.stage p).makes = some np → t.life np = .embryo
  maker : ∀ p p' np, (t.stage p).makes = some np → (t.stage p').makes = some np → p = p'
  copied : ∀ p np, t.stage p = .copied np → t.parent np = some p ∨ t.parent np = none
  early : ∀ p q, t.life p = .unused ∨ t.life p = .embryo → t.parent p = some q →
    t.stage q = .failing p ∨ t.stage q = .copied p
  new : ∀ p, t.life p = .embryo → ∀ e ∈ t.history, e.subject ≠ t.serial p
  dead : ∀ p, t.life p ≠ .unused → (.exited (t.serial p) ∈ t.history ↔ t.life p = .zombie)
  gone : ∀ w n, .waited w n ∈ t.history → ∀ p, t.life p ≠ .unused → t.serial p ≠ n
  family : ∀ p q, t.life p = .alive ∨ t.life p = .zombie → t.parent p = some q →
    t.life q = .alive ∧ (.forked (t.serial q) (t.serial p) ∈ t.history ∨
      q = t.init ∧ ∃ n, .forked n (t.serial p) ∈ t.history ∧ .exited n ∈ t.history)
  accounted : Accounted (t.serial t.init) t.history

variable {t t' : Tree P} {p np : P} {x : Stage P}

section

variable (h : t.Inv)
include h

theorem Inv.setStage (hp : t.life p = .alive) (hst : t.stage p = .user ∨ t.stage p = .waiting)
    (hx : x = .user ∨ x = .waiting ∨ x = .exiting ∧ p ≠ t.init) :
    Inv { t with stage := update t.stage p x } := by
  refine ⟨h.count, h.inj, h.past, ⟨h.init.1, ?_⟩, ?_, ?_, ?_, ?_, ?_, h.new, h.dead, h.gone,
    h.family, h.accounted⟩ <;> simp only [update_apply]
  · have := h.init.2
    grind
  · have := h.busy
    grind
  · have := h.makes
    grind [Stage.makes]
  · have := h.maker
    grind [Stage.makes]
  · have := h.copied
    grind
  · have := h.early
    grind

theorem Inv.alloc (hp : t.life p = .alive) (hst : t.stage p = .user) (hu : t.life np = .unused) :
    Inv { t with
      life := update t.life np .embryo
      serial := update t.serial np t.count
      count := t.count + 1
      stage := update t.stage p (.forking np) } := by
  have hne : ∀ q, t.life q ≠ .unused → q ≠ np := by
    rintro q hq rfl
    exact hq hu
  have hinit := hne t.init (by simp [h.init.1])
  -- the new number is not in the history
  have hnew : ∀ e ∈ t.history, e.subject ≠ t.count := fun e he =>
    Nat.ne_of_lt (h.past e he).subject
  refine ⟨?_, ?_, ?_, ⟨?_, ?_⟩, ?_, ?_, ?_, ?_, ?_, ?_, ?_, ?_, ?_, ?_⟩ <;>
    simp only [update_apply]
  · have := h.count
    grind
  · have := h.count
    have := h.inj
    grind
  · intro e he
    exact (h.past e he).mono fun _ => Nat.lt_succ_of_lt
  · rw [if_neg hinit]
    exact h.init.1
  · have := h.init.2
    grind
  · have := h.busy
    grind
  · have := h.makes
    grind [Stage.makes]
  · have := h.makes
    have := h.maker
    grind [Stage.makes]
  · have := h.copied
    grind
  · have := h.early
    grind
  · have := h.new
    grind
  · have hd := h.dead
    have := hnew (.exited t.count)
    grind [TreeEvent.subject]
  · have := h.gone
    intro w n hw
    have := hnew (.waited w n) hw
    grind [TreeEvent.subject]
  · have := h.family
    grind
  · rw [if_neg hinit]
    exact h.accounted

omit [DecidableEq P] in
/-- The slot a process is making is its own work: it is embryonic, and no other process makes it. -/
theorem Inv.making (hm : (t.stage p).makes = some np) :
    t.life np = .embryo ∧ np ≠ t.init ∧ ∀ q, q ≠ p → (t.stage q).makes ≠ some np := by
  have he := h.makes p np hm
  refine ⟨he, ?_, fun q hq hq' => hq (h.maker q p np hq' hm)⟩
  rintro rfl
  rw [h.init.1] at he
  cases he

theorem Inv.abandon {r : Option P} (hp : t.life p = .alive) (hst : t.stage p = .forking np)
    (hx : x = .user ∧ r = t.parent np ∨ x = .failing np ∧ r = some p) :
    Inv { t with
      life := update t.life np .unused
      parent := update t.parent np r
      stage := update t.stage p x } := by
  obtain ⟨he, hinit, hother⟩ := h.making (p := p) (by rw [hst]; rfl)
  refine ⟨?_, ?_, h.past, ⟨?_, ?_⟩, ?_, ?_, ?_, ?_, ?_, ?_, ?_, ?_, ?_, h.accounted⟩ <;>
    simp only [update_apply]
  · have := h.count
    grind
  · have := h.inj
    grind
  · rw [if_neg hinit.symm]
    exact h.init.1
  · have := h.init.2
    grind
  · have := h.busy
    grind
  · have := h.makes
    grind [Stage.makes]
  · have := h.maker
    grind [Stage.makes]
  · have := h.copied
    grind [Stage.makes]
  · have := h.early
    grind
  · have := h.new
    grind
  · have := h.dead
    grind
  · have := h.gone
    grind
  · have := h.family
    grind

theorem Inv.copy (hp : t.life p = .alive) (hst : t.stage p = .forking np) :
    Inv { t with
      parent := update t.parent np (some p)
      stage := update t.stage p (.copied np) } := by
  obtain ⟨he, hinit, hother⟩ := h.making (p := p) (by rw [hst]; rfl)
  refine ⟨h.count, h.inj, h.past, ⟨h.init.1, ?_⟩, ?_, ?_, ?_, ?_, ?_, h.new, h.dead, h.gone, ?_,
    h.accounted⟩ <;> simp only [update_apply]
  · have := h.init.2
    grind
  · have := h.busy
    grind
  · have := h.makes
    grind [Stage.makes]
  · have := h.maker
    grind [Stage.makes]
  · have := h.copied
    grind [Stage.makes]
  · have := h.early
    grind
  · have := h.family
    grind

theorem Inv.drop (hst : t.stage p = .failing np) :
    Inv { t with parent := update t.parent np none, stage := update t.stage p .user } := by
  refine ⟨h.count, h.inj, h.past, ⟨h.init.1, ?_⟩, ?_, ?_, ?_, ?_, ?_, h.new, h.dead, h.gone, ?_,
    h.accounted⟩ <;> simp only [update_apply]
  · have := h.init.2
    grind
  · have := h.busy
    grind
  · have := h.makes
    grind [Stage.makes]
  · have := h.maker
    grind [Stage.makes]
  · have := h.copied
    grind
  · have := h.early
    grind
  · have := h.family
    grind

theorem Inv.fork (hp : t.life p = .alive) (hst : t.stage p = .copied np) :
    Inv { t with
      life := update t.life np .alive
      stage := update (update t.stage p .user) np .user
      history := .forked (t.serial p) (t.serial np) :: t.history } := by
  obtain ⟨he, hinit, hother⟩ := h.making (p := p) (by rw [hst]; rfl)
  have hu : t.life np ≠ .unused := by simp [he]
  have hnew := h.new np he
  have huser : t.stage np = .user := by
    by_contra hn
    rw [h.busy np hn] at he
    cases he
  refine ⟨?_, ?_, ?_, ⟨?_, ?_⟩, ?_, ?_, ?_, ?_, ?_, ?_, ?_, ?_, ?_, ?_⟩ <;>
    simp only [update_apply, List.mem_cons]
  · have := h.count
    grind
  · have := h.inj
    grind
  · rintro e (rfl | hm)
    · exact ⟨h.count p (by simp [hp]), h.count np hu⟩
    · exact h.past e hm
  · rw [if_neg hinit.symm]
    exact h.init.1
  · have := h.init.2
    grind
  · have := h.busy
    grind
  · have := h.makes
    grind [Stage.makes]
  · have := h.maker
    grind [Stage.makes]
  · have := h.copied
    grind
  · have := h.early
    grind
  · have := h.new
    have := h.inj
    grind [TreeEvent.subject]
  · have := h.dead
    have := hnew (.exited (t.serial np))
    grind [TreeEvent.subject]
  · have := h.gone
    grind
  · -- the parent of the new process is the one that made it
    have := h.family
    have := h.copied p np hst
    grind
  · refine ⟨fun n hn => ?_, h.accounted⟩
    exact hnew _ hn rfl

theorem Inv.exited (hp : t.life p = .alive) (hst : t.stage p = .exiting) :
    Inv { t with
      life := update t.life p .zombie
      parent := fun q => if t.parent q = some p then some t.init else t.parent q
      stage := update t.stage p .user
      history := .exited (t.serial p) :: t.history } := by
  have hinit : p ≠ t.init := by
    rintro rfl
    exact h.init.2 hst
  have hu : t.life p ≠ .unused := by simp [hp]
  refine ⟨?_, ?_, ?_, ⟨?_, ?_⟩, ?_, ?_, ?_, ?_, ?_, ?_, ?_, ?_, ?_, h.accounted⟩ <;>
    simp only [update_apply, List.mem_cons]
  · have := h.count
    grind
  · have := h.inj
    grind
  · rintro e (rfl | hm)
    · exact h.count p hu
    · exact h.past e hm
  · rw [if_neg hinit.symm]
    exact h.init.1
  · have := h.init.2
    grind
  · have := h.busy
    grind
  · have := h.makes
    grind [Stage.makes]
  · have := h.maker
    grind [Stage.makes]
  · have := h.copied
    grind
  · have := h.early
    grind
  · have := h.new
    have := h.inj
    grind [TreeEvent.subject]
  · have := h.dead
    have := h.inj
    grind
  · have := h.gone
    grind
  · -- the children of `p` go to init, and `p` has exited
    intro q r hq hr
    have hq' : t.life q = .alive ∨ t.life q = .zombie := by grind
    by_cases hc : t.parent q = some p
    · rw [if_pos hc] at hr
      obtain rfl := Option.some.inj hr
      have hf := (h.family q p hq' hc).2
      have := h.init.1
      grind
    · rw [if_neg hc] at hr
      have hf := h.family q r hq' hr
      grind

theorem Inv.waited {q : P} (hp : t.life p = .alive) (hst : t.stage p = .waiting)
    (hq : t.life q = .zombie) (hpar : t.parent q = some p) :
    Inv { t with
      life := update t.life q .unused
      parent := update t.parent q none
      stage := update t.stage p .user
      history := .waited (t.serial p) (t.serial q) :: t.history } := by
  have hinit : t.init ≠ q := by
    rintro rfl
    have := h.init.1
    rw [hq] at this
    cases this
  have hu : t.life q ≠ .unused := by simp [hq]
  refine ⟨?_, ?_, ?_, ⟨?_, ?_⟩, ?_, ?_, ?_, ?_, ?_, ?_, ?_, ?_, ?_, ?_⟩ <;>
    simp only [update_apply, List.mem_cons]
  · have := h.count
    grind
  · have := h.inj
    grind
  · rintro e (rfl | hm)
    · exact ⟨h.count p (by simp [hp]), h.count q hu⟩
    · exact h.past e hm
  · rw [if_neg hinit]
    exact h.init.1
  · have := h.init.2
    grind
  · have := h.busy
    grind
  · have := h.makes
    grind [Stage.makes]
  · have := h.maker
    grind [Stage.makes]
  · have := h.copied
    grind
  · have := h.early
    grind
  · have := h.new
    have := h.inj
    grind [TreeEvent.subject]
  · have := h.dead
    grind
  · have := h.gone
    have := h.inj
    grind
  · have := h.family
    grind
  · refine ⟨(h.dead q hu).mpr hq, fun w hw => h.gone w _ hw q hu rfl, ?_, h.accounted⟩
    -- the caller is alive, so it is the creator, or init after the creator's exit
    have hme : .exited (t.serial p) ∉ t.history := by
      rw [h.dead p (by simp [hp]), hp]
      exact Life.noConfusion
    obtain ⟨-, hf | ⟨rfl, m, hf, hm⟩⟩ := h.family q p (.inr hq) hpar
    · exact ⟨_, hf, .inl ⟨rfl, hme⟩⟩
    · exact ⟨m, hf, .inr ⟨rfl, hm⟩⟩

theorem Inv.step (hs : t.Step p t') : t'.Inv := by
  cases hs with
  | alloc hp hst hu => exact h.alloc hp hst hu
  | giveUp hp hst =>
    have ha := h.abandon hp hst (.inl ⟨rfl, rfl⟩)
    rwa [update_eq_self] at ha
  | copy hp hst => exact h.copy hp hst
  | fail hp hst => exact h.abandon hp hst (.inr ⟨rfl, rfl⟩)
  | drop hp hst => exact h.drop hst
  | fork hp hst => exact h.fork hp hst
  | exit hp hst hi => exact h.setStage hp (.inl hst) (.inr (.inr ⟨rfl, hi⟩))
  | exited hp hst => exact h.exited hp hst
  | wait hp hst => exact h.setStage hp (.inl hst) (.inr (.inl rfl))
  | waited hp hst hq hpar => exact h.waited hp hst hq hpar
  | childless hp hst => exact h.setStage hp (.inr hst) (.inl rfl)

end

/-- A process that was made has a parent. -/
structure Kept (t : Tree P) : Prop where
  copied : ∀ p np, t.stage p = .copied np → t.parent np ≠ none
  forked : ∀ p n, .forked n (t.serial p) ∈ t.history → t.life p ≠ .unused → t.parent p ≠ none

/-- It keeps one as long as no `fork` that has failed clears the parent field of a slot that is
in use again. -/
theorem Kept.step (h : t.Kept) (hi : t.Inv) (hs : t.Step p t')
    (hlate : ∀ np, t.stage p = .failing np → t.life np = .unused) : t'.Kept := by
  have hc := h.copied
  have hf := h.forked
  have hmakes := hi.makes
  cases hs with
  | alloc hp hst hu =>
    have hnew : ∀ n, TreeEvent.forked n t.count ∉ t.history := fun n hn =>
      Nat.lt_irrefl _ (hi.past _ hn).2
    constructor <;> simp only [update_apply]
    · grind
    · grind
  | giveUp hp hst =>
    constructor <;> simp only [update_apply]
    · grind
    · grind
  | copy hp hst =>
    constructor <;> simp only [update_apply]
    · grind
    · grind
  | fail hp hst =>
    constructor <;> simp only [update_apply]
    · grind
    · grind
  | drop hp hst =>
    have hu := hlate _ hst
    constructor <;> simp only [update_apply]
    · grind [Stage.makes]
    · grind
  | fork hp hst =>
    have hinj := hi.inj
    have he := hmakes p _ (by rw [hst]; rfl)
    constructor <;> simp only [update_apply, List.mem_cons]
    · grind
    · grind
  | exit hp hst hinit =>
    constructor <;> simp only [update_apply]
    · grind
    · exact hf
  | exited hp hst =>
    constructor <;> simp only [update_apply, List.mem_cons]
    · grind
    · grind
  | wait hp hst =>
    constructor <;> simp only [update_apply]
    · grind
    · exact hf
  | waited hp hst hq hpar =>
    constructor <;> simp only [update_apply, List.mem_cons]
    · grind [Stage.makes]
    · grind
  | childless hp hst =>
    constructor <;> simp only [update_apply]
    · grind
    · exact hf

end Tree

end Xv6Shed
