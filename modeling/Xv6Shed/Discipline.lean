import Xv6Shed.Threads

/-!
# Typing code by the locks it holds

A discipline assigns to every action the locks it may be performed under and those that are
held when it, and the code it puts in front of the rest, is done. `Ok` lifts this to code:
no lock is taken twice or dropped without being held, a CPU holds exactly its own lock when
it switches threads, and none when the code ends. Points of the code also carry a phase.
Code in the phase `free` that holds no lock may be interrupted, so it may continue on any
CPU; in the phase `handler` interrupts are off.
-/

namespace Xv6Shed.Threads
open Function

variable {C P L A σ ε Φ : Type} [DecidableEq L]

/-- Where a CPU is in its code: the locks it holds, the last one first, and the phase. -/
structure Point (C L Φ : Type) where
  cpu : C
  held : List L
  phase : Φ

/-- `pre` and `leave` say where an action may be performed, by `act` and by `switch`; `post`
where the code after it may continue; `next` is the phase right after the action. -/
structure Discipline (C P L A σ Φ : Type) where
  free : Φ
  handler : Φ
  need : Point C L Φ → Prop
  takes : Φ → L → Prop
  pre : A → Option P → Point C L Φ → Prop
  post : A → Option P → Point C L Φ → Point C L Φ → Prop
  leave : A → Option P → Point C L Φ → Prop
  next : A → C → σ → Φ → Φ
  mem : σ → Prop

namespace Discipline
variable (D : Discipline C P L A σ Φ) (own : C → L)

def Drifts (x y : Point C L Φ) : Prop :=
  y = x ∨ x.held = [] ∧ x.phase = D.free ∧ y.held = [] ∧ y.phase = D.free

/-- A switched-out thread with code `is` does not begin by dropping another CPU's lock when
it is resumed on CPU `j`. -/
@[simp] def Fits (j : C) : List (Instr L A) → Prop
  | .release (.named l) :: _ => l = own j
  | _ => True

/-- The instruction `i` may be run at the point `y`, and wherever the code after it may
continue, `K` holds. -/
def At (o : Option P) (i : Instr L A) (is : List (Instr L A)) (K : Point C L Φ → Prop)
    (y : Point C L Φ) : Prop :=
  (y.held = [] → y.phase = D.free ∨ y.phase = D.handler) ∧ D.need y ∧
  match i with
  | .acquire l => l.on own y.cpu ∉ y.held ∧ D.takes y.phase (l.on own y.cpu) ∧
      K { y with held := l.on own y.cpu :: y.held }
  | .release l => l.on own y.cpu ∈ y.held ∧ K { y with held := y.held.erase (l.on own y.cpu) }
  | .sti => y.held = [] ∧ K { y with phase := D.free }
  | .act a => D.pre a o y ∧ ∀ z, D.post a o y z → K z
  | .switch a => D.leave a o y ∧ y.held = [own y.cpu] ∧ Fits own y.cpu is ∧
      (o ≠ none → ∀ j, Fits own j is → K ⟨j, [own j], D.free⟩)

/-- The code may be run by thread `o` from the point on. -/
def Ok (o : Option P) : List (Instr L A) → Point C L Φ → Prop
  | [], x => x.held = [] ∧ x.phase = D.free
  | i :: is, x => ∀ y, D.Drifts x y → D.At own o i is (Ok o is) y

end Discipline

section
variable {D : Discipline C P L A σ Φ} {own : C → L} {o : Option P} {i : Instr L A}
  {is : List (Instr L A)} {c j : C} {x : Point C L Φ} {φ : Φ}

open Discipline

theorem Discipline.Ok.drift (h : D.Ok own o is ⟨c, [], D.free⟩) (j : C) :
    D.Ok own o is ⟨j, [], D.free⟩ := by
  cases is with
  | nil => exact ⟨rfl, rfl⟩
  | cons i is =>
    intro y hy
    apply h y
    rcases hy with rfl | ⟨-, -, hy⟩
    · exact .inr ⟨rfl, rfl, rfl, rfl⟩
    · exact .inr ⟨rfl, rfl, hy⟩

theorem ok_cons_free :
    D.Ok own o (i :: is) ⟨c, [], D.free⟩ ↔
      ∀ j, D.At own o i is (D.Ok own o is) ⟨j, [], D.free⟩ := by
  constructor
  · intro h j
    exact h.drift j _ (.inl rfl)
  · rintro h ⟨j, H, φ⟩ (hy | ⟨-, -, hH, hφ⟩)
    · rw [hy]
      exact h c
    · cases hH
      cases hφ
      exact h j

theorem ok_cons_held {l : L} {ls : List L} :
    D.Ok own o (i :: is) ⟨c, l :: ls, φ⟩ ↔
      D.At own o i is (D.Ok own o is) ⟨c, l :: ls, φ⟩ := by
  constructor
  · intro h
    exact h _ (.inl rfl)
  · rintro h y (rfl | ⟨hx, -⟩)
    · exact h
    · cases hx

theorem ok_cons_phase (hφ : x.phase ≠ D.free) :
    D.Ok own o (i :: is) x ↔ D.At own o i is (D.Ok own o is) x := by
  constructor
  · intro h
    exact h _ (.inl rfl)
  · rintro h y (rfl | ⟨-, hx, -⟩)
    · exact h
    · exact absurd hx hφ

omit [DecidableEq L] in
theorem not_fits (h : ¬ Fits own j is) :
    ∃ l is', is = .release (.named l) :: is' ∧ l ≠ own j := by
  unfold Fits at h
  split at h
  · exact ⟨_, _, rfl, h⟩
  · exact absurd trivial h

theorem Discipline.Ok.head (h : D.Ok own o (i :: is) x) :
    D.At own o i is (D.Ok own o is) x :=
  h x (.inl rfl)

end

/-- The actions of the program do what the discipline says. -/
structure Sound (G : Program C P L A σ ε) (D : Discipline C P L A σ Φ) : Prop where
  act : ∀ {a c s out H φ}, D.mem s → D.pre a (G.cur s c) ⟨c, H, φ⟩ →
    G.run a c (G.own c ∈ H) s = .ok out →
    D.mem out.mem ∧ G.cur out.mem = G.cur s ∧ (D.next a c s φ = D.handler → φ = D.handler) ∧
      ∀ is, (∀ z, D.post a (G.cur s c) ⟨c, H, φ⟩ z → D.Ok G.own (G.cur s c) is z) →
        D.Ok G.own (G.cur s c) (out.push ++ is) ⟨c, H, D.next a c s φ⟩
  switch : ∀ {a c s out φ}, D.mem s → D.leave a (G.cur s c) ⟨c, [G.own c], φ⟩ →
    G.run a c true s = .ok out →
    D.mem out.mem ∧ (∀ d, d ≠ c → G.cur out.mem d = G.cur s d) ∧ G.cur out.mem c ≠ none
  start : ∀ p j, D.Ok G.own (some p) G.start ⟨j, [G.own j], D.free⟩
  need : ∀ c, D.need ⟨c, [], D.free⟩ ∧ D.need ⟨c, [G.own c], D.free⟩
  free_ne : D.free ≠ D.handler

variable (G : Program C P L A σ ε) (D : Discipline C P L A σ Φ)

/-- CPU `c`, which holds its own lock only, is about to drop another one. -/
def Stuck (m : Machine C P L A σ) (H : C → List L) (c : C) : Prop :=
  ∃ l is, m.code c = .release (.named l) :: is ∧ l ≠ G.own c ∧ H c = [G.own c]

/-- All code is typed: CPU `c` holds the locks `H c` and is in phase `φ c`. If `dead` is true
a CPU may also be stuck. -/
structure Typed (dead : Prop) (m : Machine C P L A σ) (H : C → List L) (φ : C → Φ) : Prop where
  mem : D.mem m.mem
  holder : ∀ l c, m.holder l = some c ↔ l ∈ H c
  nodup : ∀ c, (H c).Nodup
  ncli : ∀ c, m.ncli c = (H c).length
  intr : ∀ c, H c ≠ [] → m.intr c = false
  handler : ∀ c, φ c = D.handler → m.intr c = false ∧ (H c ≠ [] → m.intena c = false)
  code : ∀ c, D.Ok G.own (G.cur m.mem c) (m.code c) ⟨c, H c, φ c⟩ ∨
    dead ∧ φ c = D.free ∧ Stuck G m H c
  ctx : ∀ p j, Discipline.Fits G.own j (m.ctx p) →
    D.Ok G.own (some p) (m.ctx p) ⟨j, [G.own j], D.free⟩

/-- What one instruction of CPU `c` did. -/
inductive Effect [DecidableEq C] [DecidableEq P] (c : C) (m : Machine C P L A σ) (H : C → List L)
    (φ : C → Φ) (m' : Machine C P L A σ) (H' : C → List L) (φ' : C → Φ) : Prop
  | lock {i : Instr L A} {is : List (Instr L A)} :
      m.code c = i :: is → (∀ a, i ≠ .act a ∧ i ≠ .switch a) → m'.mem = m.mem →
      m'.code = update m.code c is → m'.ctx = m.ctx → (∀ d, d ≠ c → H' d = H d) →
      (∀ l ∈ H' c, l ∈ H c ∨ D.takes (φ c) l) →
      φ' = φ ∨ φ' = update φ c D.free ∧ (φ c = D.free ∨ φ c = D.handler) → Effect c m H φ m' H' φ'
  | act {a : A} {is : List (Instr L A)} {out : Outcome P L A σ} :
      m.code c = .act a :: is → D.need ⟨c, H c, φ c⟩ → D.pre a (G.cur m.mem c) ⟨c, H c, φ c⟩ →
      G.run a c (G.own c ∈ H c) m.mem = .ok out →
      m' = ({ m with mem := out.mem }.spawn G out.spawn).jump c (out.push ++ is) → H' = H →
      φ' = update φ c (D.next a c m.mem (φ c)) → Effect c m H φ m' H' φ'
  | switch {a : A} {is : List (Instr L A)} {out : Outcome P L A σ} :
      m.code c = .switch a :: is → H c = [G.own c] →
      D.leave a (G.cur m.mem c) ⟨c, [G.own c], φ c⟩ → G.run a c true m.mem = .ok out →
      m' = { m with mem := out.mem }.swtch c (G.cur m.mem c) (G.cur out.mem c) is → H' = H →
      φ' = update φ c D.free → Effect c m H φ m' H' φ'

section
variable {G : Program C P L A σ ε} {D : Discipline C P L A σ Φ} {dead : Prop}
  {m m' : Machine C P L A σ} {H : C → List L} {φ : C → Φ} {c : C} {is : List (Instr L A)}
  {i : Instr L A} {a : A} {l : LockRef L} {out : Outcome P L A σ} {e : ε}

section

variable (ht : Typed G D dead m H φ)
include ht

theorem Typed.at (hcode : m.code c = i :: is) (hi : ∀ l, i ≠ .release (.named l)) :
    D.At G.own (G.cur m.mem c) i is (D.Ok G.own (G.cur m.mem c) is) ⟨c, H c, φ c⟩ := by
  rcases ht.code c with h | ⟨-, -, l, is', h, -⟩
  · rw [hcode] at h
    exact h.head
  · rw [hcode] at h
    exact absurd (List.cons.inj h).1 (hi l)

theorem Typed.at_act (hcode : m.code c = .act a :: is) :
    D.need ⟨c, H c, φ c⟩ ∧ D.pre a (G.cur m.mem c) ⟨c, H c, φ c⟩ ∧
      ∀ z, D.post a (G.cur m.mem c) ⟨c, H c, φ c⟩ z → D.Ok G.own (G.cur m.mem c) is z :=
  (ht.at hcode nofun).2

theorem Typed.at_switch (hcode : m.code c = .switch a :: is) :
    D.leave a (G.cur m.mem c) ⟨c, H c, φ c⟩ ∧ H c = [G.own c] ∧ Discipline.Fits G.own c is ∧
      (G.cur m.mem c ≠ none → ∀ j, Discipline.Fits G.own j is →
        D.Ok G.own (G.cur m.mem c) is ⟨j, [G.own j], D.free⟩) :=
  (ht.at hcode nofun).2.2

theorem Typed.at_sti (hcode : m.code c = .sti :: is) :
    H c = [] ∧ (φ c = D.free ∨ φ c = D.handler) ∧
      D.Ok G.own (G.cur m.mem c) is ⟨c, H c, D.free⟩ := by
  obtain ⟨hph, -, hH, hok⟩ := ht.at hcode nofun
  exact ⟨hH, hph hH, hok⟩

theorem Typed.excl {l : L} {d : C} (hc : l ∈ H c) (hd : l ∈ H d) : c = d :=
  Option.some.inj (((ht.holder l c).mpr hc).symm.trans ((ht.holder l d).mpr hd))

theorem Typed.holder_of_singleton {l₀ : L} (hH : H c = [l₀]) (l : L) :
    m.holder l = some c ↔ l = l₀ := by
  rw [ht.holder, hH]
  exact List.mem_singleton

theorem Typed.holder_ne_of_nil (hH : H c = []) (l : L) : m.holder l ≠ some c := by
  intro hl
  rw [ht.holder, hH] at hl
  cases hl

end

theorem Typed.need (hS : Sound G D) (ht : Typed G D dead m H φ) (c : C) :
    D.need ⟨c, H c, φ c⟩ := by
  rcases ht.code c with h | ⟨-, hφ, -, -, -, -, hH⟩
  · cases hcode : m.code c with
    | nil =>
      rw [hcode] at h
      obtain ⟨hH, hφ⟩ : H c = [] ∧ φ c = D.free := h
      rw [hH, hφ]
      exact (hS.need c).1
    | cons i is =>
      rw [hcode] at h
      exact h.head.2.1
  · rw [hH, hφ]
    exact (hS.need c).2

theorem Typed.idle (ht : Typed G D dead m H φ) (hcode : m.code c = []) :
    H c = [] ∧ φ c = D.free := by
  rcases ht.code c with h | ⟨-, -, l, is, h, -⟩
  · rw [hcode] at h
    exact h
  · rw [hcode] at h
    cases h

theorem Typed.of_intr (ht : Typed G D dead m H φ) (hi : m.intr c = true) :
    H c = [] ∧ φ c = D.free ∧ D.Ok G.own (G.cur m.mem c) (m.code c) ⟨c, [], D.free⟩ := by
  have hH : H c = [] := by
    by_contra h
    rw [ht.intr c h] at hi
    cases hi
  have hne : φ c ≠ D.handler := by
    intro h
    rw [(ht.handler c h).1] at hi
    cases hi
  rcases ht.code c with h | ⟨-, -, l, is', -, -, h⟩
  · have hφ : φ c = D.free := by
      cases hcode : m.code c with
      | nil =>
        rw [hcode] at h
        exact h.2
      | cons i is =>
        rw [hcode] at h
        exact (h.head.1 hH).resolve_right hne
    rw [hH, hφ] at h
    exact ⟨hH, hφ, h⟩
  · rw [hH] at h
    cases h

variable [DecidableEq C]

section

variable (ht : Typed G D dead m H φ)
include ht

theorem Typed.move {n : Machine C P L A σ} {h : List L} {x : Φ} (hmem : n.mem = m.mem)
    (hctx : n.ctx = m.ctx) (hcode : n.code = update m.code c is)
    (hholder : ∀ l d, n.holder l = some d ↔ l ∈ update H c h d) (hnodup : h.Nodup)
    (hncli : n.ncli = update m.ncli c h.length)
    (hother : ∀ d, d ≠ c → n.intr d = m.intr d ∧ n.intena d = m.intena d)
    (hintr : h ≠ [] → n.intr c = false)
    (hhandler : x = D.handler → n.intr c = false ∧ (h ≠ [] → n.intena c = false))
    (hok : D.Ok G.own (G.cur m.mem c) is ⟨c, h, x⟩) :
    Typed G D dead n (update H c h) (update φ c x) := by
  refine ⟨by rw [hmem]; exact ht.mem, hholder, ?_, ?_, ?_, ?_, ?_, by rw [hctx]; exact ht.ctx⟩
  all_goals
    intro d
    by_cases hd : d = c
  · subst hd
    rwa [update_self]
  · rw [update_of_ne hd]
    exact ht.nodup d
  · subst hd
    rw [hncli, update_self, update_self]
  · rw [hncli, update_of_ne hd, update_of_ne hd]
    exact ht.ncli d
  · subst hd
    rwa [update_self]
  · rw [update_of_ne hd, (hother d hd).1]
    exact ht.intr d
  · subst hd
    rwa [update_self, update_self]
  · rw [update_of_ne hd, update_of_ne hd, (hother d hd).1, (hother d hd).2]
    exact ht.handler d
  · subst hd
    rw [hmem, hcode, update_self, update_self, update_self]
    exact .inl hok
  · unfold Stuck
    rw [hmem, hcode, update_of_ne hd, update_of_ne hd, update_of_ne hd]
    exact ht.code d

theorem Typed.acquire (hcode : m.code c = .acquire l :: is)
    (hfree : m.holder (l.on G.own c) = none) :
    Typed G D dead ((m.lock c (l.on G.own c)).jump c is) (update H c (l.on G.own c :: H c)) φ ∧
      D.takes (φ c) (l.on G.own c) := by
  obtain ⟨-, -, hl, htakes, hok⟩ := ht.at hcode nofun
  generalize l.on G.own c = l at *
  refine ⟨?_, htakes⟩
  have h := ht.move (n := (m.lock c l).jump c is) (h := l :: H c) rfl rfl rfl ?_
    (List.nodup_cons.mpr ⟨hl, ht.nodup c⟩) ?_ ?_ (by simp) ?_ hok
  · rwa [update_eq_self] at h
  · intro l' d
    by_cases hl' : l' = l
    · subst hl'
      by_cases hd : d = c
      · simp [hd]
      · have : l' ∉ H d := fun h => by simpa [hfree] using (ht.holder l' d).mpr h
        simp [hd, Ne.symm hd, this]
    · by_cases hd : d = c
      · subst hd
        simpa [hl'] using ht.holder l' d
      · simpa [hl', hd] using ht.holder l' d
  · funext d
    simp [ht.ncli c]
  · intro d hd
    constructor
    · simp [hd]
    · by_cases h₀ : m.ncli c = 0 <;> simp [hd, h₀]
  · intro hφ
    obtain ⟨hi, hen⟩ := ht.handler c hφ
    refine ⟨by simp, fun _ => ?_⟩
    by_cases h₀ : m.ncli c = 0
    · simp [h₀, hi]
    · have : H c ≠ [] := fun h => h₀ (by rw [ht.ncli, h]; rfl)
      simp [h₀, hen this]

theorem Typed.release (hcode : m.code c = .release l :: is)
    (hheld : m.holder (l.on G.own c) = some c) :
    Typed G D dead ((m.unlock c (l.on G.own c)).jump c is)
      (update H c ((H c).erase (l.on G.own c))) φ := by
  have hmem := (ht.holder _ c).mp hheld
  have hat : D.At G.own (G.cur m.mem c) (.release l) is (D.Ok G.own (G.cur m.mem c) is)
      ⟨c, H c, φ c⟩ := by
    rcases ht.code c with h | ⟨-, -, l', is', h, hl', hH⟩
    · rw [hcode] at h
      exact h.head
    · rw [hcode] at h
      cases h
      rw [hH] at hmem
      exact absurd (List.mem_singleton.mp hmem) hl'
  obtain ⟨-, -, -, hok⟩ := hat
  generalize l.on G.own c = l at *
  have hpos : H c ≠ [] := List.ne_nil_of_mem hmem
  have hlen : ((H c).erase l).length = m.ncli c - 1 := by
    rw [List.length_erase_of_mem hmem, ht.ncli]
  have h := ht.move (n := (m.unlock c l).jump c is) (h := (H c).erase l) rfl rfl rfl ?_
    ((ht.nodup c).erase l) ?_ ?_ ?_ ?_ hok
  · rwa [update_eq_self] at h
  · intro l' d
    by_cases hl' : l' = l
    · subst hl'
      by_cases hd : d = c
      · subst hd
        simpa  using (ht.nodup d).not_mem_erase
      · have : l' ∉ H d := fun h => hd (by
          have := (ht.holder l' d).mpr h
          rw [hheld] at this
          exact (Option.some.inj this).symm)
        simp [hd, this]
    · by_cases hd : d = c
      · subst hd
        simpa [hl', (ht.nodup d).mem_erase_iff] using ht.holder l' d
      · simpa [hl', hd] using ht.holder l' d
  · funext d
    simp [hlen]
  · intro d hd
    refine ⟨?_, rfl⟩
    simp only [Machine.jump_intr, Machine.unlock_intr]
    split_ifs
    · rw [update_of_ne hd]
    · rfl
  · intro hne
    have hn : m.ncli c ≠ 1 := by
      intro h₁
      rw [h₁] at hlen
      exact hne (List.length_eq_zero_iff.mp hlen)
    simpa [hn] using ht.intr c hpos
  · intro hφ
    obtain ⟨hi, hen⟩ := ht.handler c hφ
    have hen := hen hpos
    exact ⟨by simpa [hen] using hi, fun _ => hen⟩

theorem Typed.sti (hne : D.free ≠ D.handler) (hcode : m.code c = .sti :: is) :
    Typed G D dead ({ m with intr := update m.intr c true }.jump c is) H (update φ c D.free) ∧
      (φ c = D.free ∨ φ c = D.handler) := by
  obtain ⟨hH, hph, hok⟩ := ht.at_sti hcode
  refine ⟨?_, hph⟩
  have h := ht.move (n := { m with intr := update m.intr c true }.jump c is) (h := H c) rfl rfl
    rfl ?_ (ht.nodup c) ?_ ?_ (absurd hH) ?_ hok
  · rwa [update_eq_self] at h
  · simpa using ht.holder
  · funext d
    simp [← ht.ncli]
  · intro d hd
    simp [hd]
  · exact fun h => absurd h hne

theorem Typed.decide_holder (l : L) (c : C) : decide (m.holder l = some c) = decide (l ∈ H c) :=
  decide_eq_decide.mpr (ht.holder l c)

theorem Typed.enter (hcode : m.code c = []) (hok : D.Ok G.own (G.cur m.mem c) is ⟨c, [], D.free⟩) :
    Typed G D dead (m.jump c is) H φ := by
  obtain ⟨hH, hφ⟩ := ht.idle hcode
  have h := ht.move (n := m.jump c is) (h := H c) (x := φ c) rfl rfl rfl
    (by simpa using ht.holder) (ht.nodup c) (by funext d; simp [← ht.ncli]) (fun _ _ => ⟨rfl, rfl⟩)
    (ht.intr c) (ht.handler c) (by rw [hH, hφ]; exact hok)
  rwa [update_eq_self, update_eq_self] at h

theorem Typed.interrupt (hi : m.intr c = true)
    (hok : D.Ok G.own (G.cur m.mem c) (m.code c) ⟨c, [], D.free⟩ →
      D.Ok G.own (G.cur m.mem c) (is ++ .sti :: m.code c) ⟨c, [], D.handler⟩) :
    Typed G D dead (m.interrupt c is) H (update φ c D.handler) := by
  obtain ⟨hH, -, h⟩ := ht.of_intr hi
  have h := ht.move (n := m.interrupt c is) (h := H c) (x := D.handler) rfl rfl rfl
    (by simpa using ht.holder) (ht.nodup c) (by funext d; simp [← ht.ncli])
    (fun d hd => ⟨by simp [hd], rfl⟩) (absurd hH) (fun _ => ⟨by simp, absurd hH⟩)
    (by rw [hH]; exact hok h)
  rwa [update_eq_self] at h

end

variable [DecidableEq P]

theorem Typed.act (hS : Sound G D) (ht : Typed G D dead m H φ) (hcode : m.code c = .act a :: is)
    (hrun : G.run a c (G.own c ∈ H c) m.mem = .ok out) :
    Typed G D dead (({ m with mem := out.mem }.spawn G out.spawn).jump c (out.push ++ is)) H
      (update φ c (D.next a c m.mem (φ c))) := by
  obtain ⟨-, hpre, hpost⟩ := ht.at_act hcode
  obtain ⟨hmem, hcur, hnext, hok⟩ := hS.act ht.mem hpre hrun
  refine ⟨hmem, ht.holder, ht.nodup, ht.ncli, ht.intr, ?_, ?_, ?_⟩
  · intro d
    by_cases hd : d = c
    · subst hd
      rw [update_self]
      exact fun h => ht.handler d (hnext h)
    · rw [update_of_ne hd]
      exact ht.handler d
  · intro d
    by_cases hd : d = c
    · subst hd
      refine .inl ?_
      simp only [Machine.jump_mem, Machine.spawn_mem, Machine.jump_code, update_self, hcur]
      exact hok is hpost
    · simpa [hcur, hd, Stuck] using ht.code d
  · intro p j
    cases hsp : out.spawn with
    | none => exact ht.ctx p j
    | some np =>
      by_cases hp : p = np
      · subst hp
        intro _
        simpa using hS.start p j
      · simpa [hp] using ht.ctx p j

theorem Typed.switch (hS : Sound G D) (ht : Typed G D dead m H φ)
    (hcode : m.code c = .switch a :: is) (hrun : G.run a c true m.mem = .ok out)
    (hfit : dead ∨ ∀ p, G.cur out.mem c = some p → G.cur m.mem c ≠ some p →
      Discipline.Fits G.own c (m.ctx p)) :
    Typed G D dead ({ m with mem := out.mem }.swtch c (G.cur m.mem c) (G.cur out.mem c) is) H
      (update φ c D.free) := by
  obtain ⟨hleave, hH, hfits, hrest⟩ := ht.at_switch hcode
  rw [hH] at hleave
  obtain ⟨hmem, hcur, hnone⟩ := hS.switch ht.mem hleave hrun
  have hφ : ∀ d, update φ c D.free d = D.handler → m.intr d = false ∧
      (H d ≠ [] → m.intena d = false) := by
    intro d
    by_cases hd : d = c
    · subst hd
      rw [update_self]
      exact fun h => absurd h hS.free_ne
    · rw [update_of_ne hd]
      exact ht.handler d
  by_cases hnp : G.cur out.mem c = G.cur m.mem c
  · rw [Machine.swtch, if_pos hnp]
    refine ⟨hmem, ht.holder, ht.nodup, ht.ncli, ht.intr, hφ, fun d => ?_, ht.ctx⟩
    by_cases hd : d = c
    · subst hd
      have hok := hrest (hnp ▸ hnone) d hfits
      exact .inl (by simpa [hnp, hH] using hok)
    · simpa [hcur d hd, hd, Stuck] using ht.code d
  · rw [Machine.swtch, if_neg hnp]
    have hctx : ∀ p j, Discipline.Fits G.own j
        ((G.cur m.mem c).elim m.ctx (fun p => update m.ctx p is) p) →
        D.Ok G.own (some p) ((G.cur m.mem c).elim m.ctx (fun p => update m.ctx p is) p)
          ⟨j, [G.own j], D.free⟩ := by
      intro p j
      cases hprev : G.cur m.mem c with
      | none => exact ht.ctx p j
      | some q =>
        by_cases hp : p = q
        · subst hp
          intro hj
          rw [hprev] at hrest
          simpa using hrest nofun j (by simpa using hj)
        · simpa [hp] using ht.ctx p j
    refine ⟨hmem, ht.holder, ht.nodup, ht.ncli, ht.intr, hφ, fun d => ?_, hctx⟩
    by_cases hd : d = c
    · subst hd
      obtain ⟨q, hq⟩ := Option.ne_none_iff_exists'.mp hnone
      have hsame : (G.cur m.mem d).elim m.ctx (fun p => update m.ctx p is) q = m.ctx q := by
        cases hprev : G.cur m.mem d with
        | none => rfl
        | some p =>
          have : q ≠ p := by
            rintro rfl
            exact hnp (hq.trans hprev.symm)
          simp [this]
      by_cases hf : Discipline.Fits G.own d (m.ctx q)
      · refine .inl ?_
        have := ht.ctx q d hf
        simpa [hq, hH, hsame] using this
      · have hdead : dead :=
          hfit.resolve_right fun h => hf (h q hq fun h' => hnp (hq.trans h'.symm))
        obtain ⟨l, is', hl, hne⟩ := not_fits hf
        exact .inr ⟨hdead, by simp, l, is', by simp [hq, hsame, hl], hne, hH⟩
    · simpa [hcur d hd, hd, Stuck] using ht.code d

/-- One instruction keeps the machine typed. A thread that is resumed has to fit the CPU,
unless CPUs may get stuck. -/
theorem Typed.exec (hS : Sound G D) (ht : Typed G D dead m H φ)
    (he : m.exec G c = .ok (some m'))
    (hfit : dead ∨ ∀ p, G.cur m'.mem c = some p → G.cur m.mem c ≠ some p →
      Discipline.Fits G.own c (m.ctx p)) :
    ∃ H' φ', Typed G D dead m' H' φ' ∧ Effect G D c m H φ m' H' φ' := by
  unfold Machine.exec at he
  cases hcode : m.code c with
  | nil =>
    rw [hcode] at he
    cases he
  | cons i is =>
    rw [hcode] at he
    cases i with
    | acquire l =>
      dsimp only at he
      split_ifs at he with h₁ h₂ <;> cases he
      obtain ⟨ht', htakes⟩ := ht.acquire hcode h₂
      refine ⟨_, _, ht', .lock hcode (fun a => ⟨nofun, nofun⟩) rfl rfl rfl ?_ ?_ (.inl rfl)⟩
      · exact fun d hd => update_of_ne hd _ _
      · intro l' hl'
        rw [update_self] at hl'
        rcases List.mem_cons.mp hl' with rfl | h
        · exact .inr htakes
        · exact .inl h
    | release l =>
      dsimp only at he
      split_ifs at he with h₁ h₂ h₃
      cases he
      refine ⟨_, _, ht.release hcode (not_not.mp h₁),
        .lock hcode (fun a => ⟨nofun, nofun⟩) rfl rfl rfl ?_ ?_ (.inl rfl)⟩
      · exact fun d hd => update_of_ne hd _ _
      · intro l' hl'
        rw [update_self] at hl'
        exact .inl (List.mem_of_mem_erase hl')
    | sti =>
      cases he
      obtain ⟨ht', hφ⟩ := ht.sti hS.free_ne hcode
      exact ⟨_, _, ht', .lock hcode (fun a => ⟨nofun, nofun⟩) rfl rfl rfl (fun _ _ => rfl)
        (fun _ => .inl) (.inr ⟨rfl, hφ⟩)⟩
    | act a =>
      dsimp only at he
      rw [ht.decide_holder] at he
      cases hrun : G.run a c (G.own c ∈ H c) m.mem with
      | error e => rw [hrun] at he; cases he
      | ok out =>
        rw [hrun] at he
        cases he
        obtain ⟨hneed, hpre, -⟩ := ht.at_act hcode
        exact ⟨_, _, ht.act hS hcode hrun, .act hcode hneed hpre hrun rfl rfl rfl⟩
    | switch a =>
      dsimp only at he
      obtain ⟨hleave, hH, -⟩ := ht.at_switch hcode
      rw [hH] at hleave
      rw [ht.decide_holder, hH, decide_eq_true (List.mem_singleton_self _)] at he
      cases hrun : G.run a c true m.mem with
      | error e => rw [hrun] at he; cases he
      | ok out =>
        rw [hrun] at he
        cases he
        rw [Machine.swtch_mem] at hfit
        exact ⟨_, _, ht.switch hS hcode hrun hfit, .switch hcode hH hleave hrun rfl rfl rfl⟩

theorem Typed.exec_act_error (ht : Typed G D dead m H φ) (hcode : m.code c = .act a :: is)
    (hrun : G.run a c (G.own c ∈ H c) m.mem = .error e) :
    m.exec G c = .error e := by
  rw [← ht.decide_holder] at hrun
  simp only [Machine.exec, hcode, hrun]

theorem Typed.exec_error (ht : Typed G D dead m H φ) (he : m.exec G c = .error e) :
    (dead ∧ e = G.panic "release" ∧ Stuck G m H c) ∨
    (∃ a is, m.code c = .act a :: is ∧ D.pre a (G.cur m.mem c) ⟨c, H c, φ c⟩ ∧
      G.run a c (G.own c ∈ H c) m.mem = .error e) ∨
    ∃ a is, m.code c = .switch a :: is ∧ G.run a c true m.mem = .error e := by
  unfold Machine.exec at he
  cases hcode : m.code c with
  | nil =>
    rw [hcode] at he
    cases he
  | cons i is =>
    rw [hcode] at he
    cases i with
    | acquire l =>
      dsimp only at he
      split_ifs at he with h₁
      obtain ⟨-, -, hl, -⟩ := ht.at hcode nofun
      exact absurd ((ht.holder _ c).mp h₁) hl
    | release l =>
      refine .inl ?_
      rcases ht.code c with h | ⟨hd, -, hs⟩
      · rw [hcode] at h
        obtain ⟨-, -, hl, -⟩ := h.head
        have hpos : H c ≠ [] := List.ne_nil_of_mem hl
        dsimp only at he
        split_ifs at he with h₁ h₂ h₃
        · exact absurd ((ht.holder _ c).mpr hl) h₁
        · exact absurd (ht.intr c hpos) (by simp [h₂])
        · exact absurd (List.length_eq_zero_iff.mp ((ht.ncli c).symm.trans h₃)) hpos
      · refine ⟨hd, ?_, hs⟩
        obtain ⟨l', is', h, hl', hH⟩ := hs
        rw [hcode] at h
        cases h
        have hne : m.holder ((LockRef.named l').on G.own c) ≠ some c :=
          fun h => hl' (List.mem_singleton.mp (hH ▸ (ht.holder l' c).mp h))
        dsimp only at he
        rw [if_pos hne] at he
        exact (Except.error.inj he).symm
    | sti => cases he
    | act a =>
      refine .inr (.inl ⟨a, is, rfl, ?_⟩)
      dsimp only at he
      rw [ht.decide_holder] at he
      obtain ⟨-, hpre, -⟩ := ht.at_act hcode
      cases hrun : G.run a c (G.own c ∈ H c) m.mem <;> rw [hrun] at he <;> cases he
      exact ⟨hpre, rfl⟩
    | switch a =>
      refine .inr (.inr ⟨a, is, rfl, ?_⟩)
      dsimp only at he
      obtain ⟨-, hH, -⟩ := ht.at_switch hcode
      rw [ht.decide_holder, hH, decide_eq_true (List.mem_singleton_self _)] at he
      cases hrun : G.run a c true m.mem <;> rw [hrun] at he <;> cases he
      rfl

end

end Xv6Shed.Threads
