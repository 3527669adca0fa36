import Mathlib.Logic.Relation
import Xv6Shed.Smp

/-!
# The order of the scheduler's locks

The calls of `acquire` and `release` on `proc_table_lock` and the run queue locks, as code for
the machine of `Threads`; what the routines do between them is left out, and `schedule` may
turn to any process. A CPU waits for another one if it is about to take a lock the other holds.
-/

namespace Xv6Shed.Order
open Function Threads Transition

variable {n : ℕ} {P : Type} [DecidableEq P]

inductive Sect (n : ℕ) where
  /-- `sleep(chan, lk)`, the first test of `lk` -/
  | sleep (lk : LockId n)
  /-- `sleep(chan, lk)`, the second test of `lk` -/
  | sleepEnd (lk : LockId n)
  /-- `procdump()`, the two loops over the CPUs -/
  | procdump
  | panic (msg : String)
  | schedule
  deriving DecidableEq

abbrev Code (n : ℕ) := List (Instr (LockId n) (Sect n))

namespace Code

/-- `sleep(chan, lk)` on CPU `c` -/
def sleep (c : Fin n) (lk : LockId n) : Code n :=
  (if lk = .procTable then [.acquire .own]
    else if lk = .rq c then [.acquire (.named .procTable)]
    else [.acquire (.named .procTable), .acquire .own, .release (.named lk)]) ++
  [.release (.named .procTable), .switch .schedule, .acquire (.named .procTable),
    .act (.sleepEnd lk)]

/-- The end of `sleep(chan, lk)` on CPU `c` -/
def sleepEnd (c : Fin n) (lk : LockId n) : Code n :=
  if lk = .procTable then [.release .own]
  else if lk = .rq c then [.release (.named .procTable)]
  else [.release (.named .procTable), .release .own, .acquire (.named lk)]

/-- The other CPUs, in the order of the loops of `procdump` -/
def others (c : Fin n) : List (Fin n) := (List.finRange n).filter (· ≠ c)

/-- The loops of `procdump()` on CPU `c` -/
def procdump (c : Fin n) : Code n :=
  (others c).map (fun i => .acquire (.named (.rq i))) ++
  (others c).map fun i => .release (.named (.rq i))

end Code

/-- What a process calls, also in an interrupt handler. -/
inductive Call (n : ℕ) where
  /-- `acquire(lk)`, `k` calls of `sleep(chan, lk)`, `release(lk)` -/
  | sleep (lk : LockId n) (k : ℕ)
  | wakeup
  | exit
  /-- `wait()`, with `k` rounds of its loop -/
  | wait (k : ℕ)
  | yield
  deriving DecidableEq

/-- What an interrupt handler calls. -/
inductive Handler (n : ℕ) where
  | call (r : Call n)
  /-- `proc_tick_MLFQ`, when the slice of the process has run out -/
  | procTick
  /-- `load_balance_MLFQ`, with the busiest queue -/
  | loadBalance (src : Fin n)
  | procdump
  deriving DecidableEq

def Call.code : Call n → Code n
  | .sleep lk k =>
    .acquire (.named lk) :: (List.replicate k (.act (.sleep lk)) ++ [.release (.named lk)])
  | .wakeup => [.acquire (.named .procTable), .acquire .own, .release .own,
      .release (.named .procTable)]
  | .exit => [.acquire (.named .procTable), .acquire .own, .release (.named .procTable),
      .switch .schedule, .act (.panic "zombie exit")]
  | .wait k => .acquire (.named .procTable) ::
      (List.replicate k (.act (.sleep .procTable)) ++ [.release (.named .procTable)])
  | .yield => [.acquire .own, .switch .schedule, .release .own]

def Handler.code (c : Fin n) : Handler n → Code n
  | .call r => r.code
  | .procTick => [.acquire (.named (.rq c)), .switch .schedule, .release (.named (.rq c))]
  | .loadBalance src => [.acquire (.named (.rq src)), .release (.named (.rq src)),
      .acquire (.named (.rq c)), .release (.named (.rq c))]
  | .procdump => [.acquire (.named .procTable), .act .procdump, .release (.named .procTable)]

/-- The current process of every CPU, and the one `schedule` turns to next. -/
structure Cpus (n : ℕ) (P : Type) where
  cur : Fin n → P
  next : Fin n → P

def Sect.run (c : Fin n) (s : Cpus n P) :
    Sect n → Except Fault (Outcome P (LockId n) (Sect n) (Cpus n P))
  | .sleep lk => .ok ⟨s, Code.sleep c lk, none⟩
  | .sleepEnd lk => .ok ⟨s, Code.sleepEnd c lk, none⟩
  | .procdump => .ok ⟨s, Code.procdump c, none⟩
  | .panic msg => .error (.panic msg)
  | .schedule => .ok ⟨{ s with cur := update s.cur c (s.next c) }, [], none⟩

/-- The routines as a program of the machine. A new process starts in `forkret`. -/
def locks (n : ℕ) (P : Type) : Program (Fin n) P (LockId n) (Sect n) (Cpus n P) Fault where
  own := .rq
  cur s c := some (s.cur c)
  run a c _ s := a.run c s
  start := [.release .own, .sti]
  panic := .panic

abbrev State (n : ℕ) (P : Type) := Machine (Fin n) P (LockId n) (Sect n) (Cpus n P)

/-- Every CPU runs a process in user mode; no process has been switched out. -/
def start (cur : Fin n → P) : State n P where
  mem := ⟨cur, cur⟩
  holder _ := none
  ncli _ := 0
  intena _ := false
  intr _ := true
  code _ := []
  ctx _ := [.release .own, .sti]

inductive Event (n : ℕ) (P : Type) where
  | exec
  /-- `p` is the process `schedule` will find. -/
  | pick (p : P)
  | call (r : Call n)
  | interrupt (r : Handler n)

/-- The step of CPU `c`, if it is possible. -/
def step (c : Fin n) (m : State n P) : Event n P → Except Fault (Option (State n P))
  | .exec => m.exec (locks n P) c
  | .pick p => .ok (some { m with mem := { m.mem with next := update m.mem.next c p } })
  | .call r => .ok (if (m.code c).isEmpty then some (m.jump c (r.code ++ [.sti])) else none)
  | .interrupt r => .ok (if m.intr c = true then some (m.interrupt c (r.code c)) else none)

/-- One step: CPU `a.1` does `a.2`. -/
def Step (m : State n P) (a : Fin n × Event n P) (m' : State n P) : Prop :=
  step a.1 m a.2 = .ok (some m')

/-- CPU `c` spins for a lock that CPU `d` holds. -/
def WaitsFor (m : State n P) (c d : Fin n) : Prop :=
  d ≠ c ∧ ∃ l is, m.code c = .acquire l :: is ∧ m.holder (l.on .rq c) = some d

/-- Some CPUs wait for each other in a circle. -/
def Deadlocked (m : State n P) : Prop := ∃ c, Relation.TransGen (WaitsFor m) c c

/-- The code calls `sleep` with the run queue lock of another CPU than `c`. -/
def Code.foreign (c : Fin n) : Code n → Bool
  | .act (.sleep (.rq d)) :: _ => d ≠ c
  | _ => false

/-- `sleep` is not called with the run queue lock of another CPU. -/
def Ordered (m : State n P) (a : Fin n × Event n P) : Prop :=
  match a.2 with
  | .exec => Code.foreign a.1 (m.code a.1) = false
  | _ => True

/-- The lock the code takes next on CPU `c`. -/
def Code.wants (c : Fin n) : Code n → Option (LockId n)
  | .acquire l :: _ => some (l.on .rq c)
  | _ => none

/-- `procdump` has still to take run queue locks of other CPUs than `c`. -/
def Code.dumps (c : Fin n) : Code n → Bool
  | .act .procdump :: _ => true
  | .acquire (.named (.rq i)) :: _ => i ≠ c
  | _ => false

/-- While `procdump` collects the run queue locks on one CPU, another one, with its own run queue
lock, is about to take `proc_table_lock`: this is where `sleep` is when `schedule` returns. -/
def Overlap (m : State n P) : Prop :=
  ∃ c d, c ≠ d ∧ m.holder .procTable = some c ∧ Code.dumps c (m.code c) = true ∧
    m.holder (.rq d) = some d ∧ Code.wants d (m.code d) = some .procTable

/-- Where a CPU that holds `H` may take the lock `l`. -/
inductive MayTake (c : Fin n) : List (LockId n) → LockId n → Prop
  | first (l : LockId n) : MayTake c [] l
  | rq : MayTake c [.procTable] (.rq c)
  | procTable : MayTake c [.rq c] .procTable
  | procTableOther (k : ℕ) : MayTake c [.other k] .procTable
  | rqOther (k : ℕ) : MayTake c [.procTable, .other k] (.rq c)
  | dump {K : List (LockId n)} {i : Fin n} : .procTable ∈ K → i ≠ c → MayTake c K (.rq i)

/-- CPU `c`, holding the locks `H`, may run the code. Where it holds none the code may go on
on another CPU. -/
def Safe : Code n → Fin n → List (LockId n) → Prop
  | [], _, H => H = []
  | .acquire l :: is, c, H => MayTake c H (l.on .rq c) ∧ Safe is c (l.on .rq c :: H)
  | .release l :: is, c, H => l.on .rq c ∈ H →
      (H.erase (l.on .rq c) = [] → ∀ d, Safe is d []) ∧ Safe is c (H.erase (l.on .rq c))
  | .sti :: is, _, H => H = [] ∧ ∀ d, Safe is d []
  | .act (.sleep lk) :: is, _, H => H = [lk] ∧ ∀ d, Safe is d [lk]
  | .act (.sleepEnd lk) :: is, c, H => H = [.procTable, .rq c] ∧ ∀ d, Safe is d [lk]
  | .act .procdump :: is, c, H => H = [.procTable] ∧ Safe is c [.procTable]
  | .act (.panic _) :: _, _, _ => True
  | .act .schedule :: _, _, _ => False
  | .switch a :: is, c, H => a = .schedule ∧ H = [.rq c] ∧ ∀ d, Safe is d [.rq d]

section
variable {c : Fin n} {is : Code n} {lk : LockId n} {l : LockRef (LockId n)} {H : List (LockId n)}

theorem safe_release (h : ∀ d, Safe is d []) : Safe (.release l :: is) c [l.on .rq c] := by
  intro _
  rw [List.erase_cons_head]
  exact ⟨fun _ => h, h c⟩

theorem safe_release_of_erase {G : List (LockId n)} (he : H.erase (l.on .rq c) = G) (hne : G ≠ [])
    (h : Safe is c G) : Safe (.release l :: is) c H := by
  intro _
  rw [he]
  exact ⟨fun h => absurd h hne, h⟩

theorem safe_sleep_tail (his : ∀ d, Safe is d [lk]) (hH : H.erase .procTable = [.rq c]) :
    Safe (.release (.named .procTable) :: .switch .schedule :: .acquire (.named .procTable) ::
      .act (.sleepEnd lk) :: is) c H := by
  apply safe_release_of_erase hH (by simp)
  refine ⟨rfl, rfl, ?_⟩
  intro d
  exact ⟨.procTable, rfl, his⟩

theorem safe_sleep (hlk : ∀ d, lk = .rq d → d = c) (his : ∀ d, Safe is d [lk]) :
    Safe (Code.sleep c lk ++ is) c [lk] := by
  unfold Code.sleep
  by_cases h₁ : lk = .procTable
  · rw [if_pos h₁]
    cases h₁
    exact ⟨.rq, safe_sleep_tail his (by simp)⟩
  rw [if_neg h₁]
  by_cases h₂ : lk = .rq c
  · rw [if_pos h₂]
    cases h₂
    exact ⟨.procTable, safe_sleep_tail his (by simp)⟩
  rw [if_neg h₂]
  cases lk with
  | procTable => exact absurd rfl h₁
  | rq d => exact absurd (congrArg LockId.rq (hlk d rfl)) h₂
  | other k =>
    refine ⟨.procTableOther k, .rqOther k, ?_⟩
    exact safe_release_of_erase (G := [.rq c, .procTable]) (by simp) (by simp)
      (safe_sleep_tail his (by simp))

theorem safe_sleepEnd (his : ∀ d, Safe is d [lk]) :
    Safe (Code.sleepEnd c lk ++ is) c [.procTable, .rq c] := by
  unfold Code.sleepEnd
  split_ifs with h₁ h₂
  · cases h₁
    exact safe_release_of_erase (G := [.procTable]) (by simp) (by simp) (his c)
  · cases h₂
    exact safe_release_of_erase (G := [.rq c]) (by simp) (by simp) (his c)
  · apply safe_release_of_erase (G := [.rq c]) (by simp) (by simp)
    apply safe_release (l := .own)
    intro d
    exact ⟨.first lk, his d⟩

theorem safe_takes {js : List (Fin n)} (hjs : ∀ i ∈ js, i ≠ c) (hH : .procTable ∈ H)
    (his : ∀ K, K.Perm (js.map .rq ++ H) → Safe is c K) :
    Safe (js.map (fun i => .acquire (.named (.rq i))) ++ is) c H := by
  induction js generalizing H with
  | nil => exact his H (List.Perm.refl H)
  | cons i js ih =>
    refine ⟨.dump hH (hjs i List.mem_cons_self), ?_⟩
    refine ih (fun j hj => hjs j (List.mem_cons_of_mem i hj)) (List.mem_cons_of_mem _ hH) ?_
    intro K hK
    refine his K (hK.trans ?_)
    exact List.perm_middle

theorem safe_gives {js : List (Fin n)} (hH : H.Perm (js.map .rq ++ [.procTable]))
    (his : Safe is c [.procTable]) :
    Safe (js.map (fun i => .release (.named (.rq i))) ++ is) c H := by
  induction js generalizing H with
  | nil =>
    rw [List.perm_singleton.mp hH]
    exact his
  | cons i js ih =>
    have hrest : (H.erase (.rq i)).Perm (js.map .rq ++ [.procTable]) := by
      have := hH.erase (.rq i)
      rwa [List.map_cons, List.cons_append, List.erase_cons_head] at this
    intro _
    refine ⟨fun hnil => ?_, ih hrest⟩
    rw [show H.erase ((LockRef.named (.rq i)).on .rq c) = H.erase (.rq i) from rfl] at hnil
    rw [hnil] at hrest
    have := hrest.length_eq
    simp at this

theorem safe_procdump (his : Safe is c [.procTable]) :
    Safe (Code.procdump c ++ is) c [.procTable] := by
  unfold Code.procdump
  rw [List.append_assoc]
  refine safe_takes (fun i hi => ?_) List.mem_cons_self fun K hK => safe_gives hK his
  simpa [Code.others] using hi

theorem safe_sleeps (k : ℕ) (his : ∀ d, Safe is d []) (d : Fin n) :
    Safe (List.replicate k (.act (.sleep lk)) ++ [.release (.named lk)] ++ is) d [lk] := by
  induction k generalizing d with
  | zero => exact safe_release (l := .named lk) his
  | succ k ih => exact ⟨rfl, ih⟩

theorem safe_call (r : Call n) (his : ∀ d, Safe is d []) (c : Fin n) :
    Safe (r.code ++ is) c [] := by
  cases r with
  | sleep lk k => exact ⟨.first lk, safe_sleeps k his c⟩
  | wakeup =>
    refine ⟨.first _, .rq, ?_⟩
    apply safe_release_of_erase (G := [.procTable]) (by simp) (by simp)
    exact safe_release (l := .named .procTable) his
  | exit =>
    refine ⟨.first _, .rq, ?_⟩
    apply safe_release_of_erase (G := [.rq c]) (by simp) (by simp)
    exact ⟨rfl, rfl, fun _ => trivial⟩
  | wait k => exact ⟨.first _, safe_sleeps k his c⟩
  | yield =>
    refine ⟨.first _, rfl, rfl, ?_⟩
    intro d
    exact safe_release (l := .own) his

/-- A process resumed on CPU `d` may drop the lock of CPU `c`'s run queue only if that is the
lock it holds. -/
theorem safe_release_named (his : ∀ d, Safe is d []) (d : Fin n) :
    Safe (.release (.named (.rq c)) :: is) d [.rq d] := by
  intro h
  obtain rfl : c = d := by simpa using h
  exact safe_release (l := .named (.rq c)) his (by simp)

theorem safe_handler (r : Handler n) (his : ∀ d, Safe is d []) (c : Fin n) :
    Safe (r.code c ++ is) c [] := by
  cases r with
  | call r => exact safe_call r his c
  | procTick => exact ⟨.first _, rfl, rfl, safe_release_named his⟩
  | loadBalance src =>
    refine ⟨.first _, safe_release (l := .named (.rq src)) ?_⟩
    intro d
    exact ⟨.first _, safe_release (l := .named (.rq c)) his⟩
  | procdump => exact ⟨.first _, rfl, safe_release (l := .named .procTable) his⟩

end

/-- CPU `c` holds the locks `H c`, and all code is safe. -/
structure Orderly (m : State n P) (H : Fin n → List (LockId n)) : Prop where
  holder : ∀ l c, m.holder l = some c ↔ l ∈ H c
  nodup : ∀ c, (H c).Nodup
  ncli : ∀ c, m.ncli c = (H c).length
  code : ∀ c, Safe (m.code c) c (H c)
  /-- A CPU that can be interrupted holds no lock. -/
  intr : ∀ c, m.intr c = true → H c = [] ∧ ∀ d, Safe (m.code c) d []
  ctx : ∀ p d, Safe (m.ctx p) d [.rq d]

section
variable {m m' : State n P} {H : Fin n → List (LockId n)} {c d : Fin n} {is : Code n} {l : LockId n}
  {K : List (LockId n)}

omit [DecidableEq P] in
theorem orderly_start (cur : Fin n → P) : Orderly (start cur) fun _ => [] where
  holder _ _ := by simp [start]
  nodup _ := List.nodup_nil
  ncli _ := rfl
  code _ := rfl
  intr _ _ := ⟨rfl, fun _ => rfl⟩
  ctx _ d := safe_release (l := .own) fun _ => ⟨rfl, fun _ => rfl⟩

section

variable (h : Orderly m H)
include h

omit [DecidableEq P] in
theorem Orderly.jump (mem : Cpus n P) (hcode : Safe is c (H c))
    (hi : m.intr c = true → ∀ d, Safe is d []) : Orderly ({ m with mem := mem }.jump c is) H where
  holder := h.holder
  nodup := h.nodup
  ncli := h.ncli
  code d := by
    by_cases hd : d = c
    · cases hd
      simpa using hcode
    · simpa [hd] using h.code d
  intr d hd := by
    refine ⟨(h.intr d hd).1, ?_⟩
    by_cases hdc : d = c
    · cases hdc
      simpa using hi hd
    · simpa [hdc] using (h.intr d hd).2
  ctx := h.ctx

omit [DecidableEq P] in
theorem Orderly.acquire (hfree : m.holder l = none) (hsafe : Safe is c (l :: H c)) :
    Orderly ((m.lock c l).jump c is) (update H c (l :: H c)) := by
  have hnot : ∀ d, l ∉ H d := by
    intro d hd
    rw [← h.holder, hfree] at hd
    cases hd
  refine ⟨?_, ?_, ?_, ?_, ?_, h.ctx⟩
  · intro l' d
    by_cases hl : l' = l
    · cases hl
      by_cases hd : d = c
      · simp [hd]
      · have := hnot d
        simp [hd, Ne.symm hd, this]
    · have := h.holder l' d
      by_cases hd : d = c
      · cases hd
        simp [hl, this]
      · simp [hl, hd, this]
  · intro d
    by_cases hd : d = c
    · cases hd
      rw [update_self]
      exact List.nodup_cons.mpr ⟨hnot c, h.nodup c⟩
    · rw [update_of_ne hd]
      exact h.nodup d
  · intro d
    have := h.ncli d
    by_cases hd : d = c
    · cases hd
      simp [this]
    · simp [hd, this]
  · intro d
    have := h.code d
    by_cases hd : d = c
    · cases hd
      simpa using hsafe
    · simpa [hd] using this
  · intro d hi
    by_cases hd : d = c
    · cases hd
      simp at hi
    · have := h.intr d (by simpa [hd] using hi)
      simpa [hd] using this

omit [DecidableEq P] in
theorem Orderly.release (hheld : m.holder l = some c)
    (hlast : (H c).erase l = [] → ∀ d, Safe is d []) (hsafe : Safe is c ((H c).erase l)) :
    Orderly ((m.unlock c l).jump c is) (update H c ((H c).erase l)) := by
  have hmem : l ∈ H c := (h.holder _ c).mp hheld
  have hlen := List.length_erase_of_mem hmem
  refine ⟨?_, ?_, ?_, ?_, ?_, h.ctx⟩
  · intro l' d
    have hd' := h.holder l' d
    by_cases hl : l' = l
    · cases hl
      by_cases hd : d = c
      · cases hd
        simp [(h.nodup c).not_mem_erase]
      · have : l ∉ H d := by
          intro hd''
          rw [← h.holder, hheld] at hd''
          exact hd (Option.some.inj hd'').symm
        simp [hd, this]
    · by_cases hd : d = c
      · cases hd
        simp [hl, hd', List.mem_erase_of_ne hl]
      · simp [hl, hd, hd']
  · intro d
    by_cases hd : d = c
    · cases hd
      rw [update_self]
      exact (h.nodup c).erase _
    · rw [update_of_ne hd]
      exact h.nodup d
  · intro d
    have := h.ncli d
    by_cases hd : d = c
    · cases hd
      simp [this, hlen]
    · simp [hd, this]
  · intro d
    have := h.code d
    by_cases hd : d = c
    · cases hd
      simpa using hsafe
    · simpa [hd] using this
  · intro d hi
    by_cases hd : d = c
    · cases hd
      -- interrupts are on only if no lock is left
      have hnil : (H c).erase l = [] := by
        by_contra hne
        have hpos := List.length_pos_of_ne_nil hne
        have hn := h.ncli c
        rw [Machine.jump_intr, Machine.unlock_intr, if_neg (by omega)] at hi
        rw [(h.intr c hi).1] at hmem
        cases hmem
      rw [update_self]
      exact ⟨hnil, by simpa using hlast hnil⟩
    · have hi : m.intr d = true := by
        rw [Machine.jump_intr, Machine.unlock_intr] at hi
        split_ifs at hi
        · simpa [hd] using hi
        · exact hi
      simpa [hd] using h.intr d hi

omit [DecidableEq P] in
theorem Orderly.intr_ne (hH : H c ≠ []) : m.intr c ≠ true := by
  intro hi
  exact hH (h.intr c hi).1

omit [DecidableEq P] in
theorem Orderly.sti (hH : H c = []) (his : ∀ d, Safe is d []) :
    Orderly ({ m with intr := update m.intr c true }.jump c is) H where
  holder := h.holder
  nodup := h.nodup
  ncli := h.ncli
  code d := by
    have := h.code d
    by_cases hd : d = c
    · cases hd
      simpa [hH] using his c
    · simpa [hd] using this
  intr d hi := by
    by_cases hd : d = c
    · cases hd
      simpa [hH] using his
    · simpa [hd] using h.intr d (by simpa [hd] using hi)
  ctx := h.ctx

theorem Orderly.swtch (mem : Cpus n P) (prev next : P) (hH : H c = [.rq c])
    (his : ∀ d, Safe is d [.rq d]) :
    Orderly ({ m with mem := mem }.swtch c (some prev) (some next) is) H := by
  have hi := h.intr_ne (c := c) (by simp [hH])
  unfold Machine.swtch
  split_ifs with he
  · exact h.jump mem (hH ▸ his c) fun h' => absurd h' hi
  · have hctx : ∀ p d, Safe (update m.ctx prev is p) d [.rq d] := by
      intro p d
      by_cases hp : p = prev
      · rw [hp, update_self]
        exact his d
      · rw [update_of_ne hp]
        exact h.ctx p d
    have hnext : Safe (update m.ctx prev is next) c (H c) := by
      rw [hH]
      exact hctx next c
    exact { h.jump mem hnext fun h' => absurd h' hi with ctx := hctx }

/-- An instruction keeps the machine orderly, unless `sleep` is called with the run queue lock
of another CPU. -/
theorem Orderly.exec (he : m.exec (locks n P) c = .ok (some m'))
    (hsleep : Code.foreign c (m.code c) = false) : ∃ H', Orderly m' H' := by
  have hsafe := h.code c
  cases hcode : m.code c with
  | nil => simp [Machine.exec, hcode] at he
  | cons i js =>
    rw [hcode] at hsafe
    simp only [Machine.exec, hcode] at he
    cases i with
    | acquire l =>
      dsimp only at he
      split_ifs at he with h₁ h₂
      · cases he
        exact ⟨_, h.acquire h₂ hsafe.2⟩
      · cases he
    | release l =>
      dsimp only at he
      split_ifs at he with h₁
      cases he
      rw [not_not] at h₁
      obtain ⟨hlast, hsafe⟩ := hsafe ((h.holder _ c).mp h₁)
      exact ⟨_, h.release h₁ hlast hsafe⟩
    | sti =>
      cases he
      exact ⟨H, h.sti hsafe.1 hsafe.2⟩
    | act a =>
      cases a with
      | sleep lk =>
        obtain ⟨hH, his⟩ := hsafe
        cases he
        refine ⟨H, h.jump _ ?_ fun hi => absurd hi (h.intr_ne (by simp [hH]))⟩
        rw [hH]
        apply safe_sleep _ his
        rintro d rfl
        rw [hcode] at hsleep
        simpa [Code.foreign] using hsleep
      | sleepEnd lk =>
        obtain ⟨hH, his⟩ := hsafe
        cases he
        refine ⟨H, h.jump _ ?_ fun hi => absurd hi (h.intr_ne (by simp [hH]))⟩
        rw [hH]
        exact safe_sleepEnd his
      | procdump =>
        obtain ⟨hH, his⟩ := hsafe
        cases he
        refine ⟨H, h.jump _ ?_ fun hi => absurd hi (h.intr_ne (by simp [hH]))⟩
        rw [hH]
        exact safe_procdump his
      | panic msg => cases he
      | schedule => exact hsafe.elim
    | switch a =>
      obtain ⟨rfl, hH, his⟩ := hsafe
      cases he
      exact ⟨H, h.swtch _ _ _ hH his⟩

theorem Orderly.step {e : Event n P} (hs : Step m (c, e) m') (ho : Ordered m (c, e)) :
    ∃ H', Orderly m' H' := by
  unfold Step at hs
  cases e with
  | exec => exact h.exec hs ho
  | pick p =>
    cases hs
    exact ⟨H, h.holder, h.nodup, h.ncli, h.code, h.intr, h.ctx⟩
  | call r =>
    simp only [Order.step, Except.ok.injEq, Option.ite_none_right_eq_some, Option.some.injEq,
      List.isEmpty_iff] at hs
    obtain ⟨hcode, rfl⟩ := hs
    have hH := h.code c
    rw [hcode] at hH
    have hsafe : ∀ d, Safe (r.code ++ [.sti]) d [] := safe_call r fun _ => ⟨rfl, fun _ => rfl⟩
    exact ⟨H, h.jump m.mem (by rw [show H c = [] from hH]; exact hsafe c) fun _ => hsafe⟩
  | interrupt r =>
    simp only [Order.step, Except.ok.injEq, Option.ite_none_right_eq_some, Option.some.injEq] at hs
    obtain ⟨hi, rfl⟩ := hs
    obtain ⟨hH, his⟩ := h.intr c hi
    have hrest : ∀ d, Safe (.sti :: m.code c) d [] := fun _ => ⟨rfl, his⟩
    have hsafe := safe_handler r hrest c
    have hoff : Orderly { m with intr := update m.intr c false } H := by
      refine ⟨h.holder, h.nodup, h.ncli, h.code, ?_, h.ctx⟩
      intro d hd
      by_cases hdc : d = c
      · simp [hdc] at hd
      · exact h.intr d (by simpa [hdc] using hd)
    exact ⟨H, hoff.jump m.mem (by rw [hH]; exact hsafe) fun h' => by simp at h'⟩

omit [DecidableEq P] in
theorem Orderly.mayTake (hw : WaitsFor m c d) :
    ∃ l, Code.wants c (m.code c) = some l ∧ MayTake c (H c) l ∧ l ∈ H d := by
  obtain ⟨-, l, is, hcode, hl⟩ := hw
  have hsafe := h.code c
  rw [hcode] at hsafe
  exact ⟨_, by rw [hcode]; rfl, hsafe.1, (h.holder _ d).mp hl⟩

end

theorem dumps_of_wants {i : Fin n} (h : Code.wants c is = some (.rq i)) (hi : i ≠ c) :
    Code.dumps c is = true := by
  unfold Code.wants at h
  split at h
  · next l is =>
    cases l with
    | own => exact absurd (LockId.rq.inj (Option.some.inj h)).symm hi
    | named l =>
      obtain rfl : l = .rq i := Option.some.inj h
      exact decide_eq_true hi
  · cases h

/-- Only `procdump` takes a lock while it has the run queue lock of another CPU. -/
theorem MayTake.dumping (h : MayTake c K l) (hd : d ≠ c) (hrq : .rq d ∈ K) : .procTable ∈ K := by
  cases h with
  | first => cases hrq
  | rq => simp at hrq
  | procTable => simp [hd] at hrq
  | procTableOther k => simp at hrq
  | rqOther k => simp at hrq
  | dump hK _ => exact hK

/-- A CPU that holds a lock and may take another wants a run queue lock while it has
`proc_table_lock`, or does not have `proc_table_lock` and wants it. -/
theorem MayTake.wants (h : MayTake c K l) (hK : K ≠ []) :
    (∃ i, l = .rq i ∧ .procTable ∈ K) ∨ l = .procTable := by
  cases h with
  | first => exact absurd rfl hK
  | rq => exact .inl ⟨c, rfl, List.mem_cons_self⟩
  | procTable => exact .inr rfl
  | procTableOther k => exact .inr rfl
  | rqOther k => exact .inl ⟨c, rfl, List.mem_cons_self⟩
  | dump hK _ => exact .inl ⟨_, rfl, hK⟩

theorem exists_next {α : Type} {r : α → α → Prop} {a : α} (h : Relation.TransGen r a a) :
    ∃ b, r a b ∧ Relation.TransGen r b b := by
  obtain ⟨b, hab, hba⟩ := Relation.TransGen.head'_iff.mp h
  exact ⟨b, hab, Relation.TransGen.tail' hba hab⟩

omit [DecidableEq P] in
theorem Orderly.holder_eq (h : Orderly m H) (hc : l ∈ H c) (hd : l ∈ H d) : c = d := by
  rw [← h.holder] at hc hd
  exact Option.some.inj (hc.symm.trans hd)

omit [DecidableEq P] in
/-- A CPU that has `proc_table_lock` and waits for a run queue lock waits for the CPU the lock
belongs to; if that one waits too, it waits for `proc_table_lock`. -/
theorem Orderly.overlap {e i : Fin n} (h : Orderly m H) (hcd : WaitsFor m c d)
    (hde : WaitsFor m d e)
    (hc : Code.wants c (m.code c) = some (.rq i)) (ht : .procTable ∈ H c) (hd : .rq i ∈ H d) :
    Overlap m := by
  obtain ⟨l, hl, hmay, he⟩ := h.mayTake hde
  have hnot : .procTable ∉ H d := fun h' => hcd.1 (h.holder_eq h' ht)
  obtain rfl : i = d := by
    by_contra hid
    exact hnot (hmay.dumping hid hd)
  refine ⟨c, i, hcd.1.symm, (h.holder _ c).mpr ht, dumps_of_wants hc hcd.1,
    (h.holder _ i).mpr hd, ?_⟩
  rcases hmay.wants (List.ne_nil_of_mem hd) with ⟨j, -, hj⟩ | rfl
  · exact absurd hj hnot
  · exact hl

omit [DecidableEq P] in
theorem Orderly.not_deadlocked (h : Orderly m H) (ho : ¬ Overlap m) : ¬ Deadlocked m := by
  rintro ⟨b, hb⟩
  obtain ⟨c, hbc, hc⟩ := exists_next hb
  obtain ⟨d, hcd, hd⟩ := exists_next hc
  obtain ⟨e, hde, he⟩ := exists_next hd
  obtain ⟨f, hef, -⟩ := exists_next he
  obtain ⟨l, -, -, hl⟩ := h.mayTake hbc
  obtain ⟨l', hw, hc', hl'⟩ := h.mayTake hcd
  rcases hc'.wants (List.ne_nil_of_mem hl) with ⟨i, rfl, ht⟩ | rfl
  · exact ho (h.overlap hcd hde hw ht hl')
  · -- `d` holds `proc_table_lock`, so it waits for a run queue lock
    obtain ⟨l'', hw', hd', hl''⟩ := h.mayTake hde
    rcases hd'.wants (List.ne_nil_of_mem hl') with ⟨i, rfl, ht⟩ | rfl
    · exact ho (h.overlap hde hef hw' ht hl'')
    · exact hde.1 (h.holder_eq hl'' hl')

/-- As long as `procdump` does not collect run queue locks while `sleep` is about to take
`proc_table_lock` again on another CPU, and `sleep` is not called with the run queue lock of another
CPU, the scheduler's locks do not deadlock. -/
theorem no_deadlock_of_ordered {cur : Fin n → P}
    (hr : Reach (fun m a m' => Step m a m' ∧ Ordered m a ∧ ¬ Overlap m') (start cur) m) :
    ¬ Deadlocked m := by
  obtain ⟨⟨H, h⟩, ho⟩ : (∃ H, Orderly m H) ∧ ¬ Overlap m := by
    refine hr.invariant (P := fun m => (∃ H, Orderly m H) ∧ ¬ Overlap m)
      ⟨⟨_, orderly_start cur⟩, ?_⟩ ?_
    · rintro ⟨c, d, -, hc, -⟩
      cases hc
    · rintro m ⟨c, e⟩ m' ⟨⟨H, h⟩, -⟩ ⟨hs, ho, hno⟩
      exact ⟨h.step hs ho, hno⟩
  exact h.not_deadlocked ho

end

section runs

variable {m m' : State n P} {a : Fin n × Event n P}

instance {m : State n P} {a : Fin n × Event n P} : Decidable (Ordered m a) := by
  unfold Ordered
  split <;> infer_instance

/-- The state after a step, if it is possible. -/
def perform (m : State n P) (a : Fin n × Event n P) : Option (State n P) :=
  (step a.1 m a.2).toOption.join

theorem step_of_perform (h : perform m a = some m') :
    Step m a m' := by
  unfold perform at h
  unfold Step
  cases hs : step a.1 m a.2 with
  | error e =>
    rw [hs] at h
    cases h
  | ok o =>
    rw [hs] at h
    exact congrArg Except.ok h

instance (m : State n P) : Decidable (Overlap m) :=
  inferInstanceAs (Decidable (∃ c d, c ≠ d ∧ _ ∧ Code.dumps c (m.code c) = true ∧ _ ∧ _))

/-- The state after a step that meets the condition. -/
def performOrdered (m : State n P) (a : Fin n × Event n P) : Option (State n P) :=
  if Ordered m a then (perform m a).filter fun m' => ¬ Overlap m' else none

theorem reach_of_performOrdered (h : performOrdered m a = some m') :
    Reach (fun m a m' => Step m a m' ∧ Ordered m a ∧ ¬ Overlap m') m m' := by
  unfold performOrdered at h
  split_ifs at h with ho
  obtain ⟨hm, hno⟩ := Option.filter_eq_some_iff.mp h
  exact .next .start ⟨step_of_perform hm, ho, of_decide_eq_true hno⟩

omit [DecidableEq P] in
theorem waitsFor_of_wants {c d : Fin n} (hd : d ≠ c)
    (h : (Code.wants c (m.code c)).any fun l => m.holder l = some d) : WaitsFor m c d := by
  refine ⟨hd, ?_⟩
  cases hcode : m.code c with
  | nil =>
    rw [hcode] at h
    cases h
  | cons i is =>
    rw [hcode] at h
    cases i with
    | acquire l => exact ⟨l, is, rfl, of_decide_eq_true h⟩
    | _ => cases h

/-- Process 0 goes to sleep on CPU `c` in favour of process 2, which yields: process 0 is about
to take `proc_table_lock` again. -/
def resume (c : Fin 2) : List (Fin 2 × Event 2 ℕ) :=
  (c, .call (.sleep (.other 0) 1)) :: List.replicate 6 (c, .exec) ++ (c, .pick 2) ::
    List.replicate 3 (c, .exec) ++ [(c, .call .yield), (c, .exec), (c, .pick 0), (c, .exec)]

/-- CPU 1 has run `procdump`; now it has taken `proc_table_lock` in `wakeup`, and CPU 0 waits for
it. -/
theorem no_deadlock_of_ordered_wakeup : ∃ m : State 2 ℕ,
    Reach (fun m a m' => Step m a m' ∧ Ordered m a ∧ ¬ Overlap m') (start fun c => c.val) m ∧
      WaitsFor m 0 1 ∧ ¬ Deadlocked m := by
  have h : (List.foldlM performOrdered (start fun c => c.val)
      ((1, .interrupt .procdump) :: List.replicate 6 (1, .exec) ++ resume 0 ++
        [(1, .call .wakeup), (1, .exec)])).any (fun m => (Code.wants 0 (m.code 0)).any
        fun l => m.holder l = some 1) = true := by decide +kernel
  obtain ⟨m, hr, hm⟩ := exists_reach_of_any (fun _ _ _ => reach_of_performOrdered) h
  exact ⟨m, hr, waitsFor_of_wants (by decide) hm, no_deadlock_of_ordered hr⟩

/-- CPU 1 has taken `proc_table_lock` in `procdump` and waits for the run queue lock of CPU 0,
which waits for `proc_table_lock`. -/
theorem procdump_deadlocks : ∃ m : State 2 ℕ,
    Reach Step (start fun c => c.val) m ∧ WaitsFor m 0 1 ∧ WaitsFor m 1 0 ∧ Deadlocked m := by
  have h : (List.foldlM perform (start fun c => c.val)
      (resume 0 ++ [(1, .interrupt .procdump), (1, .exec), (1, .exec)])).any (fun m =>
        ((Code.wants 0 (m.code 0)).any fun l => m.holder l = some 1) ∧
        (Code.wants 1 (m.code 1)).any fun l => m.holder l = some 0) = true := by decide +kernel
  obtain ⟨m, hr, hm⟩ := exists_reach_of_any
    (fun _ _ _ h => .next .start (step_of_perform h)) h
  rw [decide_eq_true_eq] at hm
  have h₀ := waitsFor_of_wants (m := m) (c := 0) (d := 1) (by decide) hm.1
  have h₁ := waitsFor_of_wants (m := m) (c := 1) (d := 0) (by decide) hm.2
  exact ⟨m, hr, h₀, h₁, 0, .head h₀ (.single h₁)⟩

end runs

end Xv6Shed.Order
