import Xv6Shed.Ring
import Mathlib.Algebra.Group.Nat.Defs
import Mathlib.Data.UInt

/-!
# Pipes

`pipe.c`. A process holds `p->lock` from `acquire`, or from its return from `sleep`, up to the
next `sleep` or `release`; such a section is one step. `sleep` gives up the lock and puts the
process to sleep at once, as far as the pipe is concerned, and `wakeup` wakes all processes that
sleep on a channel. `PIPESIZE` is 512.
-/

namespace Xv6Shed
open Function

/-- `struct pipe`, without its lock -/
structure Pipe where
  readopen : Bool
  writeopen : Bool
  writep : UInt32
  readp : UInt32
  data : ℕ → UInt8

namespace Pipe

/-- The pipe that `pipealloc` makes of a page -/
def alloc (data : ℕ → UInt8) : Pipe := ⟨true, true, 0, 0, data⟩

/-- `p->writep == p->readp + PIPESIZE` -/
def Full (p : Pipe) : Prop := p.writep = p.readp + 512

instance (p : Pipe) : Decidable p.Full := by
  unfold Full
  infer_instance

/-- `p->data[p->writep++ % PIPESIZE] = b` -/
def store (b : UInt8) (p : Pipe) : Pipe :=
  { p with data := update p.data (p.writep.toNat % 512) b, writep := p.writep + 1 }

/-- How a section of `pipewrite` ends; `asleep` has the bytes that are left. -/
inductive WriteEnd where
  | done
  | failed
  | asleep (rest : List UInt8)
  deriving DecidableEq

/-- A section of `pipewrite`, with the bytes that are left to write: the pipe after it, the bytes
that it has stored, and how it ends. -/
def pipewrite (killed : Bool) : List UInt8 → Pipe → Pipe × List UInt8 × WriteEnd
  | [], p => (p, [], .done)
  | b :: rest, p =>
    if p.Full then
      if p.readopen = false ∨ killed = true then (p, [], .failed) else (p, [], .asleep (b :: rest))
    else
      let (p, stored, r) := pipewrite killed rest (p.store b)
      (p, b :: stored, r)

/-- How a section of `piperead` ends -/
inductive ReadEnd where
  | done (bytes : List UInt8)
  | failed
  | asleep

/-- The second loop of `piperead` -/
def drain : ℕ → Pipe → Pipe × List UInt8
  | 0, p => (p, [])
  | n + 1, p =>
    if p.readp = p.writep then (p, [])
    else
      let b := p.data (p.readp.toNat % 512)
      let (p, bytes) := drain n { p with readp := p.readp + 1 }
      (p, b :: bytes)

/-- A section of `piperead` of `n` bytes -/
def piperead (killed : Bool) (n : ℕ) (p : Pipe) : Pipe × ReadEnd :=
  if p.readp = p.writep ∧ p.writeopen = true then
    if killed = true then (p, .failed) else (p, .asleep)
  else
    let (p, bytes) := drain n p
    (p, .done bytes)

/-- The flag that `pipeclose` clears -/
def shut (writable : Bool) (p : Pipe) : Pipe :=
  if writable = true then { p with writeopen := false } else { p with readopen := false }

/-- The bytes in the pipe, in the order in which they were stored -/
def contents (p : Pipe) : List UInt8 :=
  (List.range (p.writep - p.readp).toNat).map fun k => p.data ((p.readp.toNat + k) % 512)

/-- The pipe holds `l`. -/
def Holds (p : Pipe) (l : List UInt8) : Prop :=
  Ring.Holds 512 (2 ^ 32) p.readp.toNat p.writep.toNat p.data l

variable {p : Pipe} {l : List UInt8} {killed : Bool}

theorem holds_alloc (data : ℕ → UInt8) : (alloc data).Holds [] :=
  ⟨Nat.zero_le _, UInt32.toNat_lt _, rfl, fun k hk => absurd hk (Nat.not_lt_zero k)⟩

theorem Holds.full_iff (h : p.Holds l) : p.Full ↔ l.length = 512 := by
  rw [← Ring.Holds.full_iff (by decide) h, Full, ← UInt32.toNat_inj, UInt32.toNat_add]
  rfl

theorem Holds.empty_iff (h : p.Holds l) : p.readp = p.writep ↔ l = [] := by
  rw [← Ring.Holds.empty_iff (by decide) h, UInt32.toNat_inj]

theorem Holds.store (h : p.Holds l) (hf : ¬p.Full) (b : UInt8) : (p.store b).Holds (l ++ [b]) := by
  have hlen := h.length
  rw [h.full_iff] at hf
  have hpush := Ring.Holds.push (by decide) h (by omega) b
  unfold Holds Pipe.store
  rw [UInt32.toNat_add]
  exact hpush

theorem Holds.contents_eq (h : p.Holds l) : p.contents = l := by
  have hlen := h.length
  have hr : p.readp.toNat < 2 ^ 32 := p.readp.toNat_lt
  have hsub : (p.writep - p.readp).toNat = l.length := by
    rw [UInt32.toNat_sub, h.write]
    omega
  refine List.ext_getElem ?_ fun k hk hkl => ?_
  · rw [contents, List.length_map, List.length_range, hsub]
  · simp only [contents, List.getElem_map, List.getElem_range]
    exact h.cell k hkl

/-- What a section of `pipewrite` does -/
structure Wrote (killed : Bool) (bytes : List UInt8) (p : Pipe) (l : List UInt8)
    (r : Pipe × List UInt8 × WriteEnd) : Prop where
  holds : r.1.Holds (l ++ r.2.1)
  open_eq : r.1.readopen = p.readopen ∧ r.1.writeopen = p.writeopen
  done : r.2.2 = .done → r.2.1 = bytes
  failed : r.2.2 = .failed → r.1.Full ∧ (p.readopen = false ∨ killed = true) ∧
    ∃ rest, rest ≠ [] ∧ bytes = r.2.1 ++ rest
  asleep : ∀ rest, r.2.2 = .asleep rest → r.1.Full ∧ p.readopen = true ∧ bytes = r.2.1 ++ rest
  full : p.Full → r.1 = p

theorem pipewrite_wrote (killed : Bool) (bytes : List UInt8) (h : p.Holds l) :
    Wrote killed bytes p l (pipewrite killed bytes p) := by
  induction bytes generalizing p l with
  | nil =>
    refine ⟨?_, ⟨rfl, rfl⟩, fun _ => rfl, fun hr => (nomatch hr), fun _ hr => (nomatch hr),
      fun _ => rfl⟩
    rw [pipewrite, List.append_nil]
    exact h
  | cons b rest ih =>
    unfold pipewrite
    by_cases hf : p.Full
    · rw [if_pos hf]
      by_cases hbad : p.readopen = false ∨ killed = true
      · rw [if_pos hbad]
        refine ⟨?_, ⟨rfl, rfl⟩, fun hr => (nomatch hr),
          fun _ => ⟨hf, hbad, b :: rest, List.cons_ne_nil _ _, rfl⟩,
          fun _ hr => (nomatch hr), fun _ => rfl⟩
        rw [List.append_nil]
        exact h
      · rw [if_neg hbad]
        refine ⟨?_, ⟨rfl, rfl⟩, fun hr => (nomatch hr), fun hr => (nomatch hr), fun rest' hr => ?_,
          fun _ => rfl⟩
        · rw [List.append_nil]
          exact h
        · cases hr
          exact ⟨hf, by simpa using (not_or.mp hbad).1, rfl⟩
    · rw [if_neg hf]
      have hw := ih (h.store hf b)
      generalize pipewrite killed rest (p.store b) = r at hw
      obtain ⟨p', stored, e⟩ := r
      refine ⟨?_, hw.open_eq, fun hr => ?_, fun hr => ?_, fun rest' hr => ?_,
        fun hfull => absurd hfull hf⟩
      · have := hw.holds
        rwa [List.append_assoc] at this
      · exact congrArg (b :: ·) (hw.done hr)
      · obtain ⟨hfull, hbad, rest', hne, he⟩ := hw.failed hr
        exact ⟨hfull, hbad, rest', hne, congrArg (b :: ·) he⟩
      · obtain ⟨hfull, hopen, he⟩ := hw.asleep rest' hr
        exact ⟨hfull, hopen, congrArg (b :: ·) he⟩

theorem drain_eq (n : ℕ) (h : p.Holds l) : (drain n p).2 = l.take n ∧
    (drain n p).1.Holds (l.drop n) ∧ (drain n p).1.readopen = p.readopen ∧
    (drain n p).1.writeopen = p.writeopen := by
  induction n generalizing p l with
  | zero => exact ⟨rfl, h, rfl, rfl⟩
  | succ n ih =>
    unfold drain
    by_cases he : p.readp = p.writep
    · rw [if_pos he]
      obtain rfl := h.empty_iff.mp he
      exact ⟨rfl, h, rfl, rfl⟩
    · rw [if_neg he]
      cases l with
      | nil => exact absurd (h.empty_iff.mpr rfl) he
      | cons b l =>
        obtain ⟨hb, hpop⟩ := Ring.Holds.pop (by decide) h
        have hpop' : Pipe.Holds { p with readp := p.readp + 1 } l := by
          unfold Holds
          rw [UInt32.toNat_add]
          exact hpop
        obtain ⟨htake, hdrop, hopen⟩ := ih hpop'
        exact ⟨congrArg₂ List.cons hb htake, hdrop, hopen⟩

/-- What a section of `piperead` does -/
structure Read (killed : Bool) (n : ℕ) (p : Pipe) (l : List UInt8) (r : Pipe × ReadEnd) : Prop where
  open_eq : r.1.readopen = p.readopen ∧ r.1.writeopen = p.writeopen
  done : ∀ bytes, r.2 = .done bytes → bytes = l.take n ∧ r.1.Holds (l.drop n) ∧
    (l = [] → p.writeopen = false)
  failed : r.2 = .failed → r.1 = p
  asleep : r.2 = .asleep → r.1 = p ∧ p.readp = p.writep ∧ p.writeopen = true

theorem piperead_read (killed : Bool) (n : ℕ) (h : p.Holds l) :
    Read killed n p l (piperead killed n p) := by
  unfold piperead
  by_cases he : p.readp = p.writep ∧ p.writeopen = true
  · rw [if_pos he]
    by_cases hk : killed = true
    · rw [if_pos hk]
      exact ⟨⟨rfl, rfl⟩, fun _ hr => (nomatch hr), fun _ => rfl, fun hr => nomatch hr⟩
    · rw [if_neg hk]
      exact ⟨⟨rfl, rfl⟩, fun _ hr => (nomatch hr), fun hr => (nomatch hr), fun _ => ⟨rfl, he⟩⟩
  · rw [if_neg he]
    obtain ⟨htake, hdrop, hr, hw⟩ := drain_eq n h
    refine ⟨⟨hr, hw⟩, fun bytes hb => ?_, fun hr => (nomatch hr), fun hr => nomatch hr⟩
    cases hb
    refine ⟨htake, hdrop, fun hl => ?_⟩
    by_contra hopen
    exact he ⟨h.empty_iff.mpr hl, by simpa using hopen⟩

end Pipe

/-- `&p->readp` and `&p->writep` -/
inductive PipeChan where
  | readp
  | writep
  deriving DecidableEq

/-- A call in progress: a `pipewrite` with its number, its bytes and those that are left, or a
`piperead` of `n` bytes -/
inductive PipeCall where
  | write (id : ℕ) (bytes rest : List UInt8)
  | read (n : ℕ)

/-- A process that uses the pipe; one that is not asleep runs, or waits for `p->lock`. -/
structure PipeThread where
  call : Option PipeCall
  asleep : Option PipeChan
  killed : Bool

/-- A return from `pipewrite` with its result, or from `piperead` with the bytes and the pipe
that it has left -/
inductive PipeReturn where
  | write (id : ℕ) (bytes : List UInt8) (r : ℤ)
  | read (n : ℕ) (bytes : List UInt8) (pipe : Pipe)
  | readFailed

/-- A pipe and its processes, with all bytes stored so far, each with the number of its call, and
all returns. -/
structure PipeSys (T : Type) where
  pipe : Pipe
  thread : T → PipeThread
  calls : ℕ
  stored : List (ℕ × UInt8)
  returns : List PipeReturn

/-- What can happen: a call is made, a process that is in a call and not asleep runs its next
section, one end is closed, a process is killed. -/
inductive PipeLabel (T : Type) where
  | write (t : T) (bytes : List UInt8)
  | read (t : T) (n : ℕ)
  | run (t : T)
  | close (writable : Bool)
  | kill (t : T)

namespace PipeSys

variable {T : Type} [DecidableEq T]

/-- After `pipealloc` -/
def start (data : ℕ → UInt8) : PipeSys T := ⟨.alloc data, fun _ => ⟨none, none, false⟩, 0, [], []⟩

def setThread (t : T) (x : PipeThread) (s : PipeSys T) : PipeSys T :=
  { s with thread := update s.thread t x }

def wakeup (c : PipeChan) (s : PipeSys T) : PipeSys T :=
  { s with thread := fun t =>
      if (s.thread t).asleep = some c then { s.thread t with asleep := none } else s.thread t }

/-- Process `t` returns. -/
def leave (t : T) (r : PipeReturn) (s : PipeSys T) : PipeSys T :=
  { s.setThread t { s.thread t with call := none } with returns := s.returns ++ [r] }

/-- A section of `pipewrite` of process `t` -/
def runWrite (t : T) (id : ℕ) (bytes rest : List UInt8) (s : PipeSys T) : PipeSys T :=
  let (p, stored, r) := s.pipe.pipewrite (s.thread t).killed rest
  let s := { s with pipe := p, stored := s.stored ++ stored.map (id, ·) }
  match r with
  | .done => (s.wakeup .readp).leave t (.write id bytes bytes.length)
  | .failed => s.leave t (.write id bytes (-1))
  | .asleep rest =>
    let s := s.wakeup .readp
    s.setThread t { s.thread t with call := some (.write id bytes rest), asleep := some .writep }

/-- A section of `piperead` of process `t` -/
def runRead (t : T) (n : ℕ) (s : PipeSys T) : PipeSys T :=
  let (p, r) := s.pipe.piperead (s.thread t).killed n
  let s := { s with pipe := p }
  match r with
  | .done bytes => (s.wakeup .writep).leave t (.read n bytes p)
  | .failed => s.leave t .readFailed
  | .asleep => s.setThread t { s.thread t with asleep := some .readp }

/-- `pipeclose`, up to `release` -/
def pipeclose (writable : Bool) (s : PipeSys T) : PipeSys T :=
  { s with pipe := s.pipe.shut writable }.wakeup (if writable = true then .readp else .writep)

/-- One step; `kill` wakes the process. -/
def step (s : PipeSys T) : PipeLabel T → Option (PipeSys T)
  | .write t bytes =>
    if (s.thread t).call.isSome = true then none
    else some { s.setThread t { s.thread t with call := some (.write s.calls bytes bytes) } with
      calls := s.calls + 1 }
  | .read t n =>
    if (s.thread t).call.isSome = true then none
    else some (s.setThread t { s.thread t with call := some (.read n) })
  | .run t =>
    if (s.thread t).asleep.isSome = true then none
    else
      match (s.thread t).call with
      | none => none
      | some (.write id bytes rest) => some (s.runWrite t id bytes rest)
      | some (.read n) => some (s.runRead t n)
  | .close writable => some (s.pipeclose writable)
  | .kill t => some (s.setThread t { s.thread t with killed := true, asleep := none })

end PipeSys

end Xv6Shed
