import Xv6Shed.Ring
import Xv6Shed.Transition
import Mathlib.Algebra.Group.Nat.Defs
import Mathlib.Data.UInt

/-!
# Console input

`console_intr` and `console_read`. The interrupt handler adds characters at `e`, edits those that
are not committed, and commits a line by moving `w`; readers take bytes at `r`. A process holds
`input.lock` from `acquire`, or from its return from `sleep`, up to the next `sleep` or `release`;
such a section is one step, and so is the handling of one character. `INPUT_BUF` is 128.
-/

namespace Xv6Shed
open Function Transition

/-- `input`, without its lock -/
structure Input where
  buf : ℕ → UInt8
  r : UInt32
  w : UInt32
  e : UInt32

namespace Input

/-- `'\n'` -/
def newline : UInt8 := 10

/-- `C('D')` -/
def ctrlD : UInt8 := 4

/-- `C('H')` -/
def ctrlH : UInt8 := 8

/-- `C('P')` -/
def ctrlP : UInt8 := 16

/-- `C('U')` -/
def ctrlU : UInt8 := 21

/-- The loop that kills the line; it makes no more rounds than there are bytes from `w` to `e`. -/
def killLine : ℕ → Input → Input
  | 0, s => s
  | n + 1, s =>
    if s.e ≠ s.w ∧ s.buf ((s.e - 1).toNat % 128) ≠ newline then killLine n { s with e := s.e - 1 }
    else s

/-- `console_intr`, for one character that `getc` returns -/
def consoleIntr (c : UInt8) (s : Input) : Input :=
  if c = ctrlP then s
  else if c = ctrlU then killLine (s.e - s.w).toNat s
  else if c = ctrlH then if s.e ≠ s.w then { s with e := s.e - 1 } else s
  else if c ≠ 0 ∧ s.e - s.r < 128 then
    let s := { s with buf := update s.buf (s.e.toNat % 128) c, e := s.e + 1 }
    if c = newline ∨ c = ctrlD ∨ s.e = s.r + 128 then { s with w := s.e } else s
  else s

/-- How a section of `console_read` ends: all bytes are read, or a newline was, or `^D` is left for
the next read, or it was consumed, or there is nothing to read. -/
inductive ReadStop where
  | full
  | newline
  | left
  | eof
  | asleep
  deriving DecidableEq

/-- A section of `console_read`, with the bytes that it stores and how it ends; `n` of `target`
bytes are left to read. -/
def consoleRead (target : ℕ) : ℕ → Input → Input × List UInt8 × ReadStop
  | 0, s => (s, [], .full)
  | n + 1, s =>
    if s.r = s.w then (s, [], .asleep)
    else
      let c := s.buf (s.r.toNat % 128)
      let s := { s with r := s.r + 1 }
      if c = ctrlD then
        if n + 1 < target then ({ s with r := s.r - 1 }, [], .left) else (s, [], .eof)
      else if c = newline then (s, [c], .newline)
      else
        let (s, bytes, stop) := consoleRead target n s
        (s, c :: bytes, stop)

/-- The `n` bytes from index `i` on -/
def slice (s : Input) (i : UInt32) (n : ℕ) : List UInt8 :=
  (List.range n).map fun k => s.buf ((i.toNat + k) % 128)

/-- The committed bytes that have not been read -/
def pending (s : Input) : List UInt8 := s.slice s.r (s.w - s.r).toNat

/-- The buffer holds committed bytes and then a line that is being edited. -/
structure Holds (s : Input) (pend line : List UInt8) : Prop where
  ring : Ring.Holds 128 (2 ^ 32) s.r.toNat s.e.toNat s.buf (pend ++ line)
  write : s.w.toNat = (s.r.toNat + pend.length) % 2 ^ 32
  plain : newline ∉ line

variable {s : Input} {pend line : List UInt8} {c : UInt8}

section

variable (h : s.Holds pend line)
include h

theorem Holds.length_le : pend.length + line.length ≤ 128 := by
  have := h.ring.length
  rwa [List.length_append] at this

theorem Holds.pending_length : (s.w - s.r).toNat = pend.length := by
  have hlen := h.length_le
  have hr := s.r.toNat_lt
  have hw := h.write
  rw [UInt32.toNat_sub]
  omega

theorem Holds.edit_length : (s.e - s.r).toNat = pend.length + line.length := by
  have hlen := h.length_le
  have hr := s.r.toNat_lt
  have he := h.ring.write
  rw [List.length_append] at he
  rw [UInt32.toNat_sub]
  omega

theorem Holds.line_length : (s.e - s.w).toNat = line.length := by
  have hlen := h.length_le
  have hr := s.r.toNat_lt
  have hw := h.write
  have he := h.ring.write
  rw [List.length_append] at he
  rw [UInt32.toNat_sub]
  omega

theorem Holds.pending_eq : s.pending = pend := by
  refine List.ext_getElem ?_ fun k hk hkp => ?_
  · simp [pending, slice, h.pending_length]
  · have hcell := h.ring.cell k (by rw [List.length_append]; omega)
    rw [List.getElem_append_left hkp] at hcell
    simp only [pending, slice, List.getElem_map, List.getElem_range]
    exact hcell

theorem Holds.empty_iff : s.r = s.w ↔ pend = [] := by
  have hlen := h.length_le
  have hr := s.r.toNat_lt
  have hw := h.write
  rw [← UInt32.toNat_inj, ← List.length_eq_zero_iff]
  omega

theorem Holds.no_line_iff : s.e = s.w ↔ line = [] := by
  have hlen := h.length_le
  have hr := s.r.toNat_lt
  have hw := h.write
  have he := h.ring.write
  rw [List.length_append] at he
  rw [← UInt32.toNat_inj, ← List.length_eq_zero_iff]
  omega

end

theorem Holds.slice_eq {add : List UInt8} (h : s.Holds (pend ++ add) line) {w : UInt32}
    (hw : w.toNat = (s.r.toNat + pend.length) % 2 ^ 32) : s.slice w (s.w - w).toNat = add := by
  have hlen := h.length_le
  have hr := s.r.toNat_lt
  have hw' := h.write
  rw [List.length_append] at hlen hw'
  have hsub : (s.w - w).toNat = add.length := by
    rw [UInt32.toNat_sub]
    omega
  refine List.ext_getElem ?_ fun k hk hka => ?_
  · simp [slice, hsub]
  · have hcell := h.ring.cell (pend.length + k) (by simp only [List.length_append]; omega)
    rw [List.getElem_append_left (by rw [List.length_append]; omega),
      List.getElem_append_right (by omega)] at hcell
    simp only [slice, List.getElem_map, List.getElem_range]
    rw [show (w.toNat + k) % 128 = (s.r.toNat + (pend.length + k)) % 128 by omega, hcell]
    simp

theorem Holds.last (h : s.Holds pend (line ++ [c])) : s.buf ((s.e - 1).toNat % 128) = c := by
  have hlen := h.length_le
  have hr := s.r.toNat_lt
  have he := h.ring.write
  simp only [List.length_append, List.length_singleton] at hlen he
  have hcell := h.ring.cell (pend.length + line.length) (by simp)
  have hidx : (s.e - 1).toNat % 128 = (s.r.toNat + (pend.length + line.length)) % 128 := by
    rw [UInt32.toNat_sub, UInt32.toNat_one]
    omega
  rw [hidx, hcell, List.getElem_append_right (by omega), List.getElem_append_right (by omega)]
  simp

theorem Holds.backspace (h : s.Holds pend (line ++ [c])) :
    Holds { s with e := s.e - 1 } pend line := by
  have hlen := h.length_le
  have hr := s.r.toNat_lt
  have he := h.ring.write
  have hring := h.ring
  simp only [List.length_append, List.length_singleton] at hlen he
  rw [← List.append_assoc] at hring
  refine ⟨?_, h.write, fun hn => h.plain (List.mem_append_left _ hn)⟩
  have hidx : (s.e - 1).toNat = (s.r.toNat + (pend ++ line).length) % 2 ^ 32 := by
    rw [UInt32.toNat_sub, UInt32.toNat_one, List.length_append]
    omega
  dsimp only
  rw [hidx]
  exact hring.shorten

theorem Holds.killLine (h : s.Holds pend line) : (killLine line.length s).Holds pend [] := by
  induction line using List.reverseRecOn generalizing s with
  | nil => exact h
  | append_singleton line c ih =>
    have hc : c ≠ newline := by
      rintro rfl
      exact h.plain (by simp)
    have hne : s.e ≠ s.w := by
      rw [ne_eq, h.no_line_iff]
      simp
    rw [List.length_append, List.length_singleton, Input.killLine, if_pos ⟨hne, by rwa [h.last]⟩]
    exact ih h.backspace

theorem Holds.add (h : s.Holds pend line) (hroom : s.e - s.r < 128) (c : UInt8) :
    Ring.Holds 128 (2 ^ 32) s.r.toNat (s.e + 1).toNat (update s.buf (s.e.toNat % 128) c)
      (pend ++ (line ++ [c])) := by
  have hlt : pend.length + line.length < 128 := by
    rw [← h.edit_length]
    exact UInt32.lt_iff_toNat_lt.mp hroom
  have hpush := Ring.Holds.push (by decide) h.ring (by rw [List.length_append]; omega) c
  rw [UInt32.toNat_add, ← List.append_assoc]
  exact hpush

theorem Holds.consoleIntr (h : s.Holds pend line) (c : UInt8) :
    (s.consoleIntr c).r = s.r ∧
      ((∃ line', (s.consoleIntr c).Holds pend line' ∧ (s.consoleIntr c).w = s.w) ∨
        (s.consoleIntr c).Holds (pend ++ (line ++ [c])) []) := by
  have hkill : ∀ n (s : Input), (Input.killLine n s).r = s.r ∧ (Input.killLine n s).w = s.w := by
    intro n
    induction n with
    | zero => exact fun _ => ⟨rfl, rfl⟩
    | succ n ih =>
      intro s
      unfold Input.killLine
      split_ifs
      · exact ih _
      · exact ⟨rfl, rfl⟩
  unfold Input.consoleIntr
  dsimp only
  split_ifs with h₁ h₂ h₃ h₄ h₅ h₆
  · exact ⟨rfl, .inl ⟨line, h, rfl⟩⟩
  · rw [h.line_length]
    exact ⟨(hkill _ s).1, .inl ⟨[], h.killLine, (hkill _ s).2⟩⟩
  · rcases List.eq_nil_or_concat' line with rfl | ⟨line', b, rfl⟩
    · exact absurd (h.no_line_iff.mpr rfl) h₄
    · exact ⟨rfl, .inl ⟨line', h.backspace, rfl⟩⟩
  · exact ⟨rfl, .inl ⟨line, h, rfl⟩⟩
  · -- the line is committed
    have hadd := h.add h₅.2 c
    refine ⟨rfl, .inr ⟨?_, ?_, List.not_mem_nil⟩⟩
    · dsimp only
      rw [List.append_nil]
      exact hadd
    · exact hadd.write
  · refine ⟨rfl, .inl ⟨line ++ [c], ⟨h.add h₅.2 c, h.write, ?_⟩, rfl⟩⟩
    intro hn
    rcases List.mem_append.mp hn with hn | hn
    · exact h.plain hn
    · exact h₆ (.inl (List.mem_singleton.mp hn).symm)
  · exact ⟨rfl, .inl ⟨line, h, rfl⟩⟩

theorem Holds.pop {b : UInt8} (h : s.Holds (b :: pend) line) :
    s.buf (s.r.toNat % 128) = b ∧ Holds { s with r := s.r + 1 } pend line := by
  obtain ⟨hb, hpop⟩ := Ring.Holds.pop (by decide) h.ring
  have hw := h.write
  rw [List.length_cons] at hw
  refine ⟨hb, ⟨?_, ?_, h.plain⟩⟩
  · dsimp only
    rw [UInt32.toNat_add]
    exact hpop
  · dsimp only
    rw [UInt32.toNat_add, hw]
    change _ = ((s.r.toNat + 1) % 2 ^ 32 + pend.length) % 2 ^ 32
    omega

/-- The `^D` that a section has consumed -/
def ReadStop.mark : ReadStop → List UInt8
  | .eof => [ctrlD]
  | _ => []

/-- Why a section stops that has read `bytes` of `n` and leaves `rest` -/
def Stops (target n : ℕ) (bytes rest : List UInt8) : ReadStop → Prop
  | .full => bytes.length = n ∧ newline ∉ bytes
  | .newline => bytes.length ≤ n ∧ ∃ l, bytes = l ++ [newline] ∧ newline ∉ l
  | .left => bytes.length < n ∧ newline ∉ bytes ∧ rest.head? = some ctrlD ∧
      (bytes = [] → n < target)
  | .eof => bytes = [] ∧ n = target
  | .asleep => bytes.length < n ∧ newline ∉ bytes ∧ rest = []

/-- What a section of `console_read` does -/
def Took (target n : ℕ) (pend line : List UInt8) (x : Input × List UInt8 × ReadStop) : Prop :=
  ∃ rest, x.1.Holds rest line ∧ pend = x.2.1 ++ (x.2.2.mark ++ rest) ∧ ctrlD ∉ x.2.1 ∧
    Stops target n x.2.1 rest x.2.2

theorem Took.cons {target n : ℕ} {x : Input × List UInt8 × ReadStop} (h : Took target n pend line x)
    (hn : n < target) (hd : c ≠ ctrlD) (hc : c ≠ newline) :
    Took target (n + 1) (c :: pend) line (x.1, c :: x.2.1, x.2.2) := by
  obtain ⟨rest, hrest, hpend, hclean, hstop⟩ := h
  refine ⟨rest, hrest, by rw [hpend]; rfl, ?_, ?_⟩
  · exact fun hm => (List.mem_cons.mp hm).elim (fun he => hd he.symm) hclean
  have hnl : newline ∉ x.2.1 → newline ∉ c :: x.2.1 := fun h hm =>
    (List.mem_cons.mp hm).elim (fun he => hc he.symm) h
  generalize x.2.2 = stop at hstop ⊢
  cases stop with
  | full => exact ⟨congrArg (· + 1) hstop.1, hnl hstop.2⟩
  | newline =>
    obtain ⟨hlen, l, hl, hnot⟩ := hstop
    refine ⟨Nat.succ_le_succ hlen, c :: l, by rw [hl]; rfl, ?_⟩
    exact fun hm => (List.mem_cons.mp hm).elim (fun he => hc he.symm) hnot
  | left =>
    exact ⟨Nat.succ_lt_succ hstop.1, hnl hstop.2.1, hstop.2.2.1,
      fun he => absurd he (List.cons_ne_nil _ _)⟩
  | eof => exact absurd hstop.2 hn.ne
  | asleep => exact ⟨Nat.succ_lt_succ hstop.1, hnl hstop.2.1, hstop.2.2⟩

theorem Holds.consoleRead {target n : ℕ} (h : s.Holds pend line) (hn : n ≤ target) :
    Took target n pend line (s.consoleRead target n) := by
  induction n generalizing s pend with
  | zero => exact ⟨pend, h, rfl, List.not_mem_nil, rfl, List.not_mem_nil⟩
  | succ n ih =>
    unfold Input.consoleRead
    by_cases he : s.r = s.w
    · rw [if_pos he]
      exact ⟨pend, h, rfl, List.not_mem_nil, Nat.succ_pos n, List.not_mem_nil, h.empty_iff.mp he⟩
    rw [if_neg he]
    cases pend with
    | nil => exact absurd (h.empty_iff.mpr rfl) he
    | cons b pend =>
      obtain ⟨hb, hpop⟩ := h.pop
      dsimp only
      rw [hb]
      by_cases hd : b = ctrlD
      · rw [if_pos hd]
        by_cases hlt : n + 1 < target
        · -- it is put back for the next read
          rw [if_pos hlt, add_sub_cancel_right]
          exact ⟨b :: pend, h, rfl, List.not_mem_nil, Nat.succ_pos n, List.not_mem_nil,
            by rw [hd]; rfl, fun _ => hlt⟩
        · rw [if_neg hlt]
          exact ⟨pend, hpop, by rw [hd]; rfl, List.not_mem_nil, rfl, by omega⟩
      · rw [if_neg hd]
        by_cases hc : b = newline
        · rw [if_pos hc]
          refine ⟨pend, hpop, rfl, ?_, ?_⟩
          · exact fun hm => hd (List.mem_singleton.mp hm).symm
          · exact ⟨Nat.succ_pos n, [], by rw [hc]; rfl, List.not_mem_nil⟩
        · rw [if_neg hc]
          exact (ih hpop (by omega)).cons (by omega) hd hc

end Input

/-- The console and the processes in `console_read`, each with the size of its read and the bytes
it has so far. The history has all bytes that were committed, all that were taken, with the
process, and all returns. -/
structure Console (T : Type) where
  input : Input
  reader : T → Option (ℕ × List UInt8)
  committed : List UInt8
  taken : List (T × UInt8)
  returns : List (T × ℕ × List UInt8)

/-- A character arrives, a process calls `console_read`, or one that is in it runs a section. -/
inductive ConsoleLabel (T : Type) where
  | key (c : UInt8)
  | read (t : T) (n : ℕ)
  | run (t : T)

namespace Console
open Input

variable {T : Type} [DecidableEq T]

/-- An empty buffer, with any value of the indices -/
def start (buf : ℕ → UInt8) (i : UInt32) : Console T := ⟨⟨buf, i, i, i⟩, fun _ => none, [], [], []⟩

/-- A section of `console_read` of process `t` -/
def runRead (t : T) (target : ℕ) (got : List UInt8) (s : Console T) : Console T :=
  let (input, bytes, stop) := s.input.consoleRead target (target - got.length)
  let s := { s with input := input, taken := s.taken ++ (bytes ++ stop.mark).map (t, ·) }
  if stop = .asleep then { s with reader := update s.reader t (some (target, got ++ bytes)) }
  else
    { s with
      reader := update s.reader t none
      returns := s.returns ++ [(t, target, got ++ bytes)] }

def step (s : Console T) : ConsoleLabel T → Option (Console T)
  | .key c =>
    let input := s.input.consoleIntr c
    some { s with
      input := input
      committed := s.committed ++ input.slice s.input.w (input.w - s.input.w).toNat }
  | .read t n =>
    if s.reader t = none ∧ 0 < n then
      some { s with reader := update s.reader t (some (n, [])) }
    else none
  | .run t => (s.reader t).map fun x => s.runRead t x.1 x.2

def Step (s : Console T) (a : ConsoleLabel T) (s' : Console T) : Prop := s.step a = some s'

/-- The bytes of a return, or the `^D` for which it had none -/
def marked (bytes : List UInt8) : List UInt8 := if bytes = [] then [ctrlD] else bytes

/-- What process `t` has taken from the buffer -/
def takenBy (t : T) (s : Console T) : List UInt8 := (s.taken.filter (·.1 = t)).map Prod.snd

/-- What the returns to process `t` have had -/
def returnedTo (t : T) (s : Console T) : List UInt8 :=
  (s.returns.filter (·.1 = t)).flatMap fun x => marked x.2.2

/-- What process `t` has in its present read -/
def got (t : T) (s : Console T) : List UInt8 := (s.reader t).elim [] Prod.snd

/-- A return has at most as many bytes as were asked for, with a newline at the end only. -/
def Line (x : T × ℕ × List UInt8) : Prop :=
  x.2.2.length ≤ x.2.1 ∧ ctrlD ∉ x.2.2 ∧ newline ∉ x.2.2.dropLast

/-- What holds in every state -/
structure Accounted (s : Console T) : Prop where
  holds : ∃ line, s.input.Holds s.input.pending line
  committed : s.committed = s.taken.map Prod.snd ++ s.input.pending
  reading : ∀ t n l, s.reader t = some (n, l) → l.length < n ∧ ctrlD ∉ l ∧ newline ∉ l
  given : ∀ t, s.takenBy t = s.returnedTo t ++ s.got t
  lines : ∀ x ∈ s.returns, Line x

variable {s s' : Console T} {a : ConsoleLabel T} {t : T} {n : ℕ} {l : List UInt8}

theorem Step.run (hs : s.Step (.run t) s') :
    ∃ n l, s.reader t = some (n, l) ∧ s' = s.runRead t n l := by
  obtain ⟨x, hx, he⟩ := Option.map_eq_some_iff.mp hs
  exact ⟨x.1, x.2, hx, he.symm⟩

theorem Accounted.key (h : s.Accounted) {c : UInt8} (hs : s.Step (.key c) s') :
    s'.Accounted ∧ s.input.pending <+: s'.input.pending := by
  obtain ⟨line, hl⟩ := h.holds
  obtain rfl : _ = s' := Option.some.inj hs
  obtain ⟨hr, ⟨line', hl', hw⟩ | hl'⟩ := hl.consoleIntr c
  · have hp := hl'.pending_eq
    refine ⟨⟨⟨line', ?_⟩, ?_, h.reading, h.given, h.lines⟩, ?_⟩
    · dsimp only
      rw [hp]
      exact hl'
    · dsimp only
      rw [hw, hp, sub_self]
      exact (List.append_nil _).trans h.committed
    · rw [hp]
  · have hp := hl'.pending_eq
    have hslice := hl'.slice_eq (w := s.input.w) (by rw [hr]; exact hl.write)
    refine ⟨⟨⟨[], ?_⟩, ?_, h.reading, h.given, h.lines⟩, ?_⟩
    · dsimp only
      rw [hp]
      exact hl'
    · dsimp only
      rw [hslice, hp, h.committed, List.append_assoc]
    · rw [hp]
      exact List.prefix_append _ _

theorem Accounted.read (h : s.Accounted) (hs : s.Step (.read t n) s') : s'.Accounted := by
  unfold Step step at hs
  dsimp only at hs
  split_ifs at hs with hn
  obtain rfl : _ = s' := Option.some.inj hs
  refine ⟨h.holds, h.committed, fun u m l hu => ?_, fun u => ?_, h.lines⟩
  · dsimp only at hu
    by_cases hut : u = t
    · rw [hut, update_self] at hu
      obtain ⟨rfl, rfl⟩ := Prod.mk.inj (Option.some.inj hu)
      exact ⟨hn.2, List.not_mem_nil, List.not_mem_nil⟩
    · rw [update_of_ne hut] at hu
      exact h.reading u m l hu
  · have hg := h.given u
    unfold got at hg ⊢
    dsimp only
    by_cases hut : u = t
    · rw [hut] at hg ⊢
      rw [update_self]
      rw [hn.1] at hg
      exact hg
    · rw [update_of_ne hut]
      exact hg

omit [DecidableEq T] in
theorem filter_map_pair [DecidableEq T] (t u : T) (bs : List UInt8) :
    ((bs.map (t, ·)).filter (·.1 = u)).map Prod.snd = if u = t then bs else [] := by
  induction bs with
  | nil => simp
  | cons b bs ih =>
    by_cases hut : u = t
    · rw [if_pos hut] at ih ⊢
      simpa [hut] using ih
    · rw [if_neg hut] at ih ⊢
      simp [Ne.symm hut]

/-- Why a read returns that has `bytes` of `n`: it has all, or a newline, or `^D` comes next, or it
has consumed `^D`. -/
def Ends (n : ℕ) (bytes pend pend' : List UInt8) : Prop :=
  bytes.length = n ∨ bytes.getLast? = some newline ∨
    (bytes ≠ [] ∧ pend'.head? = some ctrlD) ∨ (bytes = [] ∧ pend = ctrlD :: pend')

omit [DecidableEq T] in
theorem stops_return {target : ℕ} {bytes pend rest : List UInt8} {stop : ReadStop}
    (hl : l.length < target ∧ ctrlD ∉ l ∧ newline ∉ l)
    (hpend : pend = bytes ++ (stop.mark ++ rest)) (hclean : ctrlD ∉ bytes)
    (hstop : Stops target (target - l.length) bytes rest stop) (ha : stop ≠ .asleep) :
    Line (t, target, l ++ bytes) ∧ Ends target (l ++ bytes) pend rest ∧
      marked (l ++ bytes) = l ++ (bytes ++ stop.mark) := by
  obtain ⟨hlen, hld, hln⟩ := hl
  have hd : ctrlD ∉ l ++ bytes := fun hm => (List.mem_append.mp hm).elim hld hclean
  have hnl : newline ∉ bytes → newline ∉ l ++ bytes := fun h hm =>
    (List.mem_append.mp hm).elim hln h
  have hdrop : newline ∉ bytes → newline ∉ (l ++ bytes).dropLast := fun h hm =>
    hnl h (List.mem_of_mem_dropLast hm)
  have hmarked : l ++ bytes ≠ [] → marked (l ++ bytes) = l ++ bytes := fun h => if_neg h
  cases stop with
  | full =>
    have htotal : (l ++ bytes).length = target := by
      rw [List.length_append, hstop.1]
      omega
    have hne : l ++ bytes ≠ [] := by
      rw [← List.length_pos_iff]
      omega
    refine ⟨⟨htotal.le, hd, hdrop hstop.2⟩, .inl htotal, ?_⟩
    rw [hmarked hne]
    simp [ReadStop.mark]
  | newline =>
    obtain ⟨hle, b, rfl, hb⟩ := hstop
    have hne : l ++ (b ++ [newline]) ≠ [] := by simp
    refine ⟨⟨?_, hd, ?_⟩, .inr (.inl ?_), ?_⟩
    · simp only [List.length_append] at hle ⊢
      omega
    · dsimp only
      rw [← List.append_assoc, List.dropLast_concat]
      exact fun hm => (List.mem_append.mp hm).elim hln hb
    · rw [← List.append_assoc, List.getLast?_concat]
    · rw [hmarked hne]
      simp [ReadStop.mark]
  | left =>
    obtain ⟨hlt, hnot, hrest, hfirst⟩ := hstop
    have hne : l ++ bytes ≠ [] := by
      intro he
      obtain ⟨hl₀, hb₀⟩ := List.append_eq_nil_iff.mp he
      have := hfirst hb₀
      rw [hl₀] at this
      exact absurd this (by simp)
    refine ⟨⟨?_, hd, hdrop hnot⟩, .inr (.inr (.inl ⟨hne, hrest⟩)), ?_⟩
    · rw [List.length_append]
      dsimp only
      omega
    · rw [hmarked hne]
      simp [ReadStop.mark]
  | eof =>
    obtain ⟨rfl, hn⟩ := hstop
    have hl₀ : l = [] := by
      rw [← List.length_eq_zero_iff]
      omega
    subst hl₀
    exact ⟨⟨Nat.zero_le _, List.not_mem_nil, List.not_mem_nil⟩,
      .inr (.inr (.inr ⟨rfl, hpend⟩)), rfl⟩
  | asleep => exact absurd rfl ha

/-- What a section of a read of `n` bytes does that has had `l` before -/
inductive Ran (s : Console T) (t : T) (n : ℕ) (l : List UInt8) (s' : Console T) : Prop
  | asleep {bytes : List UInt8} : s'.reader = update s.reader t (some (n, l ++ bytes)) →
      s'.returns = s.returns → s'.taken = s.taken ++ bytes.map (t, ·) → Ran s t n l s'
  | returned {bytes tail : List UInt8} : s'.reader = update s.reader t none →
      s'.returns = s.returns ++ [(t, n, l ++ bytes)] →
      s'.taken = s.taken ++ tail.map (t, ·) → marked (l ++ bytes) = l ++ tail →
      Ends n (l ++ bytes) s.input.pending s'.input.pending → Ran s t n l s'

theorem Accounted.run (h : s.Accounted) (hr : s.reader t = some (n, l))
    (hs : s.Step (.run t) s') : s'.Accounted ∧ Ran s t n l s' := by
  obtain ⟨line, hline⟩ := h.holds
  have hl := h.reading t n l hr
  obtain ⟨n', l', hr', rfl⟩ := hs.run
  obtain ⟨rfl, rfl⟩ := Prod.mk.inj (Option.some.inj (hr.symm.trans hr'))
  obtain ⟨rest, hrest, hpend, hclean, hstop⟩ := hline.consoleRead (Nat.sub_le n l.length)
  unfold runRead
  dsimp only
  generalize s.input.consoleRead n (n - l.length) = x at hrest hpend hclean hstop ⊢
  obtain ⟨input, bytes, stop⟩ := x
  dsimp only at hrest hpend hclean hstop ⊢
  have hp := hrest.pending_eq
  have hcommitted : s.committed =
      (s.taken ++ (bytes ++ stop.mark).map (t, ·)).map Prod.snd ++ input.pending := by
    rw [h.committed, hp, hpend, List.map_append, List.map_map]
    simp [Function.comp_def]
  have htaken : ∀ u, ((s.taken ++ (bytes ++ stop.mark).map (t, ·)).filter (·.1 = u)).map Prod.snd =
      s.takenBy u ++ if u = t then bytes ++ stop.mark else [] := by
    intro u
    rw [List.filter_append, List.map_append, filter_map_pair]
    rfl
  have hholds : input.Holds input.pending line := hp.symm ▸ hrest
  by_cases ha : stop = .asleep
  · subst ha
    rw [if_pos rfl]
    refine ⟨⟨⟨line, hholds⟩, hcommitted, fun u m k hu => ?_, fun u => ?_, h.lines⟩,
      .asleep rfl rfl (by simp [ReadStop.mark])⟩
    · dsimp only at hu
      by_cases hut : u = t
      · rw [hut, update_self] at hu
        obtain ⟨rfl, rfl⟩ := Prod.mk.inj (Option.some.inj hu)
        refine ⟨?_, fun hm => (List.mem_append.mp hm).elim hl.2.1 hclean,
          fun hm => (List.mem_append.mp hm).elim hl.2.2 hstop.2.1⟩
        have := hstop.1
        rw [List.length_append]
        omega
      · rw [update_of_ne hut] at hu
        exact h.reading u m k hu
    · have hg := h.given u
      refine (htaken u).trans ?_
      unfold got at hg ⊢
      dsimp only
      rw [hg]
      by_cases hut : u = t
      · subst hut
        rw [if_pos rfl, update_self, hr]
        simp [ReadStop.mark, returnedTo]
      · rw [if_neg hut, update_of_ne hut, List.append_nil]
        rfl
  · rw [if_neg ha]
    obtain ⟨hlineR, hends, hmark⟩ := stops_return (t := t) hl hpend hclean hstop ha
    refine ⟨⟨⟨line, hholds⟩, hcommitted, fun u m k hu => ?_, fun u => ?_, fun y hy => ?_⟩,
      .returned rfl rfl rfl hmark (hp.symm ▸ hends)⟩
    · dsimp only at hu
      by_cases hut : u = t
      · rw [hut, update_self] at hu
        cases hu
      · rw [update_of_ne hut] at hu
        exact h.reading u m k hu
    · have hg := h.given u
      refine (htaken u).trans ?_
      unfold got returnedTo at hg ⊢
      dsimp only
      rw [hg, List.filter_append, List.flatMap_append]
      by_cases hut : u = t
      · subst hut
        rw [if_pos rfl, update_self, hr]
        simp [hmark]
      · rw [if_neg hut, update_of_ne hut, List.append_nil]
        simp [Ne.symm hut]
    · rcases List.mem_append.mp hy with hy | hy
      · exact h.lines y hy
      · rw [List.mem_singleton.mp hy]
        exact hlineR

theorem Accounted.step (h : s.Accounted) (hs : s.Step a s') : s'.Accounted := by
  cases a with
  | key c => exact (h.key hs).1
  | read t n => exact h.read hs
  | run t =>
    obtain ⟨n, l, hr, -⟩ := hs.run
    exact (h.run hr hs).1

theorem Accounted.eof (h : s.Accounted) (hr : s.reader t = some (n, []))
    (hd : s.input.pending.head? = some ctrlD) (hs : s.Step (.run t) s') :
    s'.returns = s.returns ++ [(t, n, [])] ∧ s.input.pending = ctrlD :: s'.input.pending := by
  obtain ⟨line, hline⟩ := h.holds
  obtain ⟨rest, hrest⟩ := List.head?_eq_some_iff.mp hd
  rw [hrest] at hline
  obtain ⟨hb, hpop⟩ := hline.pop
  have hne : s.input.r ≠ s.input.w := by
    rw [ne_eq, hline.empty_iff]
    exact List.cons_ne_nil _ _
  obtain ⟨m, rfl⟩ : ∃ m, n = m + 1 :=
    ⟨n - 1, by have := (h.reading t n [] hr).1; simp at this; omega⟩
  have hread : s.input.consoleRead (m + 1) (m + 1) =
      ({ s.input with r := s.input.r + 1 }, [], .eof) := by
    rw [consoleRead, if_neg hne]
    dsimp only
    rw [hb, if_pos rfl, if_neg (Nat.lt_irrefl _)]
  obtain ⟨n', l', hr', rfl⟩ := hs.run
  obtain ⟨rfl, rfl⟩ := Prod.mk.inj (Option.some.inj (hr.symm.trans hr'))
  unfold runRead
  rw [List.length_nil, Nat.sub_zero, hread]
  refine ⟨rfl, ?_⟩
  rw [hrest]
  exact congrArg (ctrlD :: ·) hpop.pending_eq.symm

/-- A step in which a read is begun only when no other is in progress -/
def Alone (s : Console T) (a : ConsoleLabel T) (s' : Console T) : Prop :=
  s.Step a s' ∧ ∀ t n, a = .read t n → ∀ u, s.reader u = none

/-- All bytes that were taken were returned, up to those of the read in progress. -/
def Successive (s : Console T) : Prop :=
  ∃ l, s.taken.map Prod.snd = (s.returns.flatMap fun x => marked x.2.2) ++ l ∧
    ((∀ u, s.reader u = none) ∧ l = [] ∨
      ∃ t n, s.reader t = some (n, l) ∧ ∀ u, u ≠ t → s.reader u = none)

theorem Successive.step (h : s.Successive) (hacc : s.Accounted) (hs : s.Alone a s') :
    s'.Successive := by
  obtain ⟨l, htaken, hreader⟩ := h
  cases a with
  | key c =>
    obtain rfl : _ = s' := Option.some.inj hs.1
    exact ⟨l, htaken, hreader⟩
  | read t n =>
    have hnone := hs.2 t n rfl
    have hstep := hs.1
    unfold Step Console.step at hstep
    dsimp only at hstep
    split_ifs at hstep with hn
    obtain rfl : _ = s' := Option.some.inj hstep
    have hl : l = [] := by
      rcases hreader with ⟨-, hl⟩ | ⟨u, m, hu, -⟩
      · exact hl
      · rw [hnone u] at hu
        cases hu
    subst hl
    refine ⟨[], htaken, .inr ⟨t, n, update_self .., fun u hu => ?_⟩⟩
    dsimp only
    rw [update_of_ne hu]
    exact hnone u
  | run t =>
    obtain ⟨n, k, hr, -⟩ := hs.1.run
    obtain ⟨rfl, hother⟩ : l = k ∧ ∀ u, u ≠ t → s.reader u = none := by
      rcases hreader with ⟨hnone, -⟩ | ⟨u, m, hu, hother⟩
      · rw [hnone t] at hr
        cases hr
      · have hut : t = u := by
          by_contra hne
          rw [hother t hne] at hr
          cases hr
        subst hut
        obtain ⟨-, rfl⟩ := Prod.mk.inj (Option.some.inj (hu.symm.trans hr))
        exact ⟨rfl, hother⟩
    cases (hacc.run hr hs.1).2 with
    | @asleep bytes hrd hret htk =>
      refine ⟨l ++ bytes, ?_, .inr ⟨t, n, ?_, fun u hu => ?_⟩⟩
      · rw [htk, hret, List.map_append, htaken, List.append_assoc]
        simp [Function.comp_def]
      · rw [hrd, update_self]
      · rw [hrd, update_of_ne hu]
        exact hother u hu
    | @returned bytes tail hrd hret htk hmark hends =>
      refine ⟨[], ?_, .inl ⟨fun u => ?_, rfl⟩⟩
      · rw [htk, hret, List.map_append, htaken, List.flatMap_append, List.append_assoc]
        simp [Function.comp_def, hmark]
      · rw [hrd]
        by_cases hut : u = t
        · rw [hut, update_self]
        · rw [update_of_ne hut]
          exact hother u hut

theorem accounted_start (buf : ℕ → UInt8) (i : UInt32) : (start buf i : Console T).Accounted := by
  have hholds : (start buf i : Console T).input.Holds [] [] := by
    refine ⟨⟨Nat.zero_le _, i.toNat_lt, ?_, fun k hk => absurd hk (Nat.not_lt_zero k)⟩, ?_,
      List.not_mem_nil⟩
    · exact (Nat.mod_eq_of_lt i.toNat_lt).symm
    · exact (Nat.mod_eq_of_lt i.toNat_lt).symm
  have hp := hholds.pending_eq
  refine ⟨⟨[], hp.symm ▸ hholds⟩, ?_, fun t n l hr => ?_, fun t => rfl, fun x hx => ?_⟩
  · rw [hp]
    rfl
  · cases hr
  · cases hx

/-- In every state that characters, calls and sections lead to in any order: the indices are in
order; a character leaves committed bytes alone; the bytes taken and those still in the buffer are
the committed ones, in order; each process has in its returns what it has taken; reads made one
after the other return the committed bytes from the first on; a read returns when it has its size,
a newline, or meets `^D`; and a `^D` that it meets first is consumed for a return of nothing. -/
theorem console_line_discipline {buf : ℕ → UInt8} {i : UInt32} {s : Console T}
    (hr : Reach Step (start buf i) s) :
    ((s.input.w - s.input.r).toNat ≤ (s.input.e - s.input.r).toNat ∧
      (s.input.e - s.input.r).toNat ≤ 128) ∧
    (∀ c s', s.Step (.key c) s' → s.input.pending <+: s'.input.pending) ∧
    s.committed = s.taken.map Prod.snd ++ s.input.pending ∧
    (∀ t, s.takenBy t = s.returnedTo t ++ s.got t) ∧
    (Reach Alone (start buf i) s → (s.returns.flatMap fun x => marked x.2.2) <+: s.committed) ∧
    (∀ x ∈ s.returns, Line x) ∧
    (∀ t n l s', s.reader t = some (n, l) → s.Step (.run t) s' → s'.reader t = none →
      ∃ bytes, s'.returns = s.returns ++ [(t, n, l ++ bytes)] ∧
        Ends n (l ++ bytes) s.input.pending s'.input.pending) ∧
    (∀ t n s', s.reader t = some (n, []) → s.input.pending.head? = some ctrlD →
      s.Step (.run t) s' → s'.returns = s.returns ++ [(t, n, [])] ∧
        s.input.pending = ctrlD :: s'.input.pending) := by
  have h : s.Accounted := hr.invariant (accounted_start buf i) fun _ _ _ h hs => h.step hs
  obtain ⟨line, hline⟩ := h.holds
  refine ⟨?_, fun c s' hs => (h.key hs).2, h.committed, h.given, fun halone => ?_, h.lines,
    fun t n l s' hrd hs hnone => ?_, fun t n s' hrd hd hs => h.eof hrd hd hs⟩
  · rw [hline.pending_length, hline.edit_length]
    exact ⟨Nat.le_add_right _ _, hline.length_le⟩
  · have hsucc : s.Accounted ∧ s.Successive := by
      apply halone.invariant (P := fun s => s.Accounted ∧ s.Successive)
      · exact ⟨accounted_start buf i, [], rfl, .inl ⟨fun _ => rfl, rfl⟩⟩
      · exact fun _ _ _ h hs => ⟨h.1.step hs.1, h.2.step h.1 hs⟩
    obtain ⟨l, htaken, -⟩ := hsucc.2
    rw [h.committed, htaken, List.append_assoc]
    exact List.prefix_append _ _
  · cases (h.run hrd hs).2 with
    | asleep hrd' hret htk =>
      rw [hrd', update_self] at hnone
      cases hnone
    | returned hrd' hret htk hmark hends => exact ⟨_, hret, hends⟩

/-- The indices wrap while a line is typed, with one character taken back; after it `^D`. -/
theorem console_line_discipline_wraps : ∃ s : Console Unit,
    Reach Step (start (fun _ => 0) (2 ^ 32 - 2)) s ∧
    Reach Alone (start (fun _ => 0) (2 ^ 32 - 2)) s ∧
    s.returns = [((), 10, [104, 105, 10]), ((), 10, [])] ∧
    (s.returns.flatMap fun x => marked x.2.2) <+: s.committed := by
  have hk : (([.key 104, .key 111, .read () 10, .key 8, .run (), .key 105, .key 10, .run (), .key 4,
      .read () 10, .run ()] : List (ConsoleLabel Unit)).foldlM step
        (start (fun _ => 0) (2 ^ 32 - 2))).any
      (fun s => s.returns = [((), 10, [104, 105, 10]), ((), 10, [])]) = true := by
    decide +kernel
  have hstep : ∀ (s : Console Unit) a s', s.step a = some s' → Reach Alone s s' := by
    intro s a s' hs
    refine .next (a := a) .start ⟨hs, ?_⟩
    rintro t n rfl u
    unfold step at hs
    dsimp only at hs
    split_ifs at hs with hn
    exact hn.1
  obtain ⟨s, halone, hs⟩ := exists_reach_of_any hstep hk
  have hr : Reach Step (start (fun _ => 0) (2 ^ 32 - 2)) s := halone.mono fun _ _ _ h => h.1
  exact ⟨s, hr, halone, of_decide_eq_true hs, (console_line_discipline hr).2.2.2.2.1 halone⟩

end Console

end Xv6Shed
