import Mathlib.Tactic.Common
import Mathlib.Data.UInt

/-!
# The MP configuration table

`mp.c`. Memory has `2 ^ 32` bytes and an address is a `uint`, so the end of a table can lie before
its beginning. The loop of `mp_init` goes from entry to entry by the size that belongs to the type
byte; nothing it reads says how many entries, or how many processors, there are.
-/

namespace Xv6Shed.Mp
open Function

/-- Physical memory -/
abbrev Mem := UInt32 → UInt8

/-- A `ushort` -/
def half (m : Mem) (a : UInt32) : ℕ := (m a).toNat + 256 * (m (a + 1)).toNat

/-- A `uint` -/
def word (m : Mem) (a : UInt32) : UInt32 := UInt32.ofNat (half m a + 65536 * half m (a + 2))

/-- `memcmp(a, s, 4) == 0` -/
def signed (m : Mem) (a : UInt32) (s : List UInt8) : Bool :=
  [m a, m (a + 1), m (a + 2), m (a + 3)] = s

def sum (m : Mem) (addr : UInt32) : ℕ → UInt8
  | 0 => 0
  | i + 1 => sum m addr i + m (addr + UInt32.ofNat i)

/-- The loop of `mp_search1`, with the rounds that it takes to `e` -/
def search1Loop (m : Mem) (e : UInt32) : ℕ → UInt32 → Option UInt32
  | 0, _ => none
  | rounds + 1, p =>
    if p < e then
      -- "_MP_"
      if signed m p [0x5f, 0x4d, 0x50, 0x5f] ∧ sum m p 16 = 0 then some p
      else search1Loop m e rounds (p + 16)
    else none

def mpSearch1 (m : Mem) (addr : UInt32) (len : ℕ) : Option UInt32 :=
  search1Loop m (addr + UInt32.ofNat len) (len / 16) addr

def mpSearch (m : Mem) : Option UInt32 :=
  let p := UInt32.ofNat (half m 0x40e * 16)
  (if p ≠ 0 then mpSearch1 m p 1024
    else mpSearch1 m (UInt32.ofNat (half m 0x413 * 1024) - 1024) 1024).or
    (mpSearch1 m 0xf0000 0x10000)

/-- `conf->length` -/
def length (m : Mem) (conf : UInt32) : ℕ := half m (conf + 4)

/-- `mp_config`: the floating pointer and the table -/
def mpConfig (m : Mem) : Option (UInt32 × UInt32) := do
  let mp ← mpSearch m
  let conf := word m (mp + 4)
  guard (conf ≠ 0)
  -- "PCMP"
  guard (signed m conf [0x50, 0x43, 0x4d, 0x50])
  guard (m (conf + 6) = 1 ∨ m (conf + 6) = 4)
  guard (sum m conf (length m conf) = 0)
  pure (mp, conf)

/-- What `mp_init` writes, and the entries it has read: address and size, the last one first -/
structure State (NCPU : ℕ) where
  ismp : Bool
  lapic : UInt32
  ncpu : ℕ
  /-- `cpus[i].apicid` -/
  apicid : Fin NCPU → UInt8
  /-- the index of `bcpu` -/
  bcpu : ℕ
  ioapicId : UInt8
  /-- the IMCR was set -/
  imcr : Bool
  entries : List (UInt32 × ℕ)

/-- How `mp_init` ends -/
inductive End where
  | returned
  /-- `panic("mp_init")` at an entry of this type -/
  | panic (type : UInt8)
  /-- a store behind the end of `cpus` -/
  | outside
  deriving DecidableEq

/-- What is read of an entry of type `t`: the whole entry, or the type byte if it is unknown -/
def size (t : UInt8) : ℕ := if t = 0 then 20 else if t ≤ 4 then 8 else 1

variable {NCPU : ℕ}

/-- The `switch` of `mp_init` -/
def entry (m : Mem) (p : UInt32) (s : State NCPU) : Except End (State NCPU) :=
  match (m p).toNat with
  | 0 => -- MPPROC
    if h : s.ncpu < NCPU then
      .ok { s with
        apicid := update s.apicid ⟨s.ncpu, h⟩ (m (p + 1))
        bcpu := if m (p + 3) &&& 2 ≠ 0 then s.ncpu else s.bcpu
        ncpu := s.ncpu + 1 }
    else .error .outside
  | 2 => .ok { s with ioapicId := m (p + 1) } -- MPIOAPIC
  | 1 | 3 | 4 => .ok s -- MPBUS, MPIOINTR, MPLINTR
  | _ => .error (.panic (m p))

def read (m : Mem) (p : UInt32) (s : State NCPU) : State NCPU :=
  { s with entries := (p, size (m p)) :: s.entries }

/-- The loop of `mp_init` -/
def loop (m : Mem) (e : UInt32) : ℕ → UInt32 → State NCPU → Option (State NCPU × End)
  | 0, _, _ => none
  | fuel + 1, p, s =>
    if p < e then
      match entry m p (read m p s) with
      | .ok s => loop m e fuel (p + UInt32.ofNat (size (m p))) s
      | .error out => some (read m p s, out)
    else some (s, .returned)

/-- The globals at boot -/
def boot : State NCPU := ⟨false, 0, 0, fun _ => 0, 0, 0, false, []⟩

/-- `mp_init` has a table. -/
def found (m : Mem) (conf : UInt32) : State NCPU :=
  { boot with ismp := true, lapic := word m (conf + 36) }

/-- `conf + 1` -/
def start (conf : UInt32) : UInt32 := conf + 44

/-- `(uchar*)conf + conf->length` -/
def stop (m : Mem) (conf : UInt32) : UInt32 := conf + UInt32.ofNat (length m conf)

def mpInit (m : Mem) (fuel : ℕ) : Option (State NCPU × End) :=
  match mpConfig m with
  | none => some (boot, .returned)
  | some (mp, conf) =>
    (loop m (stop m conf) fuel (start conf) (found m conf)).map fun r =>
      (if r.2 = .returned then { r.1 with imcr := m (mp + 12) ≠ 0 } else r.1, r.2)

/-- `k` more processors in an entry of type `t` -/
def procs (t : UInt8) : ℕ := if t = 0 then 1 else 0

/-- The `n` bytes at `p` are whole entries with at most `k` processors, to the end or to a byte of
an unknown type. -/
inductive Entries (m : Mem) : ℕ → ℕ → UInt32 → Prop
  | done {k : ℕ} {p : UInt32} : Entries m k 0 p
  | unknown {k n : ℕ} {p : UInt32} : 4 < m p → Entries m k (n + 1) p
  | known {k n : ℕ} {p : UInt32} : m p ≤ 4 → Entries m k n (p + UInt32.ofNat (size (m p))) →
      Entries m (k + procs (m p)) (n + size (m p)) p

/-- An end that the specification allows, with all that was read inside the table -/
def Fine (conf : UInt32) (len : ℕ) (r : State NCPU × End) : Prop :=
  ((∃ t, r.2 = .panic t ∧ 4 < t) ∨ r.2 = .returned ∧ r.1.ncpu ≤ NCPU) ∧
    ∀ x ∈ r.1.entries, (x.1 - conf).toNat + x.2 ≤ len

/-- `mp_init` returns or panics at a byte of an unknown type, all stores to `cpus` are inside and
all entries that it reads are inside the table. -/
def Bounded (NCPU : ℕ) (m : Mem) (conf : UInt32) : Prop :=
  ∃ fuel, ∃ r : State NCPU × End, mpInit m fuel = some r ∧ Fine conf (length m conf) r

/-- The bytes behind the header are whole entries with at most `NCPU` processors, to the end or to
a byte of an unknown type. Nothing is asked of a table whose end is not above its first entry. -/
def WellFormed (NCPU : ℕ) (m : Mem) (conf : UInt32) : Prop :=
  start conf < stop m conf →
    44 ≤ length m conf ∧ Entries m NCPU (length m conf - 44) (start conf)

variable {m : Mem} {p e conf : UInt32} {s : State NCPU} {fuel len o n k : ℕ}
  {r : State NCPU × End}

theorem entry_cases (m : Mem) (p : UInt32) (s : State NCPU) :
    (m p ≤ 4 ∧ (m p = 0 → s.ncpu < NCPU) ∧ ∃ s', entry m p s = .ok s' ∧
      s'.ncpu = s.ncpu + procs (m p) ∧ s'.entries = s.entries) ∨
    (m p = 0 ∧ NCPU ≤ s.ncpu ∧ entry m p s = .error .outside) ∨
    (4 < m p ∧ entry m p s = .error (.panic (m p))) := by
  simp only [procs, UInt8.lt_iff_toNat_lt, UInt8.le_iff_toNat_le, ← UInt8.toNat_inj]
  unfold entry
  split
  · next h =>
    by_cases hlt : s.ncpu < NCPU
    · rw [dif_pos hlt]
      exact .inl ⟨by simp [h], fun _ => hlt, _, rfl, by simp [h], rfl⟩
    · rw [dif_neg hlt]
      exact .inr (.inl ⟨h, Nat.not_lt.mp hlt, rfl⟩)
  · next h => exact .inl ⟨by simp [h], by simp [h], _, rfl, by simp [h], rfl⟩
  · next h => exact .inl ⟨by simp [h], by simp [h], _, rfl, by simp [h], rfl⟩
  · next h => exact .inl ⟨by simp [h], by simp [h], _, rfl, by simp [h], rfl⟩
  · next h => exact .inl ⟨by simp [h], by simp [h], _, rfl, by simp [h], rfl⟩
  · next h₀ h₂ h₁ h₃ h₄ =>
    refine .inr (.inr ⟨?_, rfl⟩)
    change 4 < (m p).toNat
    grind

theorem entries_sub (h : loop m e fuel p s = some r) : s.entries ⊆ r.1.entries := by
  induction fuel generalizing p s with
  | zero => cases h
  | succ fuel ih =>
    unfold loop at h
    split at h
    · apply List.Subset.trans (List.subset_cons_self (p, size (m p)) s.entries)
      rcases entry_cases m p (read m p s) with ⟨-, -, s', he, -, hs⟩ | ⟨-, -, he⟩ | ⟨-, he⟩
      all_goals simp only [he] at h
      · have := ih h
        rwa [hs] at this
      all_goals
        cases h
        exact List.Subset.refl _
    · cases h
      exact List.Subset.refl _

/-- The loop stands at offset `o`, `n` bytes before the end of a table of `len` bytes. -/
structure At (conf e : UInt32) (len o n : ℕ) (p : UInt32) : Prop where
  addr : p = conf + UInt32.ofNat o
  rest : o + n = len
  left : p.toNat + n = e.toNat
  len_lt : len < 2 ^ 32

namespace At

theorem lt_iff (h : At conf e len o n p) : p < e ↔ 0 < n := by
  rw [UInt32.lt_iff_toNat_lt, ← h.left]
  omega

theorem offset (h : At conf e len o n p) : (p - conf).toNat = o := by
  have := h.rest
  have := h.len_lt
  rw [h.addr, add_sub_cancel_left, UInt32.toNat_ofNat_of_lt' (show o < 2 ^ 32 by omega)]

theorem advance (h : At conf e len o (n + k) p) :
    At conf e len (o + k) n (p + UInt32.ofNat k) := by
  have hrest := h.rest
  have hleft := h.left
  have hlt := h.len_lt
  have he := e.toNat_lt
  refine ⟨?_, by omega, ?_, hlt⟩
  · rw [h.addr, UInt32.ofNat_add, add_assoc]
  · rw [UInt32.toNat_add, UInt32.toNat_ofNat_of_lt' (show k < 2 ^ 32 by omega),
      Nat.mod_eq_of_lt (by omega)]
    omega

end At

/-- Well-formed entries are walked to their end. -/
theorem Entries.loop (h : Entries m k n p) (hat : At conf e len o n p) (hk : s.ncpu + k ≤ NCPU)
    (hin : ∀ x ∈ s.entries, (x.1 - conf).toNat + x.2 ≤ len) :
    ∃ fuel r, loop m e fuel p s = some r ∧ Fine conf len r := by
  have hread : ∀ {s : State NCPU} {p o n}, At conf e len o n p → size (m p) ≤ n →
      (∀ x ∈ s.entries, (x.1 - conf).toNat + x.2 ≤ len) →
      ∀ x ∈ (read m p s).entries, (x.1 - conf).toNat + x.2 ≤ len := by
    intro s p o n hat hn hin
    have hrest := hat.rest
    refine List.forall_mem_cons.mpr ⟨?_, hin⟩
    rw [hat.offset]
    omega
  induction h generalizing o s with
  | done =>
    refine ⟨1, (s, .returned), ?_, .inr ⟨rfl, show s.ncpu ≤ NCPU by omega⟩, hin⟩
    rw [Mp.loop, if_neg (by rw [hat.lt_iff]; omega)]
  | @unknown k n p ht =>
    have h1 : size (m p) = 1 := by
      unfold size
      rw [if_neg (fun h0 => by rw [h0] at ht; exact absurd ht (by decide)),
        if_neg (UInt8.not_le.mpr ht)]
    refine ⟨1, (read m p s, .panic (m p)), ?_, .inl ⟨_, rfl, ht⟩, hread hat (by omega) hin⟩
    rw [Mp.loop, if_pos (hat.lt_iff.mpr (by omega))]
    rcases entry_cases m p (read m p s) with ⟨h4, -⟩ | ⟨h0, -⟩ | ⟨-, he⟩
    · exact absurd ht (UInt8.not_lt.mpr h4)
    · rw [h0] at ht
      exact absurd ht (by decide)
    · rw [he]
  | @known k n p ht _ ih =>
    have hpos : 0 < size (m p) := by
      unfold size
      split_ifs <;> decide
    have hlt : p < e := hat.lt_iff.mpr (by omega)
    have hc : (read m p s).ncpu = s.ncpu := rfl
    rcases entry_cases m p (read m p s) with ⟨-, -, s', he, hn, hs⟩ | ⟨h0, hge, -⟩ | ⟨h4, -⟩
    · obtain ⟨fuel, r, hl, hr⟩ := ih hat.advance (s := s') (by omega)
        (by rw [hs]; exact hread hat (by omega) hin)
      refine ⟨fuel + 1, r, ?_, hr⟩
      rw [Mp.loop, if_pos hlt, he]
      exact hl
    · have : procs (m p) = 1 := if_pos h0
      omega
    · exact absurd h4 (UInt8.not_lt.mpr ht)

/-- The first entry of a walk that ends well lies inside the table. -/
theorem Fine.inside (hr : Fine conf len r) (hlt : p < e) (h : loop m e fuel p s = some r) :
    (p - conf).toNat + size (m p) ≤ len := by
  apply hr.2 (p, size (m p))
  cases fuel with
  | zero => cases h
  | succ fuel =>
    rw [loop, if_pos hlt] at h
    rcases entry_cases m p (read m p s) with ⟨-, -, s', he, -, hs⟩ | ⟨-, -, he⟩ | ⟨-, he⟩
    all_goals simp only [he] at h
    · apply entries_sub h
      rw [hs]
      exact List.mem_cons_self
    all_goals
      cases h
      exact List.mem_cons_self

/-- A walk that ends well has met well-formed entries. -/
theorem entries_of_loop (hl : loop m e fuel p s = some r) (hr : Fine conf len r)
    (hat : At conf e len o n p) (hk : s.ncpu + k = NCPU) : Entries m k n p := by
  induction fuel generalizing p s o n k with
  | zero => cases hl
  | succ fuel ih =>
    by_cases hlt : p < e
    · have hin := hr.inside hlt hl
      have hrest := hat.rest
      rw [hat.offset] at hin
      rw [loop, if_pos hlt] at hl
      have hc : (read m p s).ncpu = s.ncpu := rfl
      rcases entry_cases m p (read m p s) with ⟨h4, h0, s', he, hn, -⟩ | ⟨-, -, he⟩ | ⟨ht, -⟩
      · simp only [he] at hl
        have hprocs : procs (m p) ≤ k := by
          unfold procs
          split_ifs with hm
          · have := h0 hm
            omega
          · omega
        obtain ⟨n, rfl⟩ := Nat.exists_eq_add_of_le' (show size (m p) ≤ n by omega)
        obtain ⟨k, rfl⟩ := Nat.exists_eq_add_of_le' hprocs
        exact .known h4 (ih hl hat.advance (by omega))
      · simp only [he] at hl
        cases hl
        rcases hr.1 with ⟨t, ht, -⟩ | ⟨ht, -⟩ <;> cases ht
      · obtain ⟨n, rfl⟩ := Nat.exists_eq_add_of_le' (hat.lt_iff.mp hlt)
        exact .unknown ht
    · rw [hat.lt_iff, Nat.pos_iff_ne_zero, not_not] at hlt
      subst hlt
      exact .done

theorem at_start (h : start conf < stop m conf) (hlen : 44 ≤ length m conf) :
    At conf (stop m conf) (length m conf) 44 (length m conf - 44) (start conf) := by
  have hlt : length m conf < 65536 := by
    have h₁ := (m (conf + 4)).toNat_lt
    have h₂ := (m (conf + 4 + 1)).toNat_lt
    unfold length half
    omega
  have hc := conf.toNat_lt
  have hstop : (stop m conf).toNat = (conf.toNat + length m conf) % 2 ^ 32 := by
    rw [stop, UInt32.toNat_add, UInt32.toNat_ofNat_of_lt' (show length m conf < 2 ^ 32 by omega)]
  have hstart : (start conf).toNat = (conf.toNat + 44) % 2 ^ 32 := UInt32.toNat_add conf 44
  rw [UInt32.lt_iff_toNat_lt] at h
  exact ⟨rfl, by omega, by omega, by omega⟩

/-- The IMCR has no part in the bounds. -/
theorem bounded_iff_loop {mp : UInt32} (hc : mpConfig m = some (mp, conf)) :
    Bounded NCPU m conf ↔ ∃ fuel, ∃ r : State NCPU × End,
      loop m (stop m conf) fuel (start conf) (found m conf) = some r ∧
        Fine conf (length m conf) r := by
  unfold Bounded mpInit
  simp only [hc, Option.map_eq_some_iff]
  constructor
  · rintro ⟨fuel, _, ⟨⟨s, out⟩, hl, rfl⟩, hr⟩
    refine ⟨fuel, (s, out), hl, ?_⟩
    cases out <;> exact hr
  · rintro ⟨fuel, ⟨s, out⟩, hl, hr⟩
    refine ⟨fuel, _, ⟨(s, out), hl, rfl⟩, ?_⟩
    cases out <;> exact hr

/-- Parsing an accepted table is bounded exactly if the table is well formed. -/
theorem mp_init_bounded_iff {mp : UInt32} (hc : mpConfig m = some (mp, conf)) :
    Bounded NCPU m conf ↔ WellFormed NCPU m conf := by
  have hnone : ∀ x ∈ (found m conf : State NCPU).entries,
      (x.1 - conf).toNat + x.2 ≤ length m conf := fun x hx => by cases hx
  rw [bounded_iff_loop hc]
  constructor
  · rintro ⟨fuel, r, hl, hr⟩ hlt
    have hlen : 44 ≤ length m conf := by
      have hin := hr.inside hlt hl
      have hoff : (start conf - conf).toNat = 44 := by
        unfold start
        rw [add_sub_cancel_left]
        rfl
      omega
    exact ⟨hlen, entries_of_loop hl hr (at_start hlt hlen) (Nat.zero_add NCPU)⟩
  · intro hw
    by_cases hlt : start conf < stop m conf
    · obtain ⟨hlen, hent⟩ := hw hlt
      exact hent.loop (at_start hlt hlen) (Nat.zero_add NCPU).le hnone
    · refine ⟨1, (found m conf, .returned), ?_, .inr ⟨rfl, Nat.zero_le _⟩, hnone⟩
      rw [loop, if_neg hlt]

/-- A ROM with a table of `len` bytes whose entries are all zero, so of type `MPPROC` -/
def rom (len check : UInt8) : Mem := fun a =>
  if a < 0xf0000 then 0 else
    [0x5f, 0x4d, 0x50, 0x5f, 0x10, 0, 0xf, 0, 1, 4, 0x81, 0, 0, 0, 0, 0,
      0x50, 0x43, 0x4d, 0x50, len, 0, 1, check].getD (a.toNat - 0xf0000) 0

/-- One processor -/
theorem mp_init_one_cpu : Bounded 8 (rom 64 0x8f) 0xf0010 := by
  have hc : mpConfig (rom 64 0x8f) = some (0xf0000, 0xf0010) := by decide +kernel
  have hlen : length (rom 64 0x8f) 0xf0010 - 44 = 20 := by decide +kernel
  refine (mp_init_bounded_iff hc).mpr fun _ => ⟨by decide +kernel, ?_⟩
  rw [hlen]
  exact .known (m := rom 64 0x8f) (k := 7) (n := 0) (p := start 0xf0010) (by decide +kernel) .done

/-- The ninth processor is stored behind the end of `cpus`. -/
theorem mp_init_ninth_cpu : mpConfig (rom 224 0xef) = some (0xf0000, 0xf0010) ∧
    ∃ s : State 8, mpInit (rom 224 0xef) 10 = some (s, .outside) := by
  have h : (mpInit (rom 224 0xef) 10 : Option (State 8 × End)).map Prod.snd = some .outside := by
    decide +kernel
  obtain ⟨⟨s, out⟩, hx, rfl⟩ := Option.map_eq_some_iff.mp h
  exact ⟨by decide +kernel, s, hx⟩

end Xv6Shed.Mp
