import Xv6Shed.ExecWrap
import Xv6Shed.OpenCalls

/-!
# `exec` and arbitrary files

All sizes and addresses in an executable are words that `exec` adds without looking at
overflow. Which files it survives: the size it asks `kalloc` for has to be positive as an `int`,
the pieces of segments that it stores have to end, as numbers, within the new block, and the
stack has to fit.
-/

namespace Xv6Shed
open Bytes Xv6Shed.Interval Ram

namespace Exec

variable {p q : Space} {argv : List UInt32} {strs : List (List UInt8)} {read : Reader}
  {mem sz off x arglen : UInt32} {N n : ℕ} {m m' m'' : Ram} {ws ws' : List (UInt32 × ℕ)}
  {elf : Elfhdr}

/-- What the loop that loads the segments stores, as offsets and lengths, and whether it comes
to its end -/
def pieces (read : Reader) (sz : UInt32) : ℕ → UInt32 → Bool × List (UInt32 × ℕ)
  | 0, _ => (true, [])
  | n + 1, off =>
    match read off.toNat 32 with
    | .error _ => (false, [])
    | .ok (r, b) =>
      if r ≠ 32 then (false, [])
      else if (Proghdr.load b).type ≠ ELF_PROG_LOAD then pieces read sz n (off + 32)
      else if (Proghdr.load b).va + (Proghdr.load b).memsz > sz then (false, [])
      else
        match read (Proghdr.load b).offset.toNat (Proghdr.load b).filesz.toNat with
        | .error _ => (false, [])
        | .ok (r, _) =>
          if UInt32.ofInt r ≠ (Proghdr.load b).filesz then
            (false, [((Proghdr.load b).va, r.toNat)])
          else
            ((pieces read sz n (off + 32)).1,
              ((Proghdr.load b).va, r.toNat) ::
              ((Proghdr.load b).va + (Proghdr.load b).filesz,
                ((Proghdr.load b).memsz - (Proghdr.load b).filesz).toNat) ::
              (pieces read sz n (off + 32)).2)

/-- The pieces are what has been stored to. -/
structure Stores (mem : UInt32) (ws : List (UInt32 × ℕ)) (m m' : Ram) : Prop where
  stored : ∀ x, m'.stored x = true ↔
    m.stored x = true ∨ ∃ w ∈ ws, ∃ k < w.2, x = mem + w.1 + UInt32.ofNat k
  bytes : ∀ x, (∀ w ∈ ws, ∀ k < w.2, x ≠ mem + w.1 + UInt32.ofNat k) → m'.bytes x = m.bytes x

theorem Stores.nil (mem : UInt32) (m : Ram) : Stores mem [] m m := ⟨by simp, fun _ _ => rfl⟩

theorem Stores.append (h : Stores mem ws m m') (h' : Stores mem ws' m' m'') :
    Stores mem (ws ++ ws') m m'' where
  stored x := by
    rw [h'.stored, h.stored, or_assoc]
    simp only [List.mem_append, or_and_right, exists_or]
  bytes x hx := by
    rw [h'.bytes x fun w hw => hx w (List.mem_append_right _ hw)]
    exact h.bytes x fun w hw => hx w (List.mem_append_left _ hw)

theorem write_stores (mem off : UInt32) (src : Buffer) (n : ℕ) (m : Ram) :
    Stores mem [(off, n)] m (m.write (mem + off) src n) where
  stored x := by
    simp only [List.mem_singleton, exists_eq_left]
    induction n with
    | zero => simp [write]
    | succ n ih =>
      rw [write, stored_store, ih]
      constructor
      · rintro ((h | ⟨k, hk, h⟩) | h)
        · exact .inl h
        · exact .inr ⟨k, by omega, h⟩
        · exact .inr ⟨n, by omega, h⟩
      · rintro (h | ⟨k, hk, h⟩)
        · exact .inl (.inl h)
        · by_cases hkn : k = n
          · exact .inr (hkn ▸ h)
          · exact .inl (.inr ⟨k, by omega, h⟩)
  bytes x hx := write_bytes_of_ne (hx (off, n) (List.mem_singleton_self _))

theorem memset_stores (mem off : UInt32) (c : UInt8) (n : ℕ) (m : Ram) :
    Stores mem [(off, n)] m (m.memset (mem + off) c n) := by
  rw [memset_eq_write]
  exact write_stores mem off _ n m

def Total (read : Reader) : Prop := ∀ off n, n < 2 ^ 32 → ∃ r b, read off n = .ok (r, b)

theorem loadLoop_stores (ht : Total read) (mem sz : UInt32) (n : ℕ) (off : UInt32) (m : Ram) :
    ∃ m', loadLoop read mem sz n off m = .ok ((pieces read sz n off).1, m') ∧
      Stores mem (pieces read sz n off).2 m m' := by
  induction n generalizing off m with
  | zero => exact ⟨m, rfl, .nil mem m⟩
  | succ n ih =>
    obtain ⟨r, b, hb⟩ := ht off.toNat 32 (by decide)
    unfold loadLoop pieces
    rw [hb, ok_bind]
    dsimp only
    by_cases hr : r ≠ 32
    · rw [if_pos hr, if_pos hr]
      exact ⟨m, rfl, .nil mem m⟩
    rw [if_neg hr, if_neg hr]
    by_cases hty : (Proghdr.load b).type ≠ ELF_PROG_LOAD
    · rw [if_pos hty, if_pos hty]
      exact ih (off + 32) m
    rw [if_neg hty, if_neg hty]
    by_cases hgt : (Proghdr.load b).va + (Proghdr.load b).memsz > sz
    · rw [if_pos hgt, if_pos hgt]
      exact ⟨m, rfl, .nil mem m⟩
    rw [if_neg hgt, if_neg hgt]
    obtain ⟨r', b', hb'⟩ := ht (Proghdr.load b).offset.toNat (Proghdr.load b).filesz.toNat
      (Proghdr.load b).filesz.toNat_lt
    rw [hb', ok_bind]
    dsimp only
    have hw := write_stores mem (Proghdr.load b).va b' r'.toNat m
    by_cases hfull : UInt32.ofInt r' ≠ (Proghdr.load b).filesz
    · rw [if_pos hfull, if_pos hfull]
      exact ⟨_, rfl, hw⟩
    · rw [if_neg hfull, if_neg hfull]
      have hset := memset_stores mem ((Proghdr.load b).va + (Proghdr.load b).filesz) 0
        ((Proghdr.load b).memsz - (Proghdr.load b).filesz).toNat
        (m.write (mem + (Proghdr.load b).va) b' r'.toNat)
      rw [← UInt32.add_assoc] at hset
      obtain ⟨m', hloop, hs⟩ := ih (off + 32) _
      exact ⟨m', hloop, hw.append (hset.append hs)⟩

/-- The piece ends within `N` bytes, as a number. -/
def Fit (N : ℕ) (w : UInt32 × ℕ) : Prop := w.2 = 0 ∨ w.1.toNat + w.2 ≤ N

theorem fit_iff {w : UInt32 × ℕ} (hf : Fits mem N) (hN : N < 2 ^ 31) :
    Fit N w ↔ ∀ k < w.2, (block mem N).Has (mem + w.1 + UInt32.ofNat k).toNat := by
  obtain ⟨va, len⟩ := w
  have hadd : ∀ k, va.toNat + k < N →
      (mem + va + UInt32.ofNat k).toNat = mem.toNat + (va.toNat + k) := by
    intro k hk
    have hoff : mem + va + UInt32.ofNat k = mem + UInt32.ofNat (va.toNat + k) := by
      rw [UInt32.ofNat_add, UInt32.ofNat_toNat, UInt32.add_assoc]
    rw [hoff]
    exact hf.toNat_add hk
  constructor
  · rintro (h0 | hle) k hk
    · simp only at h0 hk
      omega
    · simp only at hk hle
      rw [block_has, hadd k (by omega)]
      omega
  · intro hall
    by_contra hnot
    unfold Fit at hnot
    simp only at hall hnot
    have hva := va.toNat_lt
    have hm := mem.toNat_lt
    have hfit := hf
    unfold Fits at hfit
    -- the first byte lies in the block, and so the one behind the block is stored to
    have hfirst := hall 0 (by omega)
    rw [block_has, show UInt32.ofNat 0 = 0 from rfl, UInt32.add_zero, UInt32.toNat_add] at hfirst
    have hlast := hall (N - va.toNat) (by omega)
    have hnat : (UInt32.ofNat (N - va.toNat)).toNat = N - va.toNat :=
      UInt32.toNat_ofNat_of_lt' (show N - va.toNat < 2 ^ 32 by omega)
    rw [block_has, UInt32.toNat_add, UInt32.toNat_add, hnat] at hlast
    omega

theorem Stores.within (h : Stores mem ws m m') (hf : Fits mem N) (hN : N < 2 ^ 31)
    (hfit : ∀ w ∈ ws, Fit N w) : Within mem N m m' where
  bytes x hx := by
    refine h.bytes x fun w hw k hk he => hx ?_
    rw [he]
    exact (fit_iff hf hN).mp (hfit w hw) k hk
  stored x hx := by
    rcases (h.stored x).mp hx with hx | ⟨w, hw, k, hk, rfl⟩
    · exact .inl hx
    · exact .inr ((fit_iff hf hN).mp (hfit w hw) k hk)
  mono x hx := (h.stored x).mpr (.inl hx)

theorem Stores.fit (h : Stores mem ws m m') (hf : Fits mem N) (hN : N < 2 ^ 31)
    (hin : ∀ x, m'.stored x = true → (block mem N).Has x.toNat) : ∀ w ∈ ws, Fit N w :=
  fun w hw => (fit_iff hf hN).mpr fun k hk => hin _ ((h.stored _).mpr (.inr ⟨w, hw, k, hk, rfl⟩))

theorem sizeLoop_total (ht : Total read) (n : ℕ) (off sz : UInt32) :
    ∃ o, sizeLoop read n off sz = .ok o := by
  induction n generalizing off sz with
  | zero => exact ⟨_, rfl⟩
  | succ n ih =>
    obtain ⟨r, b, hb⟩ := ht off.toNat 32 (by decide)
    unfold sizeLoop
    rw [hb, ok_bind]
    dsimp only
    split_ifs
    · exact ⟨_, rfl⟩
    · exact ih _ _
    · exact ⟨_, rfl⟩
    · exact ih _ _

theorem readHeaders_total (ht : Total read) : ∃ o, readHeaders read = .ok o := by
  obtain ⟨r, b, hb⟩ := ht 0 52 (by decide)
  unfold readHeaders
  rw [hb, ok_bind]
  dsimp only
  split_ifs
  · exact ⟨_, rfl⟩
  · exact ⟨_, rfl⟩
  · obtain ⟨o, ho⟩ := sizeLoop_total ht (Elfhdr.load b).phnum.toNat (Elfhdr.load b).phoff 0
    rw [ho]
    exact ⟨_, rfl⟩

/-- What the first part of `exec` finds out: the header, `arglen` and the size of the image -/
def request (read : Reader) (argv : List UInt32) (p : Space) : Option (Elfhdr × UInt32 × UInt32) :=
  match readHeaders read, argLoop p.ram argv 0 with
  | .ok (some (elf, sz)), .ok x =>
    some (elf, roundWord x, imageSize sz (roundWord x) argv.length)
  | _, _ => none

theorem request_some (h : request read argv p = some (elf, arglen, sz)) :
    ∃ sz₀ x, readHeaders read = .ok (some (elf, sz₀)) ∧ argLoop p.ram argv 0 = .ok x ∧
      arglen = roundWord x ∧ sz = imageSize sz₀ arglen argv.length := by
  unfold request at h
  cases hhead : readHeaders read with
  | error =>
    rw [hhead] at h
    cases h
  | ok o =>
    cases o with
    | none =>
      rw [hhead] at h
      cases h
    | some r =>
      obtain ⟨elf', sz'⟩ := r
      cases hx : argLoop p.ram argv 0 with
      | error =>
        rw [hhead, hx] at h
        cases h
      | ok x =>
        rw [hhead, hx] at h
        cases h
        exact ⟨_, _, rfl, rfl, rfl, rfl⟩

/-- The block that `exec` allocates -/
def newBlock (read : Reader) (argv : List UInt32) (p : Space) : Option Interval :=
  (request read argv p).bind fun r =>
    (kallocLoop r.2.2.toNat p.free).1.map fun v => ⟨v, r.2.2.toNat⟩

theorem load_of_none (ht : Total read) (hx : argLoop p.ram argv 0 = .ok x)
    (h : request read argv p = none) : load read argv p = .ok (none, p) := by
  obtain ⟨o, ho⟩ := readHeaders_total ht
  unfold request at h
  unfold load
  rw [ho] at h ⊢
  cases o with
  | none => rfl
  | some r =>
    rw [hx] at h
    cases h

theorem load_of_request (h : request read argv p = some (elf, arglen, sz)) :
    load read argv p = (do
      match ← kalloc sz.toInt32.toInt p.free with
      | (none, fl) => pure (none, { p with free := fl })
      | (some v, fl) =>
        match ← loadLoop read (UInt32.ofNat v) sz elf.phnum.toNat elf.phoff
          (p.ram.memset (UInt32.ofNat v) 0 sz.toNat) with
        | (true, m) =>
          pure (some ⟨elf.entry, UInt32.ofNat v, sz, arglen⟩, { p with free := fl, ram := m })
        | (false, m) =>
          let fl ← kfree v sz.toInt32.toInt fl
          pure (none, { p with free := fl, ram := m.memset (UInt32.ofNat v) 1 sz.toNat })) := by
  obtain ⟨sz₀, x, hhead, hx, rfl, rfl⟩ := request_some h
  unfold load
  rw [hhead, ok_bind]
  dsimp only
  rw [hx]
  rfl

/-- The process has kept its memory, and the free list covers what it covered. -/
structure Rejected (p q : Space) : Prop where
  mem : q.mem = p.mem
  sz : q.sz = p.sz
  esp : q.esp = p.esp
  seg : q.seg = p.seg
  bytes : ∀ k < p.sz.toNat, q.user k = p.user k
  free : ∀ x, Covers q.free x ↔ Covers p.free x

theorem Rejected.refl (p : Space) : Rejected p p :=
  ⟨rfl, rfl, rfl, rfl, fun _ _ => rfl, fun _ => Iff.rfl⟩

/-- `kalloc` does not panic, and if there is a block, the pieces and the stack fit. -/
def Harmless (read : Reader) (argv : List UInt32) (p : Space) : Prop :=
  ∀ elf arglen sz, request read argv p = some (elf, arglen, sz) →
    0 < sz.toNat ∧ sz.toNat < 2 ^ 31 ∧
      ((∀ r ∈ p.free, r.len < sz.toNat) ∨
        (∀ w ∈ (pieces read sz elf.phnum.toNat elf.phoff).2, Fit sz.toNat w) ∧
        ((pieces read sz elf.phnum.toNat elf.phoff).1 = true →
          arglen.toNat + 4 * (argv.length + 1) + 12 ≤ sz.toNat))

section
variable {e v : ℕ} {live fl : List Interval} {elf : Elfhdr} {arglen : UInt32}

theorem argBytes_le (hargs : List.Forall₂ p.Arg argv strs) :
    argBytes strs ≤ argv.length * p.sz.toNat := by
  induction hargs with
  | nil => exact Nat.zero_le _
  | @cons a s argv strs ha _ ih =>
    have hlo := ha.lo
    have hhi := ha.hi
    have hsum : argBytes (s :: strs) = s.length + 1 + argBytes strs := rfl
    rw [hsum, List.length_cons, Nat.succ_mul]
    omega

theorem argLoop_of_args (hp : p.Process e live) (hargs : List.Forall₂ p.Arg argv strs) :
    argLoop p.ram argv 0 = .ok (UInt32.ofNat (argBytes strs)) := by
  have hlen : ∀ s ∈ strs, s.length < 2 ^ 32 := by
    intro s hs
    obtain ⟨i, hi, rfl⟩ := List.getElem_of_mem hs
    have harg := getD_of_forall₂ hargs 0 [] hi
    have hhi := harg.hi
    rw [List.getD_eq_getElem _ _ hi] at hhi
    have hb := hp.bounds
    have htop := hp.top
    omega
  rw [argLoop_ok (hargs.imp fun _ _ ha => ha.toIsString) hlen, UInt32.zero_add]

theorem arglen_of_request (hp : p.Process e live) (hargs : List.Forall₂ p.Arg argv strs)
    (h19 : argv.length ≤ 19) (h : request read argv p = some (elf, arglen, sz)) :
    argBytes strs ≤ arglen.toNat ∧ arglen.toNat < 2 ^ 30 := by
  have hle := argBytes_le hargs
  have hsz := hp.sz_le
  have harena : 256 * PAGE = 2 ^ 20 := by decide
  have hbound : argBytes strs ≤ 19 * 2 ^ 20 :=
    hle.trans (Nat.mul_le_mul h19 (hsz.trans_eq harena))
  obtain ⟨_, x, -, hx, hround, -⟩ := request_some h
  rw [argLoop_of_args hp hargs] at hx
  cases hx
  have hnat : (UInt32.ofNat (argBytes strs)).toNat = argBytes strs :=
    UInt32.toNat_ofNat_of_lt' (show argBytes strs < 2 ^ 32 by omega)
  rw [hround, toNat_roundWord (by omega), hnat]
  omega

section

variable (h : request read argv p = some (elf, arglen, sz))
include h

theorem page_of_request : PAGE ∣ sz.toNat := by
  obtain ⟨_, _, -, -, -, rfl⟩ := request_some h
  rw [imageSize, toNat_roundPage]
  exact Nat.dvd_mul_left _ _

theorem kalloc_of_request :
    (0 < sz.toNat ∧ sz.toNat < 2 ^ 31 ∧
      kalloc sz.toInt32.toInt p.free = .ok (kallocLoop sz.toNat p.free)) ∨
    ¬ (0 < sz.toNat ∧ sz.toNat < 2 ^ 31) ∧
      kalloc sz.toInt32.toInt p.free = .error (.panic "kalloc") := by
  by_cases hsz : 0 < sz.toNat ∧ sz.toNat < 2 ^ 31
  · rw [toInt_toInt32_of_lt hsz.2, kalloc_eq hsz.1 (page_of_request h)]
    exact .inl ⟨hsz.1, hsz.2, rfl⟩
  · refine .inr ⟨hsz, ?_⟩
    have hneg : sz.toInt32.toInt ≤ 0 := by
      by_contra hpos
      have heq := toInt_toInt32_of_pos (not_le.mp hpos)
      have hlt := sz.toInt32.toInt_lt
      omega
    unfold kalloc
    rw [if_pos (.inr hneg)]

theorem load_no_block (hpos : 0 < sz.toNat) (hlt : sz.toNat < 2 ^ 31)
    (hk : (kallocLoop sz.toNat p.free).1 = none) : load read argv p = .ok (none, p) := by
  have hk : kallocLoop sz.toNat p.free = (none, p.free) := Prod.ext hk (kallocLoop_none_snd hk)
  rw [load_of_request h, toInt_toInt32_of_lt hlt, kalloc_eq hpos (page_of_request h), hk]
  rfl

end

theorem fresh_of_request (hp : p.Process e live) (h : request read argv p = some (elf, arglen, sz))
    (hpos : 0 < sz.toNat) (hlt : sz.toNat < 2 ^ 31) (hk : kallocLoop sz.toNat p.free = (some v, fl))
    :
    Fresh p (UInt32.ofNat v) sz.toNat fl ∧ Carved v sz.toNat p.free fl ∧
      (UInt32.ofNat v).toNat = v := by
  have hc := kallocLoop_some hp.sound.sorted hp.sound.pos hk
  obtain ⟨-, hhi, -⟩ := hp.carved hpos hc
  have htop := hp.top
  refine ⟨kalloc_fresh hp ?_, hc, UInt32.toNat_ofNat_of_lt' (show v < 2 ^ 32 by omega)⟩
  rw [toInt_toInt32_of_lt hlt, kalloc_eq hpos (page_of_request h), hk]

theorem load_block (hp : p.Process e live) (ht : Total read)
    (h : request read argv p = some (elf, arglen, sz)) (hpos : 0 < sz.toNat)
    (hlt : sz.toNat < 2 ^ 31) (hk : kallocLoop sz.toNat p.free = (some v, fl)) :
    ∃ m, Stores (UInt32.ofNat v) (pieces read sz elf.phnum.toNat elf.phoff).2
        (p.ram.memset (UInt32.ofNat v) 0 sz.toNat) m ∧
      ((pieces read sz elf.phnum.toNat elf.phoff).1 = true → load read argv p =
        .ok (some ⟨elf.entry, UInt32.ofNat v, sz, arglen⟩, { p with free := fl, ram := m })) ∧
      ((pieces read sz elf.phnum.toNat elf.phoff).1 = false → ∃ fl', Freed v sz.toNat fl fl' ∧
        load read argv p = .ok (none,
          { p with free := fl', ram := m.memset (UInt32.ofNat v) 1 sz.toNat })) := by
  obtain ⟨m, hloop, hs⟩ := loadLoop_stores ht (UInt32.ofNat v) sz elf.phnum.toNat elf.phoff
    (p.ram.memset (UInt32.ofNat v) 0 sz.toNat)
  have hpage := page_of_request h
  have hload := load_of_request h
  rw [toInt_toInt32_of_lt hlt, kalloc_eq hpos hpage, ok_bind, hk] at hload
  dsimp only at hload
  rw [hloop, ok_bind] at hload
  refine ⟨m, hs, fun hdone => ?_, fun hbad => ?_⟩
  · rw [hdone] at hload
    exact hload
  · have hsound := hp.sound.alloc hpos hpage (kallocLoop_some hp.sound.sorted hp.sound.pos hk)
    obtain ⟨fl', hf, hfr⟩ := kfreeLoop_ok hsound.sorted hsound.pos hpos
      (hsound.apart _ List.mem_cons_self)
    rw [hbad] at hload
    dsimp only at hload
    rw [kfree_eq v hpos hpage, hf, ok_bind] at hload
    exact ⟨fl', hfr, hload⟩

theorem within_fill (hfr : Fresh p (UInt32.ofNat v) sz.toNat fl) (hlt : sz.toNat < 2 ^ 31)
    (c : UInt8) (m : Ram) :
    Within (UInt32.ofNat v) sz.toNat m (m.memset (UInt32.ofNat v) c sz.toNat) := by
  have hset := (memset_stores (UInt32.ofNat v) 0 c sz.toNat m).within hfr.fits hlt (by simp [Fit])
  rwa [UInt32.add_zero] at hset

theorem within_block (hfr : Fresh p (UInt32.ofNat v) sz.toNat fl) (hlt : sz.toNat < 2 ^ 31)
    (hs : Stores (UInt32.ofNat v) ws
      (p.ram.memset (UInt32.ofNat v) 0 sz.toNat) m) (hfit : ∀ w ∈ ws, Fit sz.toNat w) :
    Within (UInt32.ofNat v) sz.toNat p.ram m :=
  (within_fill hfr hlt 0 p.ram).trans (hs.within hfr.fits hlt hfit)

theorem rejected_of_within {fl' : List Interval} (hp : p.Process e live)
    (hfr : Fresh p (UInt32.ofNat v) sz.toNat fl) (hc : Carved v sz.toNat p.free fl)
    (hw : Within (UInt32.ofNat v) sz.toNat p.ram m) (hf : Freed v sz.toNat fl fl') :
    Rejected p { p with free := fl', ram := m } := by
  refine ⟨rfl, rfl, rfl, rfl, fun k hk => ?_, fun x => ?_⟩
  · have hb := hp.bounds
    have htop := hp.top
    have hfit : Fits p.mem p.sz.toNat := by
      unfold Fits
      omega
    apply hw.bytes
    intro hin
    exact hfr.apart _ hin (offset_has hfit hk)
  · change Covers fl' x ↔ _
    rw [hf.covers, hc.covers]

/-- The process runs the image `l`. -/
structure Describes (l : Loaded) (q : Space) : Prop where
  mem : q.mem = l.mem
  sz : q.sz = l.sz
  seg : q.seg = (l.mem, l.sz - 1)
  esp : q.esp.toNat + 12 ≤ l.sz.toNat

theorem commit_ok (entry : UInt32) (hp : p.Process e live) (hargs : List.Forall₂ p.Arg argv strs)
    (hpos : 0 < sz.toNat) (hpage : PAGE ∣ sz.toNat) (hc : Carved v sz.toNat p.free fl)
    (hfr : Fresh p (UInt32.ofNat v) sz.toNat fl) (hw : Within (UInt32.ofNat v) sz.toNat p.ram m)
    (hroom : argBytes strs ≤ arglen.toNat)
    (hstack : arglen.toNat + 4 * (argv.length + 1) + 12 ≤ sz.toNat) :
    ∃ p', commit argv ⟨entry, UInt32.ofNat v, sz, arglen⟩ { p with free := fl, ram := m } =
        .ok p' ∧ Describes ⟨entry, UInt32.ofNat v, sz, arglen⟩ p' := by
  have hlen := hargs.length_eq
  have hszlt := sz.toNat_lt
  obtain ⟨P, hP⟩ : ∃ P, P + 4 * (strs.length + 1) + arglen.toNat = sz.toNat :=
    ⟨sz.toNat - arglen.toNat - 4 * (strs.length + 1), by omega⟩
  have hstr := (source_of_args hp hfr hargs (hargs.imp fun _ _ ha => ha.toIsString)).within hw
  obtain ⟨m', hinit, -, -⟩ := initStack_ok (l := ⟨entry, UInt32.ofNat v, sz, arglen⟩) hlen
    hfr.fits (show 12 ≤ P by omega) (show _ ≤ sz.toNat by omega) hP hstr
  have hsound := hp.sound.alloc hpos hpage hc
  obtain ⟨fl', hf, -⟩ := kfreeLoop_ok hsound.sorted hsound.pos hp.sz_pos
    (hsound.apart _ (List.mem_cons_of_mem _ hp.mem))
  have hold : p.sz.toInt32.toInt = p.sz.toNat := by
    apply toInt_toInt32_of_lt
    have := hp.sz_le
    have : 256 * PAGE = 2 ^ 20 := by decide
    omega
  unfold commit
  rw [hinit, ok_bind]
  dsimp only
  rw [hold, kfree_eq _ hp.sz_pos (hp.sound.live_pages _ hp.mem), hf, ok_bind]
  refine ⟨_, rfl, rfl, rfl, rfl, ?_⟩
  change (UInt32.ofNat (P - 12)).toNat + 12 ≤ sz.toNat
  rw [UInt32.toNat_ofNat_of_lt' (show P - 12 < 2 ^ 32 by omega)]
  omega

theorem stack_of_commit {l : Loaded} (hlt : l.sz.toNat < 2 ^ 31) (h19 : argv.length ≤ 19)
    (harg : l.arglen.toNat < 2 ^ 30) (hc : commit argv l p = .ok q)
    (hesp : q.esp.toNat + 12 ≤ l.sz.toNat) :
    l.arglen.toNat + 4 * (argv.length + 1) + 12 ≤ l.sz.toNat := by
  unfold commit at hc
  obtain ⟨⟨sp, m⟩, hinit, hc⟩ := bind_eq_ok.mp hc
  obtain ⟨fl, -, hc⟩ := bind_eq_ok.mp hc
  cases hc
  unfold initStack at hinit
  obtain ⟨m', -, hinit⟩ := bind_eq_ok.mp hinit
  obtain ⟨hsp, -⟩ := Prod.mk.inj (Except.ok.inj hinit)
  change sp.toNat + 12 ≤ l.sz.toNat at hesp
  have hsum : UInt32.ofNat (sp.toNat + 12 + 4 * (argv.length + 1) + l.arglen.toNat) = l.sz := by
    rw [UInt32.ofNat_add, UInt32.ofNat_add, UInt32.ofNat_add, UInt32.ofNat_mul, UInt32.ofNat_add,
      UInt32.ofNat_toNat, UInt32.ofNat_toNat, ← hsp, show UInt32.ofNat 12 = 4 + 4 + 4 from rfl,
      show UInt32.ofNat 4 = 4 from rfl, show UInt32.ofNat 1 = 1 from rfl]
    grind
  have := congrArg UInt32.toNat hsum
  rw [UInt32.toNat_ofNat_of_lt' (show
    sp.toNat + 12 + 4 * (argv.length + 1) + l.arglen.toNat < 2 ^ 32 by omega)] at this
  omega

theorem newBlock_eq (h : request read argv p = some (elf, arglen, sz))
    (hk : kallocLoop sz.toNat p.free = (some v, fl)) :
    newBlock read argv p = some ⟨v, sz.toNat⟩ := by
  unfold newBlock
  rw [h, Option.bind_some, hk]
  rfl

theorem entry_of_request (h : request read argv p = some (elf, arglen, sz)) :
    ∃ r b, read 0 52 = .ok (r, b) ∧ elf.entry = (Elfhdr.load b).entry := by
  obtain ⟨_, _, hhead, -⟩ := request_some h
  obtain ⟨⟨r, b, hb, rfl, -⟩, -⟩ := readHeaders_some hhead
  exact ⟨r, b, hb, rfl⟩

end

theorem readHeaders_one {va memsz : UInt32} {b b₁ : Buffer} (hb : read 0 52 = .ok (52, b))
    (hmagic : (Elfhdr.load b).magic = ELF_MAGIC) (hnum : (Elfhdr.load b).phnum = 1)
    (hoff : (Elfhdr.load b).phoff = 52) (hb₁ : read 52 32 = .ok (32, b₁))
    (hph : Proghdr.load b₁ = ⟨ELF_PROG_LOAD, 0, va, 0, memsz⟩) :
    readHeaders read = .ok (some (Elfhdr.load b, memsz)) := by
  have hsize : sizeLoop read 1 52 0 = .ok (some memsz) := by
    unfold sizeLoop
    rw [show (52 : UInt32).toNat = 52 from rfl, hb₁, ok_bind]
    dsimp only
    rw [hph, if_neg (by decide), if_neg (by simp), if_neg (by simp), UInt32.zero_add]
    rfl
  unfold readHeaders
  rw [hb, ok_bind]
  dsimp only
  rw [if_neg (by decide), hmagic, if_neg (by simp), hnum, hoff,
    show (1 : UInt16).toNat = 1 from rfl, hsize]
  rfl

end Exec

namespace Fs

variable {NINODE : ℕ} {mode : Mode} {sb : Superblock} {s : Fs NINODE} {H : Multiset (Fin NINODE)}
  {L : Finset (Fin NINODE)} {c : ℕ → ℕ} {B : ℕ} {ip : Fin NINODE}

theorem Inv.read_total (h : Inv mode sb s H L c B) (hip : ip ∈ H)
    (hv : (s.icache ip).valid = true) (hdev : (s.icache ip).d.type ≠ T_DEV) (driver : ℤ) :
    Exec.Total fun off n => s.readi driver ip off n := by
  intro off n hn
  have hlt := (s.icache ip).d.size.toNat_lt
  by_cases hbad : (s.icache ip).d.size.toNat < off ∨ (off + n) % 2 ^ 32 < off
  · refine ⟨-1, zeros, ?_⟩
    unfold readi
    dsimp only
    rw [if_neg hdev, if_pos hbad]
    rfl
  · obtain ⟨dst, hread, -⟩ := readi_ok (n := n) hdev (h.mapped_cached hip hv) driver
      (show off ≤ _ by omega) (by omega)
    exact ⟨_, dst, hread⟩

end Fs

namespace Program

variable {NINODE : ℕ} {k k' : Program NINODE} {driver : ℤ} {path : List UInt8} {argv : List UInt32}
  {strs : List (List UInt8)} {e : ℕ} {live : List Interval} {sb : Superblock}
  {H : Multiset (Fin NINODE)} {c : ℕ → ℕ} {B : ℕ} {ip : Fin NINODE} {s s' s'' : Fs NINODE}
  {q : Space}

/-- The process runs the program in block `b` that begins at `entry`. -/
structure Runs (b : Interval) (entry : UInt32) (k : Program NINODE) : Prop where
  mem : k.space.mem = UInt32.ofNat b.addr
  sz : k.space.sz.toNat = b.len
  seg : k.space.seg = (k.space.mem, k.space.sz - 1)
  esp : k.space.esp.toNat + 12 ≤ b.len
  eip : k.eip = entry

/-- What `exec` is to do with the file that `read` reads: it returns, loading stores to the new
block only, the inode is released, and the process runs the new image or nothing has changed. -/
def Robust (sb : Superblock) (H : Multiset (Fin NINODE)) (c : ℕ → ℕ) (B : ℕ) (driver : ℤ)
    (path : List UInt8) (argv : List UInt32) (read : Exec.Reader) (k : Program NINODE) : Prop :=
  ∃ r k' o q, k.exec driver path argv = .ok (r, k') ∧
    Exec.load read argv k.space = .ok (o, q) ∧
    (∀ x, q.ram.stored x = true →
      ∃ b, Exec.newBlock read argv k.space = some b ∧ b.Has x.toNat) ∧
    Fs.Inv .names sb k'.fs H ∅ c B ∧
    ((r = 0 ∧ ∃ b n hdr, Exec.newBlock read argv k.space = some b ∧ read 0 52 = .ok (n, hdr) ∧
        k'.Runs b (Elfhdr.load hdr).entry) ∨
      (r = -1 ∧ Exec.Rejected k.space k'.space ∧ k'.name = k.name ∧ k'.eip = k.eip))

section

variable (hname : k.fs.namei k.cwd path = .ok (some ip, s)) (hlock : s.ilock ip = .ok s')
  (hput : s'.iunlockput ip = .ok s'')
include hname hlock hput

theorem exec_of_load_none
    (hload : Exec.load (fun off n => s'.readi driver ip off n) argv k.space = .ok (none, q)) :
    k.exec driver path argv = .ok (-1, { k with fs := s'', space := q }) := by
  unfold exec
  rw [hname, ok_bind]
  dsimp only
  rw [hlock, ok_bind, hload, ok_bind]
  dsimp only
  rw [hput]
  rfl

theorem exec_of_load_some {l : Exec.Loaded}
    (hload : Exec.load (fun off n => s'.readi driver ip off n) argv k.space = .ok (some l, q)) :
    k.exec driver path argv = (do
      let p ← Exec.commit argv l q
      pure (0, { k with fs := s'', space := p, name := lastName path, eip := l.entry })) := by
  unfold exec
  rw [hname, ok_bind]
  dsimp only
  rw [hlock, ok_bind, hload, ok_bind]
  dsimp only
  rw [hput]
  rfl

end

theorem execFile_of_exec {r : ℤ} (h : k.exec driver path argv = .ok (r, k')) :
    k.fs.execFile k.cwd path r = .ok (r, k'.fs) := by
  unfold exec at h
  unfold Fs.execFile
  obtain ⟨⟨found, s⟩, hname, h⟩ := bind_eq_ok.mp h
  rw [hname, ok_bind]
  cases found with
  | none =>
    cases h
    rfl
  | some ip =>
    obtain ⟨s', hlock, h⟩ := bind_eq_ok.mp h
    obtain ⟨⟨loaded, q⟩, -, h⟩ := bind_eq_ok.mp h
    dsimp only
    rw [hlock, ok_bind]
    cases loaded with
    | none =>
      obtain ⟨s'', hput, h⟩ := bind_eq_ok.mp h
      cases h
      rw [hput]
      rfl
    | some l =>
      obtain ⟨s'', hput, h⟩ := bind_eq_ok.mp h
      obtain ⟨p, -, h⟩ := bind_eq_ok.mp h
      cases h
      rw [hput]
      rfl

/-- For the file layer, `exec` of a program is the step that its runs have for it. -/
theorem step_of_exec {NFILE NOFILE : ℕ} {P : Type} [DecidableEq P]
    {files : Files NINODE NFILE NOFILE P} {p : P} {t : Task NINODE NFILE NOFILE} {r : ℤ}
    (ht : files.task p = some t) (hfs : files.fs = k.fs) (hcwd : t.cwd = k.cwd)
    (h : k.exec driver path argv = .ok (r, k')) :
    files.Step (p, .exec path r) (files.setFs k'.fs) := by
  refine ⟨r, ?_⟩
  unfold Files.exec
  dsimp only
  rw [ht]
  dsimp only [Files.call]
  rw [hfs, hcwd, execFile_of_exec h]
  rfl

section
variable (h : Fs.Inv .names sb k.fs H ∅ c B) (hcwd : ∀ jp, k.cwd = some jp → jp ∈ H)
  (hname : k.fs.namei k.cwd path = .ok (some ip, s)) (hlock : s.ilock ip = .ok s')
include h hcwd hname hlock

theorem release_ok : Fs.Inv .names sb s' (ip ::ₘ H) {ip} c B ∧ (s'.icache ip).valid = true ∧
    ∃ s'', s'.iunlockput ip = .ok s'' ∧ Fs.Inv .names sb s'' H ∅ c B := by
  have hself := Multiset.mem_cons_self ip H
  obtain ⟨-, hspare⟩ := Fs.namei_quiet h (by decide) hcwd hname
  obtain ⟨-, -, hsome⟩ := (Fs.namei_meets h hcwd path).of_ok hname
  obtain ⟨h', hk', hdisk', -, hv⟩ := (Fs.ilock_meets (hsome ip rfl) hself).of_ok hlock
  have hs' := (hspare ip rfl).congr hdisk' (hk' ip hself).1
  obtain ⟨s'', hput⟩ := Fs.iunlockput_ok h' (by decide) (Finset.mem_insert_self _ _) hs'
  obtain ⟨h'', -⟩ := (Fs.release_meets h').of_ok hput
  exact ⟨h', hv, s'', hput, h''⟩

variable (hfile : (s'.icache ip).d.type = T_FILE) (hp : k.space.Process e live)
  (hm : ∀ x, k.space.ram.stored x = false) (hargs : List.Forall₂ k.space.Arg argv strs)
  (h19 : argv.length ≤ 19)
include hfile hp hm hargs h19

theorem robust_of_harmless
    (hsafe : Exec.Harmless (fun off n => s'.readi driver ip off n) argv k.space) :
    k.Robust sb H c B driver path argv fun off n => s'.readi driver ip off n := by
  obtain ⟨h', hv, s'', hput, h''⟩ := release_ok h hcwd hname hlock
  have hself := Multiset.mem_cons_self ip H
  have ht := h'.read_total hself hv (by rw [hfile]; decide) driver
  generalize hread : (fun off n => s'.readi driver ip off n) = read at hsafe ht ⊢
  -- nothing stored, nothing changed
  have hquit : Exec.load read argv k.space = .ok (none, k.space) →
      k.Robust sb H c B driver path argv read := by
    intro hload
    have hexec := exec_of_load_none hname hlock hput (hread ▸ hload)
    refine ⟨-1, _, none, k.space, hexec, hload, fun x hx => ?_, h'',
      .inr ⟨rfl, .refl _, rfl, rfl⟩⟩
    rw [hm] at hx
    cases hx
  cases hreq : Exec.request read argv k.space with
  | none => exact hquit (Exec.load_of_none ht (Exec.argLoop_of_args hp hargs) hreq)
  | some r =>
    obtain ⟨elf, arglen, sz⟩ := r
    obtain ⟨hpos, hlt, hcases⟩ := hsafe elf arglen sz hreq
    cases hk : (kallocLoop sz.toNat k.space.free).1 with
    | none => exact hquit (Exec.load_no_block hreq hpos hlt hk)
    | some v =>
      obtain ⟨fl, hk⟩ : ∃ fl, kallocLoop sz.toNat k.space.free = (some v, fl) :=
        ⟨_, Prod.ext hk rfl⟩
      obtain ⟨hfr, hcv, hv⟩ := Exec.fresh_of_request hp hreq hpos hlt hk
      have hnew := Exec.newBlock_eq hreq hk
      obtain ⟨hfit, hstack⟩ := hcases.resolve_left fun hnone => by
        have := kallocLoop_none.mpr hnone
        rw [hk] at this
        cases this
      obtain ⟨m, hs, hdone, hbad⟩ := Exec.load_block hp ht hreq hpos hlt hk
      have hw := Exec.within_block hfr hlt hs hfit
      have hin : ∀ m', Within (UInt32.ofNat v) sz.toNat k.space.ram m' → ∀ x,
          m'.stored x = true → ∃ b, Exec.newBlock read argv k.space = some b ∧ b.Has x.toNat := by
        intro m' hw' x hx
        refine ⟨_, hnew, ?_⟩
        have := (hw'.stored x hx).resolve_left (by rw [hm]; decide)
        rwa [block, hv] at this
      cases hflag : (Exec.pieces read sz elf.phnum.toNat elf.phoff).1 with
      | true =>
        have hload := hdone hflag
        obtain ⟨hroom, -⟩ := Exec.arglen_of_request hp hargs h19 hreq
        obtain ⟨p', hcommit, hdesc⟩ := Exec.commit_ok elf.entry hp hargs hpos
          (Exec.page_of_request hreq) hcv hfr hw hroom (hstack hflag)
        have hexec := exec_of_load_some hname hlock hput (hread ▸ hload)
        rw [hcommit] at hexec
        obtain ⟨n, hdr, hhdr, hentry⟩ := Exec.entry_of_request hreq
        refine ⟨0, _, _, _, hexec, hload, hin m hw, h'', .inl ⟨rfl, _, n, hdr, hnew, hhdr, ?_⟩⟩
        exact ⟨hdesc.mem, congrArg UInt32.toNat hdesc.sz, by
          rw [hdesc.seg, hdesc.mem, hdesc.sz], hdesc.esp, hentry⟩
      | false =>
        obtain ⟨fl', hf, hload⟩ := hbad hflag
        have hexec := exec_of_load_none hname hlock hput (hread ▸ hload)
        have hw' := hw.trans (Exec.within_fill hfr hlt 1 m)
        refine ⟨-1, _, _, _, hexec, hload, hin _ hw', h'', .inr ⟨rfl, ?_, rfl, rfl⟩⟩
        exact Exec.rejected_of_within hp hfr hcv hw' hf

omit hm in
theorem harmless_of_robust
    (hrobust : k.Robust sb H c B driver path argv fun off n => s'.readi driver ip off n) :
    Exec.Harmless (fun off n => s'.readi driver ip off n) argv k.space := by
  obtain ⟨h', hv, s'', hput, -⟩ := release_ok h hcwd hname hlock
  have hself := Multiset.mem_cons_self ip H
  have ht := h'.read_total hself hv (by rw [hfile]; decide) driver
  generalize hread : (fun off n => s'.readi driver ip off n) = read at hrobust ht ⊢
  obtain ⟨r, k', o, q, hexec, hload, hin, -, hout⟩ := hrobust
  intro elf arglen sz hreq
  rcases Exec.kalloc_of_request hreq with ⟨hpos, hlt, -⟩ | ⟨-, hpanic⟩
  case inr =>
    rw [Exec.load_of_request hreq, hpanic] at hload
    cases hload
  refine ⟨hpos, hlt, ?_⟩
  cases hk : (kallocLoop sz.toNat k.space.free).1 with
  | none => exact .inl (kallocLoop_none.mp hk)
  | some v =>
    obtain ⟨fl, hk⟩ : ∃ fl, kallocLoop sz.toNat k.space.free = (some v, fl) :=
      ⟨_, Prod.ext hk rfl⟩
    obtain ⟨hfr, -, hv⟩ := Exec.fresh_of_request hp hreq hpos hlt hk
    have hnew := Exec.newBlock_eq hreq hk
    obtain ⟨m, hs, hdone, hbad⟩ := Exec.load_block hp ht hreq hpos hlt hk
    have hblock : ∀ x, q.ram.stored x = true → (block (UInt32.ofNat v) sz.toNat).Has x.toNat := by
      intro x hx
      obtain ⟨b, hb, hbx⟩ := hin x hx
      rw [hnew] at hb
      cases hb
      rwa [block, hv]
    right
    cases hflag : (Exec.pieces read sz elf.phnum.toNat elf.phoff).1 with
    | true =>
      rw [hdone hflag] at hload
      cases hload
      refine ⟨hs.fit hfr.fits hlt hblock, fun _ => ?_⟩
      rw [exec_of_load_some hname hlock hput (hread ▸ hdone hflag)] at hexec
      obtain ⟨p', hcommit, hexec⟩ := bind_eq_ok.mp hexec
      cases hexec
      rcases hout with ⟨-, b, n, hdr, hb, -, hruns⟩ | ⟨hneg, -⟩
      · rw [hnew] at hb
        cases hb
        exact Exec.stack_of_commit hlt h19 (Exec.arglen_of_request hp hargs h19 hreq).2 hcommit
          hruns.esp
      · cases hneg
    | false =>
      obtain ⟨fl', -, hload'⟩ := hbad hflag
      rw [hload'] at hload
      cases hload
      refine ⟨hs.fit hfr.fits hlt fun x hx => hblock x ?_, fun htrue => by cases htrue⟩
      exact (memset_marks _ _ _ _).mono x hx

/-- `exec` is robust against a file exactly if the size of the image is a positive `int`, and, if
there is a block for it, the pieces that are stored end within the image and the stack fits. -/
theorem exec_robust_iff :
    (k.Robust sb H c B driver path argv fun off n => s'.readi driver ip off n) ↔
      Exec.Harmless (fun off n => s'.readi driver ip off n) argv k.space :=
  ⟨harmless_of_robust h hcwd hname hlock hfile hp hargs h19,
    robust_of_harmless h hcwd hname hlock hfile hp hm hargs h19⟩

end

/-- An executable whose only segment, at 0, is `memsz` zero bytes -/
def elfSized (memsz : UInt32) : Buffer := put32 (elfFile 0) 72 memsz

theorem exists_elfSized {memsz : UInt32} (hmemsz : memsz = 16 ∨ memsz = 0x80000000) :
    ∃ (k : SmallFiles) (t : Task 3 2 2) (ip : Fin 3) (s s' : Fs 3) (b b₁ b₂ : Buffer)
      (read : Exec.Reader),
      Fs.Inv .names smallSuper k.fs k.pointers ∅ Fs.noCredit maxLinks ∧ k.task 0 = some t ∧
      k.fs.namei t.cwd [47, 97] = .ok (some ip, s) ∧ s.ilock ip = .ok s' ∧
      (s'.icache ip).d.type = T_FILE ∧ read = (fun off n => s'.readi 0 ip off n) ∧
      read 0 52 = .ok (52, b) ∧ (Elfhdr.load b).magic = ELF_MAGIC ∧
      (Elfhdr.load b).phnum = 1 ∧ (Elfhdr.load b).phoff = 52 ∧
      read 52 32 = .ok (32, b₁) ∧ Proghdr.load b₁ = ⟨ELF_PROG_LOAD, 0, 0, 0, memsz⟩ ∧
      read 0 0 = .ok (0, b₂) := by
  obtain ⟨k, hr, hfew, htask, heval⟩ : ∃ k : SmallFiles,
      Transition.Reach (fun k a k' => k.FewLinks smallSuper ∧ Files.Step k a k')
        (Files.boot fun _ => smallDisk rootDir) k ∧
      (k.FewLinks smallSuper ∧ (k.task 0).isSome = true ∧
        ((k.task 0).any fun t => (k.fs.namei t.cwd [47, 97]).toOption.any fun r => r.1.any fun ip =>
          (r.2.ilock ip).toOption.any fun s' => decide ((s'.icache ip).d.type = T_FILE) &&
            ((s'.readi 0 ip 0 52).toOption.any fun x => x.1 = 52 ∧
              (Elfhdr.load x.2).magic = ELF_MAGIC ∧ (Elfhdr.load x.2).phnum = 1 ∧
              (Elfhdr.load x.2).phoff = 52) &&
            ((s'.readi 0 ip 52 32).toOption.any fun x => x.1 = 32 ∧
              Proghdr.load x.2 = ⟨ELF_PROG_LOAD, 0, 0, 0, memsz⟩) &&
            ((s'.readi 0 ip 0 0).toOption.any fun x => x.1 = 0)) = true) := by
    refine Files.exists_reach_of_script (fun k _ => decide (k.FewLinks smallSuper))
      (fun k a k' hok hs => ⟨of_decide_eq_true hok, hs⟩) []
      [(0, .start), (0, .openFile [47, 97] 0x202), (0, .write 0 (elfSized memsz) 84 0)] ?_
    rcases hmemsz with rfl | rfl
    · decide +kernel
    · decide +kernel
  obtain ⟨t, ht⟩ := Option.isSome_iff_exists.mp htask
  rw [ht, Option.any_some] at heval
  simp only [Option.any_eq_true, Bool.and_eq_true, decide_eq_true_eq] at heval
  obtain ⟨⟨_, s⟩, hname, ip, rfl, s', hlock, ⟨⟨hfile, ⟨_, b⟩, hb, rfl, hmagic, hnum, hoff⟩,
    ⟨_, b₁⟩, hb₁, rfl, hph⟩, ⟨_, b₂⟩, hb₂, rfl⟩ := heval
  have h := ((Files.sound_of_reach consistent_rootDir hr).before fun _ => hfew).1
  exact ⟨k, t, ip, s, s', b, b₁, b₂, _, h, ht, eq_ok_of_toOption hname, eq_ok_of_toOption hlock,
    hfile, rfl, eq_ok_of_toOption hb, hmagic, hnum, hoff, eq_ok_of_toOption hb₁, hph,
    eq_ok_of_toOption hb₂⟩

/-- The process that executes it -/
def caller (fs : Fs 3) (cwd : Option (Fin 3)) : Program 3 := ⟨fs, cwd, stringAtEnd, [], 0⟩

theorem argLoop_stringAtEnd : Exec.argLoop stringAtEnd.ram [8190] 0 = .ok 2 :=
  Exec.argLoop_of_args process_stringAtEnd arg_stringAtEnd

/-- A small executable with one argument is run. -/
theorem exec_robust_small : ∃ (k : Program 3) (H : Multiset (Fin 3)) (ip : Fin 3) (s s' : Fs 3),
    Fs.Inv .names smallSuper k.fs H ∅ Fs.noCredit maxLinks ∧
    k.fs.namei k.cwd [47, 97] = .ok (some ip, s) ∧ s.ilock ip = .ok s' ∧
    (s'.icache ip).d.type = T_FILE ∧
    k.Robust smallSuper H Fs.noCredit maxLinks 0 [47, 97] [8190]
      fun off n => s'.readi 0 ip off n := by
  obtain ⟨k, t, ip, s, s', b, b₁, b₂, read, h, ht, hname, hlock, hfile, hread, hb, hmagic, hnum,
    hoff, hb₁, hph, hb₂⟩ := exists_elfSized (.inl rfl)
  refine ⟨caller k.fs t.cwd, k.pointers, ip, s, s', h, hname, hlock, hfile, ?_⟩
  refine (exec_robust_iff (k := caller k.fs t.cwd) h (fun jp hj => Files.mem_of_cwd ht hj) hname
    hlock hfile process_stringAtEnd (fun _ => rfl) arg_stringAtEnd (by decide)).mpr ?_
  rw [← hread]
  intro elf arglen sz hreq
  obtain ⟨sz₀, x, hhead, hx, rfl, rfl⟩ := Exec.request_some hreq
  rw [Exec.readHeaders_one hb hmagic hnum hoff hb₁ hph] at hhead
  cases hhead
  have hx' : Exec.argLoop stringAtEnd.ram [8190] 0 = .ok x := hx
  rw [argLoop_stringAtEnd] at hx'
  cases hx'
  have hsz : Exec.imageSize 16 (Exec.roundWord 2) [(8190 : UInt32)].length = 8192 := by decide
  have hpieces : Exec.pieces read 8192 1 52 = (true, [(0, 0), (0, 16)]) := by
    unfold Exec.pieces
    rw [show (52 : UInt32).toNat = 52 from rfl, hb₁]
    dsimp only
    rw [hph, if_neg (by decide), if_neg (by simp), if_neg (by decide)]
    dsimp only
    rw [show (0 : UInt32).toNat = 0 from rfl, hb₂]
    rfl
  rw [hsz, hnum, hoff, show (1 : UInt16).toNat = 1 from rfl, hpieces]
  refine ⟨by decide, by decide, .inr ⟨?_, fun _ => by decide⟩⟩
  intro w hw
  simp only [List.mem_cons, List.not_mem_nil, or_false] at hw
  rcases hw with rfl | rfl
  · exact .inl rfl
  · exact .inr (by decide)

/-- A segment of 2³¹ bytes stops the kernel. -/
theorem exec_panics : ∃ (k : Program 3) (H : Multiset (Fin 3)) (ip : Fin 3) (s s' : Fs 3),
    Fs.Inv .names smallSuper k.fs H ∅ Fs.noCredit maxLinks ∧
    k.fs.namei k.cwd [47, 97] = .ok (some ip, s) ∧ s.ilock ip = .ok s' ∧
    (s'.icache ip).d.type = T_FILE ∧
    k.space.Process 0 [⟨4096, 4096⟩, ⟨16384, 256 * PAGE - 12288⟩] ∧
    List.Forall₂ k.space.Arg [8190] [[65]] ∧
    k.exec 0 [47, 97] [8190] = .error (.panic "kalloc") ∧
    ¬ k.Robust smallSuper H Fs.noCredit maxLinks 0 [47, 97] [8190]
      fun off n => s'.readi 0 ip off n := by
  obtain ⟨k, t, ip, s, s', b, b₁, b₂, read, h, ht, hname, hlock, hfile, hread, hb, hmagic, hnum,
    hoff, hb₁, hph, -⟩ := exists_elfSized (.inr rfl)
  have hreq : Exec.request read [8190] stringAtEnd = some (Elfhdr.load b, 4, 0x80002000) := by
    unfold Exec.request
    rw [Exec.readHeaders_one hb hmagic hnum hoff hb₁ hph, argLoop_stringAtEnd]
    dsimp only
    rw [show Exec.roundWord 2 = 4 by decide,
      show Exec.imageSize 0x80000000 4 [(8190 : UInt32)].length = 0x80002000 by decide]
  have hload : Exec.load read [8190] stringAtEnd = .error (.panic "kalloc") := by
    rcases Exec.kalloc_of_request hreq with ⟨-, hlt, -⟩ | ⟨-, hpanic⟩
    · exact absurd hlt (by decide)
    · rw [Exec.load_of_request hreq, hpanic]
      rfl
  have hexec : (caller k.fs t.cwd).exec 0 [47, 97] [8190] = .error (.panic "kalloc") := by
    unfold exec
    rw [show (caller k.fs t.cwd).fs.namei (caller k.fs t.cwd).cwd [47, 97] = .ok (some ip, s)
      from hname, ok_bind]
    dsimp only
    rw [hlock, ok_bind, ← hread, show (caller k.fs t.cwd).space = stringAtEnd from rfl, hload]
    rfl
  refine ⟨caller k.fs t.cwd, k.pointers, ip, s, s', h, hname, hlock, hfile, process_stringAtEnd,
    arg_stringAtEnd, hexec, ?_⟩
  rintro ⟨r, k', o, q, hok, -⟩
  rw [hexec] at hok
  cases hok

end Program

end Xv6Shed
