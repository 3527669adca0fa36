import Xv6Shed.UserMemory

/-!
# `sbrk`

What `sys_sbrk` does for a process whose memory is a block of the page allocator. The
allocator takes only positive multiples of a page, and `growproc` copies the old size, and
clears the difference as an unsigned number, whatever the sign of `n`.
-/

namespace Xv6Shed.Space
open Bytes Xv6Shed.Interval Ram

/-- The process's memory is a block that the page allocator has handed out. -/
structure Process (e : ℕ) (live : List Interval) (s : Space) : Prop where
  sound : (⟨s.free, live⟩ : Heap).Sound (kstart e) (256 * PAGE)
  mem : block s.mem s.sz.toNat ∈ live
  /-- the pages lie below the end of the address space -/
  top : kstart e + 256 * PAGE < 2 ^ 32

/-- The call has changed nothing. -/
structure Kept (s s' : Space) : Prop where
  mem : s'.mem = s.mem
  sz : s'.sz = s.sz
  bytes : s'.ram.bytes = s.ram.bytes
  free : ∀ x, Covers s'.free x ↔ Covers s.free x

/-- The process has moved to a new block, `n` bytes longer. Apart from the new block only the
old one has been stored to, by `kfree`. -/
structure Grown (n : ℤ) (s s' : Space) : Prop where
  size : (s'.sz.toNat : ℤ) = s.sz.toNat + n
  kept : ∀ k, k < s.sz.toNat → k < s'.sz.toNat → s'.user k = s.user k
  zero : ∀ k, s.sz.toNat ≤ k → k < s'.sz.toNat → s'.user k = 0
  fresh : ∀ x, (block s'.mem s'.sz.toNat).Has x → Covers s.free x
  stored : ∀ x : UInt32, s'.ram.stored x = true → (block s'.mem s'.sz.toNat).Has x.toNat ∨
    (block s.mem s.sz.toNat).Has x.toNat
  free : ∀ x, Covers s'.free x ↔
    (Covers s.free x ∧ ¬ (block s'.mem s'.sz.toNat).Has x) ∨ (block s.mem s.sz.toNat).Has x

/-- What `sbrk(n)` is to do: return -1 and change nothing, or return the old size and grow. -/
def Sbrks (n : ℤ) (s : Space) : Prop :=
  ∃ addr s', s.sysSbrk = .ok (addr, s') ∧
    ((addr = -1 ∧ Kept s s') ∨ (addr.toInt = s.sz.toNat ∧ Grown n s s'))

/-- The new size is a positive number of pages, an `int` can hold it, and the memory does not
shrink unless there is no block for it. -/
def CanSbrk (n : ℤ) (s : Space) : Prop :=
  ∃ N : ℕ, (N : ℤ) = s.sz.toNat + n ∧ 0 < N ∧ N < 2 ^ 31 ∧ PAGE ∣ N ∧
    (0 ≤ n ∨ ∀ r ∈ s.free, r.len < N)

theorem kstart_pos (e : ℕ) : PAGE ≤ kstart e := by
  unfold kstart PAGE
  omega

section
variable {e v N : ℕ} {live fl fl' : List Interval} {s : Space} {n : Int32}

theorem bounds_of_covers {start size a len : ℕ} (hlen : 0 < len)
    (h : ∀ x, (⟨a, len⟩ : Interval).Has x → (⟨start, size⟩ : Interval).Has x) :
    start ≤ a ∧ a + len ≤ start + size := by
  have h₁ := (h a ⟨Nat.le_refl a, by simp only [stop]; omega⟩).1
  have h₂ := (h (a + len - 1) ⟨by simp only; omega, by simp only [stop]; omega⟩).2
  simp only [stop] at h₁ h₂
  omega

namespace Process

section

variable (hp : s.Process e live)
include hp

theorem sz_pos : 0 < s.sz.toNat := hp.sound.live_pos _ hp.mem

theorem bounds : kstart e ≤ s.mem.toNat ∧ s.mem.toNat + s.sz.toNat ≤ kstart e + 256 * PAGE := by
  apply bounds_of_covers hp.sz_pos
  intro x hx
  exact (hp.sound.tiles x).mpr (.inr ⟨_, hp.mem, hx⟩)

theorem sz_le : s.sz.toNat ≤ 256 * PAGE := by
  have := hp.bounds
  omega

theorem toInt_size :
    (s.sz + n.toUInt32).toInt32.toInt =
      if (s.sz.toNat : ℤ) + n.toInt < 2 ^ 31 then s.sz.toNat + n.toInt
      else s.sz.toNat + n.toInt - 2 ^ 32 := by
  have h₁ := hp.sz_le
  have h₂ := n.toInt_lt
  have h₃ := n.le_toInt
  have h₄ : 256 * PAGE = 2 ^ 20 := by decide
  rw [toInt_add_toUInt32, Int.bmod_def]
  split_ifs <;> omega

theorem carved (hN : 0 < N) (hc : Carved v N s.free fl) :
    kstart e ≤ v ∧ v + N ≤ kstart e + 256 * PAGE ∧
      ∀ x, (⟨v, N⟩ : Interval).Has x → ¬ (block s.mem s.sz.toNat).Has x := by
  have hfree : ∀ x, (⟨v, N⟩ : Interval).Has x → Covers s.free x := fun x hx =>
    (hc.covers x).mpr (.inr hx)
  have hb := bounds_of_covers hN fun x hx => (hp.sound.tiles x).mpr (.inl (hfree x hx))
  refine ⟨hb.1, hb.2, ?_⟩
  intro x hx hm
  exact hp.sound.not_both (hfree x hx) ⟨_, hp.mem, hm⟩

end

end Process

/-- The process in its new block. -/
def moved (newmem : UInt32) (n : Int32) (fl : List Interval) (s : Space) : Space :=
  { s with
    free := fl
    ram := ((s.ram.memmove newmem s.mem s.sz).memset (newmem + s.sz) 0 n.toUInt32.toNat).memset
      s.mem 1 s.sz.toNat
    mem := newmem
    sz := s.sz + n.toUInt32
    seg := (newmem, s.sz + n.toUInt32 - 1) }

theorem growproc_panic (h : (s.sz + n.toUInt32).toInt32.toInt % PAGE ≠ 0 ∨
    (s.sz + n.toUInt32).toInt32.toInt ≤ 0) : s.growproc n = .error (.panic "kalloc") := by
  unfold growproc kalloc
  rw [if_pos h]
  rfl

theorem growproc_none (hN : (s.sz + n.toUInt32).toInt32.toInt = N) (h0 : 0 < N) (hd : PAGE ∣ N)
    (hk : (kallocLoop N s.free).1 = none) : s.growproc n = .ok (-1, s) := by
  have hk : kallocLoop N s.free = (none, s.free) := Prod.ext hk (kallocLoop_none_snd hk)
  unfold growproc
  rw [hN, kalloc_eq h0 hd, ok_bind, hk]
  rfl

theorem growproc_some (hp : s.Process e live) (hN : (s.sz + n.toUInt32).toInt32.toInt = N)
    (h0 : 0 < N) (hd : PAGE ∣ N) (hk : kallocLoop N s.free = (some v, fl)) :
    ∃ fl', Freed s.mem.toNat s.sz.toNat fl fl' ∧
      s.growproc n = .ok (s.sz.toInt32, s.moved (UInt32.ofNat v) n fl') := by
  have hs := hp.sound.alloc h0 hd (kallocLoop_some hp.sound.sorted hp.sound.pos hk)
  have hmem : block s.mem s.sz.toNat ∈ ⟨v, N⟩ :: live := List.mem_cons_of_mem _ hp.mem
  obtain ⟨fl', hf, hfr⟩ := kfreeLoop_ok hs.sorted hs.pos hp.sz_pos (hs.apart _ hmem)
  have hsz : s.sz.toInt32.toInt = s.sz.toNat := by
    apply toInt_toInt32_of_lt
    have := hp.sz_le
    have : 256 * PAGE = 2 ^ 20 := by decide
    omega
  refine ⟨fl', hfr, ?_⟩
  unfold growproc
  rw [hN, kalloc_eq h0 hd, ok_bind, hk]
  dsimp only
  rw [hsz, kfree_eq s.mem.toNat hp.sz_pos (hp.sound.live_pages _ hp.mem), hf, ok_bind]
  change Except.ok ((s.sz + n.toUInt32 - n.toUInt32).toInt32, s.moved (UInt32.ofNat v) n fl') = _
  rw [UInt32.add_sub_cancel]

theorem toNat_toUInt32 : (n.toUInt32.toNat : ℤ) = if n.toInt < 0 then n.toInt + 2 ^ 32
    else n.toInt := by
  have h₁ := n.toInt_lt
  have h₂ := n.le_toInt
  have h₃ : n.toInt = (n.toUInt32.toNat : ℤ).bmod (2 ^ 32) := BitVec.toInt_eq_toNat_bmod n.toBitVec
  have h₄ := n.toUInt32.toNat_lt
  rw [Int.bmod_def] at h₃
  split_ifs at h₃ ⊢ <;> omega

theorem toNat_size (hN : (N : ℤ) = s.sz.toNat + n.toInt) (hlt : N < 2 ^ 31) :
    (s.sz + n.toUInt32).toNat = N := by
  have h := n.toUInt32.toNat_lt
  have hn : (n.toUInt32.toNat : ℤ) = _ := toNat_toUInt32
  rw [UInt32.toNat_add]
  split_ifs at hn <;> omega

theorem moved_grown (hp : s.Process e live) (hN : (N : ℤ) = s.sz.toNat + n.toInt) (h0 : 0 ≤ n.toInt)
    (hlt : N < 2 ^ 31) (hm : ∀ x, s.ram.stored x = false) (hc : Carved v N s.free fl)
    (hf : Freed s.mem.toNat s.sz.toNat fl fl') :
    Grown n.toInt s (s.moved (UInt32.ofNat v) n fl') := by
  have hpos := hp.sz_pos
  obtain ⟨hlo, hhi, hapart⟩ := hp.carved (by omega) hc
  have hb := hp.bounds
  have htop := hp.top
  have hv : (UInt32.ofNat v).toNat = v := UInt32.toNat_ofNat_of_lt' (by change v < 2 ^ 32; omega)
  have hM : s.sz.toNat + n.toUInt32.toNat = N := by
    have hn : (n.toUInt32.toNat : ℤ) = _ := toNat_toUInt32
    rw [if_neg (by omega)] at hn
    omega
  have hsz : (s.moved (UInt32.ofNat v) n fl').sz.toNat = N := toNat_size hN hlt
  have hnew : block (UInt32.ofNat v) N = ⟨v, N⟩ := by rw [block, hv]
  -- the two parts of the new block, and the old block
  have hfit : Fits (UInt32.ofNat v) N := by unfold Fits; omega
  have hfit₁ : Fits (UInt32.ofNat v) s.sz.toNat := hfit.mono (by omega)
  have hend : (UInt32.ofNat v + s.sz).toNat = v + s.sz.toNat := by
    rw [UInt32.toNat_add, hv]
    exact Nat.mod_eq_of_lt (by omega)
  have hfit₂ : Fits (UInt32.ofNat v + s.sz) n.toUInt32.toNat := by unfold Fits; omega
  have hfit₃ : Fits s.mem s.sz.toNat := by unfold Fits; omega
  have hmv := memmove_marks (UInt32.ofNat v) s.mem s.sz s.ram
  have hms := memset_marks (UInt32.ofNat v + s.sz) 0 n.toUInt32.toNat
    (s.ram.memmove (UInt32.ofNat v) s.mem s.sz)
  have hjk := memset_marks s.mem 1 s.sz.toNat ((s.ram.memmove (UInt32.ofNat v) s.mem s.sz).memset
    (UInt32.ofNat v + s.sz) 0 n.toUInt32.toNat)
  have hout : ∀ k < N, ¬ (block s.mem s.sz.toNat).Has (UInt32.ofNat v + UInt32.ofNat k).toNat := by
    intro k hk
    apply hapart
    have := offset_has hfit hk
    rwa [hnew] at this
  refine ⟨?_, ?_, ?_, ?_, ?_, ?_⟩
  · rw [hsz, hN]
  · intro k hk hk'
    rw [hsz] at hk'
    refine (hjk.bytes _ hfit₃ (hout k hk')).trans ?_
    rw [hms.bytes _ hfit₂]
    · exact memmove_bytes hfit₁ (by omega) hk
    · rw [block_has, hend, hfit.toNat_add hk', hv]
      omega
  · intro k hk hk'
    rw [hsz] at hk'
    refine (hjk.bytes _ hfit₃ (hout k hk')).trans ?_
    have hsplit : UInt32.ofNat v + UInt32.ofNat k =
        UInt32.ofNat v + s.sz + UInt32.ofNat (k - s.sz.toNat) := by
      rw [← UInt32.toNat_inj, hfit.toNat_add hk', hfit₂.toNat_add (by omega), hend, hv]
      omega
    rw [hsplit]
    exact memset_bytes hfit₂ (by omega)
  · intro x hx
    rw [hsz] at hx
    change (block (UInt32.ofNat v) N).Has x at hx
    rw [hnew] at hx
    exact (hc.covers x).mpr (.inr hx)
  · intro x hx
    rw [hsz]
    change (block (UInt32.ofNat v) N).Has x.toNat ∨ _
    rcases (hjk.stored hfit₃ x).mp hx with hx | hx
    · refine .inl ?_
      rcases (hms.stored hfit₂ x).mp hx with hx | hx
      · rcases (hmv.stored hfit₁ x).mp hx with hx | hx
        · rw [hm] at hx
          cases hx
        · rw [block_has] at hx ⊢
          omega
      · rw [block_has, hend] at hx
        rw [block_has, hv]
        omega
    · exact .inr hx
  · intro x
    rw [hsz]
    change Covers fl' x ↔ (_ ∧ ¬ (block (UInt32.ofNat v) N).Has x) ∨ _
    rw [hnew, hf.covers, hc.covers]
    have := hc.apart x
    unfold block
    tauto

theorem moved_stored (hN : (N : ℤ) = s.sz.toNat + n.toInt) (h0 : n.toInt < 0) (hpos : 0 < N)
    (newmem : UInt32) (fl' : List Interval) (x : UInt32) :
    (s.moved newmem n fl').ram.stored x = true := by
  have hn : (n.toUInt32.toNat : ℤ) = _ := toNat_toUInt32
  rw [if_pos h0] at hn
  have hx : x = newmem + UInt32.ofNat (x - newmem).toNat := by
    rw [UInt32.ofNat_toNat]
    grind
  have hlt := (x - newmem).toNat_lt
  apply (memset_marks s.mem 1 s.sz.toNat _).mono
  by_cases hk : (x - newmem).toNat < s.sz.toNat
  · apply (memset_marks _ _ _ _).mono
    rw [hx]
    exact (memmove_marks newmem s.mem s.sz s.ram).offset _ hk
  · have hx' : x = newmem + s.sz + UInt32.ofNat ((x - newmem).toNat - s.sz.toNat) := by
      rw [UInt32.ofNat_sub (by omega), UInt32.ofNat_toNat, UInt32.ofNat_toNat]
      grind
    rw [hx']
    exact (memset_marks _ _ _ _).offset _ (by omega)

theorem Process.not_stored_zero (hp : s.Process e live) (hpos : 0 < N) (hlt : N < 2 ^ 31)
    (hN : (N : ℤ) = s.sz.toNat + n.toInt) (hc : Carved v N s.free fl)
    (hg : Grown n.toInt s (s.moved (UInt32.ofNat v) n fl')) :
    (s.moved (UInt32.ofNat v) n fl').ram.stored 0 ≠ true := by
  have hstart := kstart_pos e
  have hpage : 0 < PAGE := by decide
  have hb := hp.bounds
  have htop := hp.top
  obtain ⟨hlo, hhi, -⟩ := hp.carved hpos hc
  have hv : (UInt32.ofNat v).toNat = v := UInt32.toNat_ofNat_of_lt' (by change v < 2 ^ 32; omega)
  intro h
  rcases hg.stored 0 h with h | h
  · have h := (block_has.mp h).1
    change (UInt32.ofNat v).toNat ≤ 0 at h
    omega
  · have h := (block_has.mp h).1
    change s.mem.toNat ≤ 0 at h
    omega

theorem sysSbrk_eq (hn : s.argint 0 = some n) {r : Int32 × Space} (h : s.growproc n = .ok r) :
    s.sysSbrk = .ok (if r.1 < 0 then (-1, r.2) else r) := by
  unfold sysSbrk
  rw [hn]
  dsimp only
  rw [h, ok_bind]
  split_ifs
  · rfl
  · rfl

theorem Process.not_neg (hp : s.Process e live) : ¬ s.sz.toInt32 < 0 := by
  have h := hp.sz_le
  have h' : 256 * PAGE = 2 ^ 20 := by decide
  rw [Int32.lt_iff_toInt_lt, toInt_toInt32_of_lt (by omega)]
  simp

theorem Process.size_cases (hp : s.Process e live) :
    s.growproc n = .error (.panic "kalloc") ∧ ¬ s.CanSbrk n.toInt ∨
      ∃ N : ℕ, (N : ℤ) = s.sz.toNat + n.toInt ∧ 0 < N ∧ N < 2 ^ 31 ∧ PAGE ∣ N ∧
        (s.sz + n.toUInt32).toInt32.toInt = N := by
  have hsize := hp.toInt_size (n := n)
  have hle := hp.sz_le
  have hlt := n.toInt_lt
  have hpage : 256 * PAGE = 2 ^ 20 := by decide
  by_cases h : (s.sz + n.toUInt32).toInt32.toInt % PAGE ≠ 0 ∨ (s.sz + n.toUInt32).toInt32.toInt ≤ 0
  · refine .inl ⟨growproc_panic h, ?_⟩
    rintro ⟨N, hN, hpos, hlt, hd, -⟩
    rw [if_pos (by omega), ← hN] at hsize
    rw [hsize] at h
    rcases h with h | h
    · exact h (Int.emod_eq_zero_of_dvd (Int.natCast_dvd_natCast.mpr hd))
    · omega
  · push Not at h
    obtain ⟨hd, hpos⟩ := h
    have hsum : (s.sz.toNat : ℤ) + n.toInt < 2 ^ 31 := by
      by_contra hge
      rw [if_neg hge] at hsize
      omega
    rw [if_pos hsum] at hsize
    refine .inr ⟨((s.sz.toNat : ℤ) + n.toInt).toNat, by omega, by omega, by omega, ?_, by omega⟩
    rw [← Int.natCast_dvd_natCast, Int.toNat_of_nonneg (by omega), ← hsize]
    exact Int.dvd_of_emod_eq_zero hd

/-- `sbrk(n)` does what it is to do exactly if the new size is a positive number of pages that an
`int` can hold, and the memory does not shrink unless there is no block for it. -/
theorem sysSbrk_iff (hp : s.Process e live) (hm : ∀ x, s.ram.stored x = false)
    (hn : s.argint 0 = some n) : s.Sbrks n.toInt ↔ s.CanSbrk n.toInt := by
  rcases hp.size_cases (n := n) with ⟨herr, hcan⟩ | ⟨N, hN, hpos, hlt, hd, hsize⟩
  · refine iff_of_false ?_ hcan
    rintro ⟨addr, s', h, -⟩
    unfold sysSbrk at h
    rw [hn] at h
    dsimp only at h
    rw [herr] at h
    cases h
  cases hk : (kallocLoop N s.free).1 with
  | none =>
    have hsys := sysSbrk_eq hn (growproc_none hsize hpos hd hk)
    refine iff_of_true ⟨-1, s, hsys, .inl ⟨rfl, rfl, rfl, rfl, fun _ => Iff.rfl⟩⟩ ?_
    exact ⟨N, hN, hpos, hlt, hd, .inr (kallocLoop_none.mp hk)⟩
  | some v =>
    have hk' : kallocLoop N s.free = (some v, (kallocLoop N s.free).2) := Prod.ext hk rfl
    have hc := kallocLoop_some hp.sound.sorted hp.sound.pos hk'
    obtain ⟨fl', hf, hg⟩ := growproc_some hp hsize hpos hd hk'
    have hsys := sysSbrk_eq hn hg
    rw [if_neg hp.not_neg] at hsys
    by_cases h0 : 0 ≤ n.toInt
    · refine iff_of_true ⟨_, _, hsys, .inr ⟨?_, moved_grown hp hN h0 hlt hm hc hf⟩⟩
        ⟨N, hN, hpos, hlt, hd, .inl h0⟩
      apply toInt_toInt32_of_lt
      omega
    · refine iff_of_false ?_ ?_
      · rintro ⟨addr, s', h, hres⟩
        obtain ⟨rfl, rfl⟩ := Prod.ext_iff.mp (Except.ok.inj (hsys.symm.trans h))
        rcases hres with ⟨hneg, -⟩ | ⟨-, hgrown⟩
        · change s.sz.toInt32 = -1 at hneg
          apply hp.not_neg
          rw [hneg]
          decide
        · exact hp.not_stored_zero hpos hlt hN hc hgrown
            (moved_stored hN (not_le.mp h0) hpos _ _ _)
      · rintro ⟨N', hN', -, -, -, h | h⟩
        · exact h0 h
        · have hnone : (kallocLoop N s.free).1 = none := by
            rw [kallocLoop_none]
            intro r hr
            have := h r hr
            omega
          rw [hnone] at hk
          cases hk

end

/-- A process with one page, the last one, that passes `n` to a system call. -/
def onePage (n : UInt32) : Space where
  free := [⟨PAGE, 255 * PAGE⟩]
  ram := ⟨fun x => if 1048580 ≤ x then putLE n.toNat (x.toNat - 1048580) else 0, fun _ => false⟩
  mem := 1048576
  sz := 4096
  esp := 0
  seg := (1048576, 4095)

theorem process_onePage (n : UInt32) : (onePage n).Process 0 [⟨256 * PAGE, PAGE⟩] where
  sound := (sound_kinit 0).alloc (by decide) (dvd_refl PAGE)
    (kallocLoop_some (sound_kinit 0).sorted (sound_kinit 0).pos rfl)
  mem := List.mem_singleton.mpr rfl
  top := by decide

/-- `sbrk(4096)` gives the process a second page. -/
theorem sysSbrk_onePage : (onePage 4096).argint 0 = some 4096 ∧ (onePage 4096).Sbrks 4096 := by
  have harg : (onePage 4096).argint 0 = some 4096 := by decide
  refine ⟨harg, (sysSbrk_iff (process_onePage 4096) (fun _ => rfl) harg).mpr ?_⟩
  exact ⟨8192, rfl, by decide, by decide, by decide, .inl (by decide)⟩

/-- `sbrk(1)` stops the kernel. -/
theorem sysSbrk_panics : (onePage 1).Process 0 [⟨256 * PAGE, PAGE⟩] ∧
    (onePage 1).argint 0 = some 1 ∧ (onePage 1).sysSbrk = .error (.panic "kalloc") := by
  have harg : (onePage 1).argint 0 = some 1 := by decide
  refine ⟨process_onePage 1, harg, ?_⟩
  unfold sysSbrk
  rw [harg]
  dsimp only
  rw [growproc_panic (.inl (by decide))]
  rfl

end Xv6Shed.Space
