import Xv6Shed.Ram

/-!
# The two memmoves

`memmove` of `ulib.c` takes an `int` and always counts up. Where the destination begins inside
the source, the first bytes of the source are repeated over the whole destination.
-/

namespace Xv6Shed.Ram

variable {m m' m'' : Ram} {dst src : UInt32} {n k : ℕ}

/-- `memmove(dst, src, n)` of `ulib.c` -/
def ulibMemmove (dst src : UInt32) (n : Int32) (m : Ram) : Ram := m.copyUp dst src n.toInt.toNat

/-- `n` bytes have moved from `src` to `dst`, and nothing else has changed. -/
structure Moved (dst src : UInt32) (n : ℕ) (m m' : Ram) : Prop where
  bytes : ∀ k < n, m'.bytes (dst + UInt32.ofNat k) = m.bytes (src + UInt32.ofNat k)
  frame : ∀ x, ¬ (block dst n).Has x.toNat → m'.bytes x = m.bytes x

theorem Moved.bytes_eq (hf : Fits dst n) (h : Moved dst src n m m') (h' : Moved dst src n m m'') :
    m'.bytes = m''.bytes := by
  funext x
  by_cases hx : (block dst n).Has x.toNat
  · obtain ⟨k, hk, rfl⟩ := exists_offset hf hx
    rw [h.bytes k hk, h'.bytes k hk]
  · rw [h.frame x hx, h'.frame x hx]

theorem copyUp_moved_iff (hf : Fits dst n) :
    Moved dst src n m (m.copyUp dst src n) ↔
      ∀ k < n, (m.copyUp dst src n).bytes (dst + UInt32.ofNat k) =
        m.bytes (src + UInt32.ofNat k) :=
  ⟨fun h => h.bytes, fun h => ⟨h, fun x => (copyUp_marks dst src n m).bytes x hf⟩⟩

theorem memmove_moved {n : UInt32} (hd : Fits dst n.toNat) (hs : Fits src n.toNat) :
    Moved dst src n.toNat m (m.memmove dst src n) := by
  refine ⟨fun k hk => ?_, fun x => (memmove_marks dst src n m).bytes x hd⟩
  by_cases hlt : src.toNat + n.toNat < 2 ^ 32
  · exact memmove_bytes hd hlt hk
  · -- a source that ends at the top of memory is not below the destination
    have hle : dst.toNat ≤ src.toNat := by
      unfold Fits at hd
      omega
    have hup : ¬ (src < dst ∧ src + n > dst) := by
      rw [UInt32.lt_iff_toNat_lt]
      omega
    rw [memmove, if_neg hup]
    exact copyUp_bytes hd hs (.inl hle) hk

theorem copyUp_repeats (hd : Fits dst n) (hlt : src.toNat < dst.toNat) (hk : k < n) :
    (m.copyUp dst src n).bytes (dst + UInt32.ofNat k) =
      m.bytes (src + UInt32.ofNat (k % (dst.toNat - src.toNat))) := by
  induction n generalizing k with
  | zero => omega
  | succ n ih =>
    have hd' := hd.mono (Nat.le_succ n)
    have hs : Fits src (n + 1) := by
      unfold Fits at hd ⊢
      omega
    have hlast : (m.copyUp dst src n).bytes (src + UInt32.ofNat n) =
        m.bytes (src + UInt32.ofNat (n % (dst.toNat - src.toNat))) := by
      by_cases hn : n < dst.toNat - src.toNat
      · rw [Nat.mod_eq_of_lt hn]
        apply (copyUp_marks dst src n m).bytes _ hd'
        rw [block_has, hs.toNat_add (Nat.lt_succ_self n)]
        omega
      · -- the byte read now was stored one period earlier
        have hback : src + UInt32.ofNat n = dst + UInt32.ofNat (n - (dst.toNat - src.toNat)) := by
          rw [← UInt32.toNat_inj, hs.toNat_add (Nat.lt_succ_self n), hd'.toNat_add (by omega)]
          omega
        rw [hback, ih hd' (by omega), Nat.mod_eq_sub_mod (Nat.le_of_not_lt hn)]
    by_cases he : k = n
    · rw [he, ← hlast]
      exact Function.update_self _ _ _
    · have hne : dst + UInt32.ofNat k ≠ dst + UInt32.ofNat n := by
        intro h
        exact he (offset_inj hd hk (Nat.lt_succ_self n) h)
      rw [← ih hd' (by omega)]
      exact store_bytes_of_ne hne

/-- When counting up is right: the destination does not begin inside the source, or the source
repeats itself with the distance of the two as its period. -/
def Repeats (dst src : UInt32) (n : ℕ) (m : Ram) : Prop :=
  dst.toNat ≤ src.toNat ∨ src.toNat + n ≤ dst.toNat ∨
    ∀ k < n, m.bytes (src + UInt32.ofNat k) =
      m.bytes (src + UInt32.ofNat (k % (dst.toNat - src.toNat)))

theorem copyUp_moved_iff_repeats (hd : Fits dst n) (hs : Fits src n) :
    Moved dst src n m (m.copyUp dst src n) ↔ Repeats dst src n m := by
  rw [copyUp_moved_iff hd]
  constructor
  · intro h
    rcases Nat.lt_or_ge src.toNat dst.toNat with hlt | hge
    · refine .inr (.inr fun k hk => ?_)
      rw [← h k hk, copyUp_repeats hd hlt hk]
    · exact .inl hge
  · rintro (h | h | h) k hk
    · exact copyUp_bytes hd hs (.inl h) hk
    · exact copyUp_bytes hd hs (.inr h) hk
    · rcases Nat.lt_or_ge src.toNat dst.toNat with hlt | hge
      · rw [copyUp_repeats hd hlt hk, ← h k hk]
      · exact copyUp_bytes hd hs (.inl hge) hk

theorem toNat_toInt_toInt32 (n : UInt32) :
    n.toInt32.toInt.toNat = if n.toNat < 2 ^ 31 then n.toNat else 0 := by
  have h : n.toInt32.toInt = n.toBitVec.toInt := rfl
  have hn : n.toBitVec.toNat = n.toNat := rfl
  have hlt := n.toNat_lt
  rw [h, BitVec.toInt_eq_toNat_cond, hn]
  split_ifs <;> omega

/-- The inputs for which the `memmove` of `ulib.c` moves the bytes -/
def UlibMoves (dst src n : UInt32) (m : Ram) : Prop :=
  if n.toNat < 2 ^ 31 then Repeats dst src n.toNat m
  else ∀ k < n.toNat, m.bytes (dst + UInt32.ofNat k) = m.bytes (src + UInt32.ofNat k)

theorem ulibMemmove_moved_iff {n : UInt32} (hd : Fits dst n.toNat) (hs : Fits src n.toNat) :
    Moved dst src n.toNat m (m.ulibMemmove dst src n.toInt32) ↔ UlibMoves dst src n m := by
  unfold ulibMemmove UlibMoves
  rw [toNat_toInt_toInt32]
  split_ifs with h
  · exact copyUp_moved_iff_repeats hd hs
  · exact ⟨fun hm => hm.bytes, fun hb => ⟨hb, fun _ _ => rfl⟩⟩

/-- The kernel's `memmove` always moves the bytes; that of `ulib.c` does and leaves the same
memory exactly for `UlibMoves`. -/
theorem memmoves_agree_iff (m : Ram) (dst src n : UInt32) (hd : Fits dst n.toNat)
    (hs : Fits src n.toNat) :
    (Moved dst src n.toNat m (m.memmove dst src n) ∧
      Moved dst src n.toNat m (m.ulibMemmove dst src n.toInt32) ∧
      (m.ulibMemmove dst src n.toInt32).bytes = (m.memmove dst src n).bytes) ↔
      UlibMoves dst src n m := by
  have hk := memmove_moved (m := m) hd hs
  rw [← ulibMemmove_moved_iff hd hs]
  exact ⟨fun h => h.2.1, fun hu => ⟨hk, hu, hu.bytes_eq hd hk⟩⟩

/-- A memory where every byte is the low byte of its address -/
def ramp : Ram := ⟨fun a => a.toUInt8, fun _ => false⟩

theorem memmoves_agree_down :
    (ramp.ulibMemmove 0 1 2).bytes = (ramp.memmove 0 1 2).bytes := by
  have h : UlibMoves 0 1 2 ramp := .inl (by decide)
  exact ((memmoves_agree_iff ramp 0 1 2 (by unfold Fits; decide)
    (by unfold Fits; decide)).mpr h).2.2

/-- Moving two bytes up by one smears the first over both. -/
theorem ulib_memmove_smears :
    Fits 1 2 ∧ Fits 0 2 ∧ (ramp.memmove 1 0 2).bytes 2 = 1 ∧
      (ramp.ulibMemmove 1 0 2).bytes 2 = 0 := by
  unfold Fits
  decide

end Xv6Shed.Ram
