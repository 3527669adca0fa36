import Mathlib.Data.UInt
import Mathlib.Logic.Function.Basic
import Xv6Shed.Interval

/-!
# Byte-addressed memory

A memory of 2³² bytes with a mark on every byte that has been stored to, and the loops of
`string.c` over it. Pointer arithmetic wraps; the lemmas about a whole loop are for blocks
that do not.
-/

namespace Xv6Shed
open Function Xv6Shed.Interval

structure Ram where
  bytes : UInt32 → UInt8
  /-- the bytes stored to -/
  stored : UInt32 → Bool

namespace Ram

variable {a x : UInt32} {n k off len : ℕ} {m' : Ram}

/-- `n` addresses from `a` on do not wrap. -/
def Fits (a : UInt32) (n : ℕ) : Prop := a.toNat + n ≤ 2 ^ 32

theorem Fits.mono {m : ℕ} (h : Fits a n) (hm : m ≤ n) : Fits a m := by
  unfold Fits at *
  omega

theorem Fits.toNat_add (h : Fits a n) (hk : k < n) :
    (a + UInt32.ofNat k).toNat = a.toNat + k := by
  unfold Fits at h
  rw [UInt32.toNat_add, UInt32.toNat_ofNat', Nat.mod_eq_of_lt (show k < 2 ^ 32 by omega)]
  exact Nat.mod_eq_of_lt (by omega)

/-- The block of `n` bytes at `a`. -/
def block (a : UInt32) (n : ℕ) : Interval := ⟨a.toNat, n⟩

theorem block_has :
    (block a n).Has x.toNat ↔ a.toNat ≤ x.toNat ∧ x.toNat < a.toNat + n := Iff.rfl

@[simp] theorem block_zero_has : ¬ (block a 0).Has x.toNat := by
  rw [block_has]
  omega

theorem block_succ_has (h : Fits a (n + 1)) :
    (block a (n + 1)).Has x.toNat ↔ (block a n).Has x.toNat ∨ x = a + UInt32.ofNat n := by
  rw [← UInt32.toNat_inj, h.toNat_add (Nat.lt_succ_self n), block_has, block_has]
  omega

theorem exists_offset (h : Fits a n) (hx : (block a n).Has x.toNat) :
    ∃ k < n, x = a + UInt32.ofNat k := by
  rw [block_has] at hx
  refine ⟨x.toNat - a.toNat, by omega, ?_⟩
  rw [← UInt32.toNat_inj, h.toNat_add (by omega)]
  omega

theorem offset_has (h : Fits a n) (hk : k < n) :
    (block a n).Has (a + UInt32.ofNat k).toNat := by
  rw [block_has, h.toNat_add hk]
  omega

theorem offset_inj {j : ℕ} (h : Fits a n) (hj : j < n) (hk : k < n)
    (he : a + UInt32.ofNat j = a + UInt32.ofNat k) : j = k := by
  rw [← UInt32.toNat_inj, h.toNat_add hj, h.toNat_add hk] at he
  omega

def store (a : UInt32) (c : UInt8) (m : Ram) : Ram :=
  ⟨update m.bytes a c, update m.stored a true⟩

def memset (dst : UInt32) (c : UInt8) : ℕ → Ram → Ram
  | 0, m => m
  | n + 1, m => (memset dst c n m).store (dst + UInt32.ofNat n) c

/-- The stores of `n` bytes of a buffer, one after the other -/
def write (dst : UInt32) (src : ℕ → UInt8) : ℕ → Ram → Ram
  | 0, m => m
  | n + 1, m => (write dst src n m).store (dst + UInt32.ofNat n) (src n)

/-- The loop of `memmove` that counts up. -/
def copyUp (dst src : UInt32) : ℕ → Ram → Ram
  | 0, m => m
  | n + 1, m =>
    let m := copyUp dst src n m
    m.store (dst + UInt32.ofNat n) (m.bytes (src + UInt32.ofNat n))

/-- The loop of `memmove` that counts down. -/
def copyDown (dst src : UInt32) : ℕ → Ram → Ram
  | 0, m => m
  | n + 1, m => copyDown dst src n (m.store (dst + UInt32.ofNat n) (m.bytes (src + UInt32.ofNat n)))

def memmove (dst src n : UInt32) (m : Ram) : Ram :=
  if src < dst ∧ src + n > dst then m.copyDown dst src n.toNat
  else m.copyUp dst src n.toNat

variable {m : Ram} {dst src a x : UInt32} {c : UInt8} {n k : ℕ}

theorem store_bytes_of_ne (h : x ≠ a) : (m.store a c).bytes x = m.bytes x := update_of_ne h _ _

theorem stored_store : (m.store a c).stored x = true ↔ m.stored x = true ∨ x = a := by
  by_cases h : x = a
  · simp [store, h]
  · simp [store, h]

/-- A loop of `n` stores from `dst` on marks the block, if it does not wrap. -/
structure Marks (dst : UInt32) (n : ℕ) (m m' : Ram) : Prop where
  stored : Fits dst n → ∀ x, m'.stored x = true ↔ m.stored x = true ∨ (block dst n).Has x.toNat
  bytes : ∀ x, Fits dst n → ¬ (block dst n).Has x.toNat → m'.bytes x = m.bytes x
  mono : ∀ x, m.stored x = true → m'.stored x = true
  offset : ∀ k < n, m'.stored (dst + UInt32.ofNat k) = true

theorem Marks.zero : Marks dst 0 m m where
  stored _ x := by simp
  bytes _ _ _ := rfl
  mono _ h := h
  offset k hk := absurd hk (Nat.not_lt_zero k)

theorem Marks.succ (h : Marks dst n m m') :
    Marks dst (n + 1) m (m'.store (dst + UInt32.ofNat n) c) where
  stored hf x := by
    rw [stored_store, h.stored (hf.mono (Nat.le_succ n)), block_succ_has hf, or_assoc]
  bytes x hf hx := by
    rw [block_succ_has hf, not_or] at hx
    rw [store_bytes_of_ne hx.2, h.bytes x (hf.mono (Nat.le_succ n)) hx.1]
  mono x hx := stored_store.mpr (.inl (h.mono x hx))
  offset k hk := by
    rw [stored_store]
    rcases Nat.lt_succ_iff_lt_or_eq.mp hk with hk | rfl
    · exact .inl (h.offset k hk)
    · exact .inr rfl

theorem Marks.before (h : Marks dst n (m.store (dst + UInt32.ofNat n) c) m') :
    Marks dst (n + 1) m m' where
  stored hf x := by
    rw [h.stored (hf.mono (Nat.le_succ n)), stored_store, block_succ_has hf]
    tauto
  bytes x hf hx := by
    rw [block_succ_has hf, not_or] at hx
    rw [h.bytes x (hf.mono (Nat.le_succ n)) hx.1, store_bytes_of_ne hx.2]
  mono x hx := h.mono x (stored_store.mpr (.inl hx))
  offset k hk := by
    rcases Nat.lt_succ_iff_lt_or_eq.mp hk with hk | rfl
    · exact h.offset k hk
    · exact h.mono _ (stored_store.mpr (.inr rfl))

theorem write_marks (dst : UInt32) (src : ℕ → UInt8) (n : ℕ) (m : Ram) :
    Marks dst n m (m.write dst src n) := by
  induction n with
  | zero => exact .zero
  | succ n ih => exact ih.succ

theorem memset_eq_write (dst : UInt32) (c : UInt8) (n : ℕ) (m : Ram) :
    m.memset dst c n = m.write dst (fun _ => c) n := by
  induction n with
  | zero => rfl
  | succ n ih => rw [memset, write, ih]

theorem memset_marks (dst : UInt32) (c : UInt8) (n : ℕ) (m : Ram) :
    Marks dst n m (m.memset dst c n) := by
  rw [memset_eq_write]
  exact write_marks dst (fun _ => c) n m

theorem copyUp_marks (dst src : UInt32) (n : ℕ) (m : Ram) :
    Marks dst n m (m.copyUp dst src n) := by
  induction n with
  | zero => exact .zero
  | succ n ih => exact ih.succ

theorem copyDown_marks (dst src : UInt32) (n : ℕ) (m : Ram) :
    Marks dst n m (m.copyDown dst src n) := by
  induction n generalizing m with
  | zero => exact .zero
  | succ n ih => exact (ih _).before

theorem memmove_marks (dst src n : UInt32) (m : Ram) :
    Marks dst n.toNat m (m.memmove dst src n) := by
  unfold memmove
  split_ifs
  · exact copyDown_marks dst src n.toNat m
  · exact copyUp_marks dst src n.toNat m

theorem write_bytes {src : ℕ → UInt8} (hf : Fits dst n) (hk : k < n) :
    (m.write dst src n).bytes (dst + UInt32.ofNat k) = src k := by
  induction n with
  | zero => omega
  | succ n ih =>
    by_cases h : k = n
    · rw [h]
      exact update_self _ _ _
    · have hne : dst + UInt32.ofNat k ≠ dst + UInt32.ofNat n := by
        intro he
        exact h (offset_inj hf hk (Nat.lt_succ_self n) he)
      exact (store_bytes_of_ne hne).trans (ih (hf.mono (Nat.le_succ n)) (by omega))

theorem write_bytes_of_ne {src : ℕ → UInt8} (h : ∀ k < n, x ≠ dst + UInt32.ofNat k) :
    (m.write dst src n).bytes x = m.bytes x := by
  induction n with
  | zero => rfl
  | succ n ih =>
    refine (store_bytes_of_ne (h n (Nat.lt_succ_self n))).trans ?_
    exact ih fun k hk => h k (Nat.lt_succ_of_lt hk)

theorem memset_bytes (hf : Fits dst n) (hk : k < n) :
    (m.memset dst c n).bytes (dst + UInt32.ofNat k) = c := by
  rw [memset_eq_write]
  exact write_bytes hf hk

theorem copyUp_bytes (hd : Fits dst n) (hs : Fits src n)
    (h : dst.toNat ≤ src.toNat ∨ src.toNat + n ≤ dst.toNat) (hk : k < n) :
    (m.copyUp dst src n).bytes (dst + UInt32.ofNat k) = m.bytes (src + UInt32.ofNat k) := by
  induction n with
  | zero => omega
  | succ n ih =>
    have hd' := hd.mono (Nat.le_succ n)
    have hlast : (m.copyUp dst src n).bytes (src + UInt32.ofNat n) =
        m.bytes (src + UInt32.ofNat n) := by
      -- what is read now has not been stored to yet
      apply (copyUp_marks dst src n m).bytes _ hd'
      rw [block_has, hs.toNat_add (Nat.lt_succ_self n)]
      omega
    by_cases he : k = n
    · rw [he, ← hlast]
      exact update_self _ _ _
    · have hne : dst + UInt32.ofNat k ≠ dst + UInt32.ofNat n := by
        intro h'
        exact he (offset_inj hd hk (Nat.lt_succ_self n) h')
      rw [← ih hd' (hs.mono (Nat.le_succ n)) (by omega) (by omega)]
      exact store_bytes_of_ne hne

theorem copyDown_bytes (hd : Fits dst n) (hs : Fits src n) (h : src.toNat ≤ dst.toNat)
    (hk : k < n) :
    (m.copyDown dst src n).bytes (dst + UInt32.ofNat k) = m.bytes (src + UInt32.ofNat k) := by
  induction n generalizing m with
  | zero => omega
  | succ n ih =>
    have hd' := hd.mono (Nat.le_succ n)
    by_cases he : k = n
    · have hout : ¬ (block dst n).Has (dst + UInt32.ofNat n).toNat := by
        rw [block_has, hd.toNat_add (Nat.lt_succ_self n)]
        omega
      rw [he]
      refine ((copyDown_marks dst src n _).bytes _ hd' hout).trans ?_
      exact update_self _ _ _
    · have hne : src + UInt32.ofNat k ≠ dst + UInt32.ofNat n := by
        rw [Ne, ← UInt32.toNat_inj, hs.toNat_add hk, hd.toNat_add (Nat.lt_succ_self n)]
        omega
      refine (ih hd' (hs.mono (Nat.le_succ n)) (by omega)).trans ?_
      exact store_bytes_of_ne hne

theorem memmove_bytes {n : UInt32} (hd : Fits dst n.toNat) (hs : src.toNat + n.toNat < 2 ^ 32)
    (hk : k < n.toNat) :
    (m.memmove dst src n).bytes (dst + UInt32.ofNat k) = m.bytes (src + UInt32.ofNat k) := by
  have hsum : (src + n).toNat = src.toNat + n.toNat := by
    rw [UInt32.toNat_add]
    exact Nat.mod_eq_of_lt hs
  have hs : Fits src n.toNat := Nat.le_of_lt hs
  unfold memmove
  split_ifs with h
  · exact copyDown_bytes hd hs (Nat.le_of_lt (UInt32.lt_iff_toNat_lt.mp h.1)) hk
  · apply copyUp_bytes hd hs _ hk
    rw [gt_iff_lt, UInt32.lt_iff_toNat_lt, UInt32.lt_iff_toNat_lt, hsum] at h
    omega

/-- Only bytes of the block are stored to. -/
structure Within (a : UInt32) (n : ℕ) (m m' : Ram) : Prop where
  bytes : ∀ x, ¬ (block a n).Has x.toNat → m'.bytes x = m.bytes x
  stored : ∀ x, m'.stored x = true → m.stored x = true ∨ (block a n).Has x.toNat
  mono : ∀ x, m.stored x = true → m'.stored x = true

theorem Within.refl (a : UInt32) (n : ℕ) (m : Ram) : Within a n m m :=
  ⟨fun _ _ => rfl, fun _ h => .inl h, fun _ h => h⟩

theorem Within.trans {m'' : Ram} (h : Within a n m m') (h' : Within a n m' m'') :
    Within a n m m'' where
  bytes x hx := (h'.bytes x hx).trans (h.bytes x hx)
  stored x hx := (h'.stored x hx).elim (h.stored x) .inr
  mono x hx := h'.mono x (h.mono x hx)

theorem toNat_offset (hf : Fits a n) (hlen : 0 < len) (hoff : off + len ≤ n) :
    (a + UInt32.ofNat off).toNat = a.toNat + off :=
  hf.toNat_add (by omega)

theorem Marks.within (h : Marks (a + UInt32.ofNat off) len m m') (hf : Fits a n)
    (hoff : off + len ≤ n) : Within a n m m' := by
  by_cases hlen : len = 0
  · subst hlen
    have h0 : Fits (a + UInt32.ofNat off) 0 := Nat.le_of_lt (a + UInt32.ofNat off).toNat_lt
    refine ⟨fun x _ => h.bytes x h0 block_zero_has, fun x hx => .inl ?_, h.mono⟩
    exact ((h.stored h0 x).mp hx).resolve_right block_zero_has
  · have hnat := toNat_offset hf (Nat.pos_of_ne_zero hlen) hoff
    have hfit : Fits (a + UInt32.ofNat off) len := by
      unfold Fits at hf ⊢
      omega
    have hin : ∀ x : UInt32, (block (a + UInt32.ofNat off) len).Has x.toNat →
        (block a n).Has x.toNat := by
      intro x hx
      rw [block_has, hnat] at hx
      rw [block_has]
      omega
    refine ⟨fun x hx => h.bytes x hfit fun hb => hx (hin x hb), fun x hx => ?_, h.mono⟩
    exact ((h.stored hfit x).mp hx).imp_right (hin x)

theorem Marks.bytes_offset {src : ℕ → UInt8} (h : Marks (a + UInt32.ofNat off) len m m')
    (hf : Fits a n) (hoff : off + len ≤ n)
    (hsrc : ∀ j < len, m'.bytes (a + UInt32.ofNat off + UInt32.ofNat j) = src j) (hk : k < n) :
    m'.bytes (a + UInt32.ofNat k) =
      if off ≤ k ∧ k < off + len then src (k - off) else m.bytes (a + UInt32.ofNat k) := by
  by_cases hin : off ≤ k ∧ k < off + len
  · have hadd : a + UInt32.ofNat k = a + UInt32.ofNat off + UInt32.ofNat (k - off) := by
      rw [UInt32.add_assoc, ← UInt32.ofNat_add, Nat.add_sub_cancel' hin.1]
    rw [if_pos hin, hadd, hsrc _ (by omega)]
  · rw [if_neg hin]
    have hlen0 : len = 0 ∨ 0 < len := Nat.eq_zero_or_pos len
    rcases hlen0 with rfl | hlen
    · exact h.bytes _ (Nat.le_of_lt (UInt32.toNat_lt _)) block_zero_has
    · have hnat := toNat_offset hf hlen hoff
      apply h.bytes
      · unfold Fits at hf ⊢
        omega
      · rw [block_has, hnat, hf.toNat_add hk]
        omega

end Ram

end Xv6Shed
