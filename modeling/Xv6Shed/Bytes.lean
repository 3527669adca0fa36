import Mathlib.Tactic.Common
import Mathlib.Algebra.Group.Nat.Defs
import Mathlib.Data.UInt

/-!
# Objects in memory, byte by byte

A run of bytes is a function from offsets; nothing reads past the end of an object. Numbers
are stored with the low byte first. `patch` is `memmove` into part of an object, `first` a
search from an index on, and bits are numbered from the low bit of byte 0.
-/

namespace Xv6Shed.Bytes

abbrev Buffer := ℕ → UInt8

variable {b b' : Buffer} {off off' n x i y k j : ℕ} {test : ℕ → Bool}

def zeros : Buffer := fun _ => 0

/-- `memmove(dst + off, src, n)` -/
def patch (dst : Buffer) (off n : ℕ) (src : Buffer) : Buffer :=
  fun i => if off ≤ i ∧ i < off + n then src (i - off) else dst i

theorem patch_in (dst src : Buffer) (h : i < n) : patch dst off n src (off + i) = src i := by
  unfold patch
  rw [if_pos (by omega), Nat.add_sub_cancel_left]

theorem patch_out (dst src : Buffer) (h : i < off ∨ off + n ≤ i) :
    patch dst off n src i = dst i := by
  unfold patch
  rw [if_neg (by omega)]

@[simp] theorem patch_zero (dst : Buffer) (off : ℕ) (src : Buffer) : patch dst off 0 src = dst := by
  funext i
  exact patch_out dst src (by omega)

theorem patch_patch (dst : Buffer) (off m : ℕ) (src : Buffer) (h : m ≤ n) :
    patch (patch dst off m src) (off + m) (n - m) (fun i => src (i + m)) = patch dst off n src := by
  funext i
  unfold patch
  by_cases h₁ : off + m ≤ i ∧ i < off + m + (n - m)
  · rw [if_pos h₁, if_pos (by omega)]
    exact congrArg src (by omega)
  · rw [if_neg h₁]
    by_cases h₂ : off ≤ i ∧ i < off + m
    · rw [if_pos h₂, if_pos (by omega)]
    · rw [if_neg h₂, if_neg (by omega)]

/-- The number in `n` bytes at `off`. -/
def getLE : ℕ → Buffer → ℕ → ℕ
  | 0, _, _ => 0
  | n + 1, b, off => (b off).toNat + 256 * getLE n b (off + 1)

def putLE (x : ℕ) : Buffer := fun i => UInt8.ofNat (x / 256 ^ i)

theorem getLE_congr (h : ∀ i < n, b (off + i) = b' (off' + i)) :
    getLE n b off = getLE n b' off' := by
  induction n generalizing off off' with
  | zero => rfl
  | succ n ih =>
    have h₀ : b off = b' off' := h 0 (by omega)
    have h₁ : getLE n b (off + 1) = getLE n b' (off' + 1) := by
      apply ih
      intro i hi
      have := h (i + 1) (by omega)
      rwa [show off + 1 + i = off + (i + 1) by omega, show off' + 1 + i = off' + (i + 1) by omega]
    simp only [getLE, h₀, h₁]

theorem getLE_of_putLE (h : ∀ i < n, b (off + i) = putLE x i) :
    getLE n b off = x % 256 ^ n := by
  induction n generalizing off x with
  | zero => simp [getLE, Nat.mod_one]
  | succ n ih =>
    have h₀ : (b off).toNat = x % 256 := by
      have := h 0 (by omega)
      rw [Nat.add_zero] at this
      simp [this, putLE]
    have h₁ : getLE n b (off + 1) = x / 256 % 256 ^ n := by
      apply ih
      intro i hi
      have := h (i + 1) (by omega)
      rw [show off + 1 + i = off + (i + 1) by omega, this]
      unfold putLE
      rw [Nat.div_div_eq_div_mul, Nat.pow_succ, Nat.mul_comm]
    simp only [getLE, h₀, h₁]
    rw [Nat.pow_succ, Nat.mul_comm (256 ^ n) 256, Nat.mod_mul]

theorem getLE_lt (n : ℕ) (b : Buffer) (off : ℕ) : getLE n b off < 256 ^ n := by
  induction n generalizing off with
  | zero => simp [getLE]
  | succ n ih =>
    have hb := (b off).toNat_lt
    have := ih (off + 1)
    simp only [getLE, Nat.pow_succ]
    omega

theorem putLE_getLE (b : Buffer) (off : ℕ) (h : i < n) : putLE (getLE n b off) i = b (off + i) := by
  induction n generalizing off i with
  | zero => omega
  | succ n ih =>
    have hb := (b off).toNat_lt
    cases i with
    | zero =>
      have hmod : UInt8.ofNat (getLE (n + 1) b off) = UInt8.ofNat (b off).toNat := by
        apply UInt8.toNat_inj.mp
        simp only [getLE, UInt8.toNat_ofNat']
        omega
      simp only [putLE, Nat.pow_zero, Nat.div_one, hmod, UInt8.ofNat_toNat, Nat.add_zero]
    | succ i =>
      have hdiv : getLE (n + 1) b off / 256 = getLE n b (off + 1) := by
        simp only [getLE]
        omega
      have := ih (off + 1) (show i < n by omega)
      simp only [putLE] at this ⊢
      rw [Nat.pow_succ, Nat.mul_comm, ← Nat.div_div_eq_div_mul, hdiv, this]
      congr 1
      omega

theorem patch_getLE (b : Buffer) (off n : ℕ) : patch b off n (putLE (getLE n b off)) = b := by
  funext i
  by_cases h : off ≤ i ∧ i < off + n
  · obtain ⟨j, rfl⟩ := Nat.exists_eq_add_of_le h.1
    rw [patch_in _ _ (by omega), putLE_getLE b off (by omega)]
  · exact patch_out _ _ (by omega)

/-- A `ushort` -/
def get16 (b : Buffer) (off : ℕ) : UInt16 := UInt16.ofNat (getLE 2 b off)

/-- A `uint` -/
def get32 (b : Buffer) (off : ℕ) : UInt32 := UInt32.ofNat (getLE 4 b off)

theorem get16_congr (h : ∀ i < 2, b (off + i) = b' (off' + i)) : get16 b off = get16 b' off' := by
  unfold get16
  rw [getLE_congr h]

theorem get32_congr (h : ∀ i < 4, b (off + i) = b' (off' + i)) : get32 b off = get32 b' off' := by
  unfold get32
  rw [getLE_congr h]

theorem get16_of_putLE {x : UInt16} (h : ∀ i < 2, b (off + i) = putLE x.toNat i) :
    get16 b off = x := by
  have hx : x.toNat < 256 ^ 2 := x.toNat_lt
  unfold get16
  rw [getLE_of_putLE h, Nat.mod_eq_of_lt hx]
  exact UInt16.ofNat_toNat

theorem get32_of_putLE {x : UInt32} (h : ∀ i < 4, b (off + i) = putLE x.toNat i) :
    get32 b off = x := by
  have hx : x.toNat < 256 ^ 4 := x.toNat_lt
  unfold get32
  rw [getLE_of_putLE h, Nat.mod_eq_of_lt hx]
  exact UInt32.ofNat_toNat

theorem toNat_get16 (b : Buffer) (off : ℕ) : (get16 b off).toNat = getLE 2 b off :=
  UInt16.toNat_ofNat_of_lt' (getLE_lt 2 b off)

theorem toNat_get32 (b : Buffer) (off : ℕ) : (get32 b off).toNat = getLE 4 b off :=
  UInt32.toNat_ofNat_of_lt' (getLE_lt 4 b off)

@[simp] theorem get32_zeros (off : ℕ) : get32 zeros off = 0 := rfl

/-- Store a `uint`. -/
def put32 (b : Buffer) (off : ℕ) (x : UInt32) : Buffer := patch b off 4 (putLE x.toNat)

@[simp] theorem get32_put32 (b : Buffer) (off : ℕ) (x : UInt32) :
    get32 (put32 b off x) off = x := by
  apply get32_of_putLE
  intro i hi
  exact patch_in b _ hi

theorem get32_put32_of_ne {x : UInt32} (h : off' + 4 ≤ off ∨ off + 4 ≤ off') :
    get32 (put32 b off x) off' = get32 b off' := by
  apply get32_congr
  intro i hi
  exact patch_out b _ (by omega)

/-- Bit `i` -/
def bit (b : Buffer) (i : ℕ) : Bool := (b (i / 8)).toNat.testBit (i % 8)

/-- `data[i/8] |= 1 << (i % 8)` -/
def setBit (b : Buffer) (i : ℕ) : Buffer :=
  Function.update b (i / 8) (UInt8.ofNat ((b (i / 8)).toNat ||| 2 ^ (i % 8)))

/-- `data[i/8] &= ~(1 << (i % 8))` -/
def clearBit (b : Buffer) (i : ℕ) : Buffer :=
  Function.update b (i / 8) (UInt8.ofNat ((b (i / 8)).toNat &&& (255 - 2 ^ (i % 8))))

theorem testBit_ofNat (hk : k < 8) :
    (UInt8.ofNat y).toNat.testBit k = y.testBit k := by
  rw [UInt8.toNat_ofNat', Nat.testBit_mod_two_pow, decide_eq_true hk, Bool.true_and]

theorem bit_update_of_ne {y : UInt8} (h : j / 8 ≠ i / 8) :
    bit (Function.update b (i / 8) y) j = bit b j := by
  unfold bit
  rw [Function.update_of_ne h]

theorem bit_setBit (b : Buffer) (i j : ℕ) : bit (setBit b i) j = (decide (j = i) || bit b j) := by
  by_cases hj : j / 8 = i / 8
  · unfold bit setBit
    rw [hj, Function.update_self, testBit_ofNat (Nat.mod_lt _ (by omega)), Nat.testBit_or]
    by_cases hk : j % 8 = i % 8
    · have : j = i := by omega
      simp [this, Nat.testBit_two_pow_self]
    · have : j ≠ i := fun hji => hk (by rw [hji])
      rw [Nat.testBit_two_pow_of_ne (Ne.symm hk)]
      simp [this]
  · have : j ≠ i := fun hji => hj (by rw [hji])
    rw [setBit, bit_update_of_ne hj]
    simp [this]

theorem bit_clearBit (b : Buffer) (i j : ℕ) :
    bit (clearBit b i) j = (!decide (j = i) && bit b j) := by
  have hpow : 2 ^ (i % 8) < 2 ^ 8 := Nat.pow_lt_pow_right (by omega) (Nat.mod_lt _ (by omega))
  by_cases hj : j / 8 = i / 8
  · unfold bit clearBit
    have hmask : 255 - 2 ^ (i % 8) = 2 ^ 8 - (2 ^ (i % 8) + 1) := by omega
    rw [hj, Function.update_self, testBit_ofNat (Nat.mod_lt _ (by omega)), Nat.testBit_and, hmask,
      Nat.testBit_two_pow_sub_succ hpow, decide_eq_true (Nat.mod_lt _ (by omega)), Bool.true_and,
      Bool.and_comm]
    by_cases hk : j % 8 = i % 8
    · have : j = i := by omega
      simp [this, Nat.testBit_two_pow_self]
    · have : j ≠ i := fun hji => hk (by rw [hji])
      rw [Nat.testBit_two_pow_of_ne (Ne.symm hk)]
      simp [this]
  · have : j ≠ i := fun hji => hj (by rw [hji])
    rw [clearBit, bit_update_of_ne hj]
    simp [this]

theorem and_mask (hk : k ≤ 32) (hy : y < 2 ^ 32) :
    y &&& (2 ^ 32 - 2 ^ k) = y / 2 ^ k * 2 ^ k := by
  have hpos := Nat.two_pow_pos k
  have hpow : 2 ^ k - 1 < 2 ^ 32 := by
    have := Nat.pow_le_pow_right (show 0 < 2 by decide) hk
    omega
  have hsub : 2 ^ 32 - 2 ^ k = 2 ^ 32 - (2 ^ k - 1 + 1) := by omega
  apply Nat.eq_of_testBit_eq
  intro i
  rw [Nat.testBit_and, hsub, Nat.testBit_two_pow_sub_succ hpow, Nat.testBit_two_pow_sub_one,
    Nat.testBit_mul_two_pow, Nat.testBit_div_two_pow]
  by_cases hi : k ≤ i
  · by_cases h32 : i < 32
    · simp [hi, h32, Nat.sub_add_cancel hi]
    · have : y.testBit i = false :=
        Nat.testBit_lt_two_pow (hy.trans_le (Nat.pow_le_pow_right (by decide) (by omega)))
      simp [hi, Nat.sub_add_cancel hi, this]
  · have hlt : i < k := by omega
    simp [hi, hlt]

/-- The first index from `i` on, of `n`, that passes a test. -/
def first (test : ℕ → Bool) : ℕ → ℕ → Option ℕ
  | 0, _ => none
  | n + 1, i => if test i then some i else first test n (i + 1)

theorem first_eq_some (h : first test n i = some j) :
    i ≤ j ∧ j < i + n ∧ test j = true := by
  induction n generalizing i with
  | zero => cases h
  | succ n ih =>
    unfold first at h
    split_ifs at h with ht
    · cases h
      exact ⟨Nat.le_refl _, by omega, ht⟩
    · obtain ⟨h₁, h₂, h₃⟩ := ih h
      exact ⟨by omega, by omega, h₃⟩

theorem first_lt (h : first test n i = some k) (hi : i ≤ j) (hj : j < k) : test j = false := by
  induction n generalizing i with
  | zero => cases h
  | succ n ih =>
    unfold first at h
    split_ifs at h with ht
    · cases h
      omega
    · by_cases hij : i = j
      · rw [← hij]
        simpa using ht
      · exact ih h (by omega)

theorem first_of_least (hi : i ≤ k) (hk : k < i + n) (hlt : ∀ j, i ≤ j → j < k → test j = false)
    (ht : test k = true) : first test n i = some k := by
  induction n generalizing i with
  | zero => omega
  | succ n ih =>
    unfold first
    by_cases hik : i = k
    · rw [hik, if_pos ht]
    · rw [if_neg (by simp [hlt i (Nat.le_refl i) (by omega)])]
      exact ih (by omega) (by omega) fun j hj => hlt j (by omega)

theorem first_of_none (h : ∀ j, i ≤ j → j < i + n → test j = false) :
    first test n i = none := by
  induction n generalizing i with
  | zero => rfl
  | succ n ih =>
    unfold first
    rw [if_neg (by simp [h i (Nat.le_refl i) (by omega)])]
    exact ih fun j hj hj' => h j (by omega) (by omega)

theorem first_eq_none (h : first test n i = none) (hi : i ≤ j) (hj : j < i + n) :
    test j = false := by
  induction n generalizing i with
  | zero => omega
  | succ n ih =>
    unfold first at h
    split_ifs at h with ht
    by_cases hij : i = j
    · rw [← hij]
      simpa using ht
    · exact ih h (by omega) (by omega)

end Xv6Shed.Bytes
