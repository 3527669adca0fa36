import Mathlib.Tactic.Simps.Basic
import Xv6Shed.Bytes

/-!
# The format of the disk

The structures of `fs.h` and where a file system keeps them: the super block, the table of
inodes, the bitmap of blocks in use, indirect blocks and directory entries. A `short` is
kept as its 16 bits: values from 32768 on are negative. The constants of `fs.h` are written
as numbers: `BSIZE` is 512, `NDIRECT` 12, `NINDIRECT` 128, `MAXFILE` 140, `IPB` 8, `BPB` 4096
and `DIRSIZ` 14.
-/

namespace Xv6Shed
open Function Bytes

abbrev T_DIR : UInt16 := 1
abbrev T_FILE : UInt16 := 2
abbrev T_DEV : UInt16 := 3

/-- The sectors of one disk. -/
abbrev Disk := ℕ → Buffer

/-- `struct superblock`; nothing reads `nblocks` -/
structure Superblock where
  size : ℕ
  ninodes : ℕ
  deriving DecidableEq

def readsb (disk : Disk) : Superblock := ⟨getLE 4 (disk 1) 0, getLE 4 (disk 1) 8⟩

/-- Block containing inode i -/
def IBLOCK (i : ℕ) : ℕ := i / 8 + 2

/-- Block containing bit for block b -/
def BBLOCK (b ninodes : ℕ) : ℕ := b / 4096 + ninodes / 8 + 3

instance neZero_addrs : NeZero 13 := ⟨by decide⟩

instance neZero_entries : NeZero 128 := ⟨by decide⟩

/-- `struct dinode` -/
@[ext] structure Dinode where
  type : UInt16
  major : UInt16
  minor : UInt16
  nlink : UInt16
  size : UInt32
  addrs : Fin 13 → UInt32

namespace Dinode

/-- A free inode, cleared -/
def zero : Dinode := ⟨0, 0, 0, 0, 0, fun _ => 0⟩

/-- The inode at offset `off` of a block -/
def load (b : Buffer) (off : ℕ) : Dinode where
  type := get16 b off
  major := get16 b (off + 2)
  minor := get16 b (off + 4)
  nlink := get16 b (off + 6)
  size := get32 b (off + 8)
  addrs j := get32 b (off + 12 + 4 * j.val)

/-- The bytes of `addrs` -/
def addrBytes (addrs : Fin 13 → UInt32) : Buffer :=
  fun i => putLE (addrs (Fin.ofNat 13 (i / 4))).toNat (i % 4)

/-- Assign all fields of the inode at offset `off` of a block. -/
def store (b : Buffer) (off : ℕ) (d : Dinode) : Buffer :=
  let b := patch b off 2 (putLE d.type.toNat)
  let b := patch b (off + 2) 2 (putLE d.major.toNat)
  let b := patch b (off + 4) 2 (putLE d.minor.toNat)
  let b := patch b (off + 6) 2 (putLE d.nlink.toNat)
  let b := patch b (off + 8) 4 (putLE d.size.toNat)
  patch b (off + 12) 52 (addrBytes d.addrs)

theorem store_out {b : Buffer} {off i : ℕ} (d : Dinode) (h : i < off ∨ off + 64 ≤ i) :
    store b off d i = b i := by
  unfold store
  rw [patch_out _ _ (by omega), patch_out _ _ (by omega), patch_out _ _ (by omega),
    patch_out _ _ (by omega), patch_out _ _ (by omega), patch_out _ _ (by omega)]

theorem load_store (b : Buffer) (off : ℕ) (d : Dinode) : load (store b off d) off = d := by
  unfold load store
  simp only
  ext1
  · apply get16_of_putLE
    intro i hi
    rw [patch_out _ _ (by omega), patch_out _ _ (by omega), patch_out _ _ (by omega),
      patch_out _ _ (by omega), patch_out _ _ (by omega), patch_in _ _ hi]
  · apply get16_of_putLE
    intro i hi
    rw [patch_out _ _ (by omega), patch_out _ _ (by omega), patch_out _ _ (by omega),
      patch_out _ _ (by omega), patch_in _ _ hi]
  · apply get16_of_putLE
    intro i hi
    rw [patch_out _ _ (by omega), patch_out _ _ (by omega), patch_out _ _ (by omega),
      patch_in _ _ hi]
  · apply get16_of_putLE
    intro i hi
    rw [patch_out _ _ (by omega), patch_out _ _ (by omega), patch_in _ _ hi]
  · apply get32_of_putLE
    intro i hi
    rw [patch_out _ _ (by omega), patch_in _ _ hi]
  · funext j
    apply get32_of_putLE
    intro i hi
    have hj := j.isLt
    rw [Nat.add_assoc (off + 12), patch_in _ _ (by omega)]
    unfold addrBytes
    have hdiv : (4 * j.val + i) / 4 = j.val := by omega
    have hmod : (4 * j.val + i) % 4 = i := by omega
    rw [hdiv, hmod]
    congr 3
    exact Fin.ext (Nat.mod_eq_of_lt hj)

theorem store_store (b : Buffer) (off : ℕ) (d d' : Dinode) :
    store (store b off d) off d' = store b off d' := by
  funext i
  by_cases h : i < off ∨ off + 64 ≤ i
  · rw [store_out _ h, store_out _ h, store_out _ h]
  · have hover : ∀ {x y : Buffer} {o n : ℕ} (z : Buffer), i < o + n → (i < o → x i = y i) →
        patch x o n z i = patch y o n z i := by
      intro x y o n z hi hxy
      unfold patch
      by_cases hin : o ≤ i ∧ i < o + n
      · rw [if_pos hin, if_pos hin]
      · rw [if_neg hin, if_neg hin]
        exact hxy (by omega)
    -- each field in turn either covers the byte or leaves it to the fields before
    unfold store
    refine hover _ (by omega) fun h₁ => ?_
    refine hover _ (by omega) fun h₂ => ?_
    refine hover _ (by omega) fun h₃ => ?_
    refine hover _ (by omega) fun h₄ => ?_
    refine hover _ (by omega) fun h₅ => ?_
    exact hover _ (by omega) fun h₆ => by omega

theorem store_load (b : Buffer) (off : ℕ) : store b off (load b off) = b := by
  have haddrs : patch b (off + 12) 52 (addrBytes (load b off).addrs) = b := by
    funext i
    by_cases h : off + 12 ≤ i ∧ i < off + 12 + 52
    · obtain ⟨j, rfl⟩ := Nat.exists_eq_add_of_le h.1
      have hj : j / 4 % 13 = j / 4 := Nat.mod_eq_of_lt (by omega)
      rw [patch_in _ _ (by omega)]
      simp only [addrBytes, load, Fin.ofNat, toNat_get32, hj]
      rw [putLE_getLE b _ (Nat.mod_lt j (by decide))]
      congr 1
      omega
    · exact patch_out _ _ (by omega)
  unfold store
  dsimp only
  rw [show (load b off).type.toNat = getLE 2 b off from toNat_get16 b off, patch_getLE,
    show (load b off).major.toNat = getLE 2 b (off + 2) from toNat_get16 b _, patch_getLE,
    show (load b off).minor.toNat = getLE 2 b (off + 4) from toNat_get16 b _, patch_getLE,
    show (load b off).nlink.toNat = getLE 2 b (off + 6) from toNat_get16 b _, patch_getLE,
    show (load b off).size.toNat = getLE 4 b (off + 8) from toNat_get32 b _, patch_getLE, haddrs]

theorem load_congr {b b' : Buffer} {off off' : ℕ} (h : ∀ i < 64, b (off + i) = b' (off' + i)) :
    load b off = load b' off' := by
  unfold load
  ext1
  · exact get16_congr fun i hi => h i (by omega)
  · exact get16_congr fun i hi => by simpa only [Nat.add_assoc] using h (2 + i) (by omega)
  · exact get16_congr fun i hi => by simpa only [Nat.add_assoc] using h (4 + i) (by omega)
  · exact get16_congr fun i hi => by simpa only [Nat.add_assoc] using h (6 + i) (by omega)
  · exact get32_congr fun i hi => by simpa only [Nat.add_assoc] using h (8 + i) (by omega)
  · funext j
    have hj := j.isLt
    exact get32_congr fun i hi => by
      simpa only [Nat.add_assoc] using h (12 + (4 * j.val + i)) (by omega)

end Dinode

variable {disk : Disk} {i j b k : ℕ} {d : Dinode} {x : Buffer}

/-- Inode `i` as the disk has it -/
def dinode (disk : Disk) (i : ℕ) : Dinode := .load (disk (IBLOCK i)) (64 * (i % 8))

/-- Store to inode `i` on the disk. -/
def setDinode (disk : Disk) (i : ℕ) (d : Dinode) : Disk :=
  update disk (IBLOCK i) (d.store (disk (IBLOCK i)) (64 * (i % 8)))

@[simp] theorem dinode_setDinode (disk : Disk) (i : ℕ) (d : Dinode) :
    dinode (setDinode disk i d) i = d := by
  unfold dinode setDinode
  rw [update_self, Dinode.load_store]

theorem dinode_setDinode_of_ne (h : j ≠ i) : dinode (setDinode disk i d) j = dinode disk j := by
  unfold dinode setDinode
  by_cases hb : IBLOCK j = IBLOCK i
  · rw [hb, update_self]
    apply Dinode.load_congr
    intro k hk
    apply Dinode.store_out
    unfold IBLOCK at hb
    omega
  · rw [update_of_ne hb]

@[simp] theorem setDinode_setDinode (disk : Disk) (i : ℕ) (d d' : Dinode) :
    setDinode (setDinode disk i d) i d' = setDinode disk i d' := by
  unfold setDinode
  rw [update_self, Dinode.store_store, update_idem]

@[simp] theorem setDinode_dinode (disk : Disk) (i : ℕ) :
    setDinode disk i (dinode disk i) = disk := by
  unfold setDinode dinode
  rw [Dinode.store_load, update_eq_self]

theorem dinode_update_of_ne (h : b ≠ IBLOCK j) : dinode (update disk b x) j = dinode disk j := by
  unfold dinode
  rw [update_of_ne (Ne.symm h)]

theorem setDinode_of_ne (h : b ≠ IBLOCK i) : setDinode disk i d b = disk b := by
  unfold setDinode
  rw [update_of_ne h]

variable {sb : Superblock}

/-- Block `b` is in use. -/
def marked (sb : Superblock) (disk : Disk) (b : ℕ) : Bool :=
  bit (disk (BBLOCK b sb.ninodes)) (b % 4096)

/-- Mark block `b` in use on disk. -/
def mark (sb : Superblock) (disk : Disk) (b : ℕ) : Disk :=
  update disk (BBLOCK b sb.ninodes) (setBit (disk (BBLOCK b sb.ninodes)) (b % 4096))

/-- Mark block `b` free on disk. -/
def unmark (sb : Superblock) (disk : Disk) (b : ℕ) : Disk :=
  update disk (BBLOCK b sb.ninodes) (clearBit (disk (BBLOCK b sb.ninodes)) (b % 4096))

theorem BBLOCK_inj {n : ℕ} (h : BBLOCK i n = BBLOCK j n) (hm : i % 4096 = j % 4096) : i = j := by
  unfold BBLOCK at h
  omega

theorem marked_mark (sb : Superblock) (disk : Disk) (b c : ℕ) :
    marked sb (mark sb disk b) c = (decide (c = b) || marked sb disk c) := by
  unfold marked mark
  by_cases hb : BBLOCK c sb.ninodes = BBLOCK b sb.ninodes
  · rw [hb, update_self, bit_setBit]
    have : decide (c % 4096 = b % 4096) = decide (c = b) := by
      rw [decide_eq_decide]
      exact ⟨BBLOCK_inj hb, fun h => by rw [h]⟩
    rw [this]
  · rw [update_of_ne hb]
    have : c ≠ b := fun h => hb (by rw [h])
    simp [this]

theorem marked_unmark (sb : Superblock) (disk : Disk) (b c : ℕ) :
    marked sb (unmark sb disk b) c = (!decide (c = b) && marked sb disk c) := by
  unfold marked unmark
  by_cases hb : BBLOCK c sb.ninodes = BBLOCK b sb.ninodes
  · rw [hb, update_self, bit_clearBit]
    have : decide (c % 4096 = b % 4096) = decide (c = b) := by
      rw [decide_eq_decide]
      exact ⟨BBLOCK_inj hb, fun h => by rw [h]⟩
    rw [this]
  · rw [update_of_ne hb]
    have : c ≠ b := fun h => hb (by rw [h])
    simp [this]

theorem marked_update_of_ne {c : ℕ} (h : b ≠ BBLOCK c sb.ninodes) :
    marked sb (update disk b x) c = marked sb disk c := by
  unfold marked
  rw [update_of_ne (Ne.symm h)]

/-- Entry `j` of an indirect block -/
def entry (x : Buffer) (j : ℕ) : UInt32 := get32 x (4 * j)

/-- A place that holds a block number: a word of `addrs` or an entry of the indirect block -/
inductive Place where
  | addr (j : Fin 13)
  | entry (j : Fin 128)
  deriving DecidableEq

/-- The block number in a place, 0 if there is none -/
def Dinode.ref (d : Dinode) (disk : Disk) : Place → ℕ
  | .addr j => (d.addrs j).toNat
  | .entry j => if d.addrs 12 = 0 then 0 else (Xv6Shed.entry (disk (d.addrs 12).toNat) j.val).toNat

/-- Store to a word of `addrs`. -/
@[simps] def Dinode.setAddr (j : Fin 13) (a : UInt32) (d : Dinode) : Dinode :=
  { d with addrs := update d.addrs j a }

/-- The place of block `k` of a file -/
def place (k : ℕ) : Place :=
  if k < 12 then .addr (Fin.ofNat 13 k) else .entry (Fin.ofNat 128 (k - 12))

/-- The number of block `k` of a file, 0 if it has none -/
def blockOf (d : Dinode) (disk : Disk) (k : ℕ) : ℕ := if k < 140 then d.ref disk (place k) else 0

/-- Byte `p` of a file; blocks that are not there read as zeros. -/
def bytes (d : Dinode) (disk : Disk) (p : ℕ) : UInt8 :=
  if blockOf d disk (p / 512) = 0 then 0 else disk (blockOf d disk (p / 512)) (p % 512)

/-- The string in `n` bytes at `off`, which ends at the first zero byte -/
def cstr : ℕ → Buffer → ℕ → List UInt8
  | 0, _, _ => []
  | n + 1, x, off => if x off = 0 then [] else x off :: cstr n x (off + 1)

/-- `struct dirent`, with the name as a string -/
@[ext] structure Dirent where
  inum : UInt16
  name : List UInt8
  deriving DecidableEq

namespace Dirent

/-- The entry at offset `off` -/
def load (x : Buffer) (off : ℕ) : Dirent := ⟨get16 x off, cstr 14 x (off + 2)⟩

/-- The bytes of an entry; `strncpy` fills the name up with zeros. -/
def bytes (de : Dirent) : Buffer :=
  fun i => if i < 2 then putLE de.inum.toNat i else de.name.getD (i - 2) 0

def zero : Dirent := ⟨0, []⟩

end Dirent

theorem cstr_congr {x y : Buffer} {n off off' : ℕ} (h : ∀ i < n, x (off + i) = y (off' + i)) :
    cstr n x off = cstr n y off' := by
  induction n generalizing off off' with
  | zero => rfl
  | succ n ih =>
    have h₀ : x off = y off' := h 0 (by omega)
    have h₁ : cstr n x (off + 1) = cstr n y (off' + 1) := by
      apply ih
      intro i hi
      have := h (i + 1) (by omega)
      rwa [show off + 1 + i = off + (i + 1) by omega, show off' + 1 + i = off' + (i + 1) by omega]
    simp only [cstr, h₀, h₁]

theorem cstr_of_getD {name : List UInt8} {n off : ℕ} (hz : 0 ∉ name)
    (h : ∀ i < n, x (off + i) = name.getD i 0) : cstr n x off = name.take n := by
  induction n generalizing name off with
  | zero => simp [cstr]
  | succ n ih =>
    have h₀ := h 0 (by omega)
    cases name with
    | nil =>
      have h₀' : x off = 0 := h₀
      simp [cstr, h₀']
    | cons c name =>
      have h₀' : x off = c := h₀
      have hc : c ≠ 0 := fun hc => hz (by simp [hc])
      have h₁ : cstr n x (off + 1) = name.take n := by
        apply ih (fun hm => hz (List.mem_cons_of_mem c hm))
        intro i hi
        have := h (i + 1) (by omega)
        rw [show off + 1 + i = off + (i + 1) by omega, this]
        rfl
      simp [cstr, h₀', hc, h₁]

namespace Dirent

theorem load_congr {x y : Buffer} {off off' : ℕ} (h : ∀ i < 16, x (off + i) = y (off' + i)) :
    load x off = load y off' := by
  unfold load
  ext1
  · exact get16_congr fun i hi => h i (by omega)
  · exact cstr_congr fun i hi => by simpa only [Nat.add_assoc] using h (2 + i) (by omega)

theorem load_bytes {de : Dirent} {off : ℕ} (hz : 0 ∉ de.name)
    (h : ∀ i < 16, x (off + i) = de.bytes i) : load x off = ⟨de.inum, de.name.take 14⟩ := by
  unfold load
  ext1
  · apply get16_of_putLE
    intro i hi
    rw [h i (by omega), bytes, if_pos hi]
  · apply cstr_of_getD hz
    intro i hi
    have := h (2 + i) (by omega)
    rw [Nat.add_assoc, this, bytes, if_neg (by omega), Nat.add_sub_cancel_left]

end Dirent

end Xv6Shed
