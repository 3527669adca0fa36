import Xv6Shed.Image
import Xv6Shed.Transition

/-!
# Files are arrays of bytes

What `readi` and `writei` do, seen from outside: an inode has a list of bytes as long as its
size, of which they read and replace a part. The inodes as they stand are given by `V`, where
some may be in memory and some only on the disk.
-/

namespace Xv6Shed
open Function Bytes Transition

variable {NINODE n off : ℕ} {bits : UInt8} {block : Buffer}

/-- The bytes of a file up to its size -/
def content (d : Dinode) (disk : Disk) : List UInt8 := (List.range d.size.toNat).map (bytes d disk)

theorem map_range_congr {f g : ℕ → UInt8} (h : ∀ p < n, f p = g p) :
    (List.range n).map f = (List.range n).map g :=
  List.map_congr_left fun p hp => h p (List.mem_range.mp hp)

theorem map_range_patch (c src : Buffer) {m : ℕ} (hoff : off ≤ n) :
    (List.range (max n (off + m))).map (patch c off m src) =
      ((List.range n).map c).take off ++ (List.range m).map src ++
        ((List.range n).map c).drop (off + m) := by
  apply List.ext_getElem
  · simp
    omega
  · intro p h₁ h₂
    simp only [List.getElem_append, List.getElem_map, List.getElem_range, List.getElem_take,
      List.getElem_drop, List.length_append, List.length_take, List.length_map, List.length_range,
      patch]
    split_ifs <;> first | omega | rfl | (congr 1; omega)

theorem map_range_drop (c : Buffer) {r : ℕ} (h : off + r ≤ n) :
    (((List.range n).map c).drop off).take r = (List.range r).map fun p => c (off + p) := by
  apply List.ext_getElem
  · simp
    omega
  · intro p h₁ h₂
    simp

/-- `writei` replaces a part of the content of a file and may make it longer; `readi` delivers
a part of it, from blocks that are there. -/
theorem readi_writei_byte_array {sb : Superblock} {V : ℕ → Dinode} {s : Fs NINODE}
    {ip : Fin NINODE} {dev i off n : ℕ} (hdev : (s.icache ip).dev = dev)
    (hinum : (s.icache ip).inum = i) (hvol : Volume sb V (s.disk dev))
    (hmap : ∀ j, Live sb V j → Mapped (V j) (s.disk dev)) (hi : i < sb.ninodes)
    (hV : V i = (s.icache ip).d) (hsync : dinode (s.disk dev) i = (s.icache ip).d)
    (ht : (V i).type = T_FILE ∨ (V i).type = T_DIR) (hoff : off ≤ (V i).size.toNat)
    (hn : off + n < 2 ^ 32) (src : Buffer) (driver : ℤ) :
    (s.writei driver ip src off n = .error outOfBlocks ∨
      ∃ m s', s.writei driver ip src off n = .ok ((m : ℕ), s') ∧ m = min n (140 * 512 - off) ∧
        content (s'.icache ip).d (s'.disk dev) =
          (content (V i) (s.disk dev)).take off ++ (List.range m).map src ++
            (content (V i) (s.disk dev)).drop (off + m) ∧
        (s'.icache ip).d = { V i with
          size := UInt32.ofNat (max (V i).size.toNat (off + m)), addrs := (s'.icache ip).d.addrs } ∧
        dinode (s'.disk dev) i = (s'.icache ip).d ∧
        s'.icache = update s.icache ip { s.icache ip with d := (s'.icache ip).d } ∧
        (∀ j, Live sb V j → j ≠ i → Mapped (V j) (s'.disk dev) ∧
          content (V j) (s'.disk dev) = content (V j) (s.disk dev)) ∧
        (∀ j < sb.ninodes, j ≠ i → dinode (s'.disk dev) j = dinode (s.disk dev) j) ∧
        ∀ dev', dev' ≠ dev → s'.disk dev' = s.disk dev') ∧
    ∃ r dst, s.readi driver ip off n = .ok ((r : ℕ), dst) ∧
      r = min n ((V i).size.toNat - off) ∧
      (List.range r).map dst = ((content (V i) (s.disk dev)).drop off).take r ∧
      ∀ k, Fs.Spans off r k → blockOf (V i) (s.disk dev) k ≠ 0 ∧
        s.bmap false ip k = .ok (blockOf (V i) (s.disk dev) k, s) := by
  subst hdev
  have hl : Live sb V i := by
    refine ⟨hi, ?_⟩
    rcases ht with ht | ht <;> rw [ht] <;> decide
  have hdev : (V i).type ≠ T_DEV := by
    rcases ht with ht | ht <;> rw [ht] <;> decide
  have hm := hmap i hl
  have hsize := hm.size_le
  constructor
  · rcases (Fs.writei_meets hvol hV hinum hl hdev hm driver src (.inl hoff) hn).ok_or_error with
      ⟨e, he, rfl⟩ | ⟨_, hw, d', disk', rfl, hd⟩
    · exact .inl he
    · refine .inr ⟨_, _, hw, rfl, ?_, ?_, ?_, ?_, ?_, ?_, ?_⟩
      · rw [Fs.put_icache, Fs.put_disk]
        dsimp only
        unfold content
        rw [hd.size, hd.bytes, map_range_patch _ _ hoff]
      · rw [Fs.put_icache]
        dsimp only
        rw [← hd.size, UInt32.ofNat_toNat]
        exact hd.fields
      · rw [Fs.put_icache, Fs.put_disk]
        exact hd.synced (hsync.trans hV.symm)
      · rw [Fs.put_icache]
        rfl
      · intro j hj hji
        rw [Fs.put_disk]
        obtain ⟨hb, hc⟩ := hd.other j hji hj
        refine ⟨fun k hk => ?_, ?_⟩
        · rw [hb]
          exact hmap j hj k hk
        · unfold content
          rw [hc]
      · intro j hj hji
        rw [Fs.put_disk]
        exact hd.inodes j hj hji
      · intro dev' hdev'
        exact update_of_ne hdev' _ _
  · rw [hV] at hdev hm hoff hsize ⊢
    obtain ⟨dst, hr, hb⟩ := Fs.readi_ok hdev hm driver hoff hn
    refine ⟨_, dst, hr, rfl, ?_, ?_⟩
    · unfold content
      rw [map_range_drop _ (by omega)]
      exact map_range_congr hb
    · rintro k ⟨p, _, _, hp⟩
      have hk := hm k (by omega)
      exact ⟨hk, Fs.bmap_read hk⟩

/-- An empty file, in memory and locked -/
def emptyFile : Fs 1 :=
  ⟨fun _ => smallDisk { Dinode.zero with type := T_FILE, nlink := 1 },
    fun _ => ⟨1, 1, 1, true, true, { Dinode.zero with type := T_FILE, nlink := 1 }⟩⟩

theorem readi_writei_byte_array_empty_file :
    ∃ s', emptyFile.writei (-1) 0 (fun i => UInt8.ofNat (i + 1)) 0 3 = .ok (3, s') ∧
      content (s'.icache 0).d (s'.disk 1) = [1, 2, 3] := by
  have hd : dinode (emptyFile.disk 1) 1 = (emptyFile.icache 0).d := dinode_setDinode _ _ _
  have hmap : ∀ j, Live smallSuper (dinode (emptyFile.disk 1)) j →
      Mapped (dinode (emptyFile.disk 1) j) (emptyFile.disk 1) := by
    intro j hj
    rw [live_smallDisk hj, hd]
    decide
  have hdev : (emptyFile.icache 0).dev = 1 := rfl
  have hinum : (emptyFile.icache 0).inum = 1 := rfl
  have hvol : Volume smallSuper (dinode (emptyFile.disk 1)) (emptyFile.disk 1) :=
    volume_smallDisk fun _ => rfl
  have ht : (dinode (emptyFile.disk 1) 1).type = T_FILE := by
    rw [hd]
    rfl
  have hw := readi_writei_byte_array (n := 3) hdev hinum hvol hmap (by decide) hd hd (.inl ht)
    (Nat.zero_le _) (by decide) (fun i => UInt8.ofNat (i + 1)) (-1)
  rcases hw.1 with he | ⟨m, s', hs', rfl, hc, _⟩
  · have hok : (emptyFile.writei (-1) 0 (fun i => UInt8.ofNat (i + 1)) 0 3).toOption.isSome =
        true := by
      decide +kernel
    rw [he] at hok
    cases hok
  · refine ⟨s', hs', ?_⟩
    rw [hc, hd]
    decide

/-- A file of twelve blocks, 4 to 15 -/
def longFile : Dinode :=
  ⟨T_FILE, 0, 0, 1, 6144, fun j => if j < 12 then UInt32.ofNat (4 + j) else 0⟩

/-- A file of one block, 16 -/
def shortFile : Dinode := ⟨T_FILE, 0, 0, 1, 512, fun j => if j = 0 then 16 else 0⟩

/-- A disk with these files as inodes 1 and 2. The bitmap marks the blocks up to 15; `bits` are
the marks of the next ones, and `block` is what block 17 has. -/
def twoFiles (bits : UInt8) (block : Buffer) : Disk := fun b =>
  if b = 1 then superBytes 64 3
  else if b = 2 then shortFile.store (longFile.store zeros 64) 128
  else if b = 3 then fun i => if i < 2 then 255 else if i = 2 then bits else 0
  else if b = 17 then block else zeros

/-- The long file in memory and locked -/
def appending (bits : UInt8) (block : Buffer) : Fs 1 :=
  ⟨fun _ => twoFiles bits block, fun _ => ⟨1, 1, 1, true, true, longFile⟩⟩

theorem dinode_twoFiles (bits : UInt8) (block : Buffer) :
    dinode (twoFiles bits block) 1 = longFile ∧ dinode (twoFiles bits block) 2 = shortFile ∧
      dinode (twoFiles bits block) 0 = Dinode.zero := by
  have hb : ∀ i < 8, dinode (twoFiles bits block) i =
      .load (shortFile.store (longFile.store zeros 64) 128) (64 * (i % 8)) := by
    intro i hi
    have : IBLOCK i = 2 := by
      unfold IBLOCK
      omega
    rw [dinode, this]
    rfl
  refine ⟨?_, ?_, ?_⟩
  · rw [hb 1 (by omega)]
    have : Dinode.load (shortFile.store (longFile.store zeros 64) 128) 64 =
        .load (longFile.store zeros 64) 64 :=
      Dinode.load_congr fun k hk => Dinode.store_out _ (by omega)
    exact this.trans (Dinode.load_store _ _ _)
  · rw [hb 2 (by omega)]
    exact Dinode.load_store _ _ _
  · rw [hb 0 (by omega)]
    refine (Dinode.load_congr fun k hk => ?_ : _ = Dinode.load zeros 0)
    rw [Dinode.store_out _ (by omega), Dinode.store_out _ (by omega)]

theorem live_twoFiles {i : ℕ} (h : Live ⟨64, 3⟩ (dinode (twoFiles bits block)) i) :
    i = 1 ∨ i = 2 := by
  have hi : i < 3 := h.1
  by_contra hne
  have h0 : i = 0 := by omega
  rw [h0] at h
  exact h.2 (by rw [(dinode_twoFiles bits block).2.2]; rfl)

/-- Where the two files hold block `b` -/
def holder (b : ℕ) : ℕ × Place := if b < 16 then (1, .addr (Fin.ofNat 13 (b - 4))) else (2, .addr 0)

theorem holder_refOf (bits : UInt8) (block : Buffer) (a : ℕ × Place)
    (ha : refOf ⟨64, 3⟩ (dinode (twoFiles bits block)) (twoFiles bits block) a ≠ 0) :
    holder (refOf ⟨64, 3⟩ (dinode (twoFiles bits block)) (twoFiles bits block) a) = a := by
  have hlong : ∀ j, (longFile.addrs j).toNat ≠ 0 →
      holder (longFile.addrs j).toNat = (1, .addr j) := by decide
  have hshort : ∀ j, (shortFile.addrs j).toNat ≠ 0 →
      holder (shortFile.addrs j).toNat = (2, .addr j) := by decide
  obtain ⟨i, a⟩ := a
  have hl : Live ⟨64, 3⟩ (dinode (twoFiles bits block)) i := by
    by_contra hl
    exact ha (if_neg hl)
  obtain ⟨h1, h2, -⟩ := dinode_twoFiles bits block
  rw [refOf_eq hl] at ha ⊢
  rcases live_twoFiles hl with rfl | rfl
  · rw [h1] at ha ⊢
    cases a with
    | addr j => exact hlong j ha
    | entry j => exact absurd (Dinode.ref_entry_none rfl) ha
  · rw [h2] at ha ⊢
    cases a with
    | addr j => exact hshort j ha
    | entry j => exact absurd (Dinode.ref_entry_none rfl) ha

theorem unshared_twoFiles (bits : UInt8) (block : Buffer) :
    Allocated (refOf ⟨64, 3⟩ (dinode (twoFiles bits block)) (twoFiles bits block))
      fun _ => True where
  valid _ _ := trivial
  inj a c ha hac := by
    rw [← holder_refOf bits block a ha, hac, holder_refOf bits block c (hac ▸ ha)]

theorem mapped_twoFiles (bits : UInt8) (block : Buffer) (j : ℕ)
    (h : Live ⟨64, 3⟩ (dinode (twoFiles bits block)) j) :
    Mapped (dinode (twoFiles bits block) j) (twoFiles bits block) := by
  obtain ⟨h1, h2, -⟩ := dinode_twoFiles bits block
  rcases live_twoFiles h with rfl | rfl
  · have hlong : ∀ k < 12, (longFile.addrs (Fin.ofNat 13 k)).toNat ≠ 0 := by decide
    rw [h1]
    intro k hk
    change 512 * k < 6144 at hk
    rw [blockOf_eq (by omega), place, if_pos (by omega)]
    exact hlong k (by omega)
  · have hshort : (shortFile.addrs 0).toNat ≠ 0 := by decide
    rw [h2]
    intro k hk
    change 512 * k < 512 at hk
    have hk0 : k = 0 := by omega
    rw [hk0, blockOf_eq (by omega)]
    exact hshort

/-- No block is shared and all are mapped, inode 1 is in memory as it is on the disk, and a
write of one byte to its end changes byte 0 of inode 2. -/
structure SpoilsOther (s : Fs 1) : Prop where
  super : readsb (s.disk 1) = ⟨64, 3⟩
  unshared : Allocated (refOf ⟨64, 3⟩ (dinode (s.disk 1)) (s.disk 1)) fun _ => True
  mapped : ∀ j, Live ⟨64, 3⟩ (dinode (s.disk 1)) j → Mapped (dinode (s.disk 1) j) (s.disk 1)
  cached : (s.icache 0).dev = 1 ∧ (s.icache 0).inum = 1 ∧ (s.icache 0).d = dinode (s.disk 1) 1
  file : (dinode (s.disk 1) 1).type = T_FILE ∧ (dinode (s.disk 1) 1).size = 6144
  other : (dinode (s.disk 1) 2).type = T_FILE ∧ (dinode (s.disk 1) 2).size = 512
  spoils : ∃ s', s.writei (-1) 0 (fun _ => 7) 6144 1 = .ok (1, s') ∧
    bytes (dinode (s'.disk 1) 2) (s'.disk 1) 0 ≠ bytes (dinode (s.disk 1) 2) (s.disk 1) 0

theorem spoilsOther_appending
    (h : ((appending bits block).writei (-1) 0 (fun _ => 7) 6144 1).toOption.any (fun r =>
      decide (r.1 = 1) && bytes (dinode (r.2.disk 1) 2) (r.2.disk 1) 0 != 0) = true) :
    SpoilsOther (appending bits block) := by
  obtain ⟨h1, h2, -⟩ := dinode_twoFiles bits block
  refine ⟨?_, unshared_twoFiles bits block, mapped_twoFiles bits block,
    ⟨rfl, rfl, h1.symm⟩, ?_, ?_, ?_⟩
  · change readsb (twoFiles 0 zeros) = _
    decide
  · change (dinode (twoFiles bits block) 1).type = _ ∧ (dinode (twoFiles bits block) 1).size = _
    rw [h1]
    exact ⟨rfl, rfl⟩
  · change (dinode (twoFiles bits block) 2).type = _ ∧ (dinode (twoFiles bits block) 2).size = _
    rw [h2]
    exact ⟨rfl, rfl⟩
  · obtain ⟨⟨r, s'⟩, hr, hP⟩ := exists_ok_of_any h
    rw [Bool.and_eq_true, decide_eq_true_eq, bne_iff_ne] at hP
    obtain ⟨rfl, hne⟩ := hP
    refine ⟨s', hr, ?_⟩
    have h0 : bytes (dinode (twoFiles bits block) 2) (twoFiles bits block) 0 = 0 := by
      rw [h2]
      rfl
    exact h0.symm ▸ hne

/-- First, the bitmap is exact but the free block 17 has a block number in it; second, the
free blocks are zero but the bitmap lacks the mark of block 16. -/
theorem append_reaches_other_file :
    (SpoilsOther (appending 1 (put32 zeros 0 16)) ∧
      ∀ b < 64, marked ⟨64, 3⟩ ((appending 1 (put32 zeros 0 16)).disk 1) b = true ↔ b < 17) ∧
    SpoilsOther (appending 0 zeros) ∧
      ∀ b < 64, marked ⟨64, 3⟩ ((appending 0 zeros).disk 1) b = false →
        (appending 0 zeros).disk 1 b = zeros := by
  refine ⟨⟨spoilsOther_appending (by decide +kernel), by decide +kernel⟩,
    spoilsOther_appending (by decide +kernel), ?_⟩
  intro b _ hf
  have hmarked : ∀ b < 4, marked ⟨64, 3⟩ ((appending 0 zeros).disk 1) b = true := by decide +kernel
  have hb : ¬b < 4 := by
    intro hb
    rw [hmarked b hb] at hf
    cases hf
  change twoFiles 0 zeros b = zeros
  rw [twoFiles, if_neg (by omega), if_neg (by omega), if_neg (by omega), ite_self]

end Xv6Shed
