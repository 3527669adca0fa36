import Xv6Shed.Contents

/-!
# Small disks

A disk of 64 blocks with seven inodes, for runs of the file system: block 2 has the inodes,
block 3 the bitmap, and the data blocks from 4 on are free. Only inode 1 is in use, and it
has no blocks.
-/

namespace Xv6Shed
open Function Bytes

variable {sb : Superblock} {disk : Disk} {d : Dinode}

/-- The bytes of a super block -/
def superBytes (size ninodes : ℕ) : Buffer :=
  patch (patch zeros 0 4 (putLE size)) 8 4 (putLE ninodes)

/-- The disk before an inode is in use -/
def blankDisk : Disk := fun b =>
  if b = 1 then superBytes 64 7 else if b = 3 then update zeros 0 15 else zeros

/-- The disk with inode 1 -/
def smallDisk (d : Dinode) : Disk := setDinode blankDisk 1 d

def smallSuper : Superblock := ⟨64, 7⟩

theorem volume_of_unused (hs : readsb disk = sb) (hr : ∀ b < sb.data, marked sb disk b = true)
    (hz : ∀ b, sb.data ≤ b → ∀ k < 512, disk b k = 0)
    (h0 : ∀ i, Live sb (dinode disk) i → ∀ j, (dinode disk i).addrs j = 0) :
    Volume sb (dinode disk) disk := by
  have hrefs : ∀ a, refOf sb (dinode disk) disk a = 0 := by
    rintro ⟨i, a⟩
    by_cases hl : Live sb (dinode disk) i
    · rw [refOf_eq hl]
      cases a with
      | addr j => rw [Dinode.ref, h0 i hl j]; rfl
      | entry j => exact Dinode.ref_entry_none (h0 i hl 12)
    · exact if_neg hl
  refine ⟨⟨hs, hr, ?_⟩, ⟨fun a ha => absurd (hrefs a) ha, fun a _ ha _ => absurd (hrefs a) ha⟩⟩
  intro b _ hf k hk
  refine hz b ?_ k hk
  by_contra hlt
  rw [hr b (by omega)] at hf
  cases hf

theorem dinode_smallDisk_of_ne {i : ℕ} (hi : i < 7) (h1 : i ≠ 1) :
    dinode (smallDisk d) i = Dinode.zero := by
  rw [smallDisk, dinode_setDinode_of_ne h1, dinode]
  have hb : blankDisk (IBLOCK i) = zeros := by
    have : IBLOCK i = 2 := by
      unfold IBLOCK
      omega
    rw [this]
    rfl
  rw [hb]
  rfl

theorem live_smallDisk {i : ℕ} (h : Live smallSuper (dinode (smallDisk d)) i) : i = 1 := by
  by_contra h1
  exact h.2 (by rw [dinode_smallDisk_of_ne h.1 h1]; rfl)

theorem volume_smallDisk (h0 : ∀ j, d.addrs j = 0) :
    Volume smallSuper (dinode (smallDisk d)) (smallDisk d) := by
  have hsame : ∀ b, b ≠ 2 → smallDisk d b = blankDisk b := fun b hb => setDinode_of_ne hb
  refine volume_of_unused ?_ ?_ ?_ ?_
  · unfold readsb
    rw [hsame 1 (by decide)]
    decide +kernel
  · intro b hb
    have hbb : BBLOCK b smallSuper.ninodes = 3 := by
      change b < 4 at hb
      unfold BBLOCK
      change b / 4096 + 0 + 3 = 3
      omega
    unfold marked
    rw [hbb, hsame 3 (by decide)]
    revert b
    decide +kernel
  · intro b hb k _
    change 4 ≤ b at hb
    rw [hsame b (by omega), blankDisk, if_neg (by omega), if_neg (by omega)]
    rfl
  · intro i hi j
    rw [live_smallDisk hi, smallDisk, dinode_setDinode]
    exact h0 j

end Xv6Shed
