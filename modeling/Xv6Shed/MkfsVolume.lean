import Xv6Shed.Consistency
import Xv6Shed.MkfsFiles

/-!
# Images as file systems

`mkfs` rounds the size of the root up to the next block. When the entries fill their last block,
the root gets a block more in its size than it has: `bmap` returns -1 for it and the kernel reads
the sector with that number. In all other cases the image is one that the kernel keeps in order.
-/

namespace Xv6Shed
open Function Bytes Transition Evaluation

variable {NINODE NFILE NOFILE : ℕ} {P : Type} {sb : Superblock} {disk disk' : Disk}

section Agree

variable (h : Healthy sb disk)
  (hsame : ∀ b < sb.blocks, marked sb disk b = true → disk' b = disk b)
  (hdata : sb.data ≤ sb.blocks) {i : ℕ}

include h hsame hdata

theorem reserved_of_agree {b : ℕ} (hb : b < sb.data) : disk' b = disk b :=
  hsame b (hb.trans_le hdata) (h.volume.reserved b hb)

theorem dinode_of_agree (hi : i < sb.ninodes) : dinode disk' i = dinode disk i := by
  unfold dinode
  rw [reserved_of_agree h hsame hdata (Superblock.IBLOCK_lt hi)]

theorem marked_of_agree {b : ℕ} (hb : b < sb.blocks) : marked sb disk' b = marked sb disk b := by
  unfold marked
  rw [reserved_of_agree h hsame hdata (Superblock.BBLOCK_lt hb)]

theorem live_of_agree : Live sb (dinode disk') i ↔ Live sb (dinode disk) i := by
  refine and_congr_right fun hi => ?_
  rw [dinode_of_agree h hsame hdata hi]

/-- What the kernel needs of a disk are the sectors that the bitmap marks, and that the others
it has bits for are zero. -/
theorem Healthy.of_agree
    (hfree : ∀ b < sb.blocks, marked sb disk b = false → ∀ k < 512, disk' b k = 0) :
    Healthy sb disk' := by
  have hlive : ∀ i, Live sb (dinode disk') i ↔ Live sb (dinode disk) i :=
    fun i => live_of_agree h hsame hdata
  have hused : ∀ b, InUse sb disk b → disk' b = disk b := fun b hb => hsame b hb.2.1 hb.2.2
  have href : ∀ i, Live sb (dinode disk) i → ∀ a,
      (dinode disk' i).ref disk' a = (dinode disk i).ref disk a := by
    intro i hi a
    rw [dinode_of_agree h hsame hdata hi.1]
    exact Dinode.ref_congr fun h12 => hused _ (h.volume.indirect_inUse hi h12)
  have hrefs : refOf sb (dinode disk') disk' = refOf sb (dinode disk) disk :=
    refOf_congr hlive href
  have hblock : ∀ i, Live sb (dinode disk) i → ∀ k,
      blockOf (dinode disk' i) disk' k = blockOf (dinode disk i) disk k :=
    fun i hi => blockOf_congr (href i hi)
  refine ⟨⟨⟨?_, fun b hb => ?_, fun b hb hf k hk => ?_⟩, ?_⟩, fun i hi k hk => ?_,
    fun j hj k hk => ?_⟩
  · unfold readsb
    rw [reserved_of_agree h hsame hdata sb.one_lt_data]
    exact h.volume.super
  · rw [marked_of_agree h hsame hdata (hb.trans_le hdata)]
    exact h.volume.reserved b hb
  · rw [marked_of_agree h hsame hdata hb] at hf
    exact hfree b hb hf k hk
  · rw [hrefs]
    refine h.volume.refs.mono fun a _ hv => ⟨hv.1, hv.2.1, ?_⟩
    rw [marked_of_agree h hsame hdata hv.2.1]
    exact hv.2.2
  · have hi' := (hlive i).mp hi
    rw [hblock i hi']
    rw [dinode_of_agree h hsame hdata hi.1] at hk
    exact h.mapped i hi' k hk
  · have hd := dinode_of_agree h hsame hdata hj.1
    have hj' : IsDir sb disk j := ⟨hj.1, hd ▸ hj.2⟩
    have hbytes : bytes (dinode disk' j) disk' = bytes (dinode disk j) disk := by
      refine bytes_congr (hblock j hj'.live) fun k hk p _ => ?_
      rw [hused _ (blockOf_inUse h.volume hj'.live hk)]
    have hent : (dinode disk' j).ent disk' k = (dinode disk j).ent disk k := by
      rw [Dinode.ent, Dinode.ent, hbytes]
    rw [hent]
    exact h.range j hj' k hk

end Agree

namespace Mkfs

variable {es : List (ℕ × List UInt8)} {contents : List (List UInt8)} {files : List InputFile}
  {rest : Buffer} {k : Files NINODE NFILE NOFILE P}

section

variable (h : Finished disk es contents)
include h

theorem Finished.live {i : ℕ} (hi : Live super (dinode disk) i) :
    i = 1 ∨ ∃ k < contents.length, i = k + 2 := by
  have hlt : i < 200 := hi.1
  by_cases h1 : i = 1
  · exact .inl h1
  · have h0 : i ≠ 0 := fun h0 => hi.2 (h0 ▸ h.zero)
    have hend : i < contents.length + 2 := by
      by_contra hge
      exact hi.2 (h.unused i (by omega) hlt)
    exact .inr ⟨i - 2, by omega, by omega⟩

theorem Finished.mapped_iff :
    (∀ i, Live super (dinode disk) i → Mapped (dinode disk i) disk) ↔ es.length % 32 ≠ 0 := by
  have hsize := h.root.size
  constructor
  · intro hall hmod
    have hl : Live super (dinode disk) 1 := ⟨by decide, by rw [h.root.type]; decide⟩
    refine hall 1 hl (16 * es.length / 512) (by omega) (h.root.ends _ (by omega))
  · intro hmod i hi
    rcases h.live hi with rfl | ⟨k, hk, rfl⟩
    · intro k hk
      exact h.root.mapped k (by omega)
    · exact (h.file k hk).mapped

theorem Finished.exactBitmap : ExactBitmap super disk := by
  refine ⟨h.volume.super, fun b hb => ⟨fun hm => ?_, ?_⟩⟩
  · rcases h.marked b hb hm with hlt | ⟨i, a, hi, ha⟩
    · exact .inl hlt
    · by_cases h0 : b = 0
      · exact .inl (by rw [h0]; decide)
      · exact .inr ⟨h0, i, a, hi, ha⟩
  · rintro (hlt | ⟨h0, i, a, hi, rfl⟩)
    · exact h.volume.reserved b hlt
    · exact (h.volume.live_ref hi h0).2.2

theorem Finished.ent_zero {q : ℕ} (hq : es.length ≤ q) : ((dinode disk 1).ent disk q).inum = 0 := by
  have hzero : ∀ p < 2, bytes (dinode disk 1) disk (16 * q + p) = zeros (0 + p) := by
    intro p _
    rw [h.root.bytes, List.getD_eq_default _ _ (by rw [length_dirBytes]; omega)]
    rfl
  change get16 _ _ = 0
  rw [get16_congr hzero]
  rfl

theorem Finished.past_zero (b : ℕ) (hb : b < super.blocks) (hge : super.size ≤ b) (p : ℕ)
    (hp : p < 512) : disk b p = 0 :=
  h.volume.free b hb (h.few b hb ((show 512 ≤ super.size by decide).trans hge)) p hp

end

theorem length_entries : (dots ++ entriesFrom 2 files).length = files.length + 2 := by
  rw [List.length_append, length_entriesFrom]
  exact Nat.add_comm 2 _

theorem Finished.isDir (h : Finished disk es contents) {j : ℕ} : IsDir super disk j ↔ j = 1 := by
  constructor
  · intro hj
    rcases h.live hj.live with h1 | ⟨q, hq, rfl⟩
    · exact h1
    · exact absurd ((h.file q hq).type.symm.trans hj.2) (by decide)
  · rintro rfl
    exact ⟨by decide, h.root.type⟩

theorem Finished.inum_ent (hlen : files.length ≤ 198)
    (h : Finished disk (dots ++ entriesFrom 2 files) contents) (q : ℕ) :
    ((dinode disk 1).ent disk q).inum.toNat =
      if q < 2 then 1 else if q < files.length + 2 then q else 0 := by
  match q with
  | 0 | 1 =>
    rw [h.root.ent rfl (by decide)]
    rfl
  | q + 2 =>
    rw [if_neg (by omega)]
    by_cases hq : q < files.length
    · rw [h.root.ent (by rw [getElem?_entries, List.getElem?_eq_getElem hq, Option.map_some])
        (zero_notMem_name _), if_pos (by omega)]
      exact UInt16.toNat_ofNat_of_lt' (by rw [UInt16.size]; omega)
    · rw [h.ent_zero (by rw [length_entries]; omega), if_neg (by omega)]
      rfl

theorem healthy_of_main (hlen : files.length ≤ 198) (hm : main rest files = some disk)
    (hmod : (files.length + 2) % 32 ≠ 0) :
    Healthy super disk := by
  have h := main_image hlen hm
  refine ⟨h.volume, h.mapped_iff.mpr (by rwa [length_entries]), fun j hj q _ => ?_⟩
  rw [h.isDir.mp hj, h.inum_ent hlen]
  change _ < 200
  split_ifs <;> omega

/-- What is asked of an image: inodes in use are mapped up to their sizes, no block is referenced
twice, and the bitmap marks the blocks before the data and the referenced blocks. -/
structure WellFormed (disk : Disk) : Prop where
  mapped : ∀ i, Live super (dinode disk) i → Mapped (dinode disk i) disk
  unshared : Unshared super disk
  bitmap : ExactBitmap super disk

/-- `dirlookup` and `dirlink` look for block `k` of a directory only if its size reaches there: then
`bmap` does not return -1. -/
def NoHole (s : Fs NINODE) (ip : Fin NINODE) : Prop :=
  ∀ k, 512 * k < (s.icache ip).d.size.toNat → ∃ b, s.bmap false ip k = .ok (b, s) ∧ b ≠ Fs.unmapped

variable [DecidableEq P] [Fintype P]

omit [DecidableEq P] in
theorem noHole_of_sound (h : k.Sound .blocks super) {ip : Fin NINODE} (hip : ip ∈ k.pointers)
    (hv : (k.fs.icache ip).valid = true) :
    NoHole k.fs ip := by
  intro n hn
  have hcopy := h.inv.copy ip hip hv
  have hdev := h.inv.dev ip hip
  have hl : Live super (dinode (k.fs.disk 1)) (k.fs.icache ip).inum :=
    ⟨h.inv.range ip hip, h.inv.live ip hip hv⟩
  have haddrs : (k.fs.icache ip).d.addrs = (k.fs.onDisk ip).addrs := by rw [hcopy]
  have hsize : (k.fs.icache ip).d.size = (k.fs.onDisk ip).size := by rw [hcopy]
  have hblock : blockOf (k.fs.icache ip).d (k.fs.disk 1) n =
      blockOf (k.fs.onDisk ip) (k.fs.disk 1) n :=
    blockOf_congr (fun _ => Dinode.ref_congr_addrs haddrs) n
  have h0 : blockOf (k.fs.onDisk ip) (k.fs.disk 1) n ≠ 0 :=
    h.inv.healthy.mapped _ hl n (hsize ▸ hn)
  have hin := blockOf_inUse h.inv.healthy.volume hl h0
  refine ⟨_, Fs.bmap_read (by rw [hdev, hblock]; exact h0), ?_⟩
  rw [hdev, hblock]
  have hlt : blockOf (k.fs.onDisk ip) (k.fs.disk 1) n < 4096 := hin.2.1
  unfold Fs.unmapped
  omega

/-- After the sectors of an image the disk may go on, with sectors that are zero. -/
theorem sound_of_main (hlen : files.length ≤ 198) (hm : main rest files = some disk)
    (hmod : (files.length + 2) % 32 ≠ 0) {d : ℕ → Disk} (hd : ∀ b < super.size, d 1 b = disk b)
    (hpast : ∀ b < super.blocks, super.size ≤ b → ∀ p < 512, d 1 b p = 0)
    (hr : Reach Files.Step (Files.boot d) k) :
    k.Sound .blocks super := by
  have hh := healthy_of_main hlen hm hmod
  have hfew := (main_image hlen hm).few
  have h : Healthy super (d 1) := by
    refine hh.of_agree (fun b hb hmark => hd b ?_) (by decide) fun b hb hfree p hp => ?_
    · change b < 1024
      by_contra hge
      rw [hfew b hb (by omega)] at hmark
      cases hmark
    · by_cases hlt : b < super.size
      · rw [hd b hlt]
        exact hh.volume.free b hb hfree p hp
      · exact hpast b hb (Nat.le_of_not_lt hlt) p hp
  refine hr.invariant (Files.sound_boot h (by decide) (fun hm => absurd rfl hm) nofun) ?_
  intro k a k' hk hs
  exact hk.step (fun hm => absurd rfl hm) nofun hs

/-- An image is well-formed, and stays without holes in every run of calls, if and only if the
entries of its root do not fill their last block. -/
theorem wellFormed_iff_of_main {rest : Buffer} (hlen : files.length ≤ 198)
    (hm : main rest files = some disk) :
    (WellFormed disk ∧ ∀ k : Files NINODE NFILE NOFILE P,
      Reach Files.Step (Files.boot fun _ => disk) k →
      ∀ ip ∈ k.pointers, (k.fs.icache ip).valid = true → NoHole k.fs ip) ↔
      (files.length + 2) % 32 ≠ 0 := by
  have h := main_image hlen hm
  have hes : (dots ++ entriesFrom 2 files).length = files.length + 2 := by
    rw [List.length_append, length_entriesFrom]
    exact Nat.add_comm 2 _
  constructor
  · intro hw
    exact hes ▸ h.mapped_iff.mp hw.1.mapped
  · intro hmod
    have hh := healthy_of_main hlen hm hmod
    exact ⟨⟨hh.mapped, hh.unshared, h.exactBitmap⟩, fun k hr ip hip hv =>
      noHole_of_sound (sound_of_main hlen hm hmod (fun _ _ => rfl) h.past_zero hr) hip hv⟩

theorem wellFormed_oneByte : ∃ disk, main (fun _ => 0) [oneByte] = some disk ∧ WellFormed disk ∧
    ∀ k : SmallFiles, Reach Files.Step (Files.boot fun _ => disk) k → ∀ ip ∈ k.pointers,
      (k.fs.icache ip).valid = true → NoHole k.fs ip := by
  have hsome : (main (fun _ => 0) [oneByte]).isSome = true := by decide +kernel
  obtain ⟨disk, hm⟩ := Option.isSome_iff_exists.mp hsome
  exact ⟨disk, hm, (wellFormed_iff_of_main (by decide) hm).mpr (by decide)⟩

/-- In every run from an image without a hole, free blocks are zero; so an indirect block that
`bmap` allocates lists no blocks, and a new block of a directory has no entries. The sectors that
`balloc` hands out on a full disk, past the image, have to be there and to be zero at the start. -/
theorem free_zero_of_reach {rest : Buffer} (hlen : files.length ≤ 198)
    (hm : main rest files = some disk) (hmod : (files.length + 2) % 32 ≠ 0) {d : ℕ → Disk}
    (hd : ∀ b < super.size, d 1 b = disk b)
    (hpast : ∀ b < super.blocks, super.size ≤ b → ∀ p < 512, d 1 b p = 0)
    {k : Files NINODE NFILE NOFILE P} (hr : Reach Files.Step (Files.boot d) k) :
    (∀ b < super.size, marked super (k.fs.disk 1) b = false → ∀ p < 512, k.fs.disk 1 b p = 0) ∧
    ∀ ip ∈ k.pointers, (k.fs.icache ip).valid = true →
      (∀ s', (k.fs.icache ip).d.addrs 12 = 0 → k.fs.loadIndirect ip = .ok s' →
        ∀ j < 128, entry (s'.disk 1 ((s'.icache ip).d.addrs 12).toNat) j = 0) ∧
      ∀ n < 140, ∀ b s', blockOf (k.fs.icache ip).d (k.fs.disk 1) n = 0 →
        k.fs.bmap true ip n = .ok (b, s') →
        ∀ e < 32, (Dirent.load (s'.disk 1 b) (16 * e)).inum = 0 := by
  have h := sound_of_main hlen hm hmod hd hpast hr
  have hvol := h.inv.healthy.volume
  refine ⟨fun b hb hf => hvol.free b (hb.trans (by decide)) hf, fun ip hip hv => ?_⟩
  have hdev := h.inv.dev ip hip
  have hl : Live super (dinode (k.fs.disk 1)) (k.fs.icache ip).inum :=
    ⟨h.inv.range ip hip, h.inv.live ip hip hv⟩
  have hcopy := h.inv.copy ip hip hv
  have ht : (k.fs.icache ip).d.type ≠ 0 := by
    rw [hcopy]
    exact hl.2
  have hvol' : Volume super (update (dinode (k.fs.disk 1)) (k.fs.icache ip).inum (k.fs.icache ip).d)
      (k.fs.disk 1) := hvol.fields hl (by rw [hcopy]; rfl) ht
  have hself : k.fs.put ip (k.fs.icache ip).d (k.fs.disk 1) = k.fs := by
    have := k.fs.put_self ip
    rwa [hdev] at this
  constructor
  · intro s' h12 hload j hj
    have hmeets := Fs.put_balloc hvol' k.fs ip
    rw [hself] at hmeets
    unfold Fs.loadIndirect at hload
    rw [if_pos h12] at hload
    rcases hmeets.ok_or_error with ⟨e, he, -⟩ | ⟨⟨b, s₁⟩, hok, hb, hf, hs₁⟩
    · rw [he] at hload
      cases hload
    · dsimp only at hb hf hs₁
      subst hs₁
      rw [hok, ok_bind] at hload
      cases hload
      rw [Fs.put_setAddr, Fs.put_icache, ← hdev, Fs.put_disk, Dinode.setAddr_addrs, update_self,
        hvol.toNat_ofNat hb, hdev]
      exact entry_zero hj (hvol.mark_fresh hb hf).2.zero
  · intro n hn b s' h0 hmap e he
    have hmeets := Fs.bmap_meets hvol' hl.1 ht k.fs ip hn
    rw [hself] at hmeets
    obtain ⟨d', disk', hs', -, hbytes, hb, hb0, -⟩ := hmeets.of_ok hmap
    dsimp only at hs' hb hb0
    have hzero : ∀ p < 512, disk' b p = zeros p := by
      intro p hp
      have hdiv : (512 * n + p) / 512 = n := by omega
      have hmod : (512 * n + p) % 512 = p := by omega
      have := congrFun hbytes (512 * n + p)
      rwa [bytes, bytes, hdiv, hmod, if_pos h0, if_neg (hb ▸ hb0), ← hb] at this
    rw [hs', ← hdev, Fs.put_disk, Dirent.load_congr fun p hp => hzero (16 * e + p) (by omega)]
    rfl

/-- After `start`: the root is the current directory. -/
def started (disk : ℕ → Disk) : SmallFiles where
  fs := ⟨disk, update (fun _ => Files.unusedInode) 0 ⟨1, 1, 1, false, false, .zero⟩⟩
  file _ := ⟨.closed, 0, false, false, none, 0⟩
  task := update (fun _ => none) 0 (some ⟨fun _ => none, some 0⟩)
  log := []

theorem start_boot (disk : ℕ → Disk) :
    (Files.boot disk : SmallFiles).exec 0 .start = .ok (0, started disk) := by
  rfl

/-- What calls on `/b` look at: the superblock, inodes 1 and 3, the bitmap and the root -/
def looked : List (ℕ × ℕ × ℕ) := [(1, 0, 12), (2, 64, 16), (2, 192, 64), (28, 0, 8), (29, 0, 64)]

/-- A file is created, written and removed: its block is in use, then free and zero again. -/
theorem free_zero_oneByte : ∃ disk, main (fun _ => 0) [oneByte] = some disk ∧ ∃ k k' : SmallFiles,
    Reach Files.Step (Files.boot fun _ => disk) k ∧ marked super (k.fs.disk 1) 31 = true ∧
    k.fs.disk 1 31 0 = 65 ∧ Reach Files.Step k k' ∧ marked super (k'.fs.disk 1) 31 = false ∧
    ∀ b < super.size, marked super (k'.fs.disk 1) b = false → ∀ p < 512, k'.fs.disk 1 b p = 0 := by
  have hrun : ((main (fun _ => 0) [oneByte]).any fun disk =>
      ([(0, .start), (0, .openFile [47, 98] 0x201), (0, .write 0 (fun _ => 65) 1 0)].foldlM
        (Files.script (fun _ _ => true) looked)
        (Files.boot fun _ => disk : SmallFiles)).any fun k =>
      decide ((marked super (k.fs.disk 1) 31 = true ∧ k.fs.disk 1 31 0 = 65) ∧
        ([(0, .unlink [47, 98]), (0, .close 0)].foldlM
          (Files.script (fun _ _ => true) looked) k).any
          (fun k' => decide (marked super (k'.fs.disk 1) 31 = false)) = true)) = true := by
    decide +kernel
  obtain ⟨disk, hm⟩ : ∃ disk, main (fun _ => 0) [oneByte] = some disk := by
    cases h : main (fun _ => 0) [oneByte] with
    | none =>
      rw [h] at hrun
      cases hrun
    | some disk => exact ⟨disk, rfl⟩
  rw [hm, Option.any_some] at hrun
  obtain ⟨k, hr, ⟨hmark, hbyte⟩, hrest⟩ := Files.exists_reach_of_script (fun _ _ => true)
    (fun _ _ _ _ hs => hs) looked _ hrun
  obtain ⟨k', hr', hfree⟩ := Files.exists_reach_of_script (fun _ _ => true)
    (fun _ _ _ _ hs => hs) looked _ hrest
  have hzero := (free_zero_of_reach (by decide) hm (by decide) (fun _ _ => rfl)
    (main_image (by decide) hm).past_zero (hr.trans hr')).1
  exact ⟨disk, hm, k, k', hr, hmark, hbyte, hr', hfree, hzero⟩

theorem Finished.names_eq (hlen : files.length ≤ 198)
    (h : Finished disk (dots ++ entriesFrom 2 files) contents) {i : ℕ} (h0 : i ≠ 0)
    (hi : i < files.length + 2) :
    names super.ninodes maxEntries (graph super disk).entry i = if i = 1 then 0 else 1 := by
  have hroot : ∀ {j q}, (graph super disk).entry j q = i → j = 1 :=
    fun he => h.isDir.mp (isDir_of_entry (he.trans_ne h0)).1
  split_ifs with h1
  · exact names_eq_zero_iff.mpr fun j _ q _ he => (hroot he).trans h1.symm
  · have hin : i < maxEntries := by
      change i < 4480
      omega
    have hentry : ∀ q < maxEntries, (graph super disk).entry 1 q = i ↔ q = i := by
      intro q hq
      rw [graph_entry (h.isDir.mpr rfl) hq, h.inum_ent hlen]
      split_ifs <;> omega
    unfold names
    rw [Finset.sum_eq_single 1, Finset.sum_eq_single i, if_pos ⟨Ne.symm h1, (hentry i hin).mpr rfl⟩]
    · exact fun q hq hne => if_neg fun he => hne ((hentry q (Finset.mem_range.mp hq)).mp he.2)
    · exact fun hn => absurd (Finset.mem_range.mpr hin) hn
    · exact fun j _ hne => Finset.sum_eq_zero fun q _ => if_neg fun he => hne (hroot he.2)
    · exact fun hn => absurd (Finset.mem_range.mpr (by decide)) hn

theorem precise_of_main (hlen : files.length ≤ 198) (hm : main rest files = some disk)
    (hmod : (files.length + 2) % 32 ≠ 0) : PreciseImage super disk := by
  have h := main_image hlen hm
  have hfile : ∀ q < files.length, HasFile disk (q + 2) T_FILE _ :=
    fun q hq => h.file q (by rwa [List.length_map])
  have hlive : ∀ i, i ≠ 0 → i < files.length + 2 → Live super (dinode disk) i := by
    intro i h0 hi
    match i with
    | 0 => exact absurd rfl h0
    | 1 => exact (h.isDir.mpr rfl).live
    | q + 2 =>
      refine ⟨show q + 2 < 200 by omega, ?_⟩
      rw [(hfile q (by omega)).type]
      decide
  have hnlink : ∀ i, Live super (dinode disk) i → i ≠ 0 ∧ i < files.length + 2 ∧
      (dinode disk i).nlink = 1 := by
    intro i hi
    rcases h.live hi with rfl | ⟨q, hq, rfl⟩
    · exact ⟨by decide, by omega, h.root.nlink⟩
    · rw [List.length_map] at hq
      exact ⟨by omega, by omega, (hfile q hq).nlink⟩
  have htidy : Tidy super disk := by
    refine ⟨fun j hj q hq => ?_, fun j hj h1 => absurd (h.isDir.mp hj) h1⟩
    rw [h.isDir.mp hj, h.root.size] at hq
    rw [h.isDir.mp hj]
    exact h.ent_zero (by omega)
  refine ⟨⟨healthy_of_main hlen hm hmod, by decide, hlive 1 (by decide) (by omega), h.zero,
    fun j hj q _ hq => ?_, fun i hi => ?_⟩, htidy, fun i hi h1 => ?_, fun i hi => ?_⟩
  · rw [h.isDir.mp hj] at hq ⊢
    refine hlive _ (fun h0 => hq (UInt16.toNat_inj.mp h0)) ?_
    rw [h.inum_ent hlen]
    split_ifs <;> omega
  · obtain ⟨h0, hlt, hn⟩ := hnlink i hi
    rw [h.names_eq hlen h0 hlt, hn]
    split_ifs <;> decide
  · obtain ⟨h0, hlt, hn⟩ := hnlink i hi
    rw [htidy.namesOf_eq h0 h1, h.names_eq hlen h0 hlt, hn, if_neg h1]
    rfl
  · rw [(hnlink i hi).2.2]
    decide

/-- The kernel's invariants of names and link counts hold on an image if and only if the entries of
its root do not fill their last block. -/
theorem precise_iff_of_main {rest : Buffer} (hlen : files.length ≤ 198)
    (hm : main rest files = some disk) :
    PreciseImage super disk ↔ (files.length + 2) % 32 ≠ 0 := by
  refine ⟨fun hp => ?_, precise_of_main hlen hm⟩
  have := (main_image hlen hm).mapped_iff.mp hp.healthy.mapped
  rwa [length_entries] at this

theorem precise_oneByte : ∃ disk, main (fun _ => 0) [oneByte] = some disk ∧
    PreciseImage super disk := by
  have hsome : (main (fun _ => 0) [oneByte]).isSome = true := by decide +kernel
  obtain ⟨disk, hm⟩ := Option.isSome_iff_exists.mp hsome
  exact ⟨disk, hm, (precise_iff_of_main (by decide) hm).mpr (by decide)⟩

/-- A file as the bytes of an inode: its block is block 600 -/
def forged : Dinode := ⟨T_FILE, 0, 0, 1, 1, update (fun _ => 0) 0 600⟩

/-- The root in memory, with two references and locked -/
def rootLocked (disk : ℕ → Disk) : Fs 3 :=
  ((started disk).fs.setInode 0 ⟨1, 1, 2, false, false, .zero⟩).setInode 0
    ⟨1, 1, 2, true, true, dinode (disk 1) 1⟩

/-- What `namei` leaves: the root is not locked any more, and the file is new. -/
def fileFound (disk : ℕ → Disk) : Fs 3 :=
  (((rootLocked disk).setInode 1 ⟨1, 224, 1, false, false, .zero⟩).setInode 0
    ⟨1, 1, 2, false, true, dinode (disk 1) 1⟩).setInode 0 ⟨1, 1, 1, false, true, dinode (disk 1) 1⟩

theorem dirScan_hole {disk : ℕ → Disk} (h0 : (dinode (disk 1) 1).addrs 0 = 29)
    (h1 : (dinode (disk 1) 1).addrs 1 = 0)
    (hscan : ∀ q < 32, (Dirent.load (disk 1 29) (16 * q)).name ≠ [33])
    (hhole : disk 1 Fs.unmapped = Dirent.bytes ⟨224, [33]⟩) :
    (rootLocked disk).dirScan 0 [33] 2 0 = .ok (some (512, 224)) := by
  have hx : (rootLocked disk).icache 0 = ⟨1, 1, 2, true, true, dinode (disk 1) 1⟩ := rfl
  have hdisk : (rootLocked disk).disk = disk := rfl
  have hmap0 : (rootLocked disk).bmap false 0 0 = .ok (29, rootLocked disk) := by
    unfold Fs.bmap
    rw [hx]
    dsimp only
    rw [if_pos (by decide), show Fin.ofNat 13 0 = 0 from rfl, h0, if_pos (by decide)]
    rfl
  have hmap1 : (rootLocked disk).bmap false 0 1 = .ok (Fs.unmapped, rootLocked disk) := by
    unfold Fs.bmap
    rw [hx]
    dsimp only
    rw [if_pos (by decide), show Fin.ofNat 13 1 = 1 from rfl, h1, if_neg (by decide), if_pos rfl]
    rfl
  have hfirst : Bytes.first (fun q => (Dirent.load (disk 1 29) (16 * q)).inum != 0 &&
      (Dirent.load (disk 1 29) (16 * q)).name == [33]) 32 0 = none := by
    refine first_of_none fun q _ hq => ?_
    rw [beq_eq_false_iff_ne.mpr (hscan q (by omega)), Bool.and_false]
  unfold Fs.dirScan
  rw [hmap0, ok_bind]
  dsimp only
  rw [hx, hdisk]
  dsimp only
  rw [hfirst]
  dsimp only
  unfold Fs.dirScan
  rw [hmap1, ok_bind]
  dsimp only
  rw [hx, hdisk]
  dsimp only
  rw [hhole]
  rfl

theorem namei_hole {disk : ℕ → Disk} (ht : (dinode (disk 1) 1).type = T_DIR)
    (hsize : (dinode (disk 1) 1).size = 1024)
    (hscan : (rootLocked disk).dirScan 0 [33] 2 0 = .ok (some (512, 224))) :
    (started disk).fs.namei (some 0) [47, 33] = .ok (some 1, fileFound disk) := by
  have hget : (started disk).fs.iget 1 1 =
      .ok (0, (started disk).fs.setInode 0 ⟨1, 1, 2, false, false, .zero⟩) := rfl
  have hlock : ((started disk).fs.setInode 0 ⟨1, 1, 2, false, false, .zero⟩).ilock 0 =
      .ok (rootLocked disk) := by
    unfold Fs.ilock
    rw [show ((started disk).fs.setInode 0 ⟨1, 1, 2, false, false, .zero⟩).icache 0 =
      ⟨1, 1, 2, false, false, .zero⟩ from rfl]
    dsimp only
    rw [if_neg (by decide), if_neg (by decide), if_neg (by decide),
      show ((started disk).fs.setInode 0 ⟨1, 1, 2, false, false, .zero⟩).disk 1 = disk 1 from rfl,
      ht, if_neg (by decide)]
    rfl
  have hx : (rootLocked disk).icache 0 = ⟨1, 1, 2, true, true, dinode (disk 1) 1⟩ := rfl
  have hlookup : (rootLocked disk).dirlookup 0 [33] =
      .ok (some (1, 512), (rootLocked disk).setInode 1 ⟨1, 224, 1, false, false, .zero⟩) := by
    unfold Fs.dirlookup
    rw [hx]
    dsimp only
    rw [if_neg (not_not.mpr ht), hsize, show ((1024 : UInt32).toNat + 511) / 512 = 2 from rfl,
      hscan, ok_bind]
    rfl
  have hput : ((rootLocked disk).setInode 1 ⟨1, 224, 1, false, false, .zero⟩).iunlockput 0 =
      .ok (fileFound disk) := rfl
  unfold Fs.namei Fs.nameiFrom
  rw [if_pos (show [47, 33].headD 0 = Fs.slash from rfl), hget, ok_bind]
  dsimp only
  unfold Fs.nameiLoop
  rw [show Fs.skipelem [47, 33] = some ([], [33]) by decide]
  dsimp only
  rw [hlock, ok_bind, hx]
  dsimp only
  rw [if_neg (not_not.mpr ht), if_neg (by simp), hlookup, ok_bind]
  dsimp only
  rw [hput, ok_bind]
  rfl

theorem open_hole {disk : ℕ → Disk}
    (h : (started disk).fs.namei (some 0) [47, 33] = .ok (some 1, fileFound disk))
    (hf : dinode (disk 1) 224 = forged) :
    ∃ k, (started disk).exec 0 (.openFile [47, 33] 1) = .ok (0, k) ∧
    k.fs.disk = disk ∧ k.fs.icache 1 = ⟨1, 224, 1, false, true, forged⟩ ∧
    k.file 0 = ⟨.inode, 1, false, true, some 1, 0⟩ ∧
    k.task 0 = some ⟨update (fun _ => none) 0 (some 0), some 0⟩ := by
  have hlock : (fileFound disk).ilock 1 =
      .ok ((fileFound disk).setInode 1 ⟨1, 224, 1, true, true, forged⟩) := by
    unfold Fs.ilock
    rw [show (fileFound disk).icache 1 = ⟨1, 224, 1, false, false, .zero⟩ from rfl]
    dsimp only
    rw [if_neg (by decide), if_neg (by decide), if_neg (by decide),
      show (fileFound disk).disk 1 = disk 1 from rfl, hf, if_neg (by decide)]
    rfl
  have hopen : (started disk).fs.openInode (some 0) [47, 33] 1 =
      .ok (some 1, (fileFound disk).setInode 1 ⟨1, 224, 1, true, true, forged⟩) := by
    unfold Fs.openInode
    rw [if_neg (by decide), h, ok_bind]
    dsimp only
    rw [hlock, ok_bind]
    rfl
  have hcall : (started disk).exec 0 (.openFile [47, 33] 1) =
      (started disk).sysOpen 0 ⟨fun _ => none, some 0⟩ [47, 33] 1 := rfl
  rw [hcall, Files.sysOpen, hopen, ok_bind]
  exact ⟨_, rfl, rfl, rfl, rfl, rfl⟩

theorem write_hole {k : SmallFiles} (hi : k.fs.icache 1 = ⟨1, 224, 1, false, true, forged⟩)
    (hf : k.file 0 = ⟨.inode, 1, false, true, some 1, 0⟩)
    (ht : k.task 0 = some ⟨update (fun _ => none) 0 (some 0), some 0⟩) (src : Buffer) :
    ∃ k', k.exec 0 (.write 0 src 1 0) = .ok (1, k') ∧
      k'.fs.disk 1 = update (k.fs.disk 1) 600 (patch (k.fs.disk 1 600) 0 1 src) := by
  have hcall : k.exec 0 (.write 0 src 1 0) = k.filewrite 0 0 src 1 := by
    unfold Files.exec
    rw [ht]
    rfl
  have hlock : k.fs.ilock 1 = .ok (k.fs.setInode 1 ⟨1, 224, 1, true, true, forged⟩) := by
    unfold Fs.ilock
    rw [hi]
    rfl
  have hwrite : (k.fs.setInode 1 ⟨1, 224, 1, true, true, forged⟩).writei 0 1 src 0 1 =
      .ok (1, (k.fs.setInode 1 ⟨1, 224, 1, true, true, forged⟩).bwrite 1 600
        (patch (k.fs.disk 1 600) 0 1 src)) := rfl
  rw [hcall, Files.filewrite, hf]
  dsimp only
  rw [if_neg (by decide)]
  simp only [deref, hlock, ok_bind, hwrite]
  exact ⟨_, rfl, rfl⟩
/-- Evaluate parts of the image and the counters. -/
def freeze {β : Type} (l : List (ℕ × ℕ × ℕ)) (m : Mkfs) (f : Mkfs → β) : β :=
  freezeDisk l m.disk fun disk =>
  force m.freeinode fun freeinode => force m.freeblock fun freeblock =>
  force m.usedblocks fun usedblocks => f ⟨disk, freeinode, freeblock, usedblocks⟩

theorem freeze_eq {β : Type} (l : List (ℕ × ℕ × ℕ)) (m : Mkfs) (f : Mkfs → β) :
    m.freeze l f = f m := by
  unfold freeze
  rw [freezeDisk_eq, force_eq, force_eq, force_eq]

/-- `main`, with parts of the image evaluated after each file -/
def mainFrozen (l : List (ℕ × ℕ × ℕ)) (rest : Buffer) (files : List InputFile) : Option Disk := do
  let m ← (blank rest).makeRoot
  let m ← files.foldlM (fun m f => (m.addFile f).bind fun m => m.freeze l some) m
  let m ← m.fixRoot
  let m ← m.balloc m.usedblocks
  some m.disk

theorem mainFrozen_eq (l : List (ℕ × ℕ × ℕ)) (rest : Buffer) (files : List InputFile) :
    mainFrozen l rest files = main rest files := by
  have hfold : (fun (m : Mkfs) f => (m.addFile f).bind fun m => m.freeze l some) = addFile := by
    funext m f
    simp only [freeze_eq]
    cases m.addFile f <;> rfl
  rw [mainFrozen, hfold]
  rfl

/-- A file whose name is one letter; the first one has the bytes of an inode. -/
def letter (k : ℕ) : InputFile where
  arg := [UInt8.ofNat (97 + k % 30)]
  reads := if k = 0 then [(List.range 64).map (forged.store zeros 0)] else []
  no_zero := by
    intro h
    have := congrArg UInt8.toNat (List.mem_singleton.mp h)
    rw [UInt8.toNat_ofNat'] at this
    change 0 = _ at this
    omega
  ne_nil l hl := by
    split_ifs at hl
    · rw [List.mem_singleton.mp hl]
      simp
    · cases hl
  length_le l hl := by
    split_ifs at hl
    · rw [List.mem_singleton.mp hl]
      simp
    · cases hl

/-- Thirty files: with `.` and `..` their entries fill a block. -/
def thirty : List InputFile := (List.range 30).map letter

theorem main_thirty : ∃ disk, main zeros thirty = some disk ∧
    (dinode disk 1).addrs 0 = 29 ∧ (dinode disk 2).addrs 0 = 30 := by
  have h : (mainFrozen [(2, 64, 16), (2, 128, 16)] zeros thirty).any (fun disk =>
      decide ((dinode disk 1).addrs 0 = 29 ∧ (dinode disk 2).addrs 0 = 30)) = true := by
    decide +kernel
  rw [mainFrozen_eq, Option.any_eq_true] at h
  obtain ⟨disk, hm, hd⟩ := h
  exact ⟨disk, hm, of_decide_eq_true hd⟩

section Thirty

variable {image : Disk} (hm : main zeros thirty = some image)

include hm

theorem finished_thirty :
    Finished image (dots ++ entriesFrom 2 thirty) (thirty.map InputFile.bytes) :=
  main_image (by decide) hm

theorem root_thirty : (dinode image 1).type = T_DIR ∧ (dinode image 1).size = 1024 ∧
    (dinode image 1).addrs 1 = 0 := by
  have h := (finished_thirty hm).root
  refine ⟨h.type, UInt32.toNat_inj.mp h.size, ?_⟩
  have := h.ends 1 (by decide)
  exact UInt32.toNat_inj.mp this

theorem names_thirty (h0 : (dinode image 1).addrs 0 = 29) {q : ℕ} (hq : q < 32) :
    (Dirent.load (image 29) (16 * q)).name ≠ [33] := by
  have h := (finished_thirty hm).root
  have hbytes : ∀ p < 512, bytes (dinode image 1) image p = image 29 p := by
    intro p hp
    have hb : blockOf (dinode image 1) image 0 = 29 := by
      change ((dinode image 1).addrs 0).toNat = 29
      rw [h0]
      rfl
    rw [bytes, Nat.div_eq_of_lt hp, Nat.mod_eq_of_lt hp, hb]
    rfl
  have hload : Dirent.load (image 29) (16 * q) = (dinode image 1).ent image q :=
    Dirent.load_congr fun p hp => (hbytes (16 * q + p) (by omega)).symm
  have hnames : ∀ q < 32, ∀ e, (dots ++ entriesFrom 2 thirty)[q]? = some e →
      0 ∉ e.2 ∧ e.2.take 14 ≠ [33] := by
    decide +kernel
  have hlen : (dots ++ entriesFrom 2 thirty).length = 32 := by decide +kernel
  have he := List.getElem?_eq_getElem (l := dots ++ entriesFrom 2 thirty) (i := q) (by omega)
  obtain ⟨hz, hne⟩ := hnames q hq _ he
  rw [hload, h.ent he hz]
  exact hne

theorem forged_thirty (h0 : (dinode image 2).addrs 0 = 30) : dinode image 224 = forged := by
  have h := (finished_thirty hm).file 0 (by decide)
  have hbytes : ∀ p < 64, image 30 p = forged.store zeros 0 p := by
    intro p hp
    have hb : blockOf (dinode image 2) image 0 = 30 := by
      change ((dinode image 2).addrs 0).toNat = 30
      rw [h0]
      rfl
    have := h.bytes p
    rw [bytes, Nat.div_eq_of_lt (by omega), Nat.mod_eq_of_lt (by omega), hb] at this
    refine this.trans ?_
    change (((List.range 64).map (forged.store zeros 0)) ++ []).getD p 0 = _
    rw [List.append_nil, List.getD_eq_getElem _ _ (by simpa using hp)]
    simp
  have hload : dinode image 224 = Dinode.load (forged.store zeros 0) 0 :=
    Dinode.load_congr fun p hp => by rw [Nat.zero_add]; exact hbytes p hp
  rw [hload, Dinode.load_store]

end Thirty

/-- What is asked of the input files -/
def ValidNames (files : List InputFile) : Prop :=
  (∀ f ∈ files, f.name ≠ [] ∧ 47 ∉ f.name ∧ f.name ≠ [46] ∧ f.name ≠ [46, 46]) ∧
    (files.map fun f => f.name.take 14).Nodup

theorem validNames_thirty : ValidNames thirty := by
  unfold ValidNames
  decide +kernel

/-- With thirty files the root has one block and a size of two. -/
theorem hole_of_thirty : ∃ files image, files.length ≤ 198 ∧ ValidNames files ∧
    main zeros files = some image ∧ ¬Mapped (dinode image 1) image ∧ ¬WellFormed image ∧
    (kernel image 1).bmap false 0 1 = .ok (Fs.unmapped, kernel image 1) := by
  obtain ⟨image, hm, -, -⟩ := main_thirty
  have h := finished_thirty hm
  obtain ⟨ht, hsize, h1⟩ := root_thirty hm
  have hnot : ¬Mapped (dinode image 1) image := by
    intro hmap
    refine hmap 1 (by rw [hsize]; decide) ?_
    change ((dinode image 1).addrs 1).toNat = 0
    rw [h1]
    rfl
  refine ⟨thirty, image, by decide, validNames_thirty, hm, hnot,
    fun hw => hnot (hw.mapped 1 ⟨by decide, by rw [ht]; decide⟩), ?_⟩
  unfold Fs.bmap
  rw [show (kernel image 1).icache 0 = ⟨1, 1, 1, true, true, dinode image 1⟩ from rfl]
  dsimp only
  rw [if_pos (by decide), show Fin.ofNat 13 1 = 1 from rfl, h1, if_neg (by decide), if_pos rfl]
  rfl

/-- The sector that is read for the hole has an entry `!`, which leads to the bytes of a file:
writing to that file writes to a free block. -/
theorem free_not_zero : ∃ files image, files.length ≤ 198 ∧ ValidNames files ∧
    main zeros files = some image ∧ ∃ d : ℕ → Disk, (∀ b < super.blocks, d 1 b = image b) ∧
    ∃ k : SmallFiles, Reach Files.Step (Files.boot d) k ∧
      ∃ b < super.size, marked super (k.fs.disk 1) b = false ∧ k.fs.disk 1 b 0 ≠ 0 := by
  obtain ⟨image, hm, h29, h30⟩ := main_thirty
  obtain ⟨ht, hsize, h1⟩ := root_thirty hm
  let d : ℕ → Disk := fun _ => update image Fs.unmapped (Dirent.bytes ⟨224, [33]⟩)
  have hsame : ∀ b < 4096, d 1 b = image b := by
    intro b hb
    refine update_of_ne ?_ _ _
    unfold Fs.unmapped
    omega
  have hd1 : dinode (d 1) 1 = dinode image 1 := by rw [dinode, hsame _ (by decide)]; rfl
  have hd224 : dinode (d 1) 224 = forged := by
    rw [dinode, hsame _ (by decide)]
    exact forged_thirty hm h30
  have hnames : ∀ q < 32, (Dirent.load (d 1 29) (16 * q)).name ≠ [33] := by
    intro q hq
    rw [hsame 29 (by decide)]
    exact names_thirty hm h29 hq
  have hscan := dirScan_hole (by rw [hd1, h29]) (by rw [hd1, h1]) hnames (update_self _ _ _)
  have hnamei := namei_hole (by rw [hd1, ht]) (by rw [hd1, hsize]) hscan
  obtain ⟨k, hopen, hdisk, hi, hf, htask⟩ := open_hole hnamei hd224
  obtain ⟨k', hwrite, hdisk'⟩ := write_hole hi hf htask fun _ => 65
  refine ⟨thirty, image, by decide, validNames_thirty, hm, d, hsame, k', ?_, 600, by decide, ?_, ?_⟩
  · exact .next (a := (0, .write 0 (fun _ => 65) 1 0)) (.next (a := (0, .openFile [47, 33] 1))
      (.next (a := (0, .start)) .start ⟨_, start_boot d⟩) ⟨_, hopen⟩) ⟨_, hwrite⟩
  · rw [hdisk', hdisk, marked_update_of_ne (by decide), marked, hsame _ (by decide)]
    exact (finished_thirty hm).few 600 (by decide) (by decide)
  · rw [hdisk', update_self]
    change (65 : UInt8) ≠ 0
    decide

end Mkfs

end Xv6Shed
