import Xv6Shed.Scripts

/-!
# What stays true of the disk

In every run of file-system calls from a good image: no block belongs to two files, no name is
left without an inode, and, as long as no directory is removed, link counts are exact.
-/

namespace Xv6Shed
open Function Bytes Transition

variable {NINODE NFILE NOFILE : ℕ} {P : Type} {sb : Superblock} {m : Mode} {d : Dinode}
  {disk : Disk}

/-- Blocks in use by inodes: each in one place, marked in the bitmap, and behind the bitmap -/
structure Unshared (sb : Superblock) (disk : Disk) : Prop where
  once : ∀ i j a a', Live sb (dinode disk) i → Live sb (dinode disk) j →
    (dinode disk i).ref disk a ≠ 0 → (dinode disk i).ref disk a = (dinode disk j).ref disk a' →
    i = j ∧ a = a'
  marked : ∀ i a, Live sb (dinode disk) i → (dinode disk i).ref disk a ≠ 0 →
    marked sb disk ((dinode disk i).ref disk a) = true
  data : ∀ i a, Live sb (dinode disk) i → (dinode disk i).ref disk a ≠ 0 →
    sb.data ≤ (dinode disk i).ref disk a

theorem Healthy.unshared (h : Healthy sb disk) : Unshared sb disk := by
  have hinUse : ∀ i a, Live sb (dinode disk) i → (dinode disk i).ref disk a ≠ 0 →
      InUse sb disk ((dinode disk i).ref disk a) := by
    intro i a hi ha
    have := h.volume.refs.valid (i, a)
    rw [refOf_eq hi] at this
    exact this ha
  refine ⟨fun i j a a' hi hj ha haa => ?_, fun i a hi ha => (hinUse i a hi ha).2.2,
    fun i a hi ha => (hinUse i a hi ha).1⟩
  have := h.volume.refs.inj (i, a) (j, a')
  rw [refOf_eq hi, refOf_eq hj] at this
  exact Prod.mk.inj (this ha haa)

/-- The bitmap marks the blocks before the data and the blocks that inodes in use refer to, and
no others. -/
structure ExactBitmap (sb : Superblock) (disk : Disk) : Prop where
  super : readsb disk = sb
  exact : ∀ b < sb.blocks, Xv6Shed.marked sb disk b = true ↔ b < sb.data ∨
    b ≠ 0 ∧ ∃ i a, Live sb (dinode disk) i ∧ (dinode disk i).ref disk a = b

section DirDisk

variable {b4 b5 : Buffer}

theorem live_one_dirDisk : Live smallSuper (dinode (dirDisk b4 b5)) 1 :=
  ⟨by decide, by rw [dinode_dirDisk b4 b5 (by decide), dinode_smallDisk]; decide⟩

theorem exactBitmap_dirDisk : ExactBitmap smallSuper (dirDisk b4 b5) where
  super := readsb_dirDisk
  exact b hb := by
    rw [marked_dirDisk hb]
    change _ ↔ b < 4 ∨ _
    constructor
    · intro h5
      by_cases h4 : b < 4
      · exact .inl h4
      · refine .inr ⟨by omega, 1, .addr 0, live_one_dirDisk, ?_⟩
        rw [(live_dirDisk live_one_dirDisk).2, show b = 4 by omega]
        rfl
    · rintro (h4 | ⟨h0, i, a, hi, ha⟩)
      · omega
      · rw [(live_dirDisk hi).2] at ha
        have := (ref_of_addrs rfl (ha.trans_ne h0)).2
        omega

theorem unshared_dirDisk : Unshared smallSuper (dirDisk b4 b5) := by
  have hone : ∀ i a, Live smallSuper (dinode (dirDisk b4 b5)) i →
      (dinode (dirDisk b4 b5) i).ref (dirDisk b4 b5) a ≠ 0 →
      i = 1 ∧ a = .addr 0 ∧ (dinode (dirDisk b4 b5) i).ref (dirDisk b4 b5) a = 4 := by
    intro i a hi ha
    obtain ⟨h1, hd⟩ := live_dirDisk hi
    rw [hd] at ha ⊢
    exact ⟨h1, ref_of_addrs rfl ha⟩
  refine ⟨fun i j a a' hi hj ha haa => ?_, fun i a hi ha => ?_, fun i a hi ha => ?_⟩
  · obtain ⟨h1, ha0, -⟩ := hone i a hi ha
    obtain ⟨h1', ha0', -⟩ := hone j a' hj (haa ▸ ha)
    exact ⟨h1.trans h1'.symm, ha0.trans ha0'.symm⟩
  · rw [(hone i a hi ha).2.2, marked_dirDisk (by decide)]
    decide
  · rw [(hone i a hi ha).2.2]
    decide

theorem mapped_dirDisk {i : ℕ} (hi : Live smallSuper (dinode (dirDisk b4 b5)) i) :
    Mapped (dinode (dirDisk b4 b5) i) (dirDisk b4 b5) := by
  intro k hk
  rw [(live_dirDisk hi).2] at hk ⊢
  change 512 * k < 16 at hk
  rw [show k = 0 by omega]
  exact fun h0 => absurd h0 (by change (4 : UInt32).toNat ≠ 0; decide)

theorem ent_dirDisk {j : ℕ} (hj : IsDir smallSuper (dirDisk zeros b5) j) (k : ℕ) :
    ((dinode (dirDisk zeros b5) j).ent (dirDisk zeros b5) k).inum = 0 := by
  have hbytes : ∀ p, bytes oneBlockDir (dirDisk zeros b5) p = 0 := bytes_of_addrs rfl rfl
  rw [(live_dirDisk hj.live).2]
  have : oneBlockDir.ent (dirDisk zeros b5) k = .load zeros (16 * k) :=
    Dirent.load_congr fun i _ => hbytes _
  rw [this]
  rfl

theorem free_dirDisk {b k : ℕ} (hb : b < smallSuper.blocks)
    (hf : marked smallSuper (dirDisk b4 zeros) b = false) : dirDisk b4 zeros b k = 0 := by
  have h5 : ¬b < 5 := by
    have hiff : marked smallSuper (dirDisk b4 zeros) b = true ↔ b < 5 := marked_dirDisk hb
    rw [← hiff, hf]
    decide
  unfold dirDisk
  rw [if_neg (by omega), if_neg (by omega)]
  by_cases h : b = 5
  · rw [if_pos h]
    rfl
  · rw [if_neg h, smallDisk_data _ (by omega)]
    rfl

end DirDisk

/-- An image on which every name has its inode, and no link count is below the number of names
of its inode. The root counts as named once more. -/
structure ConsistentImage (sb : Superblock) (disk : Disk) : Prop where
  healthy : Healthy sb disk
  small : sb.ninodes ≤ 65536
  root : Live sb (dinode disk) 1
  zero : (dinode disk 0).type = 0
  named : ∀ j, IsDir sb disk j → ∀ k < maxEntries, ((dinode disk j).ent disk k).inum ≠ 0 →
    Live sb (dinode disk) ((dinode disk j).ent disk k).inum.toNat
  counted : ∀ i, Live sb (dinode disk) i →
    names sb.ninodes maxEntries (graph sb disk).entry i + (if i = 1 then 1 else 0) ≤
      (dinode disk i).nlink.toNat

theorem ConsistentImage.linked (h : ConsistentImage sb disk) :
    Linked sb.ninodes maxEntries (graph sb disk) (fun _ => False) Fs.noCredit 65535 where
  named j _ k _ he := by
    obtain ⟨hd, hk⟩ := isDir_of_entry he
    rw [graph_entry hd hk] at he ⊢
    exact graph_live.mpr (h.named j hd k hk fun h0 => he (by rw [h0]; rfl))
  held _ hf := hf.elim
  counted i hi := by
    have hl := graph_live.mp hi
    rw [graph_links hl]
    exact h.counted i hl
  few i hi := by
    rw [graph_links (graph_live.mp hi)]
    exact Nat.le_of_lt_succ (UInt16.toNat_lt _)
  root := graph_live.mpr h.root
  zero := by
    rw [← Bool.not_eq_true, graph_live]
    exact fun hl => hl.2 h.zero

/-- The number of entries of directories that name inode `i`, without the own `.` of `i` -/
def namesOf (sb : Superblock) (disk : Disk) (i : ℕ) : ℕ :=
  ∑ j ∈ Finset.range sb.ninodes, ∑ k ∈ Finset.range maxEntries,
    if IsDir sb disk j ∧ 16 * k < (dinode disk j).size.toNat ∧
      ((dinode disk j).ent disk k).inum.toNat = i ∧
      ¬(j = i ∧ ((dinode disk j).ent disk k).name = dot) then 1 else 0

theorem Tidy.namesOf_eq (h : Tidy sb disk) {i : ℕ} (h0 : i ≠ 0) (h1 : i ≠ 1) :
    namesOf sb disk i = names sb.ninodes maxEntries (graph sb disk).entry i := by
  refine Finset.sum_congr rfl fun j _ => Finset.sum_congr rfl fun k hk => ?_
  have hk := Finset.mem_range.mp hk
  congr 1
  by_cases hd : IsDir sb disk j
  · rw [graph_entry hd hk]
    refine propext ⟨fun hc => ⟨fun hji => hc.2.2.2 ⟨hji, ?_⟩, hc.2.2.1⟩,
      fun hc => ⟨hd, ?_, hc.2, ?_⟩⟩
    · exact h.own j hd (hji ▸ h1) k (hc.2.2.1.trans hji.symm)
    · by_contra hsize
      have := h.tail j hd k (not_lt.mp hsize)
      rw [this] at hc
      exact h0 hc.2.symm
    · exact fun hself => hc.1 hself.1
  · rw [graph_entry_of_not hd]
    exact propext ⟨fun hc => absurd hc.1 hd, fun hc => absurd hc.2.symm h0⟩

theorem namesOf_of_size {n : ℕ} (hn : n ≤ maxEntries)
    (h : ∀ j < sb.ninodes, IsDir sb disk j → (dinode disk j).size.toNat ≤ 16 * n) (i : ℕ) :
    namesOf sb disk i = ∑ j ∈ Finset.range sb.ninodes, ∑ k ∈ Finset.range n,
      if IsDir sb disk j ∧ 16 * k < (dinode disk j).size.toNat ∧
        ((dinode disk j).ent disk k).inum.toNat = i ∧
        ¬(j = i ∧ ((dinode disk j).ent disk k).name = dot) then 1 else 0 := by
  refine Finset.sum_congr rfl fun j hj => (Finset.sum_subset ?_ ?_).symm
  · exact fun k hk => Finset.mem_range.mpr ((Finset.mem_range.mp hk).trans_le hn)
  · intro k _ hk
    refine if_neg fun hc => ?_
    have hsize := h j (Finset.mem_range.mp hj) hc.1
    have := hc.2.1
    rw [Finset.mem_range] at hk
    omega

/-- An image on which link counts are exact, every inode in use has a name, and the entries of a
directory end at its size -/
structure PreciseImage (sb : Superblock) (disk : Disk) : Prop extends ConsistentImage sb disk where
  tidy : Tidy sb disk
  equal : ∀ i, Live sb (dinode disk) i → i ≠ 1 → namesOf sb disk i = (dinode disk i).nlink.toNat
  linked : ∀ i, Live sb (dinode disk) i → (dinode disk i).nlink ≠ 0

theorem PreciseImage.exact (h : PreciseImage sb disk) :
    Exact sb.ninodes maxEntries (graph sb disk) (fun _ => False) Fs.noCredit := by
  have hlinks : ∀ i, Live sb (dinode disk) i → (graph sb disk).links i ≠ 0 := by
    intro i hl
    rw [graph_links hl]
    exact fun h0 => h.linked i hl (UInt16.toNat_inj.mp h0)
  refine ⟨fun i hi h1 => ?_, fun i hi h0 => hlinks i (graph_live.mp hi) h0, fun i hi => ?_⟩
  · have hl := graph_live.mp hi
    have h0 : i ≠ 0 := fun h0 => hl.2 (h0 ▸ h.zero)
    rw [graph_links hl, ← h.tidy.namesOf_eq h0 h1]
    exact h.equal i hl h1
  · exact hlinks i (graph_dir.mp hi).live

theorem names_rootDir (i : ℕ) (h0 : i ≠ 0) :
    names smallSuper.ninodes maxEntries (graph smallSuper (smallDisk rootDir)).entry i = 0 := by
  rw [names_eq_zero_iff]
  intro j _ k _ he
  obtain ⟨hd, hk⟩ := isDir_of_entry (he.trans_ne h0)
  rw [graph_entry hd hk, ent_rootDir hd] at he
  exact absurd he.symm h0

theorem consistent_rootDir : ConsistentImage smallSuper (smallDisk rootDir) where
  healthy := healthy_rootDir
  small := by decide
  root := ⟨by decide, by rw [dinode_smallDisk]; decide⟩
  zero := by
    rw [dinode_smallDisk_of_ne (by decide) (by decide)]
    rfl
  named j hj k _ h := absurd (ent_rootDir hj k) h
  counted i hi := by
    rw [live_smallDisk hi, names_rootDir 1 (by decide), dinode_smallDisk]
    decide

theorem precise_rootDir : PreciseImage smallSuper (smallDisk rootDir) where
  toConsistentImage := consistent_rootDir
  tidy := ⟨fun j hj k _ => ent_rootDir hj k, fun j hj h1 => absurd (isDir_smallDisk hj) h1⟩
  equal i hi h1 := absurd (live_smallDisk hi) h1
  linked i hi := by
    rw [live_smallDisk hi, dinode_smallDisk]
    decide

namespace Files

variable [DecidableEq P] [Fintype P] {disk : ℕ → Disk} {k : Files NINODE NFILE NOFILE P}

omit [DecidableEq P] in
theorem sound_boot (h : Healthy sb (disk 1)) (hroot : 1 < sb.ninodes)
    (hc : m ≠ .blocks → ConsistentImage sb (disk 1)) (he : m = .exact → PreciseImage sb (disk 1)) :
    (boot disk : Files NINODE NFILE NOFILE P).Sound m sb := by
  have hheld : Fs.Held (boot disk : Files NINODE NFILE NOFILE P).fs 0 = fun _ => False := by
    funext i
    refine propext ⟨?_, False.elim⟩
    rintro ⟨ip, hip, -⟩
    exact Multiset.notMem_zero ip hip
  refine ⟨?_, fun f hf => nomatch hf⟩
  rw [pointers_boot]
  have hempty : ∀ {Q : Fin NINODE → Prop}, ∀ ip ∈ (0 : Multiset (Fin NINODE)), Q ip :=
    fun ip hip => absurd hip (Multiset.notMem_zero ip)
  exact
    { healthy := h
      root := hroot
      count := fun ip => rfl
      sub := fun ip hip => absurd hip (Finset.notMem_empty ip)
      busy := hempty
      dev := hempty
      range := hempty
      one := hempty
      copy := hempty
      live := hempty
      small := fun hm => (hc hm).small
      nlink := fun _ => hempty
      linked := fun hm => hheld ▸ (hc hm).linked
      exact := fun hm => hheld ▸ (he hm).exact
      fresh := fun _ => hempty
      tidy := fun hm => (he hm).tidy }

/-- No disk block is shared, in any run of calls. -/
theorem unshared_of_reach (himage : Healthy sb (disk 1)) (hroot : 1 < sb.ninodes)
    (hr : Reach Step (boot disk) k) : Unshared sb (k.fs.disk 1) := by
  have h : k.Sound .blocks sb := by
    refine hr.invariant (sound_boot himage hroot (fun hm => absurd rfl hm) nofun) ?_
    intro k a k' hk hs
    exact hk.step (fun hm => absurd rfl hm) nofun hs
  exact h.inv.healthy.unshared

theorem unshared_after_mkdir : ∃ k : SmallFiles,
    Reach Step (boot fun _ => smallDisk rootDir) k ∧ Live smallSuper (dinode (k.fs.disk 1)) 2 ∧
      Unshared smallSuper (k.fs.disk 1) := by
  obtain ⟨k, hr, hl⟩ : ∃ k : SmallFiles, Reach Step (boot fun _ => smallDisk rootDir) k ∧
      Live smallSuper (dinode (k.fs.disk 1)) 2 := by
    refine exists_reach_of_script (fun _ _ => true) (fun k a k' _ hs => hs) []
      [(0, .start), (0, .mkdir [47, 97])] ?_
    decide +kernel
  exact ⟨k, hr, hl, unshared_of_reach healthy_rootDir (by decide) hr⟩

/-- A block that is not cleared becomes part of a directory, or an entry is there from the start:
the entry leads to an "inode" that is the bitmap, and closing it frees its blocks. -/
theorem shared_after_close :
    (∃ (disk : Disk) (k : SmallFiles), ExactBitmap smallSuper disk ∧
      (∀ i, Live smallSuper (dinode disk) i → Mapped (dinode disk i) disk) ∧
      Unshared smallSuper disk ∧
      (∀ j, IsDir smallSuper disk j → ∀ k < maxEntries, ((dinode disk j).ent disk k).inum = 0) ∧
      Reach Step (boot fun _ => disk) k ∧ ¬Unshared smallSuper (k.fs.disk 1)) ∧
    ∃ (disk : Disk) (k : SmallFiles), ExactBitmap smallSuper disk ∧
      (∀ i, Live smallSuper (dinode disk) i → Mapped (dinode disk i) disk) ∧
      Unshared smallSuper disk ∧
      (∀ b < smallSuper.blocks, marked smallSuper disk b = false → ∀ k < 512, disk b k = 0) ∧
      Reach Step (boot fun _ => disk) k ∧ ¬Unshared smallSuper (k.fs.disk 1) := by
  have hbad : ∀ k : SmallFiles, marked smallSuper (k.fs.disk 1) 4 = false ∧
      (dinode (k.fs.disk 1) 1).type ≠ 0 ∧ (dinode (k.fs.disk 1) 1).addrs 0 = 4 →
      ¬Unshared smallSuper (k.fs.disk 1) := by
    rintro k ⟨hm, ht, ha⟩ hu
    have href : (dinode (k.fs.disk 1) 1).ref (k.fs.disk 1) (.addr 0) = 4 := by
      rw [Dinode.ref, ha]
      rfl
    have := hu.marked 1 (.addr 0) ⟨by decide, ht⟩ (by rw [href]; decide)
    rw [href, hm] at this
    cases this
  constructor
  · obtain ⟨k, hr, hk⟩ : ∃ k : SmallFiles, Reach Step
        (boot fun _ => dirDisk zeros (update (update zeros 32 8) 34 120)) k ∧
        (marked smallSuper (k.fs.disk 1) 4 = false ∧
          (dinode (k.fs.disk 1) 1).type ≠ 0 ∧ (dinode (k.fs.disk 1) 1).addrs 0 = 4) := by
      refine exists_reach_of_script (fun _ _ => true) (fun k a k' _ hs => hs)
        [(2, 64, 16), (2, 128, 16)]
        [(0, .start), (0, .mkdir [47, 100]), (0, .openFile [47, 100, 47, 120] 0), (0, .close 0)] ?_
      decide +kernel
    exact ⟨_, k, exactBitmap_dirDisk, fun i hi => mapped_dirDisk hi, unshared_dirDisk,
      fun j hj k _ => ent_dirDisk hj k, hr, hbad k hk⟩
  · obtain ⟨k, hr, hk⟩ : ∃ k : SmallFiles, Reach Step
        (boot fun _ => dirDisk (update (update zeros 0 8) 2 120) zeros) k ∧
        (marked smallSuper (k.fs.disk 1) 4 = false ∧
          (dinode (k.fs.disk 1) 1).type ≠ 0 ∧ (dinode (k.fs.disk 1) 1).addrs 0 = 4) := by
      refine exists_reach_of_script (fun _ _ => true) (fun k a k' _ hs => hs) []
        [(0, .start), (0, .openFile [47, 120] 0), (0, .close 0)] ?_
      decide +kernel
    exact ⟨_, k, exactBitmap_dirDisk, fun i hi => mapped_dirDisk hi, unshared_dirDisk,
      fun b hb hf k _ => free_dirDisk hb hf, hr, hbad k hk⟩

theorem sound_of_reach (himage : ConsistentImage sb (disk 1))
    (hr : Reach (fun k a k' => k.FewLinks sb ∧ Step k a k') (boot disk) k) : k.Sound .names sb := by
  refine hr.invariant (sound_boot himage.healthy himage.root.1 (fun _ => himage) nofun) ?_
  rintro k a k' hk ⟨hfew, hs⟩
  exact hk.step (fun _ => hfew) nofun hs

/-- Names, current directories and open files lead to inodes in use, in every run in which link
counts stay below 32768. -/
theorem named_of_reach (himage : ConsistentImage sb (disk 1))
    (hr : Reach (fun k a k' => k.FewLinks sb ∧ Step k a k') (boot disk) k) :
    (∀ j, IsDir sb (k.fs.disk 1) j → ∀ e < maxEntries,
      ((dinode (k.fs.disk 1) j).ent (k.fs.disk 1) e).inum ≠ 0 →
      Live sb (dinode (k.fs.disk 1)) ((dinode (k.fs.disk 1) j).ent (k.fs.disk 1) e).inum.toNat) ∧
    (∀ f ip, (k.file f).pointer = some ip → (k.fs.onDisk ip).type ≠ 0) ∧
    (∀ p t ip, k.task p = some t → t.cwd = some ip → (k.fs.onDisk ip).type ≠ 0) ∧
    (k.FewLinks sb → ∀ p c, k.exec p c ≠ .error noType) := by
  have h := sound_of_reach himage hr
  have hlinked := h.inv.linked (by decide)
  refine ⟨fun j hj e he h0 => ?_, fun f ip hf => ?_, fun p t ip ht hcwd => ?_,
    fun hfew p c hc => ?_⟩
  · have := hlinked.named j hj.1 e he
    rw [graph_entry hj he] at this
    exact graph_live.mp (this fun hz => h0 (UInt16.toNat_inj.mp hz))
  · exact (graph_live.mp (hlinked.held _ ⟨ip, mem_of_file hf, rfl⟩)).2
  · exact (graph_live.mp (hlinked.held _ ⟨ip, mem_of_cwd ht hcwd, rfl⟩)).2
  · exact (h.exec_meets (a := (p, c)) (fun _ => hfew) nofun).of_error hc (by decide) rfl

theorem named_after_mkdir : ∃ k : SmallFiles,
    Reach (fun k a k' => k.FewLinks smallSuper ∧ Step k a k') (boot fun _ => smallDisk rootDir) k ∧
      k.FewLinks smallSuper ∧ Live smallSuper (dinode (k.fs.disk 1)) 2 ∧
      ∀ p c, k.exec p c ≠ .error noType := by
  obtain ⟨k, hr, hfew, hl⟩ : ∃ k : SmallFiles,
      Reach (fun k a k' => k.FewLinks smallSuper ∧ Step k a k')
        (boot fun _ => smallDisk rootDir) k ∧
      k.FewLinks smallSuper ∧ Live smallSuper (dinode (k.fs.disk 1)) 2 := by
    refine exists_reach_of_script (fun k _ => decide (k.FewLinks smallSuper))
      (fun k a k' hok hs => ⟨of_decide_eq_true hok, hs⟩) [] [(0, .start), (0, .mkdir [47, 97])] ?_
    decide +kernel
  exact ⟨k, hr, hfew, hl, (named_of_reach consistent_rootDir hr).2.2.2 hfew⟩

/-- Link counts are exact in every run in which no directory is removed and link counts stay
below 32768; what has no name left is in use by a process. -/
theorem nlink_of_reach (himage : PreciseImage sb (disk 1))
    (hr : Reach (fun k a k' => k.FewLinks sb ∧ ¬k.RemovesDir a ∧ Step k a k') (boot disk) k) :
    ∀ i, Live sb (dinode (k.fs.disk 1)) i → i ≠ 1 →
      (dinode (k.fs.disk 1) i).nlink.toNat = namesOf sb (k.fs.disk 1) i ∧
      (namesOf sb (k.fs.disk 1) i = 0 → k.fs.Held k.pointers i) := by
  have h : k.Sound .exact sb := by
    refine hr.invariant (sound_boot himage.healthy himage.root.1
      (fun _ => himage.toConsistentImage) fun _ => himage) ?_
    rintro k a k' hk ⟨hfew, hdir, hs⟩
    exact hk.step (fun _ => hfew) (fun _ => hdir) hs
  intro i hl h1
  have hi := graph_live.mpr hl
  have h0 : i ≠ 0 := (h.inv.linked (by decide)).ne_zero hi
  have heq : namesOf sb (k.fs.disk 1) i = (dinode (k.fs.disk 1) i).nlink.toNat := by
    rw [(h.inv.tidy rfl).namesOf_eq h0 h1, ← graph_links hl]
    exact (h.inv.exact rfl).equal i hi h1
  refine ⟨heq.symm, fun hz => (h.inv.exact rfl).used i hi ?_⟩
  rw [graph_links hl, ← heq, hz]

/-- The call is no `unlink`. -/
def keepsNames (a : P × FileCall P) : Bool :=
  match a.2 with
  | .unlink _ => false
  | _ => true

omit [DecidableEq P] [Fintype P] in
theorem not_removesDir {a : P × FileCall P} (h : keepsNames a = true) : ¬k.RemovesDir a := by
  rintro ⟨t, path, -, ha, -⟩
  rw [keepsNames, ha] at h
  cases h

theorem nlink_after_mkdir : ∃ k : SmallFiles,
    Reach (fun k a k' => k.FewLinks smallSuper ∧ ¬k.RemovesDir a ∧ Step k a k')
      (boot fun _ => smallDisk rootDir) k ∧
    Live smallSuper (dinode (k.fs.disk 1)) 2 ∧
    (dinode (k.fs.disk 1) 2).nlink.toNat = namesOf smallSuper (k.fs.disk 1) 2 := by
  obtain ⟨k, hr, hl⟩ : ∃ k : SmallFiles,
      Reach (fun k a k' => k.FewLinks smallSuper ∧ ¬k.RemovesDir a ∧ Step k a k')
        (boot fun _ => smallDisk rootDir) k ∧
      Live smallSuper (dinode (k.fs.disk 1)) 2 := by
    refine exists_reach_of_script
      (fun k a => decide (k.FewLinks smallSuper) && keepsNames a)
      (fun k a k' hok hs => ?_) [] [(0, .start), (0, .mkdir [47, 97])] ?_
    · rw [Bool.and_eq_true] at hok
      exact ⟨of_decide_eq_true hok.1, not_removesDir hok.2, hs⟩
    · decide +kernel
  exact ⟨k, hr, hl, (nlink_of_reach precise_rootDir hr 2 hl (by decide)).1⟩

/-- After `mkdir a`, `mkdir a/b` and `unlink a/b` the link count of `a` is 2, but its only name is
in the root directory. -/
theorem nlink_after_unlink : ∃ k : SmallFiles, PreciseImage smallSuper (smallDisk rootDir) ∧
    Reach (fun k a k' => k.FewLinks smallSuper ∧ Step k a k') (boot fun _ => smallDisk rootDir) k ∧
    Live smallSuper (dinode (k.fs.disk 1)) 2 ∧ (dinode (k.fs.disk 1) 2).nlink = 2 ∧
    namesOf smallSuper (k.fs.disk 1) 2 = 1 := by
  obtain ⟨k, hr, hl, hn, hsize, hsum⟩ : ∃ k : SmallFiles,
      Reach (fun k a k' => k.FewLinks smallSuper ∧ Step k a k')
        (boot fun _ => smallDisk rootDir) k ∧
      (Live smallSuper (dinode (k.fs.disk 1)) 2 ∧ (dinode (k.fs.disk 1) 2).nlink = 2 ∧
        (∀ j < 7, IsDir smallSuper (k.fs.disk 1) j →
          (dinode (k.fs.disk 1) j).size.toNat ≤ 16 * 3) ∧
        (∑ j ∈ Finset.range 7, ∑ e ∈ Finset.range 3,
          if IsDir smallSuper (k.fs.disk 1) j ∧ 16 * e < (dinode (k.fs.disk 1) j).size.toNat ∧
            ((dinode (k.fs.disk 1) j).ent (k.fs.disk 1) e).inum.toNat = 2 ∧
            ¬(j = 2 ∧ ((dinode (k.fs.disk 1) j).ent (k.fs.disk 1) e).name = dot) then 1
          else 0) = 1) := by
    refine exists_reach_of_script (fun k _ => decide (k.FewLinks smallSuper))
      (fun k a k' hok hs => ⟨of_decide_eq_true hok, hs⟩)
      [(2, 64, 16), (2, 128, 16), (2, 192, 16), (3, 0, 2), (4, 0, 16), (5, 0, 48)]
      [(0, .start), (0, .mkdir [47, 97]), (0, .mkdir [47, 97, 47, 98]),
        (0, .unlink [47, 97, 47, 98])] ?_
    decide +kernel
  refine ⟨k, precise_rootDir, hr, hl, hn, ?_⟩
  rw [namesOf_of_size (by decide) hsize]
  exact hsum

def LifeStep (sb : Superblock) (k : Files NINODE NFILE NOFILE P) :
    Option (P × FileCall P) → Files NINODE NFILE NOFILE P → Prop
  | some a, k' => k.FewLinks sb ∧ Step k a k'
  | none, k' => k' = boot k.fs.disk

omit [DecidableEq P] in
theorem Sound.consistent (h : k.Sound .names sb) (hsmall : sb.ninodes ≤ 65536) :
    ConsistentImage sb (k.fs.disk 1) := by
  have hlinked := h.inv.linked (by decide)
  refine ⟨h.inv.healthy, hsmall, graph_live.mp hlinked.root, ?_, fun j hj e he h0 => ?_,
    fun i hi => ?_⟩
  · by_contra hz
    have hl : Live sb (dinode (k.fs.disk 1)) 0 := ⟨(graph_live.mp hlinked.root).1.pos, hz⟩
    exact hlinked.ne_zero (graph_live.mpr hl) rfl
  · have := hlinked.named j hj.1 e he
    rw [graph_entry hj he] at this
    exact graph_live.mp (this fun hz => h0 (UInt16.toNat_inj.mp hz))
  · have := hlinked.counted i (graph_live.mpr hi)
    rwa [graph_links hi] at this

/-- Whatever calls and reboots came before, the disk is a consistent image between two calls, and
no call finds an inode without a type. -/
theorem consistent_of_life (himage : ConsistentImage sb (disk 1))
    (hr : Reach (LifeStep (P := P) sb) (boot disk) k) :
    ConsistentImage sb (k.fs.disk 1) ∧ (k.FewLinks sb → ∀ p c, k.exec p c ≠ .error noType) := by
  have hboot : ∀ d : ℕ → Disk, ConsistentImage sb (d 1) →
      (boot d : Files NINODE NFILE NOFILE P).Sound .names sb :=
    fun d hd => sound_boot hd.healthy hd.root.1 (fun _ => hd) nofun
  have h : k.Sound .names sb := by
    refine hr.invariant (P := fun k => k.Sound .names sb) (hboot disk himage) ?_
    rintro k (_ | a) k' hk hs
    · subst hs
      exact hboot _ (hk.consistent himage.small)
    · exact hk.step (fun _ => hs.1) nofun hs.2
  refine ⟨h.consistent himage.small, fun hfew p c hc => ?_⟩
  exact (h.exec_meets (a := (p, c)) (fun _ => hfew) nofun).of_error hc (by decide) rfl

theorem consistent_after_reboot : ∃ k : SmallFiles,
    Reach (LifeStep smallSuper) (boot fun _ => smallDisk rootDir) k ∧ k = boot k.fs.disk ∧
      Live smallSuper (dinode (k.fs.disk 1)) 2 ∧ ConsistentImage smallSuper (k.fs.disk 1) := by
  obtain ⟨k, hr, hl⟩ : ∃ k : SmallFiles,
      Reach (fun k a k' => k.FewLinks smallSuper ∧ Step k a k')
        (boot fun _ => smallDisk rootDir) k ∧ Live smallSuper (dinode (k.fs.disk 1)) 2 := by
    refine exists_reach_of_script (fun k _ => decide (k.FewLinks smallSuper))
      (fun k a k' hok hs => ⟨of_decide_eq_true hok, hs⟩) [] [(0, .start), (0, .mkdir [47, 97])] ?_
    decide +kernel
  have hlife : Reach (LifeStep smallSuper) (boot fun _ => smallDisk rootDir) k :=
    hr.invariant (P := Reach _ _) .start fun _ a _ h hs => h.next (a := some a) hs
  have hreboot := hlife.next (a := none) rfl
  exact ⟨_, hreboot, rfl, hl, (consistent_of_life consistent_rootDir hreboot).1⟩

end Files

end Xv6Shed
