import Xv6Shed.LinkCounts
import Xv6Shed.SysFile
import Xv6Shed.Truncate

/-!
# Directories on the disk

A disk is `Healthy` if its inodes hold their blocks without sharing them, all files are mapped
and directories only name inodes of the table. `graph` is what such a disk says about links:
the entries of directories, in all blocks they have, and the link counts of inodes.
-/

namespace Xv6Shed
open Function Bytes

variable {sb : Superblock} {disk disk' : Disk} {i j k : ℕ} {d d' : Dinode} {src : Buffer}

/-- The most entries that a directory can have -/
abbrev maxEntries : ℕ := 4480

/-- Entry `k` of a directory -/
def Dinode.ent (d : Dinode) (disk : Disk) (k : ℕ) : Dirent := .load (bytes d disk) (16 * k)

/-- Inode `i` is a directory. -/
def IsDir (sb : Superblock) (disk : Disk) (i : ℕ) : Prop :=
  i < sb.ninodes ∧ (dinode disk i).type = T_DIR

instance (sb : Superblock) (disk : Disk) (i : ℕ) : Decidable (IsDir sb disk i) := by
  unfold IsDir
  infer_instance

theorem IsDir.live (h : IsDir sb disk i) : Live sb (dinode disk) i :=
  ⟨h.1, by rw [h.2]; decide⟩

structure Healthy (sb : Superblock) (disk : Disk) : Prop where
  volume : Volume sb (dinode disk) disk
  mapped : ∀ i, Live sb (dinode disk) i → Mapped (dinode disk i) disk
  range : ∀ j, IsDir sb disk j → ∀ k < maxEntries,
    ((dinode disk j).ent disk k).inum.toNat < sb.ninodes

namespace Graph

/-- All about object `i` -/
@[simps -fullyApplied] def setRow (G : Graph) (i : ℕ) (live dir : Bool) (links : ℕ)
    (entry : ℕ → ℕ) : Graph where
  live := update G.live i live
  dir := update G.dir i dir
  links := update G.links i links
  entry := update G.entry i entry

theorem setRow_self (G : Graph) (i : ℕ) :
    G.setRow i (G.live i) (G.dir i) (G.links i) (G.entry i) = G := by
  unfold setRow
  simp only [update_eq_self]

theorem setRow_setLinks (G : Graph) (i n : ℕ) :
    G.setRow i (G.live i) (G.dir i) n (G.entry i) = G.setLinks i n := by
  unfold setRow setLinks
  simp only [update_eq_self]

theorem setRow_setEntry (G : Graph) (j k v : ℕ) :
    G.setRow j (G.live j) (G.dir j) (G.links j) (update (G.entry j) k v) = G.setEntry j k v := by
  unfold setRow setEntry
  simp only [update_eq_self]

end Graph

/-- The entries of inode `d` as a directory: inode numbers, 0 for none -/
def entriesOf (d : Dinode) (disk : Disk) (k : ℕ) : ℕ :=
  if d.type = T_DIR ∧ k < maxEntries then (d.ent disk k).inum.toNat else 0

/-- The link count of inode `d`, if it is in use -/
def linksOf (d : Dinode) : ℕ := if d.type = 0 then 0 else d.nlink.toNat

/-- What the disk says about links -/
def graph (sb : Superblock) (disk : Disk) : Graph where
  live i := decide (Live sb (dinode disk) i)
  dir i := decide (IsDir sb disk i)
  links i := if i < sb.ninodes then linksOf (dinode disk i) else 0
  entry j := if j < sb.ninodes then entriesOf (dinode disk j) disk else fun _ => 0

theorem graph_live : (graph sb disk).live i = true ↔ Live sb (dinode disk) i :=
  decide_eq_true_iff

theorem graph_dir : (graph sb disk).dir i = true ↔ IsDir sb disk i :=
  decide_eq_true_iff

theorem graph_links (hl : Live sb (dinode disk) i) :
    (graph sb disk).links i = (dinode disk i).nlink.toNat := by
  simp only [graph, if_pos hl.1, linksOf, if_neg hl.2]

theorem graph_entry (hd : IsDir sb disk j) (hk : k < maxEntries) :
    (graph sb disk).entry j k = ((dinode disk j).ent disk k).inum.toNat := by
  simp only [graph, if_pos hd.1, entriesOf, if_pos (And.intro hd.2 hk)]

theorem graph_entry_of_not (hd : ¬IsDir sb disk j) (k : ℕ) : (graph sb disk).entry j k = 0 := by
  unfold graph
  dsimp only
  by_cases hj : j < sb.ninodes
  · rw [if_pos hj, entriesOf, if_neg (fun h => hd ⟨hj, h.1⟩)]
  · rw [if_neg hj]

theorem isDir_of_entry (h : (graph sb disk).entry j k ≠ 0) : IsDir sb disk j ∧ k < maxEntries := by
  by_cases hd : IsDir sb disk j
  · refine ⟨hd, ?_⟩
    by_contra hk
    simp only [graph, if_pos hd.1, entriesOf, if_neg (fun h : _ ∧ _ => hk h.2)] at h
    exact h rfl
  · exact absurd (graph_entry_of_not hd k) h

theorem graph_entry_zero (h : ∀ k, ((dinode disk j).ent disk k).inum = 0) (k : ℕ) :
    (graph sb disk).entry j k = 0 := by
  by_contra h0
  obtain ⟨hd, hk⟩ := isDir_of_entry h0
  rw [graph_entry hd hk, h k] at h0
  exact h0 rfl

section Replace

variable (r : Replaced sb (dinode disk) i disk d disk')

include r

theorem dinode_replaced (hj : j < sb.ninodes) : dinode disk' j = update (dinode disk) i d j := by
  by_cases hji : j = i
  · rw [hji, update_self, r.self]
  · rw [update_of_ne hji, r.inodes j hj hji]

theorem live_replaced : Live sb (dinode disk') j ↔ Live sb (update (dinode disk) i d) j := by
  unfold Live
  refine and_congr_right fun hj => ?_
  rw [dinode_replaced r hj]

theorem ent_replaced (hji : j ≠ i) (hl : Live sb (dinode disk) j) (k : ℕ) :
    (dinode disk' j).ent disk' k = (dinode disk j).ent disk k := by
  unfold Dinode.ent
  rw [r.inodes j hl.1 hji, (r.other j hji hl).2]

theorem isDir_replaced (hji : j ≠ i) : IsDir sb disk' j ↔ IsDir sb disk j := by
  unfold IsDir
  refine and_congr_right fun hj => ?_
  rw [r.inodes j hj hji]

theorem volume_replaced : Volume sb (dinode disk') disk' := by
  refine ⟨r.volume.toBitmap, ?_⟩
  have : refOf sb (dinode disk') disk' = refOf sb (update (dinode disk) i d) disk' := by
    refine refOf_congr (fun j => live_replaced r) fun j hl a => ?_
    rw [dinode_replaced r hl.1]
  rw [this]
  exact r.volume.refs

theorem Healthy.replace (h : Healthy sb disk) (hm : d.type ≠ 0 → Mapped d disk')
    (hr : d.type = T_DIR → ∀ k < maxEntries, (d.ent disk' k).inum.toNat < sb.ninodes) :
    Healthy sb disk' where
  volume := volume_replaced r
  mapped j hj := by
    have hl := (live_replaced r).mp hj
    by_cases hji : j = i
    · subst hji
      rw [r.self]
      refine hm ?_
      have := hj.2
      rwa [r.self] at this
    · have hl' : Live sb (dinode disk) j := by
        simpa only [Live, update_of_ne hji] using hl
      rw [r.inodes j hj.1 hji]
      intro k hk
      rw [(r.other j hji hl').1]
      exact h.mapped j hl' k hk
  range j hj k hk := by
    by_cases hji : j = i
    · subst hji
      have := hj.2
      rw [r.self] at this ⊢
      exact hr this k hk
    · have hj' := (isDir_replaced r hji).mp hj
      rw [ent_replaced r hji hj'.live]
      exact h.range j hj' k hk

theorem graph_replaced (hi : i < sb.ninodes) :
    graph sb disk' = (graph sb disk).setRow i (decide (d.type ≠ 0)) (decide (d.type = T_DIR))
      (linksOf d) (entriesOf d disk') := by
  have hinode : ∀ {j}, j < sb.ninodes → j ≠ i → dinode disk' j = dinode disk j :=
    fun hj hji => r.inodes _ hj hji
  ext1
  · funext j
    by_cases hji : j = i
    · subst hji
      simp only [graph, Graph.setRow_live, update_self, Live, r.self, hi, true_and]
    · simp only [graph, Graph.setRow_live, update_of_ne hji]
      rw [decide_eq_decide, live_replaced r]
      simp only [Live, update_of_ne hji]
  · funext j
    by_cases hji : j = i
    · subst hji
      simp only [graph, Graph.setRow_dir, update_self, IsDir, r.self, hi, true_and]
    · simp only [graph, Graph.setRow_dir, update_of_ne hji]
      rw [decide_eq_decide, isDir_replaced r hji]
  · funext j
    by_cases hji : j = i
    · subst hji
      simp only [graph, Graph.setRow_links, update_self, r.self, if_pos hi]
    · simp only [graph, Graph.setRow_links, update_of_ne hji]
      by_cases hj : j < sb.ninodes
      · rw [if_pos hj, if_pos hj, hinode hj hji]
      · rw [if_neg hj, if_neg hj]
  · funext j
    by_cases hji : j = i
    · subst hji
      simp only [graph, Graph.setRow_entry, update_self, r.self, if_pos hi]
    · simp only [graph, Graph.setRow_entry, update_of_ne hji]
      by_cases hd : IsDir sb disk j
      · rw [if_pos hd.1, if_pos hd.1]
        funext k
        rw [entriesOf, entriesOf, ent_replaced r hji hd.live, hinode hd.1 hji]
      · by_cases hj : j < sb.ninodes
        · have ht : (dinode disk j).type ≠ T_DIR := fun ht => hd ⟨hj, ht⟩
          rw [if_pos hj, if_pos hj]
          funext k
          simp only [entriesOf, hinode hj hji, ht, false_and, if_false]
        · rw [if_neg hj, if_neg hj]

theorem graph_setLinks (hl : Live sb (dinode disk) i) (ht : d.type = (dinode disk i).type)
    (he : ∀ k, d.ent disk' k = (dinode disk i).ent disk k) :
    graph sb disk' = (graph sb disk).setLinks i d.nlink.toNat := by
  have ht0 : d.type ≠ 0 := by
    rw [ht]
    exact hl.2
  rw [graph_replaced r hl.1, ← Graph.setRow_setLinks]
  congr 1
  · rw [decide_eq_true ht0, graph_live.mpr hl]
  · simp only [graph, IsDir, hl.1, true_and, ht]
  · rw [linksOf, if_neg ht0]
  · funext k
    simp only [graph, if_pos hl.1, entriesOf, ht, he]

theorem graph_setEntry {de : Dirent} (hd : IsDir sb disk i) (ht : d.type = T_DIR)
    (hn : d.nlink = (dinode disk i).nlink) (hk : k < maxEntries) (hde : d.ent disk' k = de)
    (he : ∀ k' < maxEntries, k' ≠ k → d.ent disk' k' = (dinode disk i).ent disk k') :
    graph sb disk' = (graph sb disk).setEntry i k de.inum.toNat := by
  have ht0 : d.type ≠ 0 := by
    rw [ht]
    decide
  rw [graph_replaced r hd.1, ← Graph.setRow_setEntry]
  congr 1
  · rw [decide_eq_true ht0, graph_live.mpr hd.live]
  · rw [decide_eq_true ht, graph_dir.mpr hd]
  · rw [graph_links hd.live, linksOf, if_neg ht0, hn]
  · funext k'
    by_cases hkk : k' = k
    · rw [hkk, update_self, entriesOf, if_pos ⟨ht, hk⟩, hde]
    · rw [update_of_ne hkk]
      by_cases hk' : k' < maxEntries
      · rw [graph_entry hd hk', entriesOf, if_pos ⟨ht, hk'⟩, he k' hk' hkk]
      · simp only [graph, if_pos hd.1, entriesOf, if_neg (fun h : _ ∧ _ => hk' h.2)]

theorem graph_file (hl : Live sb (dinode disk) i) (ht : d.type = (dinode disk i).type)
    (hd : d.type ≠ T_DIR) (hn : d.nlink = (dinode disk i).nlink) :
    graph sb disk' = graph sb disk := by
  have ht0 : d.type ≠ 0 := by
    rw [ht]
    exact hl.2
  have hdir : ¬IsDir sb disk i := fun h => hd (ht.trans h.2)
  rw [graph_replaced r hl.1]
  refine Eq.trans ?_ ((graph sb disk).setRow_self i)
  congr 1
  · rw [decide_eq_true ht0, graph_live.mpr hl]
  · rw [decide_eq_false hd, Bool.eq_false_iff.mpr fun h => hdir (graph_dir.mp h)]
  · rw [graph_links hl, linksOf, if_neg ht0, hn]
  · funext k
    rw [entriesOf, if_neg (fun h => hd h.1), graph_entry_of_not hdir]

theorem graph_alloc (hi : i < sb.ninodes) (ht : d.type ≠ 0) (he : ∀ k, (d.ent disk' k).inum = 0) :
    graph sb disk' = (graph sb disk).alloc i (decide (d.type = T_DIR)) d.nlink.toNat := by
  rw [graph_replaced r hi, Graph.setRow, Graph.alloc, linksOf, if_neg ht, decide_eq_true ht]
  congr 2
  funext k
  simp [entriesOf, he]

theorem graph_free (hi : i < sb.ninodes) (ht : d.type = 0) :
    graph sb disk' = (graph sb disk).free i := by
  have hne : d.type ≠ T_DIR := by
    rw [ht]
    decide
  rw [graph_replaced r hi, Graph.setRow, Graph.free, linksOf, if_pos ht, decide_eq_false hne,
    decide_eq_false (not_not.mpr ht)]
  congr 2
  funext k
  simp [entriesOf, hne]

end Replace

theorem ent_congr (h : bytes d disk' = bytes (dinode disk i) disk) (k : ℕ) :
    d.ent disk' k = (dinode disk i).ent disk k := by
  unfold Dinode.ent
  rw [h]

theorem Healthy.setDinode_replaced (h : Healthy sb disk) (hl : Live sb (dinode disk) i)
    (ha : d.addrs = (dinode disk i).addrs) (ht : d.type ≠ 0) :
    Replaced sb (dinode disk) i disk d (setDinode disk i d) ∧
      bytes d (setDinode disk i d) = bytes (dinode disk i) disk ∧
      ∀ k, blockOf d (setDinode disk i d) k = blockOf (dinode disk i) disk k := by
  have hv : Volume sb (update (dinode disk) i d) disk := h.volume.fields hl ha ht
  have hsame := setDinode_same hv hl.1 (live_self hl.1 ht) d
  rw [update_self] at hsame
  refine ⟨(Keeps.refl disk).toOthers.replaced hv hl.1, ?_, fun k => ?_⟩
  · rw [hsame.2, bytes_congr_addrs ha]
  · rw [hsame.1]
    exact blockOf_congr (fun _ => Dinode.ref_congr_addrs ha) k

theorem Volume.alloc {V : ℕ → Dinode} (h : Volume sb V disk) (hd : ¬Live sb V i)
    (ha : ∀ j, d.addrs j = 0) : Volume sb (update V i d) disk := by
  refine ⟨h.toBitmap, h.refs.sub fun c => ?_⟩
  obtain ⟨j, c⟩ := c
  by_cases hji : j = i
  · subst hji
    left
    unfold refOf
    dsimp only
    rw [update_self]
    have : d.ref disk c = 0 := by
      cases c with
      | addr k => rw [Dinode.ref, ha k]; rfl
      | entry k => exact Dinode.ref_entry_none (ha 12)
    rw [this, ite_self]
  · right
    exact Volume.ref_update_of_ne hji c

theorem bytes_eq_zero (ha : ∀ j, d.addrs j = 0) (p : ℕ) : bytes d disk p = 0 := by
  have hb : blockOf d disk (p / 512) = 0 := by
    unfold blockOf
    by_cases hk : p / 512 < 140
    · rw [if_pos hk]
      unfold place
      by_cases h12 : p / 512 < 12
      · rw [if_pos h12, Dinode.ref, ha]
        rfl
      · rw [if_neg h12, Dinode.ref_entry_none (ha 12)]
    · rw [if_neg hk]
  rw [bytes, if_pos hb]

theorem ent_zero (ha : ∀ j, d.addrs j = 0) (k : ℕ) : (d.ent disk k).inum = 0 := by
  have : d.ent disk k = .load zeros (16 * k) :=
    Dirent.load_congr fun i _ => bytes_eq_zero ha _
  rw [this]
  rfl

theorem Healthy.alloc_replaced (h : Healthy sb disk) (hi : i < sb.ninodes)
    (hd : (dinode disk i).type = 0) (ha : ∀ j, d.addrs j = 0) :
    Replaced sb (dinode disk) i disk d (setDinode disk i d) :=
  (Keeps.refl disk).toOthers.replaced (h.volume.alloc (fun hl => hl.2 hd) ha) hi

theorem ent_patch (hb : bytes d' disk' = patch (bytes d disk) (16 * k) 16 src) :
    d'.ent disk' k = .load src 0 ∧ ∀ k', k' ≠ k → d'.ent disk' k' = d.ent disk k' := by
  unfold Dinode.ent
  rw [hb]
  constructor
  · refine Dirent.load_congr fun p hp => ?_
    rw [patch_in _ _ hp, Nat.zero_add]
  · intro k' hk'
    refine Dirent.load_congr fun p hp => patch_out _ _ ?_
    omega

theorem Fs.Written.replaced {off m : ℕ}
    (w : Fs.Written sb (update (dinode disk) i d) i disk off m src d' disk') (hi : i < sb.ninodes)
    (hd : d = { dinode disk i with nlink := d.nlink }) (ht : d.type ≠ 0) :
    Replaced sb (dinode disk) i disk (dinode disk' i) disk' ∧
      d' = { dinode disk' i with nlink := d'.nlink } ∧
      (d = dinode disk i → d' = dinode disk' i) := by
  have hvol := w.volume
  rw [update_idem] at hvol
  rcases w.flushed with he | ⟨hd', hs⟩
  · rw [he]
    exact ⟨⟨w.toOthers.of_update, hvol, he⟩, rfl, fun _ => rfl⟩
  · rw [update_self] at hd'
    subst hd'
    have ha : (dinode disk i).addrs = d'.addrs := by rw [hd]
    have ht' : (dinode disk i).type ≠ 0 := by
      rw [hd] at ht
      exact ht
    rw [hs]
    exact ⟨⟨w.toOthers.of_update, hvol.refield hi ht ha ht', hs⟩, hd, id⟩

/-- No entry is in use behind the end of a directory, and but for the root a directory's only
name for itself is `"."`. -/
structure Tidy (sb : Superblock) (disk : Disk) : Prop where
  tail : ∀ j, IsDir sb disk j → ∀ k, (dinode disk j).size.toNat ≤ 16 * k →
    ((dinode disk j).ent disk k).inum = 0
  own : ∀ j, IsDir sb disk j → j ≠ 1 → ∀ k, ((dinode disk j).ent disk k).inum.toNat = j →
    ((dinode disk j).ent disk k).name = dot

theorem Tidy.replace (h : Tidy sb disk) (r : Replaced sb (dinode disk) i disk d disk')
    (ht : d.type = T_DIR → ∀ k, d.size.toNat ≤ 16 * k → (d.ent disk' k).inum = 0)
    (ho : d.type = T_DIR → i ≠ 1 → ∀ k, (d.ent disk' k).inum.toNat = i →
      (d.ent disk' k).name = dot) : Tidy sb disk' where
  tail j hj := by
    by_cases hji : j = i
    · subst hji
      have := hj.2
      rw [r.self] at this ⊢
      exact ht this
    · have hj' := (isDir_replaced r hji).mp hj
      intro k
      rw [ent_replaced r hji hj'.live, r.inodes j hj.1 hji]
      exact h.tail j hj' k
  own j hj h1 := by
    by_cases hji : j = i
    · subst hji
      have := hj.2
      rw [r.self] at this ⊢
      exact ho this h1
    · have hj' := (isDir_replaced r hji).mp hj
      intro k
      rw [ent_replaced r hji hj'.live]
      exact h.own j hj' h1 k

end Xv6Shed
