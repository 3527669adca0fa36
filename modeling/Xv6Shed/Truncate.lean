import Xv6Shed.Contents

/-!
# Truncating and freeing an inode

`itrunc` gives the blocks of an inode back one by one. A block that no inode holds any more is
zeroed and its bit is cleared, and the other files do not notice. The indirect block itself is
not given back: it stays marked and nobody holds it.
-/

namespace Xv6Shed
open Function Bytes

variable {sb : Superblock} {V : ℕ → Dinode} {disk disk' : Disk} {i j b x : ℕ} {d : Dinode}
  {a : Place}

/-- The disk after `bfree` of block `x` -/
def freed (sb : Superblock) (disk : Disk) (x : ℕ) : Disk := unmark sb (update disk x zeros) x

theorem freed_of_ne (hx : b ≠ x) (hb : b ≠ BBLOCK x sb.ninodes) : freed sb disk x b = disk b := by
  unfold freed unmark
  rw [update_of_ne hb, update_of_ne hx]

theorem freed_self (hx : InUse sb disk x) : freed sb disk x x = zeros := by
  have hne : x ≠ BBLOCK x sb.ninodes := by
    have := Superblock.BBLOCK_lt hx.2.1
    have := hx.1
    omega
  unfold freed unmark
  rw [update_of_ne hne, update_self]

theorem readsb_freed (hx : InUse sb disk x) : readsb (freed sb disk x) = readsb disk := by
  have h1 : BBLOCK x sb.ninodes ≠ 1 := Nat.ne_of_gt Superblock.one_lt_BBLOCK
  have := sb.one_lt_data
  have := hx.1
  rw [freed, unmark, readsb_update_of_ne h1, readsb_update_of_ne (by omega)]

theorem marked_freed (hx : InUse sb disk x) (hb : b < sb.blocks) :
    marked sb (freed sb disk x) b = (!decide (b = x) && marked sb disk b) := by
  rw [freed, marked_unmark, marked_update hx.1 hb]

/-- A block in use that no inode holds -/
structure Loose (sb : Superblock) (V : ℕ → Dinode) (disk : Disk) (x : ℕ) : Prop where
  inUse : InUse sb disk x
  unheld : ∀ a, refOf sb V disk a ≠ x

section Freed

variable (h : Volume sb V disk) (hx : Loose sb V disk x)

include hx

theorem freed_inUse (hb : InUse sb disk b) (hne : b ≠ x) :
    InUse sb (freed sb disk x) b ∧ freed sb disk x b = disk b := by
  refine ⟨⟨hb.1, hb.2.1, ?_⟩, freed_of_ne hne ?_⟩
  · rw [marked_freed hx.inUse hb.2.1, hb.2.2, decide_eq_false hne]
    rfl
  · have := Superblock.BBLOCK_lt hx.inUse.2.1
    have := hb.1
    omega

include h

theorem freed_ref (hl : Live sb V i) (a : Place) :
    (V i).ref (freed sb disk x) a = (V i).ref disk a := by
  refine Dinode.ref_congr fun h0 => (freed_inUse hx (h.indirect_inUse hl h0) ?_).2
  have := hx.unheld (i, .addr 12)
  rwa [refOf_eq hl] at this

theorem freed_refOf : refOf sb V (freed sb disk x) = refOf sb V disk :=
  refOf_congr (fun _ => Iff.rfl) fun _ hl a => freed_ref h hx hl a

theorem Volume.freed : Volume sb V (freed sb disk x) := by
  have hbb := Superblock.BBLOCK_lt hx.inUse.2.1
  have hdata := hx.inUse.1
  refine ⟨⟨?_, ?_, ?_⟩, ?_⟩
  · exact (readsb_freed hx.inUse).trans h.super
  · intro c hc
    have := hx.inUse.2.1
    rw [marked_freed hx.inUse (by omega), h.reserved c hc, decide_eq_false (by omega)]
    rfl
  · intro c hc hf k hk
    by_cases hcx : c = x
    · rw [hcx, freed_self hx.inUse]
      rfl
    · rw [marked_freed hx.inUse hc, decide_eq_false hcx, Bool.not_false, Bool.true_and] at hf
      have hcb : c ≠ BBLOCK x sb.ninodes := by
        intro hcb
        rw [h.reserved c (by omega)] at hf
        cases hf
      rw [freed_of_ne hcx hcb]
      exact h.free c hc hf k hk
  · rw [freed_refOf h hx]
    refine h.refs.mono fun a _ hv => ?_
    exact (freed_inUse hx hv (hx.unheld a)).1

theorem keeps_freed (hi : i < sb.ninodes) : Keeps sb V i disk (Xv6Shed.freed sb disk x) := by
  have hinodes : ∀ j < sb.ninodes, dinode (Xv6Shed.freed sb disk x) j = dinode disk j := by
    intro j hj
    have := Superblock.IBLOCK_lt hj
    have := hx.inUse.1
    rw [Xv6Shed.freed, unmark, dinode_update_of_ne (Superblock.IBLOCK_ne_BBLOCK hj).symm,
      dinode_update_of_ne (by omega)]
  refine ⟨⟨?_, fun j hj _ => hinodes j hj⟩, hinodes i hi⟩
  intro j _ hl
  have hb := blockOf_congr (freed_ref h hx hl)
  refine ⟨hb, bytes_congr hb fun k hk p _ => ?_⟩
  rw [(freed_inUse hx (blockOf_inUse h hl hk) ?_).2]
  have := hx.unheld (j, place k)
  rwa [refOf_eq hl, ← blockOf_eq (lt_of_blockOf hk)] at this

theorem Loose.freed {y : ℕ} (hy : Loose sb V disk y) (hne : y ≠ x) :
    Loose sb V (Xv6Shed.freed sb disk x) y := by
  refine ⟨(freed_inUse hx hy.inUse hne).1, ?_⟩
  rw [freed_refOf h hx]
  exact hy.unheld

end Freed

section Drop

variable {d' : Dinode} (h : Volume sb (update V i d) disk) (hi : i < sb.ninodes) (ht : d.type ≠ 0)
  (ht' : d'.type ≠ 0) (hd : ∀ a, d'.ref disk a = 0 ∨ d'.ref disk a = d.ref disk a)

include h hi ht ht' hd

theorem refOf_drop (c : ℕ × Place) :
    refOf sb (update V i d') disk c = 0 ∨
      refOf sb (update V i d') disk c = refOf sb (update V i d) disk c := by
  obtain ⟨j, c⟩ := c
  by_cases hji : j = i
  · subst hji
    rw [refOf_eq (live_self hi ht), refOf_eq (live_self hi ht'), update_self, update_self]
    exact hd c
  · rw [Volume.ref_update_of_ne hji, Volume.ref_update_of_ne hji]
    exact .inr rfl

theorem Volume.drop : Volume sb (update V i d') disk :=
  ⟨h.toBitmap, h.refs.sub (refOf_drop h hi ht ht' hd)⟩

theorem drop_loose (ha : d.ref disk a ≠ 0) (ha' : d'.ref disk a = 0) :
    Loose sb (update V i d') disk (d.ref disk a) := by
  have hself : refOf sb (update V i d) disk (i, a) = d.ref disk a := by
    rw [refOf_eq (live_self hi ht), update_self]
  refine ⟨?_, ?_⟩
  · rw [← hself]
    exact h.refs.valid (i, a) (by rwa [hself])
  · intro c hc
    rcases refOf_drop h hi ht ht' hd c with h0 | hsame
    · exact ha (hc.symm.trans h0)
    · -- only place `a` had that number
      have hac := h.refs.inj (i, a) c (by rwa [hself]) (by rw [hself, ← hsame, hc])
      rw [← hac, refOf_eq (live_self hi ht'), update_self, ha'] at hc
      exact ha hc.symm

end Drop

theorem Dinode.ref_clear (d : Dinode) (disk : Disk) (j : Fin 13) (a : Place) :
    (d.setAddr j 0).ref disk a = 0 ∨ (d.setAddr j 0).ref disk a = d.ref disk a := by
  cases a with
  | addr k =>
    by_cases hk : k = j
    · left
      simp [Dinode.ref, hk]
    · right
      simp [Dinode.ref, update_of_ne hk]
  | entry k =>
    by_cases hj : j = 12
    · left
      exact ref_entry_none (by simp [hj])
    · right
      have h12 : (d.setAddr j 0).addrs 12 = d.addrs 12 := update_of_ne (Ne.symm hj) _ _
      simp only [Dinode.ref, h12]

/-- Inode `i` is `d'` on the disk, and the other inodes are as they were. -/
structure Replaced (sb : Superblock) (V : ℕ → Dinode) (i : ℕ) (disk : Disk) (d' : Dinode)
    (disk' : Disk) : Prop extends Others sb V i disk disk' where
  volume : Volume sb (update V i d') disk'
  self : dinode disk' i = d'

theorem Others.replaced (h : Others sb V i disk disk') (hv : Volume sb (update V i d) disk')
    (hi : i < sb.ninodes) : Replaced sb V i disk d (Xv6Shed.setDinode disk' i d) :=
  ⟨h.setDinode hv hi d, hv.setDinode hi d, dinode_setDinode _ _ _⟩

/-- The inode without its blocks -/
def emptied (d : Dinode) : Dinode := { d with size := 0, addrs := fun _ => 0 }

/-- A freed inode, as it is on the disk -/
def gone (d : Dinode) : Dinode := { emptied d with type := 0 }

theorem Volume.gone (h : Volume sb (update V i d) disk) (d' : Dinode) (h0 : d'.type = 0) :
    Volume sb (update V i d') disk := by
  refine ⟨h.toBitmap, h.refs.sub fun c => ?_⟩
  obtain ⟨j, c⟩ := c
  by_cases hji : j = i
  · subst hji
    left
    refine if_neg fun hl => hl.2 ?_
    rw [update_self, h0]
  · right
    rw [Volume.ref_update_of_ne hji, Volume.ref_update_of_ne hji]

namespace Fs

variable {NINODE : ℕ} {s : Fs NINODE} {ip : Fin NINODE}

theorem put_bfree (h : readsb disk = sb) (hx : InUse sb disk x) (s : Fs NINODE) (ip : Fin NINODE) :
    (s.put ip d disk).bfree (s.icache ip).dev x = .ok (s.put ip d (freed sb disk x)) := by
  have hsuper : readsb (update disk x zeros) = sb := by
    have := sb.one_lt_data
    have := hx.1
    rw [readsb_update_of_ne (by omega)]
    exact h
  unfold bfree
  rw [put_bwrite]
  dsimp only
  rw [put_disk, hsuper, marked_update hx.1 hx.2.1, hx.2.2, if_neg (by simp), put_setDisk]
  rfl

section

variable (h : Volume sb (update V i d) disk) (hi : i < sb.ninodes)
include h hi

theorem truncDirect_meets (ht : d.type ≠ 0) (s : Fs NINODE) (ip : Fin NINODE) (j : ℕ) :
    Meets (fun _ => False) (truncDirect ip (s.put ip d disk) j) fun s' =>
      ∃ disk', s' = s.put ip (d.setAddr (Fin.ofNat 13 j) 0) disk' ∧
        Volume sb (update V i (d.setAddr (Fin.ofNat 13 j) 0)) disk' ∧ Keeps sb V i disk disk' := by
  unfold truncDirect
  rw [put_icache]
  dsimp only
  generalize Fin.ofNat 13 j = k
  by_cases h0 : d.addrs k = 0
  · have hd : d.setAddr k 0 = d := by
      rw [Dinode.setAddr, ← h0, update_eq_self]
    rw [if_pos h0, hd]
    exact Meets.pure ⟨disk, rfl, h, .refl disk⟩
  · have hv : Volume sb (update V i (d.setAddr k 0)) disk := h.drop hi ht ht (d.ref_clear disk k)
    have hx : Loose sb (update V i (d.setAddr k 0)) disk (d.addrs k).toNat := by
      refine drop_loose (a := .addr k) h hi ht ht (d.ref_clear disk k) ?_ ?_
      · exact fun hz => h0 (UInt32.toNat_inj.mp hz)
      · simp [Dinode.ref]
    rw [if_neg h0, put_bfree h.super hx.inUse, ok_bind, put_setAddr]
    exact Meets.pure ⟨_, rfl, hv.freed hx, (keeps_freed hv hx hi).of_update⟩

theorem truncEntry_meets {y : Buffer}
    (hx : entry y j ≠ 0 → Loose sb (update V i d) disk (entry y j).toNat) (d' : Dinode)
    (s : Fs NINODE) (ip : Fin NINODE) :
    Meets (fun _ => False) (truncEntry (s.icache ip).dev y (s.put ip d' disk) j) fun s' =>
      ∃ disk', s' = s.put ip d' disk' ∧ Volume sb (update V i d) disk' ∧ Keeps sb V i disk disk' ∧
        ∀ x, Loose sb (update V i d) disk x → entry y j ≠ 0 ∧ x = (entry y j).toNat ∨
          Loose sb (update V i d) disk' x := by
  unfold truncEntry
  by_cases h0 : entry y j = 0
  · rw [if_pos h0]
    exact Meets.pure ⟨disk, rfl, h, .refl disk, fun x hx => .inr hx⟩
  · have hx := hx h0
    rw [if_neg h0, put_bfree h.super hx.inUse]
    refine Meets.pure ⟨_, rfl, h.freed hx, (keeps_freed h hx hi).of_update, fun x hx' => ?_⟩
    by_cases hne : x = (entry y j).toNat
    · exact .inl ⟨h0, hne⟩
    · exact .inr (Loose.freed h hx hx' hne)

theorem truncEntries_meets (ht : d.type ≠ 0) (h12 : d.addrs 12 ≠ 0) (s : Fs NINODE)
    (ip : Fin NINODE) :
    Meets (fun _ => False) ((List.range 128).foldlM
      (truncEntry (s.icache ip).dev (disk (d.addrs 12).toNat)) (s.put ip d disk)) fun s' =>
      ∃ disk', s' = s.put ip d disk' ∧ Volume sb (update V i (d.setAddr 12 0)) disk' ∧
        Keeps sb V i disk disk' := by
  generalize hy : disk (d.addrs 12).toNat = y
  have ht' : (d.setAddr 12 0).type ≠ 0 := ht
  have hv : Volume sb (update V i (d.setAddr 12 0)) disk := h.drop hi ht ht' (d.ref_clear disk 12)
  have href : ∀ j : Fin 128, d.ref disk (.entry j) = (entry y j).toNat := by
    intro j
    rw [Dinode.ref_entry h12, hy]
  have hloose : ∀ j < 128, entry y j ≠ 0 →
      Loose sb (update V i (d.setAddr 12 0)) disk (entry y j).toNat := by
    intro j hj h0
    have hl := drop_loose (a := .entry ⟨j, hj⟩) h hi ht ht' (d.ref_clear disk 12)
    rw [href] at hl
    refine hl (fun hz => h0 (UInt32.toNat_inj.mp hz)) (Dinode.ref_entry_none ?_)
    simp
  have hinj : ∀ j < 128, ∀ k < 128, entry y j ≠ 0 → entry y j = entry y k → j = k := by
    intro j hj k hk h0 he
    have hl : Live sb (update V i d) i := live_self hi ht
    have := h.ref_inj (a := .entry ⟨j, hj⟩) (c := .entry ⟨k, hk⟩) hl hl
    rw [update_self, href, href] at this
    have hp := (this (fun hz => h0 (UInt32.toNat_inj.mp hz)) (by rw [he])).2
    exact congrArg Fin.val (Place.entry.inj hp)
  refine (Meets.foldlM_range 128 (I := fun n s' => ∃ disk', s' = s.put ip d disk' ∧
    Volume sb (update V i (d.setAddr 12 0)) disk' ∧ Keeps sb V i disk disk' ∧
    ∀ j < 128, n ≤ j → entry y j ≠ 0 →
      Loose sb (update V i (d.setAddr 12 0)) disk' (entry y j).toNat)
    ⟨disk, rfl, hv, .refl disk, fun j hj _ h0 => hloose j hj h0⟩ ?_).imp ?_
  · rintro n hn _ ⟨disk₁, rfl, hv₁, hk₁, hl₁⟩
    refine (truncEntry_meets hv₁ hi (hl₁ n hn (Nat.le_refl n)) d s ip).imp ?_
    rintro _ ⟨disk₂, rfl, hv₂, hk₂, hl₂⟩
    refine ⟨disk₂, rfl, hv₂, hk₁.trans hk₂, fun j hj hnj h0 => ?_⟩
    rcases hl₂ _ (hl₁ j hj (by omega) h0) with ⟨hn0, he⟩ | hl
    · have := hinj j hj n hn h0 (UInt32.toNat_inj.mp he)
      omega
    · exact hl
  · rintro _ ⟨disk', rfl, hv', hk', _⟩
    exact ⟨disk', rfl, hv', hk'⟩

theorem itrunc_meets (ht : d.type ≠ 0) (hinum : (s.icache ip).inum = i) :
    Meets (fun _ => False) (itrunc ip (s.put ip d disk)) fun s' => ∃ disk',
      s' = s.put ip (emptied d) (setDinode disk' i (emptied d)) ∧
        Volume sb (update V i (emptied d)) disk' ∧ Keeps sb V i disk disk' := by
  unfold itrunc
  refine (Meets.foldlM_range 12 (I := fun n s' => ∃ d' disk', s' = s.put ip d' disk' ∧
    Volume sb (update V i d') disk' ∧ Keeps sb V i disk disk' ∧ d' = { d with addrs := d'.addrs } ∧
    ∀ k : Fin 13, k.val < n → d'.addrs k = 0)
    ⟨d, disk, rfl, h, .refl disk, rfl, fun k hk => absurd hk (Nat.not_lt_zero _)⟩ ?_).bind ?_
  · rintro n hn _ ⟨d₁, disk₁, rfl, hv₁, hk₁, hf₁, h0⟩
    have ht₁ : d₁.type ≠ 0 := by
      rw [hf₁]
      exact ht
    refine (truncDirect_meets hv₁ hi ht₁ s ip n).imp ?_
    rintro _ ⟨disk₂, rfl, hv₂, hk₂⟩
    refine ⟨_, disk₂, rfl, hv₂, hk₁.trans hk₂, ?_, ?_⟩
    · rw [hf₁]
      rfl
    · intro k hk
      rw [Dinode.setAddr_addrs]
      by_cases hkn : k = Fin.ofNat 13 n
      · rw [hkn, update_self]
      · rw [update_of_ne hkn]
        refine h0 k ?_
        have : k.val ≠ n := by
          intro he
          exact hkn (Fin.ext (by rw [he, Fin.val_ofNat, Nat.mod_eq_of_lt (by omega)]))
        omega
  · rintro _ ⟨d₁, disk₁, rfl, hv₁, hk₁, hf₁, h0⟩
    have ht₁ : d₁.type ≠ 0 := by
      rw [hf₁]
      exact ht
    have hempty : ({ d₁.setAddr 12 0 with size := 0 } : Dinode) = emptied d := by
      have haddrs : (d₁.setAddr 12 0).addrs = fun _ => 0 := by
        funext k
        rw [Dinode.setAddr_addrs]
        by_cases hk : k = 12
        · rw [hk, update_self]
        · rw [update_of_ne hk]
          refine h0 k ?_
          have : k.val ≠ 12 := fun he => hk (Fin.ext he)
          omega
      exact Dinode.ext (by rw [hf₁]; rfl) (by rw [hf₁]; rfl) (by rw [hf₁]; rfl) (by rw [hf₁]; rfl)
        rfl haddrs
    have hfinish : ∀ {disk₂ : Disk}, Volume sb (update V i (d₁.setAddr 12 0)) disk₂ →
        Volume sb (update V i (emptied d)) disk₂ := by
      intro disk₂ hv₂
      refine hv₂.refield hi ht₁ ?_ ?_
      · rw [← hempty]
      · exact ht
    rw [put_icache]
    dsimp only
    by_cases h12 : d₁.addrs 12 = 0
    · have hd₁ : d₁.setAddr 12 0 = d₁ := by
        rw [Dinode.setAddr, ← h12, update_eq_self]
      rw [hd₁] at hempty hfinish
      rw [if_pos h12]
      refine Meets.pure ⟨disk₁, ?_, hfinish hv₁, hk₁⟩
      simp only [put_icache, put_setCopy, put_iupdate, hempty, hinum]
    · rw [if_neg h12, put_disk]
      refine (truncEntries_meets hv₁ hi ht₁ h12 s ip).bind ?_
      rintro _ ⟨disk₂, rfl, hv₂, hk₂⟩
      refine Meets.pure ⟨disk₂, ?_, hfinish hv₂, hk₁.trans hk₂⟩
      simp only [put_icache, put_setAddr, put_setCopy, put_iupdate, hempty, hinum]

end

theorem ifree_meets (h : Volume sb V (s.disk (s.icache ip).dev)) (hl : Live sb V i)
    (hV : V i = (s.icache ip).d) (hinum : (s.icache ip).inum = i) :
    Meets (· = .panic "iput busy") (s.ifree ip) fun s' => (s.icache ip).busy = false ∧ ∃ disk',
      s' = s.put ip (gone (V i)) disk' ∧
        Replaced sb V i (s.disk (s.icache ip).dev) (gone (V i)) disk' := by
  unfold ifree
  by_cases hb : (s.icache ip).busy = true
  · rw [if_pos hb]
    exact Meets.error rfl
  · rw [if_neg hb]
    have hbusy : (s.icache ip).busy = false := by simpa using hb
    generalize hs₁ : s.setInode ip { s.icache ip with busy := true } = s₁
    have hx : s₁.icache ip = { s.icache ip with busy := true } := by
      rw [← hs₁]
      exact update_self _ _ _
    have hdisk : s₁.disk = s.disk := by
      rw [← hs₁]
      rfl
    have hself : s₁.put ip (V i) (s.disk (s.icache ip).dev) = s₁ := by
      have := s₁.put_self ip
      rwa [hdisk, hx, ← hV] at this
    have hvol : Volume sb (update V i (V i)) (s.disk (s.icache ip).dev) := by rwa [update_eq_self]
    have hinum₁ : (s₁.icache ip).inum = i := by rw [hx, ← hinum]
    have htr := itrunc_meets hvol hl.1 hl.2 hinum₁
    rw [hself] at htr
    refine (htr.weaken fun _ => False.elim).bind ?_
    rintro _ ⟨disk', rfl, hv', hk'⟩
    have hrep := hk'.toOthers.replaced hv' hl.1
    have hrep' := hrep.toOthers.replaced (hrep.volume.gone (Xv6Shed.gone (V i)) rfl) hl.1
    refine Meets.pure ⟨hbusy, _, ?_, hrep'⟩
    simp only [put_icache, put_setCopy, put_iupdate, hinum₁]
    rw [← hs₁]
    simp only [put, setInode, update_self, update_idem, hbusy, hinum, gone]

end Fs

end Xv6Shed
