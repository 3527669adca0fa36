import Xv6Shed.Fs
import Xv6Shed.Triple
import Xv6Shed.Volume

/-!
# File contents

What `bmap`, `readi` and `writei` do to the bytes of files. `Evolves` says how one inode `i`
may go on while it is written: it gains blocks, and the other inodes keep their blocks and
their bytes.
-/

namespace Xv6Shed
open Function Bytes

variable {sb : Superblock} {V : ℕ → Dinode} {disk disk' disk'' : Disk} {i j k b x : ℕ}
  {d d' d'' : Dinode} {buf : Buffer} {a : Place}

theorem place_ne_indirect (k : ℕ) (h : k < 140) : place k ≠ .addr 12 := by
  unfold place
  by_cases hk : k < 12
  · rw [if_pos hk]
    intro he
    have := congrArg Fin.val (Place.addr.inj he)
    rw [Fin.val_ofNat, Nat.mod_eq_of_lt (by omega)] at this
    change k = 12 at this
    omega
  · rw [if_neg hk]
    intro he
    cases he

theorem place_inj (hj : j < 140) (hk : k < 140) (h : place j = place k) : j = k := by
  unfold place at h
  by_cases hj' : j < 12 <;> by_cases hk' : k < 12
  · rw [if_pos hj', if_pos hk'] at h
    have := congrArg Fin.val (Place.addr.inj h)
    rwa [Fin.val_ofNat, Fin.val_ofNat, Nat.mod_eq_of_lt (by omega),
      Nat.mod_eq_of_lt (by omega)] at this
  · rw [if_pos hj', if_neg hk'] at h
    cases h
  · rw [if_neg hj', if_pos hk'] at h
    cases h
  · rw [if_neg hj', if_neg hk'] at h
    have := congrArg Fin.val (Place.entry.inj h)
    rw [Fin.val_ofNat, Fin.val_ofNat, Nat.mod_eq_of_lt (by omega),
      Nat.mod_eq_of_lt (by omega)] at this
    omega

theorem place_indirect (e : Fin 128) : place (e.val + 12) = .entry e := by
  unfold place
  rw [if_neg (by omega)]
  exact congrArg Place.entry (Fin.ext (by rw [Fin.val_ofNat, Nat.mod_eq_of_lt (by omega)]; omega))

theorem place_entry {e : Fin 128} (h : place k = .entry e) (hk : k < 140) : k = e.val + 12 := by
  unfold place at h
  split_ifs at h with hlt
  have := congrArg Fin.val (Place.entry.inj h)
  rw [Fin.val_ofNat, Nat.mod_eq_of_lt (by omega)] at this
  omega

theorem blockOf_eq (h : k < 140) : blockOf d disk k = d.ref disk (place k) := if_pos h

theorem lt_of_blockOf (h : blockOf d disk k ≠ 0) : k < 140 := by
  by_contra hk
  exact h (if_neg hk)

theorem blockOf_congr (h : ∀ a, d'.ref disk' a = d.ref disk a) (k : ℕ) :
    blockOf d' disk' k = blockOf d disk k := by
  unfold blockOf
  rw [h]

theorem bytes_congr (hb : ∀ k, blockOf d' disk' k = blockOf d disk k)
    (h : ∀ k, blockOf d disk k ≠ 0 → ∀ p < 512,
      disk' (blockOf d disk k) p = disk (blockOf d disk k) p) :
    bytes d' disk' = bytes d disk := by
  funext p
  unfold bytes
  rw [hb]
  by_cases h0 : blockOf d disk (p / 512) = 0
  · rw [if_pos h0, if_pos h0]
  · rw [if_neg h0, if_neg h0, h _ h0 _ (Nat.mod_lt _ (by omega))]

theorem bytes_give (href : d'.ref disk' = update (d.ref disk) a b) (h0 : d.ref disk a = 0)
    (hz : ∀ p < 512, disk' b p = 0)
    (hag : ∀ k, blockOf d disk k ≠ 0 → disk' (blockOf d disk k) = disk (blockOf d disk k)) :
    (∀ k, blockOf d disk k ≠ 0 → blockOf d' disk' k = blockOf d disk k) ∧
      bytes d' disk' = bytes d disk := by
  have hsame : ∀ k, place k ≠ a → blockOf d' disk' k = blockOf d disk k := by
    intro k hk
    unfold blockOf
    rw [href, update_of_ne hk]
  constructor
  · intro k hk
    refine hsame k ?_
    intro hka
    rw [blockOf_eq (lt_of_blockOf hk), hka, h0] at hk
    exact hk rfl
  · funext p
    unfold bytes
    by_cases hp : p / 512 < 140 ∧ place (p / 512) = a
    · have hd : blockOf d disk (p / 512) = 0 := by rw [blockOf_eq hp.1, hp.2, h0]
      have hd' : blockOf d' disk' (p / 512) = b := by
        rw [blockOf_eq hp.1, href, hp.2, update_self]
      rw [if_pos hd, hd', hz _ (Nat.mod_lt _ (by omega)), ite_self]
    · have hd : blockOf d' disk' (p / 512) = blockOf d disk (p / 512) := by
        by_cases h140 : p / 512 < 140
        · exact hsame _ fun hpa => hp ⟨h140, hpa⟩
        · simp only [blockOf, if_neg h140]
      rw [hd]
      by_cases h0 : blockOf d disk (p / 512) = 0
      · rw [if_pos h0, if_pos h0]
      · rw [if_neg h0, if_neg h0, hag _ h0]

/-- The other inodes keep their blocks and bytes, and their place in the table of inodes is as
it was. -/
structure Others (sb : Superblock) (V : ℕ → Dinode) (i : ℕ) (disk disk' : Disk) : Prop where
  other : ∀ j, j ≠ i → Live sb V j → (∀ k, blockOf (V j) disk' k = blockOf (V j) disk k) ∧
    bytes (V j) disk' = bytes (V j) disk
  inodes : ∀ j < sb.ninodes, j ≠ i → dinode disk' j = dinode disk j

/-- The same, and inode `i` in the table is as it was. -/
structure Keeps (sb : Superblock) (V : ℕ → Dinode) (i : ℕ) (disk disk' : Disk) : Prop extends
    Others sb V i disk disk' where
  self : dinode disk' i = dinode disk i

theorem Others.trans (h : Others sb V i disk disk') (h' : Others sb V i disk' disk'') :
    Others sb V i disk disk'' where
  other j hj hl := by
    obtain ⟨hb, hc⟩ := h.other j hj hl
    obtain ⟨hb', hc'⟩ := h'.other j hj hl
    exact ⟨fun k => (hb' k).trans (hb k), hc'.trans hc⟩
  inodes j hj hji := (h'.inodes j hj hji).trans (h.inodes j hj hji)

theorem Keeps.refl (disk : Disk) : Keeps sb V i disk disk :=
  ⟨⟨fun _ _ _ => ⟨fun _ => rfl, rfl⟩, fun _ _ _ => rfl⟩, rfl⟩

theorem Keeps.trans (h : Keeps sb V i disk disk') (h' : Keeps sb V i disk' disk'') :
    Keeps sb V i disk disk'' :=
  ⟨h.toOthers.trans h'.toOthers, h'.self.trans h.self⟩

structure Evolves (sb : Superblock) (V : ℕ → Dinode) (i : ℕ) (d : Dinode) (disk : Disk)
    (d' : Dinode) (disk' : Disk) : Prop extends Keeps sb V i disk disk' where
  volume : Volume sb (update V i d') disk'
  fields : d' = { d with addrs := d'.addrs }
  keep : ∀ k, blockOf d disk k ≠ 0 → blockOf d' disk' k = blockOf d disk k

namespace Evolves

theorem refl (h : Volume sb (update V i d) disk) : Evolves sb V i d disk d disk :=
  ⟨.refl disk, h, rfl, fun _ _ => rfl⟩

theorem trans (h : Evolves sb V i d disk d' disk') (h' : Evolves sb V i d' disk' d'' disk'') :
    Evolves sb V i d disk d'' disk'' where
  toKeeps := h.toKeeps.trans h'.toKeeps
  volume := h'.volume
  fields := by
    rw [h'.fields, h.fields]
  keep k hk := by
    have := h.keep k hk
    rw [h'.keep k (by rwa [this]), this]

theorem type_eq (h : Evolves sb V i d disk d' disk') : d'.type = d.type := by
  rw [h.fields]

theorem size_eq (h : Evolves sb V i d disk d' disk') : d'.size = d.size := by
  rw [h.fields]

end Evolves

theorem live_update (h : Live sb V j) (hji : j ≠ i) : Live sb (update V i d) j := by
  simpa only [Live, update_of_ne hji] using h

theorem Others.of_update (h : Others sb (update V i d) i disk disk') :
    Others sb V i disk disk' where
  other j hj hl := by
    have := h.other j hj (live_update hl hj)
    rwa [update_of_ne hj] at this
  inodes := h.inodes

theorem Keeps.of_update (h : Keeps sb (update V i d) i disk disk') : Keeps sb V i disk disk' :=
  ⟨h.toOthers.of_update, h.self⟩

theorem live_self (hi : i < sb.ninodes) (ht : d.type ≠ 0) : Live sb (update V i d) i :=
  ⟨hi, by rwa [update_self]⟩

/-- The other inodes keep their blocks and bytes if no block in use changes but those that
inode `i` holds. -/
theorem other_of_frame (h : Volume sb (update V i d) disk) (hi : i < sb.ninodes) (ht : d.type ≠ 0)
    (hframe : ∀ x, InUse sb disk x → (∀ a, d.ref disk a ≠ x) → disk' x = disk x)
    (hj : j ≠ i) (hl : Live sb V j) :
    (∀ k, blockOf (V j) disk' k = blockOf (V j) disk k) ∧
      bytes (V j) disk' = bytes (V j) disk := by
  have hlj : Live sb (update V i d) j := live_update hl hj
  have hVj : update V i d j = V j := update_of_ne hj _ _
  have hVi : update V i d i = d := update_self _ _ _
  have hsame : ∀ a, (V j).ref disk a ≠ 0 → disk' ((V j).ref disk a) = disk ((V j).ref disk a) := by
    intro a ha
    refine hframe _ ?_ ?_
    · have := h.live_ref (a := a) hlj
      rw [hVj] at this
      exact this ha
    · intro c hc
      have := h.ref_inj (a := a) (c := c) hlj (live_self hi ht)
      rw [hVj, hVi] at this
      exact hj (this ha hc.symm).1
  have hb : ∀ k, blockOf (V j) disk' k = blockOf (V j) disk k := by
    refine blockOf_congr fun a => Dinode.ref_congr fun h0 => hsame (.addr 12) ?_
    exact fun hz => h0 (UInt32.toNat_inj.mp hz)
  refine ⟨hb, bytes_congr hb fun k hk p _ => ?_⟩
  have h140 := lt_of_blockOf hk
  rw [blockOf_eq h140] at hk ⊢
  rw [hsame _ hk]

theorem evolves_give (h : Volume sb (update V i d) disk) (h' : Volume sb (update V i d') disk')
    (hi : i < sb.ninodes) (ht : d.type ≠ 0) (hfields : d' = { d with addrs := d'.addrs })
    (href : d'.ref disk' = update (d.ref disk) a b) (h0 : d.ref disk a = 0)
    (hz : ∀ p < 512, disk' b p = 0)
    (hframe : ∀ x, InUse sb disk x → d.ref disk (.addr 12) ≠ x → disk' x = disk x)
    (hinodes : ∀ j < sb.ninodes, dinode disk' j = dinode disk j) :
    Evolves sb V i d disk d' disk' ∧ bytes d' disk' = bytes d disk := by
  have hVi : update V i d i = d := update_self _ _ _
  have hag : ∀ k, blockOf d disk k ≠ 0 → disk' (blockOf d disk k) = disk (blockOf d disk k) := by
    intro k hk
    have h140 := lt_of_blockOf hk
    rw [blockOf_eq h140] at hk ⊢
    refine hframe _ ?_ ?_
    · have := h.live_ref (a := place k) (live_self hi ht)
      rw [hVi] at this
      exact this hk
    · intro hc
      have := h.ref_inj (a := place k) (c := .addr 12) (live_self hi ht) (live_self hi ht)
      rw [hVi] at this
      exact place_ne_indirect k h140 (this hk hc.symm).2
  obtain ⟨hkeep, hbytes⟩ := bytes_give href h0 hz hag
  refine ⟨⟨⟨⟨fun j hj hl => ?_, fun j hj _ => hinodes j hj⟩, hinodes i hi⟩, h', hfields,
    hkeep⟩, hbytes⟩
  exact other_of_frame h hi ht (fun x hx hc => hframe x hx (hc _)) hj hl

theorem dinode_mark (j : ℕ) (hj : j < sb.ninodes) : dinode (mark sb disk b) j = dinode disk j :=
  dinode_update_of_ne (Superblock.IBLOCK_ne_BBLOCK hj).symm

theorem mark_inUse (hb : b < sb.blocks) (hx : InUse sb disk x) : mark sb disk b x = disk x := by
  have := Superblock.BBLOCK_lt hb
  exact Volume.mark_of_ne (by have := hx.1; omega)

section Give

variable (h : Volume sb (update V i d) disk) (hi : i < sb.ninodes) (ht : d.type ≠ 0)
  (hb : b < sb.blocks) (hf : marked sb disk b = false)

include h hi ht hb

theorem ref_mark : d.ref (mark sb disk b) = d.ref disk := by
  funext a
  refine Dinode.ref_congr fun h0 => mark_inUse hb ?_
  have := h.indirect_inUse (live_self hi ht)
  rw [update_self] at this
  exact this h0

include hf

theorem evolves_addr {j : Fin 13} (h0 : d.addrs j = 0) :
    (Evolves sb V i d disk (d.setAddr j (UInt32.ofNat b)) (mark sb disk b) ∧
      bytes (d.setAddr j (UInt32.ofNat b)) (mark sb disk b) = bytes d disk) ∧
    (d.setAddr j (UInt32.ofNat b)).ref (mark sb disk b) (.addr j) = b ∧ b ≠ 0 := by
  obtain ⟨hv, hfr⟩ := h.mark_fresh hb hf
  have hbn : (UInt32.ofNat b).toNat = b := h.toNat_ofNat hb
  have hvi := hv.setAddr (j := j) hfr (live_self hi ht) (by rwa [update_self])
  rw [update_self, update_idem] at hvi
  have href : (d.setAddr j (UInt32.ofNat b)).ref (mark sb disk b) =
      update (d.ref disk) (.addr j) b := by
    rw [Dinode.ref_setAddr h0 (fun _ => by rw [hbn]; exact hfr.zero), hbn, ref_mark h hi ht hb]
  refine ⟨evolves_give h hvi hi ht rfl href ?_ hfr.zero ?_ dinode_mark, ?_, ?_⟩
  · simp only [Dinode.ref, h0]
    rfl
  · intro x hx _
    exact mark_inUse hb hx
  · rw [href, update_self]
  · have := sb.one_lt_data
    have := hfr.inUse.1
    omega

theorem evolves_entry {j : Fin 128} (h12 : d.addrs 12 ≠ 0) (h0 : d.ref disk (.entry j) = 0) :
    (Evolves sb V i d disk d (Volume.putEntry d (mark sb disk b) j b) ∧
      bytes d (Volume.putEntry d (mark sb disk b) j b) = bytes d disk) ∧
    d.ref (Volume.putEntry d (mark sb disk b) j b) (.entry j) = b ∧ b ≠ 0 := by
  obtain ⟨hv, hfr⟩ := h.mark_fresh hb hf
  have hbn : (UInt32.ofNat b).toNat = b := h.toNat_ofNat hb
  have hind : InUse sb disk (d.addrs 12).toNat := by
    have := h.indirect_inUse (live_self hi ht)
    rw [update_self] at this
    exact this h12
  have hvi := hv.setEntry (j := j) hfr (live_self hi ht) (by rwa [update_self])
  rw [update_self] at hvi
  have href : d.ref (Volume.putEntry d (mark sb disk b) j b) =
      update (d.ref disk) (.entry j) b := by
    rw [Volume.putEntry, Dinode.ref_setEntry h12, hbn, ref_mark h hi ht hb]
  have hbx : b ≠ (d.addrs 12).toNat := by
    intro hbx
    have := hind.2.2
    rw [← hbx, hf] at this
    cases this
  refine ⟨evolves_give h hvi hi ht rfl href h0 ?_ ?_ ?_, ?_, ?_⟩
  · intro p hp
    rw [Volume.putEntry, update_of_ne hbx]
    exact hfr.zero p hp
  · intro x hx hne
    have hne' : x ≠ (d.addrs 12).toNat := Ne.symm hne
    rw [Volume.putEntry, update_of_ne hne']
    exact mark_inUse hb hx
  · intro j hj
    have := Superblock.IBLOCK_lt hj
    have := hind.1
    rw [Volume.putEntry, dinode_update_of_ne (by omega), dinode_mark j hj]
  · rw [href, update_self]
  · have := sb.one_lt_data
    have := hfr.inUse.1
    omega

end Give

theorem evolves_write (h : Volume sb (update V i d) disk) (hi : i < sb.ninodes) (ht : d.type ≠ 0)
    {o m : ℕ} (hk : blockOf d disk k ≠ 0) (hom : o + m ≤ 512) (src : Buffer) :
    let disk' := update disk (blockOf d disk k) (patch (disk (blockOf d disk k)) o m src)
    (Evolves sb V i d disk d disk' ∧ bytes d disk' = patch (bytes d disk) (512 * k + o) m src) ∧
      ∀ k', blockOf d disk' k' = blockOf d disk k' := by
  intro disk'
  have hVi : update V i d i = d := update_self _ _ _
  have h140 := lt_of_blockOf hk
  have hlive : Live sb (update V i d) i := live_self hi ht
  have href : blockOf d disk k = d.ref disk (place k) := blockOf_eq h140
  have hin : InUse sb disk (blockOf d disk k) := by
    have := h.live_ref (a := place k) hlive
    rw [hVi, ← href] at this
    exact this hk
  have hind : ∀ j, Live sb (update V i d) j →
      (update V i d j).ref disk (.addr 12) ≠ blockOf d disk k := by
    intro j hj he
    have := h.ref_inj (a := place k) (c := .addr 12) hlive hj
    rw [hVi, ← href] at this
    exact place_ne_indirect k h140 (this hk he.symm).2
  have hblock : ∀ k', blockOf d disk' k' = blockOf d disk k' := by
    refine blockOf_congr fun a => Dinode.ref_congr fun _ => update_of_ne ?_ _ _
    have := hind i hlive
    rw [hVi] at this
    exact this
  have hinodes : ∀ j < sb.ninodes, dinode disk' j = dinode disk j := by
    intro j hj
    have := Superblock.IBLOCK_lt hj
    have := hin.1
    exact dinode_update_of_ne (by omega)
  refine ⟨⟨⟨⟨⟨?_, fun j hj _ => hinodes j hj⟩, hinodes i hi⟩, h.update_data hin hind, rfl,
    fun k' _ => hblock k'⟩, ?_⟩, hblock⟩
  · intro j hj hl
    refine other_of_frame h hi ht ?_ hj hl
    intro x _ hc
    refine update_of_ne ?_ _ _
    rw [href]
    exact (hc _).symm
  · funext p
    have hp := Nat.div_add_mod p 512
    have hp' := Nat.mod_lt p (y := 512) (by omega)
    unfold bytes
    rw [hblock]
    by_cases hpk : p / 512 = k
    · rw [hpk, if_neg hk]
      change update disk _ _ _ _ = _
      rw [update_self]
      unfold patch
      by_cases hin : o ≤ p % 512 ∧ p % 512 < o + m
      · rw [if_pos hin, if_pos (by omega)]
        congr 1
        omega
      · rw [if_neg hin, if_neg (by omega)]
        simp only [hpk, if_neg hk]
    · rw [patch_out _ _ (by omega)]
      by_cases h0 : blockOf d disk (p / 512) = 0
      · rw [if_pos h0, if_pos h0]
      · rw [if_neg h0, if_neg h0]
        refine congrFun (update_of_ne ?_ _ _) _
        intro he
        have h140' := lt_of_blockOf h0
        rw [blockOf_eq h140'] at h0 he
        have := h.ref_inj (a := place (p / 512)) (c := place k) hlive hlive
        rw [hVi, ← href] at this
        exact hpk (place_inj h140' h140 (this h0 he).2)

theorem blockOf_inUse (h : Volume sb V disk) (hl : Live sb V j) (hk : blockOf (V j) disk k ≠ 0) :
    InUse sb disk (blockOf (V j) disk k) := by
  have h140 := lt_of_blockOf hk
  rw [blockOf_eq h140] at hk ⊢
  exact h.live_ref hl hk

theorem setDinode_same (h : Volume sb V disk) (hi : i < sb.ninodes) (hl : Live sb V j)
    (d : Dinode) : (∀ k, blockOf (V j) (setDinode disk i d) k = blockOf (V j) disk k) ∧
      bytes (V j) (setDinode disk i d) = bytes (V j) disk := by
  have hib := Superblock.IBLOCK_lt hi
  have hb : ∀ k, blockOf (V j) (setDinode disk i d) k = blockOf (V j) disk k := by
    refine blockOf_congr fun a => Dinode.ref_congr fun h0 => setDinode_of_ne ?_
    have := (h.indirect_inUse hl h0).1
    omega
  refine ⟨hb, bytes_congr hb fun k hk p _ => ?_⟩
  rw [setDinode_of_ne]
  have := (blockOf_inUse h hl hk).1
  omega

theorem marked_setDinode (hi : i < sb.ninodes) (disk : Disk) (d : Dinode) (b : ℕ) :
    marked sb (setDinode disk i d) b = marked sb disk b :=
  marked_update_of_ne (Superblock.IBLOCK_ne_BBLOCK hi)

theorem Volume.setDinode (h : Volume sb V disk) (hi : i < sb.ninodes) (d : Dinode) :
    Volume sb V (setDinode disk i d) := by
  have hib := Superblock.IBLOCK_lt hi
  have hmark := marked_setDinode hi disk d
  have hrefs : refOf sb V (Xv6Shed.setDinode disk i d) = refOf sb V disk := by
    refine refOf_congr (fun _ => Iff.rfl) fun j hl a => Dinode.ref_congr fun h0 => ?_
    have := (h.indirect_inUse hl h0).1
    exact setDinode_of_ne (by omega)
  refine ⟨⟨?_, ?_, ?_⟩, ?_⟩
  · have : IBLOCK i ≠ 1 := Nat.ne_of_gt Superblock.one_lt_IBLOCK
    exact (readsb_update_of_ne this).trans h.super
  · intro b hb
    rw [hmark]
    exact h.reserved b hb
  · intro b hb hf k hk
    rw [hmark] at hf
    rw [setDinode_of_ne]
    · exact h.free b hb hf k hk
    · intro he
      have := h.reserved b (by omega)
      rw [hf] at this
      cases this
  · rw [hrefs]
    refine h.refs.mono fun a _ hv => ⟨hv.1, hv.2.1, ?_⟩
    rw [hmark]
    exact hv.2.2

theorem Others.setDinode (h : Others sb V i disk disk') (hv : Volume sb (update V i d) disk')
    (hi : i < sb.ninodes) (d' : Dinode) : Others sb V i disk (setDinode disk' i d') where
  other j hj hl := by
    have hsame := setDinode_same hv hi (live_update hl hj) d'
    rw [update_of_ne hj] at hsame
    obtain ⟨hb, hc⟩ := h.other j hj hl
    exact ⟨fun k => (hsame.1 k).trans (hb k), hsame.2.trans hc⟩
  inodes j hj hji := by rw [dinode_setDinode_of_ne hji, h.inodes j hj hji]

theorem Volume.fields (h : Volume sb V disk) (hl : Live sb V i) (ha : d.addrs = (V i).addrs)
    (ht : d.type ≠ 0) : Volume sb (update V i d) disk := by
  have hrefs : refOf sb (update V i d) disk = refOf sb V disk := by
    refine refOf_congr (fun j => ?_) fun j _ a => ?_
    · by_cases hji : j = i
      · subst hji
        exact ⟨fun _ => hl, fun _ => live_self hl.1 ht⟩
      · simp only [Live, update_of_ne hji]
    · by_cases hji : j = i
      · subst hji
        rw [update_self]
        exact Dinode.ref_congr_addrs ha
      · rw [update_of_ne hji]
  refine ⟨h.toBitmap, ?_⟩
  rw [hrefs]
  exact h.refs

theorem Volume.refield (h : Volume sb (update V i d) disk) (hi : i < sb.ninodes) (ht : d.type ≠ 0)
    (ha : d'.addrs = d.addrs) (ht' : d'.type ≠ 0) : Volume sb (update V i d') disk := by
  have := h.fields (d := d') (live_self hi ht) (by rw [update_self, ha]) ht'
  rwa [update_idem] at this

/-- A file has all blocks up to its size. -/
def Mapped (d : Dinode) (disk : Disk) : Prop := ∀ k, 512 * k < d.size.toNat → blockOf d disk k ≠ 0

instance (d : Dinode) (disk : Disk) : Decidable (Mapped d disk) :=
  decidable_of_iff (∀ k < (d.size.toNat + 511) / 512, blockOf d disk k ≠ 0)
    ⟨fun h k hk => h k (by omega), fun h k hk => h k (by omega)⟩

theorem Mapped.size_le (h : Mapped d disk) : d.size.toNat ≤ 140 * 512 := by
  by_contra hlt
  exact absurd (lt_of_blockOf (h 140 (by omega))) (by omega)

theorem bytes_congr_addrs (h : d'.addrs = d.addrs) : bytes d' disk = bytes d disk :=
  bytes_congr (blockOf_congr fun _ => Dinode.ref_congr_addrs h) fun _ _ _ _ => rfl

/-- What `balloc` says when no block is free -/
def outOfBlocks : Fault := .panic "balloc: out of blocks"

namespace Fs

variable {NINODE off n : ℕ} {s : Fs NINODE} {ip : Fin NINODE}

/-- The state while inode `ip` is worked on, with the copy of the inode and its disk. -/
def put (ip : Fin NINODE) (d : Dinode) (disk : Disk) (s : Fs NINODE) : Fs NINODE where
  disk := update s.disk (s.icache ip).dev disk
  icache := update s.icache ip { s.icache ip with d := d }

theorem put_self (ip : Fin NINODE) (s : Fs NINODE) :
    s.put ip (s.icache ip).d (s.disk (s.icache ip).dev) = s := by
  unfold put
  rw [update_eq_self, update_eq_self]

@[simp] theorem put_icache (ip : Fin NINODE) (d : Dinode) (disk : Disk) (s : Fs NINODE) :
    (s.put ip d disk).icache ip = { s.icache ip with d := d } :=
  update_self _ _ _

theorem put_icache_of_ne {jp : Fin NINODE} (h : jp ≠ ip) (d : Dinode) (disk : Disk)
    (s : Fs NINODE) : (s.put ip d disk).icache jp = s.icache jp :=
  update_of_ne h _ _

@[simp] theorem put_disk (ip : Fin NINODE) (d : Dinode) (disk : Disk) (s : Fs NINODE) :
    (s.put ip d disk).disk (s.icache ip).dev = disk :=
  update_self _ _ _

@[simp] theorem put_setDisk (ip : Fin NINODE) (d : Dinode) (disk disk' : Disk) (s : Fs NINODE) :
    (s.put ip d disk).setDisk (s.icache ip).dev disk' = s.put ip d disk' := by
  simp [put, setDisk, update_idem]

@[simp] theorem put_bwrite (ip : Fin NINODE) (d : Dinode) (disk : Disk) (b : ℕ) (x : Buffer)
    (s : Fs NINODE) :
    (s.put ip d disk).bwrite (s.icache ip).dev b x = s.put ip d (update disk b x) := by
  simp [bwrite]

@[simp] theorem put_setCopy (ip : Fin NINODE) (d d' : Dinode) (disk : Disk) (s : Fs NINODE) :
    (s.put ip d disk).setCopy ip d' = s.put ip d' disk := by
  simp [put, setCopy, setInode, update_idem]

@[simp] theorem put_setAddr (ip : Fin NINODE) (d : Dinode) (disk : Disk) (j : Fin 13) (a : UInt32)
    (s : Fs NINODE) : (s.put ip d disk).setAddr ip j a = s.put ip (d.setAddr j a) disk := by
  simp [setAddr]

@[simp] theorem put_iupdate (ip : Fin NINODE) (d : Dinode) (disk : Disk) (s : Fs NINODE) :
    (s.put ip d disk).iupdate ip = s.put ip d (setDinode disk (s.icache ip).inum d) := by
  simp [iupdate]

theorem balloc_meets (s : Fs NINODE) (dev : ℕ) :
    Meets (· = outOfBlocks) (s.balloc dev) fun r =>
      r.1 < (readsb (s.disk dev)).blocks ∧ marked (readsb (s.disk dev)) (s.disk dev) r.1 = false ∧
        r.2 = s.setDisk dev (mark (readsb (s.disk dev)) (s.disk dev) r.1) := by
  unfold balloc
  cases hf : Bytes.first (fun b => !marked (readsb (s.disk dev)) (s.disk dev) b)
      (4096 * (((readsb (s.disk dev)).size + 4095) / 4096)) 0 with
  | none =>
    simp only [hf]
    exact Meets.error rfl
  | some b =>
    simp only [hf]
    obtain ⟨_, hb, ht⟩ := first_eq_some hf
    refine Meets.pure ⟨?_, ?_, rfl⟩
    · rw [Nat.zero_add] at hb
      exact hb
    · rw [Bool.not_eq_true'] at ht
      exact ht

section Bmap

variable (h : Volume sb (update V i d) disk) (hi : i < sb.ninodes) (ht : d.type ≠ 0)

include h

theorem put_balloc (s : Fs NINODE) (ip : Fin NINODE) :
    Meets (· = outOfBlocks) ((s.put ip d disk).balloc (s.icache ip).dev) fun r =>
      r.1 < sb.blocks ∧ marked sb disk r.1 = false ∧ r.2 = s.put ip d (mark sb disk r.1) := by
  have := (s.put ip d disk).balloc_meets (s.icache ip).dev
  simpa only [put_disk, put_setDisk, h.super] using this

include hi ht

theorem loadIndirect_meets (s : Fs NINODE) (ip : Fin NINODE) :
    Meets (· = outOfBlocks) ((s.put ip d disk).loadIndirect ip) fun s' =>
      ∃ d' disk', s' = s.put ip d' disk' ∧ Evolves sb V i d disk d' disk' ∧
        bytes d' disk' = bytes d disk ∧ d'.addrs 12 ≠ 0 ∧
        (d.addrs 12 ≠ 0 → d' = d ∧ disk' = disk) := by
  unfold loadIndirect
  rw [put_icache]
  by_cases h12 : d.addrs 12 = 0
  · rw [if_pos h12]
    refine (put_balloc h s ip).bind ?_
    rintro ⟨b, s'⟩ ⟨hb, hf, hs'⟩
    dsimp only at hb hf hs' ⊢
    subst hs'
    obtain ⟨⟨he, hbytes⟩, href, hb0⟩ := evolves_addr h hi ht hb hf h12
    rw [put_setAddr]
    refine Meets.pure ⟨_, _, rfl, he, hbytes, ?_, fun h12' => absurd h12 h12'⟩
    intro hz
    rw [Dinode.ref, hz] at href
    exact hb0 href.symm
  · rw [if_neg h12]
    exact Meets.pure ⟨d, disk, rfl, .refl h, rfl, h12, fun _ => ⟨rfl, rfl⟩⟩

theorem bmap_meets (s : Fs NINODE) (ip : Fin NINODE) {bn : ℕ} (hbn : bn < 140) :
    Meets (· = outOfBlocks) ((s.put ip d disk).bmap true ip bn) fun r =>
      ∃ d' disk', r.2 = s.put ip d' disk' ∧ Evolves sb V i d disk d' disk' ∧
        bytes d' disk' = bytes d disk ∧ r.1 = blockOf d' disk' bn ∧ r.1 ≠ 0 ∧
        (blockOf d disk bn ≠ 0 → d' = d ∧ disk' = disk) := by
  unfold bmap
  rw [put_icache]
  dsimp only
  by_cases hdir : bn < 12
  · have hpl : place bn = .addr (Fin.ofNat 13 bn) := if_pos hdir
    have hblock : ∀ (e : Dinode) (y : Disk), blockOf e y bn =
        (e.addrs (Fin.ofNat 13 bn)).toNat := by
      intro e y
      rw [blockOf_eq hbn, hpl, Dinode.ref]
    rw [if_pos hdir]
    by_cases h0 : d.addrs (Fin.ofNat 13 bn) = 0
    · rw [if_neg (not_not.mpr h0), if_neg (by simp)]
      refine (put_balloc h s ip).bind ?_
      rintro ⟨b, s'⟩ ⟨hb, hf, hs'⟩
      dsimp only at hb hf hs' ⊢
      subst hs'
      obtain ⟨⟨he, hbytes⟩, href, hb0⟩ := evolves_addr h hi ht hb hf h0
      rw [put_setAddr, h.toNat_ofNat hb]
      refine Meets.pure ⟨_, _, rfl, he, hbytes, ?_, hb0, ?_⟩
      · rw [blockOf_eq hbn, hpl]
        exact href.symm
      · intro hne
        rw [hblock, h0] at hne
        exact absurd rfl hne
    · rw [if_pos h0]
      refine Meets.pure ⟨d, disk, rfl, .refl h, rfl, (hblock d disk).symm, ?_, fun _ => ⟨rfl, rfl⟩⟩
      exact fun hz => h0 (UInt32.toNat_inj.mp hz)
  · have hpl : place bn = .entry (Fin.ofNat 128 (bn - 12)) := if_neg hdir
    have hj : (Fin.ofNat 128 (bn - 12)).val = bn - 12 := Nat.mod_eq_of_lt (by omega)
    have hind : blockOf d disk bn ≠ 0 → d.addrs 12 ≠ 0 := by
      intro hne h12
      rw [blockOf_eq hbn, hpl, Dinode.ref_entry_none h12] at hne
      exact hne rfl
    rw [if_neg hdir, if_pos (by omega), if_neg (by simp)]
    refine (loadIndirect_meets h hi ht s ip).bind ?_
    rintro s₁ ⟨d₁, disk₁, rfl, he₁, hb₁, h12, hsame⟩
    simp only [put_icache, put_disk]
    have ht₁ : d₁.type ≠ 0 := by rwa [he₁.type_eq]
    have href : d₁.ref disk₁ (.entry (Fin.ofNat 128 (bn - 12))) =
        (entry (disk₁ (d₁.addrs 12).toNat) (bn - 12)).toNat := by
      rw [Dinode.ref_entry h12, hj]
    by_cases h0 : entry (disk₁ (d₁.addrs 12).toNat) (bn - 12) = 0
    · rw [if_neg (not_not.mpr h0), if_neg (by simp)]
      refine (put_balloc he₁.volume s ip).bind ?_
      rintro ⟨b, s'⟩ ⟨hb, hf, hs'⟩
      dsimp only at hb hf hs' ⊢
      subst hs'
      have hx := he₁.volume.indirect_inUse (live_self hi ht₁)
      rw [update_self] at hx
      have hput : update (mark sb disk₁ b) (d₁.addrs 12).toNat
          (put32 (disk₁ (d₁.addrs 12).toNat) (4 * (bn - 12)) (UInt32.ofNat b)) =
            Volume.putEntry d₁ (mark sb disk₁ b) (Fin.ofNat 128 (bn - 12)) b := by
        rw [Volume.putEntry, hj, mark_inUse hb (hx h12)]
      obtain ⟨⟨he, hbytes⟩, hb', hb0⟩ :=
        evolves_entry he₁.volume hi ht₁ hb hf h12 (by rw [href, h0]; rfl)
      rw [put_bwrite, hput, h.toNat_ofNat hb]
      refine Meets.pure ⟨_, _, rfl, he₁.trans he, hbytes.trans hb₁, ?_, hb0, ?_⟩
      · rw [blockOf_eq hbn, hpl]
        exact hb'.symm
      · intro hne
        obtain ⟨rfl, rfl⟩ := hsame (hind hne)
        rw [blockOf_eq hbn, hpl, href, h0] at hne
        exact absurd rfl hne
    · rw [if_pos h0]
      refine Meets.pure ⟨d₁, disk₁, rfl, he₁, hb₁, ?_, ?_, fun hne => hsame (hind hne)⟩
      · rw [blockOf_eq hbn, hpl, href]
      · exact fun hz => h0 (UInt32.toNat_inj.mp hz)

end Bmap

/-- Block `k` has one of the `n` bytes from `off` on. -/
def Spans (off n k : ℕ) : Prop := ∃ p, off ≤ p ∧ p < off + n ∧ p / 512 = k

theorem writeLoop_meets (s : Fs NINODE) (ip : Fin NINODE) (hi : i < sb.ninodes) (fuel : ℕ)
    (src : Buffer) (off n : ℕ) (hn : n < fuel) (hoff : off + n ≤ 140 * 512)
    (h : Volume sb (update V i d) disk) (ht : d.type ≠ 0) :
    Meets (· = outOfBlocks) (writeLoop ip fuel src off n (s.put ip d disk)) fun r =>
      ∃ d' disk', r = (off + n, s.put ip d' disk') ∧ Evolves sb V i d disk d' disk' ∧
        bytes d' disk' = patch (bytes d disk) off n src ∧
        (∀ k, Spans off n k → blockOf d' disk' k ≠ 0) ∧
        ((∀ k, Spans off n k → blockOf d disk k ≠ 0) → d' = d) := by
  induction fuel generalizing src off n d disk with
  | zero => omega
  | succ fuel ih =>
    unfold writeLoop
    by_cases h0 : n = 0
    · rw [if_pos h0]
      subst h0
      refine Meets.pure ⟨d, disk, rfl, .refl h, (patch_zero _ _ _).symm, ?_, fun _ => rfl⟩
      rintro k ⟨p, _, _, _⟩
      omega
    · rw [if_neg h0]
      have hbn : off / 512 < 140 := by omega
      refine (bmap_meets h hi ht s ip hbn).bind ?_
      rintro ⟨b, s₁⟩ ⟨d₁, disk₁, hs₁, he₁, hb₁, hb, hb0, hsame⟩
      dsimp only at hs₁ hb hb0 ⊢
      subst hs₁ hb
      have ht₁ : d₁.type ≠ 0 := by rwa [he₁.type_eq]
      rw [put_icache]
      dsimp only
      rw [put_disk, put_bwrite]
      have hmod := Nat.mod_lt off (y := 512) (by omega)
      have hdiv := Nat.div_add_mod off 512
      obtain ⟨⟨he₂, hb₂⟩, hblock⟩ := evolves_write he₁.volume hi ht₁ (o := off % 512)
        (m := min n (512 - off % 512)) hb0 (by omega) src
      rw [hdiv, hb₁] at hb₂
      refine (ih (fun i => src (i + min n (512 - off % 512))) (off + min n (512 - off % 512))
        (n - min n (512 - off % 512)) (by omega) (by omega) he₂.volume ht₁).imp ?_
      rintro _ ⟨d₃, disk₃, rfl, he₃, hb₃, hmapped, hclean⟩
      refine ⟨d₃, disk₃, ?_, (he₁.trans he₂).trans he₃, ?_, ?_, ?_⟩
      · rw [Nat.add_assoc, Nat.add_sub_cancel' (by omega)]
      · rw [hb₃, hb₂, patch_patch _ _ _ _ (by omega)]
      · rintro k ⟨p, hp₁, hp₂, hpk⟩
        by_cases hp : p < off + min n (512 - off % 512)
        · -- a byte of the block written in this round
          have hk : k = off / 512 := by omega
          rw [hk, he₃.keep _ (by rwa [hblock]), hblock]
          exact hb0
        · exact hmapped k ⟨p, by omega, by omega, hpk⟩
      · intro hall
        obtain ⟨rfl, rfl⟩ := hsame (hall _ ⟨off, Nat.le_refl _, by omega, rfl⟩)
        refine hclean ?_
        rintro k ⟨p, hp₁, hp₂, hpk⟩
        rw [hblock]
        exact hall k ⟨p, by omega, by omega, hpk⟩

/-- What `writei` of `m` bytes at `off` leaves of inode `i` and of its disk -/
structure Written (sb : Superblock) (V : ℕ → Dinode) (i : ℕ) (disk : Disk) (off m : ℕ)
    (src : Buffer) (d' : Dinode) (disk' : Disk) : Prop extends Others sb V i disk disk' where
  volume : Volume sb (update V i d') disk'
  fields : d' = { V i with addrs := d'.addrs, size := d'.size }
  size : d'.size.toNat = max (V i).size.toNat (off + m)
  bytes : bytes d' disk' = patch (bytes (V i) disk) off m src
  mapped : Mapped d' disk'
  flushed : dinode disk' i = d' ∨ d' = V i ∧ dinode disk' i = dinode disk i

theorem Written.synced {m : ℕ} {src : Buffer} (w : Written sb V i disk off m src d' disk')
    (h : dinode disk i = V i) : dinode disk' i = d' := by
  rcases w.flushed with hd | ⟨hd, hs⟩
  · exact hd
  · rw [hs, h, hd]

theorem writei_meets (h : Volume sb V (s.disk (s.icache ip).dev)) (hV : V i = (s.icache ip).d)
    (hinum : (s.icache ip).inum = i) (hl : Live sb V i) (hdev : (V i).type ≠ T_DEV)
    (hm : Mapped (V i) (s.disk (s.icache ip).dev)) (driver : ℤ) (src : Buffer)
    (hoff : off ≤ (V i).size.toNat ∨ 0 < n ∧ 512 * (off / 512) < (V i).size.toNat)
    (hn : off + n < 2 ^ 32) :
    Meets (· = outOfBlocks) (s.writei driver ip src off n) fun r => ∃ d' disk',
      r = (((min n (140 * 512 - off) : ℕ) : ℤ), s.put ip d' disk') ∧
      Written sb V i (s.disk (s.icache ip).dev) off (min n (140 * 512 - off)) src d' disk' := by
  have hsize := hm.size_le
  have hself : s = s.put ip (V i) (s.disk (s.icache ip).dev) := by rw [hV, put_self]
  have hn' : (if 140 * 512 < off + n then (140 * 512 + 2 ^ 32 - off) % 2 ^ 32 else n) =
      min n (140 * 512 - off) := by
    split <;> omega
  generalize hdisk : s.disk (s.icache ip).dev = disk at h hm hself ⊢
  generalize hmin : min n (140 * 512 - off) = m at hn' ⊢
  have hvol : Volume sb (update V i (V i)) disk := by rwa [update_eq_self]
  unfold writei
  rw [← hV, if_neg hdev, if_neg (by omega)]
  simp only [hn']
  have hloop := writeLoop_meets s ip hl.1 (m + 1) src off m (by omega) (by omega) hvol hl.2
  rw [← hself] at hloop
  refine hloop.bind ?_
  rintro _ ⟨d₁, disk₁, rfl, he, hb, hspan, hclean⟩
  dsimp only
  rw [put_icache]
  dsimp only
  have ht₁ : d₁.type ≠ 0 := by
    rw [he.type_eq]
    exact hl.2
  have hsize₁ := he.size_eq
  have hmapped : ∀ k, 512 * k < max (V i).size.toNat (off + m) → blockOf d₁ disk₁ k ≠ 0 := by
    intro k hk
    by_cases hks : 512 * k < (V i).size.toNat
    · rw [he.keep k (hm k hks)]
      exact hm k hks
    · exact hspan k ⟨max off (512 * k), by omega, by omega, by omega⟩
  by_cases hgrow : 0 < m ∧ d₁.size.toNat < off + m
  · rw [if_pos hgrow, put_setCopy, put_iupdate, hinum]
    have hoffm : (UInt32.ofNat (off + m)).toNat = off + m := by
      rw [UInt32.toNat_ofNat', Nat.mod_eq_of_lt (by omega)]
    have hfields : ({ d₁ with size := UInt32.ofNat (off + m) } : Dinode) =
        { V i with addrs := d₁.addrs, size := UInt32.ofNat (off + m) } := by
      rw [he.fields]
    generalize hd₂ : ({ d₁ with size := UInt32.ofNat (off + m) } : Dinode) = d₂ at hfields ⊢
    have ha : d₂.addrs = d₁.addrs := by rw [← hd₂]
    have ht₂ : d₂.type ≠ 0 := by
      rw [hfields]
      exact hl.2
    have hsize₂ : d₂.size.toNat = off + m := by rw [hfields, hoffm]
    have hvol₂ : Volume sb (update V i d₂) disk₁ := he.volume.refield hl.1 ht₁ ha ht₂
    have hblock : ∀ k, blockOf d₂ disk₁ k = blockOf d₁ disk₁ k :=
      blockOf_congr fun _ => Dinode.ref_congr_addrs ha
    have hsame := setDinode_same hvol₂ hl.1 (live_self hl.1 ht₂) d₂
    rw [update_self] at hsame
    refine Meets.pure ⟨d₂, _, rfl, he.toOthers.setDinode hvol₂ hl.1 d₂, hvol₂.setDinode hl.1 d₂,
      ?_, ?_, ?_, ?_, .inl (dinode_setDinode _ _ _)⟩
    · rw [ha, hfields]
    · rw [hsize₂]
      rw [hsize₁] at hgrow
      omega
    · rw [hsame.2, bytes_congr_addrs ha, hb]
    · intro k hk
      rw [hsame.1, hblock]
      exact hmapped k (by omega)
  · rw [if_neg hgrow]
    have hle : off + m ≤ (V i).size.toNat := by
      rw [hsize₁] at hgrow
      omega
    have hd : d₁ = V i := by
      refine hclean ?_
      rintro k ⟨p, _, _, hp⟩
      exact hm k (by omega)
    refine Meets.pure ⟨d₁, disk₁, rfl, he.toOthers, he.volume, ?_, ?_, hb, ?_, .inr ⟨hd, he.self⟩⟩
    · rw [hd]
    · rw [hsize₁]
      omega
    · intro k hk
      rw [hsize₁] at hk
      exact hmapped k (by omega)

theorem bmap_read {alloc : Bool} (hk : blockOf (s.icache ip).d (s.disk (s.icache ip).dev) k ≠ 0) :
    s.bmap alloc ip k = .ok (blockOf (s.icache ip).d (s.disk (s.icache ip).dev) k, s) := by
  have h140 := lt_of_blockOf hk
  rw [blockOf_eq h140] at hk ⊢
  unfold bmap
  dsimp only
  by_cases hdir : k < 12
  · have hpl : place k = .addr (Fin.ofNat 13 k) := if_pos hdir
    rw [hpl, Dinode.ref] at hk ⊢
    rw [if_pos hdir, if_pos (fun h0 => hk (by rw [h0]; rfl))]
    rfl
  · have hpl : place k = .entry (Fin.ofNat 128 (k - 12)) := if_neg hdir
    have hj : (Fin.ofNat 128 (k - 12)).val = k - 12 := Nat.mod_eq_of_lt (by omega)
    have h12 : (s.icache ip).d.addrs 12 ≠ 0 := by
      intro h12
      rw [hpl, Dinode.ref_entry_none h12] at hk
      exact hk rfl
    have hload : s.loadIndirect ip = .ok s := by
      unfold loadIndirect
      rw [if_neg h12]
      rfl
    rw [hpl, Dinode.ref_entry h12, hj] at hk ⊢
    rw [if_neg hdir, if_pos (by omega), if_neg (fun h => h12 h.1), hload, ok_bind,
      if_pos (fun h0 => hk (by rw [h0]; rfl))]
    rfl

theorem readLoop_ok (s : Fs NINODE) (ip : Fin NINODE) (fuel off n : ℕ) (hn : n < fuel)
    (hmap : ∀ k, Spans off n k → blockOf (s.icache ip).d (s.disk (s.icache ip).dev) k ≠ 0) :
    ∃ dst, s.readLoop ip fuel off n = .ok dst ∧
      ∀ p < n, dst p = bytes (s.icache ip).d (s.disk (s.icache ip).dev) (off + p) := by
  induction fuel generalizing off n with
  | zero => omega
  | succ fuel ih =>
    unfold readLoop
    by_cases h0 : n = 0
    · rw [if_pos h0]
      exact ⟨zeros, rfl, fun p hp => by omega⟩
    · have hmod := Nat.mod_lt off (y := 512) (by omega)
      have hdiv := Nat.div_add_mod off 512
      have hk := hmap (off / 512) ⟨off, Nat.le_refl _, by omega, rfl⟩
      have hmap' : ∀ k, Spans (off + min n (512 - off % 512)) (n - min n (512 - off % 512)) k →
          blockOf (s.icache ip).d (s.disk (s.icache ip).dev) k ≠ 0 := by
        rintro k ⟨p, h₁, h₂, hp⟩
        exact hmap k ⟨p, by omega, by omega, hp⟩
      obtain ⟨rest, hrest, hbytes⟩ := ih _ _ (by omega) hmap'
      rw [if_neg h0, bmap_read hk, ok_bind]
      simp only [hrest, ok_bind]
      refine ⟨_, rfl, ?_⟩
      intro p hp
      by_cases hpm : p < min n (512 - off % 512)
      · have hpd : (off + p) / 512 = off / 512 := by omega
        have hpm' : (off + p) % 512 = off % 512 + p := by omega
        rw [if_pos hpm, bytes, hpd, if_neg hk, hpm']
      · rw [if_neg hpm, hbytes _ (by omega)]
        congr 1
        omega

theorem readi_ok (hdev : (s.icache ip).d.type ≠ T_DEV)
    (hm : Mapped (s.icache ip).d (s.disk (s.icache ip).dev)) (driver : ℤ)
    (hoff : off ≤ (s.icache ip).d.size.toNat) (hn : off + n < 2 ^ 32) :
    ∃ dst, s.readi driver ip off n =
        .ok (((min n ((s.icache ip).d.size.toNat - off) : ℕ) : ℤ), dst) ∧
      ∀ p < min n ((s.icache ip).d.size.toNat - off),
        dst p = bytes (s.icache ip).d (s.disk (s.icache ip).dev) (off + p) := by
  have hn' : (if (s.icache ip).d.size.toNat < off + n
      then (s.icache ip).d.size.toNat - off else n) =
      min n ((s.icache ip).d.size.toNat - off) := by
    split <;> omega
  have hspan : ∀ k, Spans off (min n ((s.icache ip).d.size.toNat - off)) k →
      blockOf (s.icache ip).d (s.disk (s.icache ip).dev) k ≠ 0 := by
    rintro k ⟨p, _, _, hp⟩
    exact hm k (by omega)
  obtain ⟨dst, hdst, hbytes⟩ := readLoop_ok s ip
    (min n ((s.icache ip).d.size.toNat - off) + 1) off _ (Nat.lt_succ_self _) hspan
  refine ⟨dst, ?_, hbytes⟩
  unfold readi
  dsimp only
  rw [if_neg hdev, if_neg (by omega), hn', hdst]
  rfl

end Fs

end Xv6Shed
