import Xv6Shed.Layout

/-!
# Which blocks are in use, and by whom

`Allocated` is about numbers handed out to holders: no two hold the same one, and 0 stands
for none. A `Volume` is a disk on which the inodes `V` hold data blocks in this way. The
inodes are given apart from the disk, since an inode in memory can be ahead of its copy on
the disk.
-/

namespace Xv6Shed
open Function Bytes

section Allocated

variable {ι : Type} {R R' : ι → ℕ} {M M' : ℕ → Prop}

/-- The holders `ι` have different numbers, all of them valid. -/
structure Allocated (R : ι → ℕ) (M : ℕ → Prop) : Prop where
  valid : ∀ a, R a ≠ 0 → M (R a)
  inj : ∀ a c, R a ≠ 0 → R a = R c → a = c

namespace Allocated

theorem mono (h : Allocated R M) (hM : ∀ a, R a ≠ 0 → M (R a) → M' (R a)) : Allocated R M' :=
  ⟨fun a ha => hM a ha (h.valid a ha), h.inj⟩

theorem add [DecidableEq ι] (h : Allocated R M) {a : ι} {b : ℕ} (hb : M b)
    (hnew : ∀ c, R c ≠ b) : Allocated (update R a b) M where
  valid c hc := by
    by_cases hca : c = a
    · rw [hca, update_self]
      exact hb
    · rw [update_of_ne hca] at hc ⊢
      exact h.valid c hc
  inj c e hc hce := by
    by_cases hca : c = a
    · by_cases hea : e = a
      · rw [hca, hea]
      · rw [hca, update_self, update_of_ne hea] at hce
        exact absurd hce.symm (hnew e)
    · rw [update_of_ne hca] at hc hce
      by_cases hea : e = a
      · rw [hea, update_self] at hce
        exact absurd hce (hnew c)
      · rw [update_of_ne hea] at hce
        exact h.inj c e hc hce

theorem sub (h : Allocated R M) (hR : ∀ a, R' a = 0 ∨ R' a = R a) : Allocated R' M where
  valid a ha := by
    have hRa := (hR a).resolve_left ha
    rw [hRa] at ha ⊢
    exact h.valid a ha
  inj a c ha hac := by
    have hRa := (hR a).resolve_left ha
    have hRc := (hR c).resolve_left (hac ▸ ha)
    rw [hRa] at ha hac
    exact h.inj a c ha (hac.trans hRc)

end Allocated

end Allocated

namespace Superblock

/-- The first block after the bitmap -/
def data (sb : Superblock) : ℕ := sb.ninodes / 8 + 3 + (sb.size + 4095) / 4096

/-- The number of blocks that have a bit in the bitmap -/
def blocks (sb : Superblock) : ℕ := 4096 * ((sb.size + 4095) / 4096)

variable {sb : Superblock} {b i : ℕ}

theorem BBLOCK_lt (h : b < sb.blocks) : BBLOCK b sb.ninodes < sb.data := by
  unfold blocks at h
  unfold BBLOCK data
  omega

theorem IBLOCK_lt (h : i < sb.ninodes) : IBLOCK i < sb.data := by
  unfold IBLOCK data
  omega

theorem IBLOCK_ne_BBLOCK (h : i < sb.ninodes) : IBLOCK i ≠ BBLOCK b sb.ninodes := by
  unfold IBLOCK BBLOCK
  omega

theorem one_lt_data (sb : Superblock) : 1 < sb.data := by
  unfold data
  omega

theorem one_lt_IBLOCK : 1 < IBLOCK i := by
  unfold IBLOCK
  omega

theorem one_lt_BBLOCK : 1 < BBLOCK b sb.ninodes := by
  unfold BBLOCK
  omega

end Superblock

/-- Inode `i` is allocated. -/
def Live (sb : Superblock) (V : ℕ → Dinode) (i : ℕ) : Prop := i < sb.ninodes ∧ (V i).type ≠ 0

instance (sb : Superblock) (V : ℕ → Dinode) (i : ℕ) : Decidable (Live sb V i) := by
  unfold Live
  infer_instance

/-- The block number in place `a.2` of inode `a.1`, if the inode is allocated -/
def refOf (sb : Superblock) (V : ℕ → Dinode) (disk : Disk) (a : ℕ × Place) : ℕ :=
  if Live sb V a.1 then (V a.1).ref disk a.2 else 0

def InUse (sb : Superblock) (disk : Disk) (b : ℕ) : Prop :=
  sb.data ≤ b ∧ b < sb.blocks ∧ marked sb disk b = true

/-- The bitmap marks what is reserved, and free blocks are zero. -/
structure Bitmap (sb : Superblock) (disk : Disk) : Prop where
  super : readsb disk = sb
  reserved : ∀ b < sb.data, marked sb disk b = true
  free : ∀ b < sb.blocks, marked sb disk b = false → ∀ k < 512, disk b k = 0

structure Volume (sb : Superblock) (V : ℕ → Dinode) (disk : Disk) : Prop extends
    Bitmap sb disk where
  refs : Allocated (refOf sb V disk) (InUse sb disk)

variable {sb : Superblock} {V V' : ℕ → Dinode} {disk disk' : Disk} {i j b x : ℕ} {d : Dinode}
  {buf : Buffer} {a : Place}

theorem Dinode.ref_entry_none {j : Fin 128} (h : d.addrs 12 = 0) : d.ref disk (.entry j) = 0 :=
  if_pos h

theorem Dinode.ref_entry {j : Fin 128} (h : d.addrs 12 ≠ 0) :
    d.ref disk (.entry j) = (entry (disk (d.addrs 12).toNat) j).toNat :=
  if_neg h

theorem Dinode.ref_congr (h : d.addrs 12 ≠ 0 → disk' (d.addrs 12).toNat = disk (d.addrs 12).toNat) :
    d.ref disk' a = d.ref disk a := by
  cases a with
  | addr j => rfl
  | entry j =>
    by_cases h0 : d.addrs 12 = 0
    · rw [ref_entry_none h0, ref_entry_none h0]
    · rw [ref_entry h0, ref_entry h0, h h0]

theorem entry_zero {y : Buffer} {j : ℕ} (hj : j < 128) (h : ∀ k < 512, y k = 0) :
    entry y j = 0 := by
  have : entry y j = get32 zeros (4 * j) := get32_congr fun k hk => h _ (by omega)
  rw [this, get32_zeros]

theorem Dinode.ref_setAddr {j : Fin 13} {b : UInt32} (h0 : d.addrs j = 0)
    (hz : j = 12 → ∀ k < 512, disk b.toNat k = 0) :
    (d.setAddr j b).ref disk = update (d.ref disk) (.addr j) b.toNat := by
  funext a
  cases a with
  | addr k =>
    by_cases hk : k = j
    · rw [hk, update_self]
      simp [ref]
    · rw [update_of_ne (by simp [hk])]
      simp [ref, update_of_ne hk]
  | entry k =>
    rw [update_of_ne (by simp)]
    by_cases hj : j = 12
    · -- the new indirect block is zero, so it holds no block number
      subst hj
      rw [ref_entry_none h0]
      by_cases hb : b = 0
      · exact ref_entry_none (by simp [hb])
      · rw [ref_entry (by simp [hb]), setAddr_addrs, update_self, entry_zero k.isLt (hz rfl)]
        rfl
    · have h12 : (d.setAddr j b).addrs 12 = d.addrs 12 := update_of_ne (Ne.symm hj) _ _
      by_cases hd : d.addrs 12 = 0
      · rw [ref_entry_none hd, ref_entry_none (h12.trans hd)]
      · rw [ref_entry hd, ref_entry (by rwa [h12]), h12]

theorem Dinode.ref_setEntry {j : Fin 128} {b : UInt32} (h12 : d.addrs 12 ≠ 0) :
    d.ref (update disk (d.addrs 12).toNat (put32 (disk (d.addrs 12).toNat) (4 * j.val) b)) =
      update (d.ref disk) (.entry j) b.toNat := by
  funext a
  cases a with
  | addr k =>
    rw [update_of_ne (by simp)]
    rfl
  | entry k =>
    rw [ref_entry h12, update_self]
    by_cases hk : k = j
    · rw [hk, update_self, entry, get32_put32]
    · have : k.val ≠ j.val := fun h => hk (Fin.ext h)
      rw [update_of_ne (by simp [hk]), ref_entry h12, entry, get32_put32_of_ne (by omega)]
      rfl

theorem Dinode.ref_congr_addrs {d' : Dinode} (h : d'.addrs = d.addrs) :
    d'.ref disk a = d.ref disk a := by
  cases a with
  | addr j => simp only [Dinode.ref, h]
  | entry j => simp only [Dinode.ref, h]

theorem refOf_congr (hV : ∀ i, Live sb V' i ↔ Live sb V i)
    (h : ∀ i, Live sb V i → ∀ a, (V' i).ref disk' a = (V i).ref disk a) :
    refOf sb V' disk' = refOf sb V disk := by
  funext ⟨i, a⟩
  unfold refOf
  by_cases hl : Live sb V i
  · rw [if_pos hl, if_pos ((hV i).mpr hl)]
    exact h i hl a
  · rw [if_neg hl, if_neg (fun hl' => hl ((hV i).mp hl'))]

theorem refOf_eq (h : Live sb V i) (a : Place) : refOf sb V disk (i, a) = (V i).ref disk a :=
  if_pos h

theorem readsb_update_of_ne (h : x ≠ 1) : readsb (update disk x buf) = readsb disk := by
  unfold readsb
  rw [update_of_ne (Ne.symm h)]

namespace Volume

theorem live_ref (h : Volume sb V disk) (hi : Live sb V i) (ha : (V i).ref disk a ≠ 0) :
    InUse sb disk ((V i).ref disk a) := by
  have := h.refs.valid (i, a)
  rw [refOf_eq hi] at this
  exact this ha

theorem ref_inj (h : Volume sb V disk) (hi : Live sb V i) (hj : Live sb V j)
    (ha : (V i).ref disk a ≠ 0) {c : Place} (hac : (V i).ref disk a = (V j).ref disk c) :
    i = j ∧ a = c := by
  have := h.refs.inj (i, a) (j, c)
  rw [refOf_eq hi, refOf_eq hj] at this
  exact Prod.mk.inj (this ha hac)

theorem indirect_inUse (h : Volume sb V disk) (hi : Live sb V i) (h0 : (V i).addrs 12 ≠ 0) :
    InUse sb disk ((V i).addrs 12).toNat := by
  refine h.live_ref (a := .addr 12) hi ?_
  intro h0'
  exact h0 (UInt32.toNat_inj.mp h0')

end Volume

theorem marked_update (hx : sb.data ≤ x) (hb : b < sb.blocks) :
    marked sb (update disk x buf) b = marked sb disk b := by
  have := Superblock.BBLOCK_lt hb
  exact marked_update_of_ne (by omega)

theorem InUse.update (hx : sb.data ≤ x) (h : InUse sb disk b) : InUse sb (update disk x buf) b :=
  ⟨h.1, h.2.1, (marked_update hx h.2.1).trans h.2.2⟩

theorem Bitmap.update (h : Bitmap sb disk) (hx : InUse sb disk x) :
    Bitmap sb (update disk x buf) := by
  obtain ⟨hx, hxb, hm⟩ := hx
  refine ⟨?_, ?_, ?_⟩
  · have := sb.one_lt_data
    rw [readsb_update_of_ne (by omega)]
    exact h.super
  · intro b hb
    rw [marked_update hx (by omega)]
    exact h.reserved b hb
  · intro b hb hf k hk
    rw [marked_update hx hb] at hf
    have hbx : b ≠ x := by
      intro hbx
      rw [hbx, hm] at hf
      cases hf
    rw [update_of_ne hbx]
    exact h.free b hb hf k hk

namespace Volume

theorem update_data (h : Volume sb V disk) (hx : InUse sb disk x)
    (hi : ∀ i, Live sb V i → (V i).ref disk (.addr 12) ≠ x) : Volume sb V (update disk x buf) := by
  have hrefs : refOf sb V (update disk x buf) = refOf sb V disk := by
    refine refOf_congr (fun _ => Iff.rfl) fun i hl a => Dinode.ref_congr fun _ => ?_
    exact update_of_ne (hi i hl) _ _
  refine ⟨h.toBitmap.update hx, ?_⟩
  rw [hrefs]
  exact h.refs.mono fun _ _ hv => hv.update hx.1

/-- A free block, with the bit for it set, can be given to an inode. -/
structure Fresh (sb : Superblock) (V : ℕ → Dinode) (disk : Disk) (b : ℕ) : Prop where
  inUse : InUse sb disk b
  unheld : ∀ a, refOf sb V disk a ≠ b
  zero : ∀ k < 512, disk b k = 0

theorem mark_of_ne (hx : x ≠ BBLOCK b sb.ninodes) : mark sb disk b x = disk x :=
  update_of_ne hx _ _

theorem mark_fresh (h : Volume sb V disk) (hb : b < sb.blocks) (hf : marked sb disk b = false) :
    Volume sb V (mark sb disk b) ∧ Fresh sb V (mark sb disk b) b := by
  have hdata : sb.data ≤ b := by
    by_contra hlt
    have := h.reserved b (by omega)
    rw [hf] at this
    cases this
  have hbb := Superblock.BBLOCK_lt hb
  have hrefs : refOf sb V (mark sb disk b) = refOf sb V disk := by
    refine refOf_congr (fun _ => Iff.rfl) fun i hl a => Dinode.ref_congr fun h0 => mark_of_ne ?_
    have := (h.indirect_inUse hl h0).1
    omega
  refine ⟨⟨⟨?_, ?_, ?_⟩, ?_⟩, ⟨hdata, hb, ?_⟩, ?_, ?_⟩
  · have : BBLOCK b sb.ninodes ≠ 1 := Nat.ne_of_gt Superblock.one_lt_BBLOCK
    exact (readsb_update_of_ne this).trans h.super
  · intro c hc
    rw [marked_mark, h.reserved c hc, Bool.or_true]
  · intro c hc hcf k hk
    rw [marked_mark, Bool.or_eq_false_iff] at hcf
    rw [mark_of_ne]
    · exact h.free c hc hcf.2 k hk
    · intro hcb
      have := h.reserved c (by omega)
      rw [hcf.2] at this
      cases this
  · rw [hrefs]
    refine h.refs.mono fun a _ hv => ⟨hv.1, hv.2.1, ?_⟩
    rw [marked_mark, hv.2.2, Bool.or_true]
  · rw [marked_mark, decide_eq_true rfl, Bool.true_or]
  · intro a ha
    rw [hrefs] at ha
    have hv := h.refs.valid a (by omega)
    rw [ha, InUse, hf] at hv
    cases hv.2.2
  · intro k hk
    rw [mark_of_ne (by omega)]
    exact h.free b hb hf k hk

theorem toNat_ofNat (h : Volume sb V disk) (hb : b < sb.blocks) : (UInt32.ofNat b).toNat = b := by
  have hsize : sb.size < 256 ^ 4 := by
    rw [← h.super]
    exact getLE_lt 4 _ _
  unfold Superblock.blocks at hb
  rw [UInt32.toNat_ofNat', Nat.mod_eq_of_lt (by omega)]

theorem ref_update_of_ne (h : j ≠ i) (a : Place) :
    refOf sb (update V i d) disk (j, a) = refOf sb V disk (j, a) := by
  simp only [refOf, Live, update_of_ne h]

theorem refOf_give (hi : Live sb V i) (hd : d.type ≠ 0)
    (hself : d.ref disk' = update ((V i).ref disk) a b)
    (hother : ∀ j, Live sb V j → j ≠ i → ∀ c, (V j).ref disk' c = (V j).ref disk c) :
    refOf sb (update V i d) disk' = update (refOf sb V disk) (i, a) b := by
  funext ⟨j, c⟩
  by_cases hji : j = i
  · subst hji
    have hl : Live sb (update V j d) j := ⟨hi.1, by rwa [update_self]⟩
    rw [refOf_eq hl, update_self, hself]
    by_cases hca : c = a
    · rw [hca, update_self, update_self]
    · rw [update_of_ne hca, update_of_ne (by simp [hca]), refOf_eq hi]
  · rw [update_of_ne (by simp [hji]), ref_update_of_ne hji]
    by_cases hl : Live sb V j
    · rw [refOf_eq hl, refOf_eq hl, hother j hl hji]
    · simp only [refOf, if_neg hl]

theorem setAddr (h : Volume sb V disk) (hf : Fresh sb V disk b) {j : Fin 13} (hi : Live sb V i)
    (h0 : (V i).addrs j = 0) :
    Volume sb (update V i ((V i).setAddr j (UInt32.ofNat b))) disk := by
  have hb : (UInt32.ofNat b).toNat = b := h.toNat_ofNat hf.inUse.2.1
  have hself : ((V i).setAddr j (UInt32.ofNat b)).ref disk =
      update ((V i).ref disk) (.addr j) b := by
    rw [Dinode.ref_setAddr h0 (fun _ => by rw [hb]; exact hf.zero), hb]
  have hrefs : refOf sb (update V i ((V i).setAddr j (UInt32.ofNat b))) disk =
      update (refOf sb V disk) (i, .addr j) b :=
    refOf_give hi (by exact hi.2) hself fun _ _ _ _ => rfl
  refine ⟨h.toBitmap, ?_⟩
  rw [hrefs]
  exact h.refs.add hf.inUse hf.unheld

/-- The disk after a store to entry `j` of the indirect block of `d` -/
def putEntry (d : Dinode) (disk : Disk) (j : Fin 128) (b : ℕ) : Disk :=
  update disk (d.addrs 12).toNat
    (put32 (disk (d.addrs 12).toNat) (4 * j.val) (UInt32.ofNat b))

theorem setEntry (h : Volume sb V disk) (hf : Fresh sb V disk b) {j : Fin 128} (hi : Live sb V i)
    (h12 : (V i).addrs 12 ≠ 0) : Volume sb V (putEntry (V i) disk j b) := by
  have hb : (UInt32.ofNat b).toNat = b := h.toNat_ofNat hf.inUse.2.1
  have hx := h.indirect_inUse hi h12
  have hself : (V i).ref (putEntry (V i) disk j b) = update ((V i).ref disk) (.entry j) b := by
    rw [putEntry, Dinode.ref_setEntry h12, hb]
  have hother : ∀ k, Live sb V k → k ≠ i → ∀ c,
      (V k).ref (putEntry (V i) disk j b) c = (V k).ref disk c := by
    intro k hk hki c
    refine Dinode.ref_congr fun hk12 => update_of_ne ?_ _ _
    intro heq
    refine hki (h.ref_inj (c := .addr 12) hk hi (a := .addr 12) ?_ heq).1
    exact fun h0 => hk12 (UInt32.toNat_inj.mp h0)
  have hrefs := refOf_give hi hi.2 hself hother
  rw [update_eq_self] at hrefs
  refine ⟨h.toBitmap.update hx, ?_⟩
  rw [hrefs]
  exact (h.refs.add hf.inUse hf.unheld).mono fun _ _ hv => hv.update hx.1

end Volume

end Xv6Shed
