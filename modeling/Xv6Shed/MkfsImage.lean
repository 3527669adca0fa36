import Xv6Shed.Directories
import Xv6Shed.Image
import Xv6Shed.MkfsBlocks
import Mathlib.Data.List.GetD

/-!
# The kernel reads what mkfs has written

Each `iappend` is a `writei` on a disk whose bitmap marks the blocks before `freeblock`, and what is
known of `writei` tells what the kernel finds on the image.
-/

namespace Xv6Shed
open Function Bytes

namespace Mkfs

variable {m m' : Mkfs} {d d' : Dinode} {NINODE i x j n inum : ℕ} {V : ℕ → Dinode}
  {disk disk' : Disk} {type : UInt16} {l : List UInt8} {p : Buffer} {reads : List (List UInt8)}
  {f : InputFile} {fs : List InputFile} {es : List (ℕ × List UInt8)}

theorem rinode_marks (hi : i < 200) : m.rinode i = some (dinode m.marks i) := by
  have hb : i2b i < 1024 := by unfold i2b; omega
  have h28 : IBLOCK i ≠ 28 := by unfold IBLOCK; omega
  rw [rinode, rsect, if_pos hb, dinode, marks_of_ne h28]
  rfl

theorem winode_marks (hi : i < 200) (d : Dinode) : ∃ m', m.winode i d = some m' ∧
    m'.marks = setDinode m.marks i d ∧ m'.freeblock = m.freeblock ∧ Grows m m' := by
  have hb : i2b i < 1024 := by unfold i2b; omega
  have h28 : IBLOCK i ≠ 28 := by unfold IBLOCK; omega
  refine ⟨m.wsect (i2b i) (d.store (m.disk (i2b i)) (64 * (i % 8))), ?_, ?_, rfl,
    (Grows.refl m).wsect _ _⟩
  · rw [winode, rsect, if_pos hb]
    rfl
  · change (m.wsect (IBLOCK i) _).marks = _
    rw [marks_wsect h28, setDinode, marks_of_ne h28]
    rfl

/-- Inode `i` is a file with these bytes, and has no block behind them. -/
structure HasFile (disk : Disk) (i : ℕ) (type : UInt16) (l : List UInt8) : Prop where
  type : (dinode disk i).type = type
  nlink : (dinode disk i).nlink = 1
  size : (dinode disk i).size.toNat = l.length
  mapped : Mapped (dinode disk i) disk
  ends : ∀ k, l.length ≤ 512 * k → blockOf (dinode disk i) disk k = 0
  bytes : ∀ p, bytes (dinode disk i) disk p = l.getD p 0

theorem HasFile.other (h : HasFile disk j type l) (r : Replaced super (dinode disk) i disk d disk')
    (hji : j ≠ i) (hj : j < 200) (ht : type ≠ 0) : HasFile disk' j type l := by
  have hd : dinode disk' j = dinode disk j := r.inodes j hj hji
  obtain ⟨hblock, hbytes⟩ := r.other j hji ⟨hj, by rwa [h.type]⟩
  refine ⟨hd ▸ h.type, hd ▸ h.nlink, hd ▸ h.size, ?_, ?_, ?_⟩
  · intro k hk
    rw [hd] at hk ⊢
    rw [hblock]
    exact h.mapped k hk
  · intro k hk
    rw [hd, hblock]
    exact h.ends k hk
  · intro p
    rw [hd, hbytes]
    exact h.bytes p

/-- A kernel that has inode `i` locked -/
def kernel (disk : Disk) (i : ℕ) : Fs 1 :=
  ⟨fun _ => disk, fun _ => ⟨1, i, 1, true, true, dinode disk i⟩⟩

theorem put_kernel (disk : Disk) (i : ℕ) :
    (kernel disk i).put 0 (dinode disk i) disk = kernel disk i :=
  Fs.put_self 0 (kernel disk i)

theorem iappend_grows (hi : i < 200) (hm : m.iappend i p n = some m') :
    Grows m m' := by
  unfold iappend at hm
  simp only [Option.bind_eq_bind, Option.bind_eq_some_iff] at hm
  obtain ⟨d, -, ⟨off', d₁, m₁⟩, hloop, hw⟩ := hm
  obtain ⟨m₂, hw', -, -, hgrows⟩ := winode_marks (m := m₁) hi { d₁ with size := UInt32.ofNat off' }
  obtain rfl : m₂ = m' := Option.some_inj.mp (hw'.symm.trans hw)
  exact (iappendLoop_grows hloop).trans hgrows

section

variable (hvol : Volume super (dinode m.marks) m.marks) (hi : i < 200)
include hvol hi

theorem iappend_writei (ht : (dinode m.marks i).type ≠ 0) (hdev : (dinode m.marks i).type ≠ T_DEV)
    (hmap : Mapped (dinode m.marks i) m.marks) (hn : 0 < n) (hm : m.iappend i p n = some m')
    (hf : m'.freeblock ≤ 4096) :
    ∃ d', Fs.Written super (dinode m.marks) i m.marks
      (dinode m.marks i).size.toNat n p d' m'.marks := by
  unfold iappend at hm
  rw [rinode_marks hi] at hm
  simp only [Option.bind_eq_bind, Option.bind_some, Option.bind_eq_some_iff] at hm
  obtain ⟨⟨off', d₁, m₁⟩, hloop, hw⟩ := hm
  obtain ⟨m₂, hw', hmarks, hfb, -⟩ := winode_marks (m := m₁) hi
    { d₁ with size := UInt32.ofNat off' }
  obtain rfl : m₂ = m' := Option.some_inj.mp (hw'.symm.trans hw)
  have hsize := (iappendLoop_size hloop).resolve_left (by omega)
  have hd : Volume super (update (dinode m.marks) i (dinode m.marks i)) m.marks := by
    rwa [update_eq_self]
  have hwrite := iappendLoop_marks (kernel m.marks i) 0 hi hd ht hloop (hfb ▸ hf)
  obtain ⟨d₂, disk₂, heq, he, -⟩ := (Fs.writeLoop_meets (kernel m.marks i) 0 hi _ p _ n
    (Nat.lt_succ_self n) hsize hd ht).of_ok hwrite
  obtain ⟨rfl, hput⟩ := Prod.mk.inj heq
  obtain ⟨rfl, rfl⟩ := put_inj hput
  rw [put_kernel] at hwrite
  have hwritei : (kernel m.marks i).writei (-1) 0 p (dinode m.marks i).size.toNat n =
      .ok ((n : ℤ), (kernel m.marks i).put 0
        { d₁ with size := UInt32.ofNat ((dinode m.marks i).size.toNat + n) } m₂.marks) := by
    have hn' : (if 140 * 512 < (dinode m.marks i).size.toNat + n then
        (140 * 512 + 2 ^ 32 - (dinode m.marks i).size.toNat) % 2 ^ 32 else n) = n :=
      if_neg (by omega)
    unfold Fs.writei
    rw [show ((kernel m.marks i).icache 0).d = dinode m.marks i from rfl, if_neg hdev,
      if_neg (by omega)]
    simp only [hn']
    rw [hwrite, ok_bind]
    dsimp only
    rw [Fs.put_icache]
    dsimp only
    rw [if_pos ⟨hn, by rw [he.size_eq]; omega⟩, Fs.put_setCopy, Fs.put_iupdate, hmarks]
    rfl
  have hvol' : Volume super (dinode m.marks)
      ((kernel m.marks i).disk ((kernel m.marks i).icache 0).dev) := hvol
  obtain ⟨d', disk', heq', hwritten⟩ := (Fs.writei_meets hvol' rfl rfl ⟨hi, ht⟩ hdev hmap (-1) p
    (.inl (Nat.le_refl _)) (by omega)).of_ok hwritei
  obtain ⟨rfl, rfl⟩ := put_inj (Prod.mk.inj heq').2
  have hmin : min n (140 * 512 - (dinode m.marks i).size.toNat) = n := by omega
  rw [hmin] at hwritten
  exact ⟨_, hwritten⟩

theorem iappend_filled (ht : (dinode m.marks i).type ≠ 0) (hm : m.iappend i p n = some m')
    (hf : m'.freeblock ≤ 4096) :
    Filled (Fs.Spans (dinode m.marks i).size.toNat n) m
      (dinode m.marks i) m' (dinode m'.marks i) := by
  have hvol' : Volume super (update (dinode m.marks) i (dinode m.marks i)) m.marks := by
    rwa [update_eq_self]
  unfold iappend at hm
  rw [rinode_marks hi] at hm
  simp only [Option.bind_eq_bind, Option.bind_some, Option.bind_eq_some_iff] at hm
  obtain ⟨⟨off', d₁, m₁⟩, hloop, hw⟩ := hm
  obtain ⟨m₂, hw', hmarks, hfb, -⟩ :=
    winode_marks (m := m₁) hi { d₁ with size := UInt32.ofNat off' }
  obtain rfl : m₂ = m' := Option.some_inj.mp (hw'.symm.trans hw)
  rw [hfb] at hf
  obtain ⟨hfilled, ht₁, hvol₁⟩ := iappendLoop_filled hi hvol' ht hloop hf
  refine hfilled.congr hfb fun a => ?_
  rw [hmarks, dinode_setDinode, Dinode.ref_congr_addrs (d := d₁) rfl]
  refine Dinode.ref_congr fun h12 => setDinode_of_ne ?_
  have hlive : Live super (update (dinode m.marks) i d₁) i := ⟨hi, by rwa [update_self]⟩
  have hdata := (hvol₁.indirect_inUse hlive (by rwa [update_self])).1
  rw [update_self] at hdata
  exact Nat.ne_of_gt ((Superblock.IBLOCK_lt hi).trans_le hdata)

theorem iappend_marks {q : List UInt8} (h : HasFile m.marks i type l)
    (ht : type = T_DIR ∨ type = T_FILE) (hp : ∀ k < q.length, p k = q.getD k 0) (hq : q ≠ [])
    (hm : m.iappend i p q.length = some m') (hf : m'.freeblock ≤ 4096) :
    Replaced super (dinode m.marks) i m.marks (dinode m'.marks i) m'.marks ∧
      HasFile m'.marks i type (l ++ q) := by
  have ht0 : (dinode m.marks i).type ≠ 0 := by
    rw [h.type]
    rcases ht with rfl | rfl <;> decide
  have hdev : (dinode m.marks i).type ≠ T_DEV := by
    rw [h.type]
    rcases ht with rfl | rfl <;> decide
  obtain ⟨d', hw⟩ := iappend_writei hvol hi ht0 hdev h.mapped
    (List.length_pos_iff.mpr hq) hm hf
  have hd : dinode m'.marks i = d' := hw.synced rfl
  refine ⟨⟨hw.toOthers, hd ▸ hw.volume, rfl⟩, ?_⟩
  have hsize : d'.size.toNat = (l ++ q).length := by
    rw [hw.size, h.size, List.length_append]
    omega
  refine ⟨?_, ?_, hd ▸ hsize, hd ▸ hw.mapped, fun k hk => ?_, fun k => ?_⟩
  · rw [hd, hw.fields]
    exact h.type
  · rw [hd, hw.fields]
    exact h.nlink
  · rw [List.length_append] at hk
    by_contra hk0
    rcases (iappend_filled hvol hi ht0 hm hf).only k hk0 with hold | ⟨c, hc₁, hc₂, hc⟩
    · exact hold (h.ends k (by omega))
    · rw [h.size] at hc₁ hc₂
      omega
  · rw [hd, hw.bytes, h.size]
    by_cases hkl : k < l.length
    · rw [patch_out _ _ (.inl hkl), h.bytes k, List.getD_append _ _ _ _ hkl]
    · rw [List.getD_append_right _ _ _ _ (by omega)]
      by_cases hkq : k < l.length + q.length
      · have hks : k = l.length + (k - l.length) := by omega
        rw [hks, patch_in _ _ (by omega), hp _ (by omega), ← hks]
      · rw [patch_out _ _ (.inr (by omega)), h.bytes k, List.getD_eq_default _ _ (by omega),
          List.getD_eq_default _ _ (by omega)]

end

/-- Every block that was taken is a block of some file. -/
def Covered (m : Mkfs) : Prop :=
  ∀ b, 29 ≤ b → b < m.freeblock → ∃ j a, Live super (dinode m.marks) j ∧
    (dinode m.marks j).ref m.marks a = b

theorem ref_replaced (r : Replaced super (dinode disk) i disk d disk') (hji : j ≠ i)
    (hl : Live super (dinode disk) j) (a : Place) :
    (dinode disk' j).ref disk' a = (dinode disk j).ref disk a := by
  rw [r.inodes j hl.1 hji]
  cases a with
  | addr c => rfl
  | entry e =>
    have hlt : e.val + 12 < 140 := by omega
    have := (r.other j hji hl).1 (e.val + 12)
    rwa [blockOf_eq hlt, blockOf_eq hlt, place_indirect] at this

theorem Covered.replaced (h : Covered m)
    (r : Replaced super (dinode m.marks) i m.marks (dinode m'.marks i) m'.marks)
    (hi : Live super (dinode m'.marks) i)
    (hkeep : ∀ a, Live super (dinode m.marks) i → (dinode m.marks i).ref m.marks a ≠ 0 →
      (dinode m'.marks i).ref m'.marks a = (dinode m.marks i).ref m.marks a)
    (hnew : ∀ b, m.freeblock ≤ b → b < m'.freeblock →
      ∃ a, (dinode m'.marks i).ref m'.marks a = b) : Covered m' := by
  intro b hb hb'
  by_cases hold : b < m.freeblock
  · obtain ⟨j, a, hl, ha⟩ := h b hb hold
    by_cases hji : j = i
    · subst hji
      exact ⟨j, a, hi, by rw [hkeep a hl (by omega), ha]⟩
    · refine ⟨j, a, ⟨hl.1, ?_⟩, by rw [ref_replaced r hji hl, ha]⟩
      rw [r.inodes j hl.1 hji]
      exact hl.2
  · obtain ⟨a, ha⟩ := hnew b (by omega) hb'
    exact ⟨i, a, hi, ha⟩

/-- The root has the bytes `root`, and the inodes from 2 on are the files `files`. -/
structure Built (m : Mkfs) (root : List UInt8) (files : List (List UInt8)) : Prop where
  volume : Volume super (dinode m.marks) m.marks
  count : m.freeinode = files.length + 2
  unused : ∀ i, m.freeinode ≤ i → i < 200 → (dinode m.marks i).type = 0
  used : m.usedblocks = m.freeblock
  root : HasFile m.marks 1 T_DIR root
  file : ∀ k < files.length, HasFile m.marks (k + 2) T_FILE (files.getD k [])
  covered : Covered m
  zero : (dinode m.marks 0).type = 0

variable {root q : List UInt8} {files : List (List UInt8)}

theorem Built.appendRoot (h : Built m root files) (hlen : files.length + 2 ≤ 200)
    (hp : ∀ k < q.length, p k = q.getD k 0) (hq : q ≠ []) (hm : m.iappend 1 p q.length = some m')
    (hf : m'.freeblock ≤ 4096) : Built m' (root ++ q) files := by
  obtain ⟨r, hroot⟩ := iappend_marks h.volume (by decide) h.root (.inl rfl) hp hq hm hf
  have hg := iappend_grows (by decide) hm
  have hfilled := iappend_filled h.volume (by decide) (by rw [h.root.type]; decide) hm hf
  refine ⟨volume_replaced r, hg.inodes.trans h.count, fun i hi hi' => ?_, hg.used h.used, hroot,
    fun k hk => (h.file k hk).other r (by omega) (by omega) (by decide),
    h.covered.replaced r ⟨by decide, by rw [hroot.type]; decide⟩ (fun a _ => hfilled.keep a)
      hfilled.new, by rw [r.inodes 0 (by decide) (by decide)]; exact h.zero⟩
  have hne : i ≠ 1 := by
    have := h.count
    have := hg.inodes
    omega
  rw [r.inodes i hi' hne]
  exact h.unused i (hg.inodes ▸ hi) hi'

theorem Built.appendFile (h : Built m root (files ++ [l])) (hlen : files.length + 2 < 200)
    (hp : ∀ k < q.length, p k = q.getD k 0) (hq : q ≠ [])
    (hm : m.iappend (files.length + 2) p q.length = some m') (hf : m'.freeblock ≤ 4096) :
    Built m' root (files ++ [l ++ q]) := by
  have hcount := h.count
  rw [List.length_append, List.length_singleton] at hcount
  have hlast : HasFile m.marks (files.length + 2) T_FILE l := by
    have := h.file files.length (by simp)
    rwa [List.getD_append_right _ _ _ _ (Nat.le_refl _), Nat.sub_self] at this
  obtain ⟨r, hfile⟩ := iappend_marks h.volume hlen hlast (.inr rfl) hp hq hm hf
  have hg := iappend_grows hlen hm
  have hfilled := iappend_filled h.volume hlen (by rw [hlast.type]; decide) hm hf
  refine ⟨volume_replaced r, ?_, fun i hi hi' => ?_, hg.used h.used,
    h.root.other r (by omega) (by decide) (by decide), fun k hk => ?_,
    h.covered.replaced r ⟨hlen, by rw [hfile.type]; decide⟩ (fun a _ => hfilled.keep a)
      hfilled.new, by rw [r.inodes 0 (by decide) (by omega)]; exact h.zero⟩
  · rw [hg.inodes, hcount, List.length_append, List.length_singleton]
  · rw [hg.inodes, hcount] at hi
    rw [r.inodes i hi' (by omega)]
    exact h.unused i (hcount ▸ hi) hi'
  · rw [List.length_append, List.length_singleton] at hk
    by_cases hkl : k = files.length
    · rw [hkl, List.getD_append_right _ _ _ _ (Nat.le_refl _), Nat.sub_self]
      exact hfile
    · have hk' := h.file k (by simp; omega)
      rw [List.getD_append _ _ _ _ (by omega)] at hk' ⊢
      exact hk'.other r (by omega) (by omega) (by decide)

theorem appends_grows (hi : i < 200)
    (hm : reads.foldlM (fun m l => m.iappend i (ofList l) l.length) m = some m') : Grows m m' := by
  induction reads generalizing m with
  | nil =>
    cases hm
    exact .refl _
  | cons l reads ih =>
    rw [List.foldlM_cons, Option.bind_eq_bind, Option.bind_eq_some_iff] at hm
    obtain ⟨m₁, h₁, h₂⟩ := hm
    exact (iappend_grows hi h₁).trans (ih h₂)

theorem Built.appends (h : Built m root (files ++ [l])) (hlen : files.length + 2 < 200)
    (hne : ∀ q ∈ reads, q ≠ [])
    (hm : reads.foldlM (fun m l => m.iappend (files.length + 2) (ofList l) l.length) m = some m')
    (hf : m'.freeblock ≤ 4096) : Built m' root (files ++ [l ++ reads.flatten]) := by
  induction reads generalizing m l with
  | nil =>
    cases hm
    rwa [List.flatten_nil, List.append_nil]
  | cons q reads ih =>
    rw [List.foldlM_cons, Option.bind_eq_bind, Option.bind_eq_some_iff] at hm
    obtain ⟨m₁, h₁, h₂⟩ := hm
    have hle := (appends_grows hlen h₂).le
    have hb := h.appendFile hlen (p := ofList q) (fun _ _ => rfl) (hne q List.mem_cons_self) h₁
      (hle.trans hf)
    rw [List.flatten_cons, ← List.append_assoc]
    exact ih hb (fun q' hq' => hne q' (List.mem_cons_of_mem q hq')) h₂

theorem ialloc_marks (hvol : Volume super (dinode m.marks) m.marks) (hi : m.freeinode < 200)
    (hfree : (dinode m.marks m.freeinode).type = 0) (type : UInt16) : ∃ m' d',
    m.ialloc type = some (m.freeinode, m') ∧ m'.freeinode = m.freeinode + 1 ∧
      m'.freeblock = m.freeblock ∧ (m.usedblocks = m.freeblock → m'.usedblocks = m'.freeblock) ∧
      Replaced super (dinode m.marks) m.freeinode m.marks d' m'.marks ∧
      HasFile m'.marks m.freeinode type [] := by
  obtain ⟨m', hw, hmarks, hfb, hg⟩ := winode_marks (m := { m with freeinode := m.freeinode + 1 }) hi
    { Dinode.zero with type := type, nlink := 1 }
  have hr : Replaced super (dinode m.marks) m.freeinode m.marks
      { Dinode.zero with type := type, nlink := 1 } m'.marks := by
    rw [hmarks]
    exact (Keeps.refl _).toOthers.replaced (hvol.alloc (fun hl => hl.2 hfree) fun _ => rfl) hi
  refine ⟨m', _, ?_, hg.inodes, hfb, hg.used, hr, ?_⟩
  · rw [ialloc, hw]
    rfl
  · have hblock : ∀ k, blockOf { Dinode.zero with type := type, nlink := 1 } m'.marks k = 0 := by
      intro k
      by_contra h0
      have h140 := lt_of_blockOf h0
      rw [blockOf_eq h140] at h0
      revert h0
      generalize place k = a
      intro h0
      cases a with
      | addr j => exact h0 rfl
      | entry j => exact h0 (Dinode.ref_entry_none rfl)
    refine ⟨?_, ?_, ?_, ?_, fun k _ => ?_, fun p => ?_⟩ <;> rw [hr.self]
    · rfl
    · intro k hk
      exact absurd hk (Nat.not_lt_zero _)
    · exact hblock k
    · rw [bytes, if_pos (hblock _)]
      rfl

/-- The bytes of a directory entry -/
def direntList (inum : ℕ) (name : List UInt8) : List UInt8 :=
  (List.range 16).map (Dirent.bytes ⟨UInt16.ofNat inum, name⟩)

theorem length_direntList (inum : ℕ) (name : List UInt8) : (direntList inum name).length = 16 := by
  rw [direntList, List.length_map, List.length_range]

theorem getD_direntList (inum : ℕ) (name : List UInt8) {k : ℕ} (hk : k < 16) :
    (direntList inum name).getD k 0 = Dirent.bytes ⟨UInt16.ofNat inum, name⟩ k := by
  rw [List.getD_eq_getElem _ _ (by rwa [length_direntList])]
  simp [direntList]

theorem Built.addEntry (h : Built m root files) (hlen : files.length + 2 ≤ 200) {name : List UInt8}
    (hm : m.iappend 1 (Dirent.bytes ⟨UInt16.ofNat inum, name⟩) 16 = some m')
    (hf : m'.freeblock ≤ 4096) : Built m' (root ++ direntList inum name) files := by
  have hl := length_direntList inum name
  refine h.appendRoot hlen (fun k hk => ?_) ?_ (hl.symm ▸ hm) hf
  · exact (getD_direntList inum name (hl ▸ hk)).symm
  · rw [← List.length_pos_iff, hl]
    decide

theorem Built.addFile (h : Built m root files) (hlen : files.length + 2 < 200)
    (hm : m.addFile f = some m') (hf : m'.freeblock ≤ 4096) :
    Built m' (root ++ direntList (files.length + 2) f.name) (files ++ [f.bytes]) := by
  have hcount := h.count
  have hi : m.freeinode < 200 := hcount ▸ hlen
  obtain ⟨m₁, d', halloc, hfi, hfb, hu, r, hnew⟩ :=
    ialloc_marks h.volume hi (h.unused _ (Nat.le_refl _) hi) T_FILE
  unfold Mkfs.addFile at hm
  split at hm
  · cases hm
  · rw [halloc] at hm
    simp only [Option.bind_eq_bind, Option.bind_some, Option.bind_eq_some_iff] at hm
    obtain ⟨m₂, hroot, hreads⟩ := hm
    rw [hcount] at r hnew hreads hroot hfi
    have hg := appends_grows hlen hreads
    have hempty : Built m₁ root (files ++ [[]]) := by
      refine ⟨volume_replaced r, ?_, fun i hi hi' => ?_, ?_, h.root.other r (by omega) (by decide)
        (by decide), fun k hk => ?_, ?_, by rw [r.inodes 0 (by decide) (by omega)]; exact h.zero⟩
      · rw [hfi, List.length_append, List.length_singleton]
      · rw [hfi] at hi
        rw [r.inodes i hi' (by omega)]
        exact h.unused i (by omega) hi'
      · exact hu h.used
      · rw [List.length_append, List.length_singleton] at hk
        by_cases hkl : k = files.length
        · rw [hkl, List.getD_append_right _ _ _ _ (Nat.le_refl _), Nat.sub_self]
          exact hnew
        · rw [List.getD_append _ _ _ _ (by omega)]
          exact (h.file k (by omega)).other r (by omega) (by omega) (by decide)
      · refine h.covered.replaced (r.self.symm ▸ r) ⟨hlen, by rw [hnew.type]; decide⟩ ?_ ?_
        · exact fun a hl => absurd (h.unused _ (by omega) hlen) hl.2
        · intro b hb hb'
          omega
    have hentry := hempty.addEntry (by simp; omega) hroot (hg.le.trans hf)
    have := hentry.appends hlen f.ne_nil hreads hf
    rwa [List.nil_append] at this

theorem ialloc_grows (hi : m.freeinode < 200) (hm : m.ialloc type = some (inum, m')) :
    inum = m.freeinode ∧ Grows { m with freeinode := m.freeinode + 1 } m' := by
  simp only [ialloc, Option.bind_eq_bind, Option.bind_eq_some_iff, Option.some_inj] at hm
  obtain ⟨m₀, hw, he⟩ := hm
  obtain ⟨rfl, rfl⟩ := Prod.mk.inj he
  obtain ⟨m₃, hw', -, hfb, hg⟩ := winode_marks (m := { m with freeinode := m.freeinode + 1 }) hi
    { Dinode.zero with type := type, nlink := 1 }
  obtain rfl : m₃ = m₀ := Option.some_inj.mp (hw'.symm.trans hw)
  exact ⟨rfl, hg⟩

theorem addFile_grows (hi : m.freeinode < 200) (hm : m.addFile f = some m') :
    Grows { m with freeinode := m.freeinode + 1 } m' := by
  unfold Mkfs.addFile at hm
  split at hm
  · cases hm
  · simp only [Option.bind_eq_bind, Option.bind_eq_some_iff] at hm
    obtain ⟨⟨inum, m₁⟩, halloc, m₂, hroot, hreads⟩ := hm
    obtain ⟨rfl, hg⟩ := ialloc_grows hi halloc
    exact (hg.trans (iappend_grows (by decide) hroot)).trans (appends_grows hi hreads)

theorem addFiles_grows (hi : m.freeinode + fs.length ≤ 200)
    (hm : fs.foldlM Mkfs.addFile m = some m') :
    Grows { m with freeinode := m.freeinode + fs.length } m' := by
  induction fs generalizing m with
  | nil =>
    cases hm
    exact .refl _
  | cons f fs ih =>
    rw [List.foldlM_cons, Option.bind_eq_bind, Option.bind_eq_some_iff] at hm
    obtain ⟨m₁, h₁, h₂⟩ := hm
    rw [List.length_cons] at hi
    have hg := addFile_grows (by omega) h₁
    have hfi : m₁.freeinode = m.freeinode + 1 := hg.inodes
    have hrest := ih (by omega) h₂
    exact ⟨hg.le.trans hrest.le, by rw [hrest.inodes, List.length_cons]; dsimp only; omega,
      fun hu => hrest.used (hg.used hu)⟩

/-- The bytes of a directory -/
def dirBytes (es : List (ℕ × List UInt8)) : List UInt8 :=
  (es.map fun e => direntList e.1 e.2).flatten

/-- The entries of the files, whose inodes are numbered from `n` on -/
def entriesFrom : ℕ → List InputFile → List (ℕ × List UInt8)
  | _, [] => []
  | n, f :: fs => (n, f.name) :: entriesFrom (n + 1) fs

theorem dirBytes_concat (es : List (ℕ × List UInt8)) (inum : ℕ) (name : List UInt8) :
    dirBytes (es ++ [(inum, name)]) = dirBytes es ++ direntList inum name := by
  simp [dirBytes]

theorem Built.addFiles (h : Built m (dirBytes es) files) (hlen : files.length + fs.length + 2 ≤ 200)
    (hm : fs.foldlM Mkfs.addFile m = some m') (hf : m'.freeblock ≤ 4096) :
    Built m' (dirBytes (es ++ entriesFrom (files.length + 2) fs))
      (files ++ fs.map InputFile.bytes) := by
  induction fs generalizing m es files with
  | nil =>
    cases hm
    rwa [entriesFrom, List.append_nil, List.map_nil, List.append_nil]
  | cons f fs ih =>
    rw [List.foldlM_cons, Option.bind_eq_bind, Option.bind_eq_some_iff] at hm
    obtain ⟨m₁, h₁, h₂⟩ := hm
    rw [List.length_cons] at hlen
    have hcount := h.count
    have hfi : m₁.freeinode = m.freeinode + 1 := (addFile_grows (by omega) h₁).inodes
    have hg := addFiles_grows (by omega) h₂
    have hb := h.addFile (by omega) h₁ (hg.le.trans hf)
    rw [← dirBytes_concat] at hb
    have hl : (files ++ [f.bytes]).length = files.length + 1 := by simp
    have hrest := ih hb (by omega) h₂
    rwa [hl, List.append_assoc, List.append_assoc] at hrest

theorem volume_blank (rest : Buffer) :
    Volume super (dinode (blank rest).marks) (blank rest).marks ∧
      ∀ i < 200, (dinode (blank rest).marks i).type = 0 := by
  have hzero : ∀ b, b ≠ 1 → b ≠ 28 → (blank rest).marks b = zeros := by
    intro b h1 h28
    rw [marks_of_ne h28]
    change update (fun _ => zeros) 1 _ b = zeros
    rw [update_of_ne h1]
  have hinode : ∀ i < 200, dinode (blank rest).marks i = Dinode.zero := by
    intro i hi
    rw [dinode, hzero _ (by unfold IBLOCK; omega) (by unfold IBLOCK; omega)]
    rfl
  refine ⟨volume_of_unused ?_ (fun b hb => ?_) (fun b hb k _ => ?_) (fun i hi _ => ?_),
    fun i hi => ?_⟩
  · have h1 : (blank rest).marks 1 =
        patch (patch (patch rest 0 4 (putLE 1024)) 4 4 (putLE 995)) 8 4 (putLE 200) := by
      rw [marks_of_ne (by decide)]
      rfl
    unfold readsb
    rw [h1]
    have hsize : getLE 4
        (patch (patch (patch rest 0 4 (putLE 1024)) 4 4 (putLE 995)) 8 4 (putLE 200)) 0 =
        1024 % 256 ^ 4 := by
      refine getLE_of_putLE fun i hi => ?_
      rw [patch_out _ _ (by omega), patch_out _ _ (by omega), patch_in _ _ hi]
    have hinodes : getLE 4
        (patch (patch (patch rest 0 4 (putLE 1024)) 4 4 (putLE 995)) 8 4 (putLE 200)) 8 =
        200 % 256 ^ 4 :=
      getLE_of_putLE fun i hi => patch_in _ _ hi
    rw [hsize, hinodes]
    rfl
  · change b < 29 at hb
    rw [marked_marks (by omega)]
    exact decide_eq_true hb
  · change 29 ≤ b at hb
    rw [hzero b (by omega) (by omega)]
    rfl
  · rw [hinode i hi.1]
    rfl
  · rw [hinode i hi]
    rfl

/-- The entries of every root -/
def dots : List (ℕ × List UInt8) := [(1, [46]), (1, [46, 46])]

theorem makeRoot_used (rest : Buffer) (hm : (blank rest).makeRoot = some m) :
    m.freeinode = 2 ∧ m.usedblocks = m.freeblock := by
  have hone : (blank rest).freeinode = 1 := rfl
  unfold makeRoot at hm
  simp only [Option.bind_eq_bind, Option.bind_eq_some_iff, Option.ite_none_right_eq_some] at hm
  obtain ⟨⟨inum, m₁⟩, halloc, rfl, m₂, hdot, hdotdot⟩ := hm
  have h1 : 1 < 200 := by decide
  have hg := ((ialloc_grows (by omega) halloc).2.trans (iappend_grows h1 hdot)).trans
    (iappend_grows h1 hdotdot)
  exact ⟨hg.inodes, hg.used rfl⟩

theorem makeRoot_built (rest : Buffer) (hm : (blank rest).makeRoot = some m)
    (hf : m.freeblock ≤ 4096) : Built m (dirBytes dots) [] := by
  obtain ⟨hvol, hfree⟩ := volume_blank rest
  have hone : (blank rest).freeinode = 1 := rfl
  obtain ⟨m₁, d', halloc, hfi, hfb, hu, r, hroot⟩ :=
    ialloc_marks hvol (by omega) (hfree 1 (by decide)) T_DIR
  have h₁ : Built m₁ (dirBytes []) [] := by
    refine ⟨volume_replaced r, hfi, fun i hi hi' => ?_, hu rfl, hroot,
      fun k hk => absurd hk (Nat.not_lt_zero k), fun b hb hb' => ?_, ?_⟩
    · rw [r.inodes i hi' (by omega)]
      exact hfree i hi'
    · change m₁.freeblock = 29 at hfb
      omega
    · rw [r.inodes 0 (by decide) (by rw [hone]; decide)]
      exact hfree 0 (by decide)
  unfold makeRoot at hm
  rw [halloc] at hm
  simp only [Option.bind_eq_bind, Option.bind_some, Option.ite_none_right_eq_some,
    Option.bind_eq_some_iff] at hm
  obtain ⟨-, m₂, hdot, hdotdot⟩ := hm
  have hle := (iappend_grows (by omega) hdotdot).le
  have h₂ := h₁.addEntry (by decide) hdot (hle.trans hf)
  exact h₂.addEntry (by decide) hdotdot hf

/-- The root of the image: its size may reach into a block that it does not have. -/
structure HasRoot (disk : Disk) (es : List (ℕ × List UInt8)) : Prop where
  type : (dinode disk 1).type = T_DIR
  nlink : (dinode disk 1).nlink = 1
  size : (dinode disk 1).size.toNat = (16 * es.length / 512 + 1) * 512
  mapped : ∀ k, 512 * k < 16 * es.length → blockOf (dinode disk 1) disk k ≠ 0
  ends : ∀ k, 16 * es.length ≤ 512 * k → blockOf (dinode disk 1) disk k = 0
  bytes : ∀ p, bytes (dinode disk 1) disk p = (dirBytes es).getD p 0

/-- The image of a root and files -/
structure Finished (disk : Disk) (es : List (ℕ × List UInt8)) (files : List (List UInt8)) :
    Prop where
  volume : Volume super (dinode disk) disk
  root : HasRoot disk es
  file : ∀ k < files.length, HasFile disk (k + 2) T_FILE (files.getD k [])
  unused : ∀ i, files.length + 2 ≤ i → i < 200 → (dinode disk i).type = 0
  zero : (dinode disk 0).type = 0
  marked : ∀ b < 4096, marked super disk b = true → b < 29 ∨
    ∃ i a, Live super (dinode disk) i ∧ (dinode disk i).ref disk a = b
  few : ∀ b < 4096, 512 ≤ b → Xv6Shed.marked super disk b = false

theorem length_dirBytes (es : List (ℕ × List UInt8)) : (dirBytes es).length = 16 * es.length := by
  induction es with
  | nil => rfl
  | cons e es ih =>
    have : dirBytes (e :: es) = direntList e.1 e.2 ++ dirBytes es := rfl
    rw [this, List.length_append, length_direntList, ih, List.length_cons]
    omega

theorem Built.image (h : Built m (dirBytes es) files) (hlen : files.length + 2 ≤ 200) {m₁ m₂ : Mkfs}
    (hfix : m.fixRoot = some m₁) (hballoc : m₁.balloc m₁.usedblocks = some m₂) :
    Finished m₂.disk es files := by
  unfold fixRoot at hfix
  rw [rinode_marks (by decide), Option.bind_eq_bind, Option.bind_some] at hfix
  generalize hd₂ : nextBlock (dinode m.marks 1) = d₂ at hfix
  obtain ⟨m₀, hw, hmarks, hfb, hg⟩ := winode_marks (m := m) (i := 1) (by decide) d₂
  obtain rfl : m₀ = m₁ := Option.some_inj.mp (hw.symm.trans hfix)
  have hused := hg.used h.used
  obtain ⟨hdisk, h512⟩ : m₂.disk = m₀.marks ∧ m₀.freeblock < 512 := by
    unfold balloc at hballoc
    split at hballoc <;> cases hballoc
    rw [marks, ← hused]
    exact ⟨rfl, ‹_›⟩
  have hlive : Live super (dinode m.marks) 1 := ⟨by decide, by rw [h.root.type]; decide⟩
  have haddrs : d₂.addrs = (dinode m.marks 1).addrs := by rw [← hd₂, nextBlock]
  have htype : d₂.type = T_DIR := by rw [← hd₂]; exact h.root.type
  have hr : Replaced super (dinode m.marks) 1 m.marks d₂ m₀.marks := by
    rw [hmarks]
    exact (Keeps.refl _).toOthers.replaced
      (h.volume.fields hlive haddrs (by rw [htype]; decide)) (by decide)
  obtain ⟨hblock, hbytes⟩ := setDinode_same h.volume (i := 1) (by decide) hlive d₂
  rw [← hmarks] at hblock hbytes
  have hblock₂ : ∀ k, blockOf d₂ m₀.marks k = blockOf (dinode m.marks 1) m.marks k := fun k => by
    rw [blockOf_congr (fun _ => Dinode.ref_congr_addrs haddrs), hblock]
  have hlength := length_dirBytes es
  have hsize := h.root.size
  have hcovered : Covered m₀ := by
    refine h.covered.replaced (hr.self.symm ▸ hr) ⟨by decide, ?_⟩
      (fun a _ _ => ?_) fun b hb hb' => ?_
    · rw [hr.self, htype]
      decide
    · rw [hr.self, Dinode.ref_congr_addrs haddrs, hmarks]
      refine Dinode.ref_congr fun h12 => setDinode_of_ne (Nat.ne_of_gt ?_)
      exact (Superblock.IBLOCK_lt (by decide)).trans_le (h.volume.indirect_inUse hlive h12).1
    · omega
  rw [hdisk]
  refine ⟨volume_replaced hr, ⟨?_, ?_, ?_, fun k hk => ?_, fun k hk => ?_, fun p => ?_⟩,
    fun k hk => ?_, fun i hi hi' => ?_, ?_, fun b hb hb' => ?_, fun b hb hb' => ?_⟩
  · rw [hr.self, htype]
  · rw [hr.self, ← hd₂]
    exact h.root.nlink
  · have hle := h.root.mapped.size_le
    rw [hr.self, ← hd₂, nextBlock, UInt32.toNat_ofNat', Nat.mod_eq_of_lt (by omega), hsize, hlength]
  · rw [hr.self, hblock₂]
    exact h.root.mapped k (by omega)
  · rw [hr.self, hblock₂]
    exact h.root.ends k (by omega)
  · rw [hr.self, bytes_congr_addrs haddrs, hbytes]
    exact h.root.bytes p
  · exact (h.file k hk).other hr (by omega) (by omega) (by decide)
  · rw [hr.inodes i hi' (by omega)]
    exact h.unused i (by rw [h.count]; exact hi) hi'
  · rw [hr.inodes 0 (by decide) (by decide)]
    exact h.zero
  · rw [marked_marks hb] at hb'
    by_cases h29 : b < 29
    · exact .inl h29
    · exact .inr (hcovered b (by omega) (of_decide_eq_true hb'))
  · rw [marked_marks hb]
    exact decide_eq_false (by omega)

end Mkfs

end Xv6Shed
