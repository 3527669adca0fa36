import Xv6Shed.MkfsImage
import Xv6Shed.SysFile
import Mathlib.Data.List.TakeWhile

/-!
# Files of an image

`namei` and `readi` on the image that mkfs has written.
-/

namespace Xv6Shed
open Function Bytes

variable {NINODE : ℕ} {disk : Disk}

namespace Fs

variable {s : Fs NINODE} {dp ip : Fin NINODE} {name : List UInt8} {q : ℕ} {x : Inode}

theorem dirScan_first (s : Fs NINODE) (dp : Fin NINODE) (name : List UInt8) (n j : ℕ)
    (hmap : ∀ k, k ≤ q / 32 → blockOf (s.icache dp).d (s.disk (s.icache dp).dev) k ≠ 0)
    (hinum : ((s.icache dp).d.ent (s.disk (s.icache dp).dev) q).inum ≠ 0)
    (hname : ((s.icache dp).d.ent (s.disk (s.icache dp).dev) q).name = name)
    (hbefore : ∀ k < q, ((s.icache dp).d.ent (s.disk (s.icache dp).dev) k).name ≠ name)
    (hj : j ≤ q / 32) (hn : q / 32 < j + n) : s.dirScan dp name n (512 * j) =
      .ok (some (16 * q, ((s.icache dp).d.ent (s.disk (s.icache dp).dev) q).inum.toNat)) := by
  generalize hd : (s.icache dp).d = d at hmap hinum hname hbefore ⊢
  generalize hdisk : s.disk (s.icache dp).dev = disk at hmap hinum hname hbefore ⊢
  induction n generalizing j with
  | zero => omega
  | succ n ih =>
    have hblock : blockOf (s.icache dp).d (s.disk (s.icache dp).dev) j ≠ 0 := by
      rw [hd, hdisk]
      exact hmap j hj
    have hdiv : 512 * j / 512 = j := Nat.mul_div_cancel_left j (by decide)
    have hent : ∀ k, k / 32 = j →
        Dirent.load (disk (blockOf d disk j)) (16 * (k % 32)) = d.ent disk k := by
      intro k hk
      refine Dirent.load_congr fun i hi => ?_
      have hdiv' : (16 * k + i) / 512 = j := by omega
      rw [bytes, hdiv', if_neg (hmap j hj)]
      congr 1
      omega
    unfold dirScan
    rw [hdiv, bmap_read hblock, ok_bind, hd, hdisk]
    dsimp only
    by_cases hq : q / 32 = j
    · have hf : Bytes.first (fun k => (Dirent.load (disk (blockOf d disk j)) (16 * k)).inum != 0 &&
          (Dirent.load (disk (blockOf d disk j)) (16 * k)).name == name) 32 0 = some (q % 32) := by
        apply first_of_least (Nat.zero_le _) (by omega)
        · intro k _ hk
          have hk' := hent (32 * j + k) (by omega)
          rw [show (32 * j + k) % 32 = k by omega] at hk'
          rw [hk', Bool.and_eq_false_iff, beq_eq_false_iff_ne]
          exact .inr (hbefore _ (by omega))
        · rw [hent q hq, Bool.and_eq_true, bne_iff_ne, beq_iff_eq]
          exact ⟨hinum, hname⟩
      rw [hf]
      dsimp only
      rw [hent q hq, show 512 * j + 16 * (q % 32) = 16 * q by omega]
      rfl
    · have hf : Bytes.first (fun k => (Dirent.load (disk (blockOf d disk j)) (16 * k)).inum != 0 &&
          (Dirent.load (disk (blockOf d disk j)) (16 * k)).name == name) 32 0 = none := by
        rw [Option.eq_none_iff_forall_ne_some]
        intro k hk
        obtain ⟨-, hlt, ht⟩ := first_eq_some hk
        have hk' := hent (32 * j + k) (by omega)
        rw [show (32 * j + k) % 32 = k by omega] at hk'
        rw [hk', Bool.and_eq_true, beq_iff_eq] at ht
        exact hbefore _ (by omega) ht.2
      rw [hf]
      dsimp only
      exact ih (j + 1) (by omega) (by omega)

theorem iget_new (dev inum : ℕ)
    (hno : ∀ ip, 0 < (s.icache ip).ref → (s.icache ip).inum ≠ inum) (jp : Fin NINODE)
    (hfree : (s.icache jp).ref = 0) : ∃ ip, (s.icache ip).ref = 0 ∧ s.iget dev inum =
      .ok (ip, s.setInode ip { s.icache ip with
        dev := dev, inum := inum, ref := 1, busy := false, valid := false }) := by
  have hmiss : (List.finRange NINODE).find? (fun ip => 0 < (s.icache ip).ref ∧
      (s.icache ip).dev = dev ∧ (s.icache ip).inum = inum) = none := by
    rw [List.find?_eq_none]
    intro ip _ h
    simp only [decide_eq_true_eq] at h
    exact hno ip h.1 h.2.2
  cases hfind : (List.finRange NINODE).find? fun ip => (s.icache ip).ref = 0 with
  | none =>
    have := List.find?_eq_none.mp hfind jp (List.mem_finRange jp)
    simp [hfree] at this
  | some ip =>
    refine ⟨ip, by simpa using List.find?_some hfind, ?_⟩
    unfold iget
    simp only [hmiss, hfind]
    rfl

theorem skipelem_root (hne : name ≠ []) (hslash : 47 ∉ name) (hz : 0 ∉ name) :
    skipelem (slash :: name) = some ([], name.take 14) := by
  cases name with
  | nil => exact absurd rfl hne
  | cons c name =>
    have hc : (c == slash) = false := by
      rw [beq_eq_false_iff_ne]
      exact fun h => hslash (h ▸ List.mem_cons_self)
    have hdrop : (slash :: c :: name).dropWhile (· == slash) = c :: name := by
      rw [List.dropWhile_cons_of_pos (by decide), List.dropWhile_cons_of_neg (by simp [hc])]
    have hend : atEnd (c :: name) = false := by
      unfold atEnd
      rw [List.headD_cons, beq_eq_false_iff_ne]
      exact fun h => hz (h ▸ List.mem_cons_self)
    have htake : (c :: name).takeWhile (fun c => c != slash && c != 0) = c :: name := by
      rw [List.takeWhile_eq_self_iff]
      intro b hb
      rw [Bool.and_eq_true, bne_iff_ne, bne_iff_ne]
      constructor
      · rintro rfl
        exact hslash hb
      · rintro rfl
        exact hz hb
    unfold skipelem
    simp only [hdrop, hend, htake]
    simp

theorem ilock_new (hx : s.icache ip = x) (href : x.ref = 1) (hbusy : x.busy = false)
    (hvalid : x.valid = false) (ht : (dinode (s.disk x.dev) x.inum).type ≠ 0) :
    s.ilock ip = .ok (s.setInode ip { x with
      busy := true, valid := true, d := dinode (s.disk x.dev) x.inum }) := by
  unfold ilock
  simp only [hx]
  rw [if_neg (by omega), if_neg (by simp [hbusy]), if_neg (by simp [hvalid]), if_neg ht]
  rfl

theorem iunlockput_only (hx : s.icache ip = x) (href : x.ref = 1) (hbusy : x.busy = true)
    (hlink : x.d.nlink ≠ 0) :
    s.iunlockput ip = .ok (s.setInode ip { x with busy := false, ref := 0 }) := by
  unfold iunlockput iunlock iput
  simp only [hx]
  rw [if_neg (by simp [hbusy]; omega)]
  simp only [pure_bind, setInode_icache, update_self]
  rw [if_neg (fun h => hlink h.2.2)]
  simp only [setInode_setInode, href]
  rfl

/-- A kernel that has just started -/
def fresh (disk : Disk) : Fs NINODE := ⟨fun _ => disk, fun _ => Files.unusedInode⟩

theorem namei_fresh (h2 : 2 ≤ NINODE) (hne : name ≠ []) (hslash : 47 ∉ name) (hz : 0 ∉ name)
    (htype : (dinode disk 1).type = T_DIR) (hnlink : (dinode disk 1).nlink = 1)
    (hsize : 16 * q < (dinode disk 1).size.toNat)
    (hmap : ∀ k, k ≤ q / 32 → blockOf (dinode disk 1) disk k ≠ 0)
    (hinum : 1 < ((dinode disk 1).ent disk q).inum.toNat)
    (hname : ((dinode disk 1).ent disk q).name = name.take 14)
    (hbefore : ∀ k < q, ((dinode disk 1).ent disk k).name ≠ name.take 14)
    (hlive : (dinode disk ((dinode disk 1).ent disk q).inum.toNat).type ≠ 0) :
    ∃ ip s s', (fresh disk : Fs NINODE).namei none (slash :: name) = .ok (some ip, s) ∧
      s.ilock ip = .ok s' ∧ s'.disk = (fun _ => disk) ∧
      (s'.icache ip).dev = 1 ∧
      (s'.icache ip).d = dinode disk ((dinode disk 1).ent disk q).inum.toNat := by
  have hinum0 : ((dinode disk 1).ent disk q).inum ≠ 0 := by
    intro h0
    rw [h0] at hinum
    exact absurd hinum (by decide)
  generalize hi : ((dinode disk 1).ent disk q).inum.toNat = i at hinum hlive ⊢
  -- the root is read
  obtain ⟨rp, -, hroot⟩ := iget_new (s := (fresh disk : Fs NINODE)) 1 1
    (fun _ h => absurd h (Int.lt_irrefl 0)) ⟨0, by omega⟩ rfl
  generalize hs₁ : (fresh disk : Fs NINODE).setInode rp _ = s₁ at hroot
  have hrp₁ : s₁.icache rp = ⟨1, 1, 1, false, false, .zero⟩ := by
    rw [← hs₁]
    exact update_self ..
  have hlock := ilock_new hrp₁ rfl rfl rfl
    (by rw [← hs₁]; change (dinode disk 1).type ≠ 0; rw [htype]; decide)
  generalize hs₂ : s₁.setInode rp _ = s₂ at hlock
  have hs₂' : s₂ = (fresh disk : Fs NINODE).setInode rp ⟨1, 1, 1, true, true, dinode disk 1⟩ := by
    rw [← hs₂, ← hs₁, setInode_setInode]
    rfl
  have hrp₂ : s₂.icache rp = ⟨1, 1, 1, true, true, dinode disk 1⟩ := by
    rw [hs₂']
    exact update_self ..
  have hother₂ : ∀ jp, jp ≠ rp → s₂.icache jp = Files.unusedInode := by
    intro jp hj
    rw [hs₂']
    exact update_of_ne hj ..
  have hdisk₂ : s₂.disk = fun _ => disk := by
    rw [hs₂']
    rfl
  -- the name is found, and its inode is not in the cache
  have hscan : s₂.dirScan rp (name.take 14) (((dinode disk 1).size.toNat + 511) / 512) (512 * 0) =
      .ok (some (16 * q, i)) := by
    have hq : q / 32 < 0 + ((dinode disk 1).size.toNat + 511) / 512 := by omega
    have := dirScan_first s₂ rp (name.take 14) (q := q) _ 0
      (by rwa [hrp₂, hdisk₂]) (by rwa [hrp₂, hdisk₂]) (by rwa [hrp₂, hdisk₂])
      (by rwa [hrp₂, hdisk₂]) (Nat.zero_le _) hq
    rwa [hrp₂, hdisk₂, hi] at this
  obtain ⟨jp, hj⟩ : ∃ jp : Fin NINODE, jp ≠ rp := by
    by_cases h0 : rp.val = 0
    · exact ⟨⟨1, by omega⟩, fun he => by rw [← he] at h0; cases h0⟩
    · exact ⟨⟨0, by omega⟩, fun he => h0 (by rw [← he])⟩
  obtain ⟨np, hnp, hget⟩ := iget_new (s := s₂) 1 i (fun ip hpos => by
    by_cases hip : ip = rp
    · rw [hip, hrp₂]
      exact hinum.ne
    · rw [hother₂ ip hip] at hpos
      exact absurd hpos (Int.lt_irrefl 0)) jp (by rw [hother₂ jp hj]; rfl)
  have hne' : np ≠ rp := by
    rintro rfl
    rw [hrp₂] at hnp
    cases hnp
  generalize hs₃ : s₂.setInode np _ = s₃ at hget
  have hlookup : s₂.dirlookup rp (name.take 14) = .ok (some (np, 16 * q), s₃) := by
    unfold dirlookup
    simp only [hrp₂]
    rw [if_neg (not_not.mpr htype), hscan, ok_bind]
    dsimp only
    rw [hget, ok_bind]
    rfl
  have hrp₃ : s₃.icache rp = ⟨1, 1, 1, true, true, dinode disk 1⟩ := by
    rw [← hs₃, ← hrp₂]
    exact update_of_ne hne'.symm ..
  have hput := iunlockput_only hrp₃ rfl rfl (by rw [hnlink]; decide)
  generalize hs₄ : s₃.setInode rp _ = s₄ at hput
  have hnp₄ : s₄.icache np = ⟨1, i, 1, false, false, .zero⟩ := by
    rw [← hs₄, ← hs₃, setInode_icache, update_of_ne hne', setInode_icache, update_self,
      hother₂ np hne']
    rfl
  have hdisk₄ : s₄.disk = fun _ => disk := by
    rw [← hs₄, ← hs₃, ← hdisk₂]
    rfl
  have hlock' := ilock_new hnp₄ rfl rfl rfl (by rwa [hdisk₄])
  refine ⟨np, s₄, _, ?_, hlock', ?_, ?_, ?_⟩
  · have hloop : nameiLoop false ((slash :: name).length + 1) rp (slash :: name) s₁ =
        .ok (some (np, []), s₄) := by
      unfold nameiLoop
      rw [skipelem_root hne hslash hz]
      dsimp only
      rw [hlock, ok_bind, hrp₂]
      dsimp only
      rw [if_neg (not_not.mpr htype), if_neg (by simp), hlookup, ok_bind]
      dsimp only
      rw [hput, ok_bind]
      unfold nameiLoop
      rfl
    unfold namei nameiFrom
    rw [if_pos (List.headD_cons ..), hroot, ok_bind]
    dsimp only
    rw [hloop, ok_bind]
    rfl
  · exact hdisk₄
  · rw [setInode_icache, update_self]
  · rw [setInode_icache, update_self, hdisk₄]

end Fs

namespace Mkfs

variable {es : List (ℕ × List UInt8)} {inum q : ℕ} {name : List UInt8} {files : List InputFile}

theorem getD_dirBytes (hq : es[q]? = some (inum, name)) {p : ℕ} (hp : p < 16) :
    (dirBytes es).getD (16 * q + p) 0 = Dirent.bytes ⟨UInt16.ofNat inum, name⟩ p := by
  induction es generalizing q with
  | nil => cases hq
  | cons e es ih =>
    have hcons : dirBytes (e :: es) = direntList e.1 e.2 ++ dirBytes es := rfl
    have hlen := length_direntList e.1 e.2
    cases q with
    | zero =>
      obtain rfl : e = (inum, name) := Option.some_inj.mp hq
      rw [hcons, Nat.mul_zero, Nat.zero_add, List.getD_append _ _ _ _ (by omega)]
      exact getD_direntList inum name hp
    | succ q =>
      rw [hcons, List.getD_append_right _ _ _ _ (by omega), hlen,
        show 16 * (q + 1) + p - 16 = 16 * q + p by omega]
      exact ih hq

theorem HasRoot.ent (h : HasRoot disk es) (hq : es[q]? = some (inum, name)) (hz : 0 ∉ name) :
    (dinode disk 1).ent disk q = ⟨UInt16.ofNat inum, name.take 14⟩ := by
  have hbytes : ∀ p < 16, Xv6Shed.bytes (dinode disk 1) disk (16 * q + p) =
      Dirent.bytes ⟨UInt16.ofNat inum, name⟩ p := by
    intro p hp
    rw [h.bytes _]
    exact getD_dirBytes hq hp
  exact Dirent.load_bytes hz hbytes

theorem getElem?_entriesFrom (n k : ℕ) :
    (entriesFrom n files)[k]? = files[k]?.map fun f => (n + k, f.name) := by
  induction files generalizing n k with
  | nil => rfl
  | cons f files ih =>
    cases k with
    | zero => rfl
    | succ k =>
      rw [entriesFrom, List.getElem?_cons_succ, List.getElem?_cons_succ, ih]
      congr 2
      funext f
      rw [Nat.add_assoc, Nat.add_comm 1 k]

theorem getElem?_entries (k : ℕ) :
    (dots ++ entriesFrom 2 files)[k + 2]? = files[k]?.map fun f => (k + 2, f.name) := by
  have hdots : (dots ++ entriesFrom 2 files)[k + 2]? = (entriesFrom 2 files)[k]? := rfl
  rw [hdots, getElem?_entriesFrom, Nat.add_comm 2 k]

theorem length_entriesFrom (n : ℕ) : (entriesFrom n files).length = files.length := by
  induction files generalizing n with
  | nil => rfl
  | cons f files ih => rw [entriesFrom, List.length_cons, List.length_cons, ih]

theorem eq_of_take {l l' : List UInt8} {n : ℕ} (h : l.take n = l') (hl : l'.length < n) :
    l = l' := by
  have hlen := congrArg List.length h
  rw [List.length_take] at hlen
  rwa [List.take_of_length_le (by omega)] at h

theorem zero_notMem_name (f : InputFile) : 0 ∉ f.name := by
  unfold InputFile.name
  split
  · exact fun h => f.no_zero (List.mem_of_mem_tail h)
  · exact f.no_zero

theorem main_image {rest : Buffer} (hlen : files.length ≤ 198) (hm : main rest files = some disk) :
    Finished disk (dots ++ entriesFrom 2 files) (files.map InputFile.bytes) := by
  unfold main at hm
  simp only [Option.bind_eq_bind, Option.bind_eq_some_iff, Option.some_inj] at hm
  obtain ⟨m₁, hroot, m₂, hfiles, m₃, hfix, m₄, hballoc, rfl⟩ := hm
  -- `balloc` runs to its end, so fewer than 512 blocks are in use
  obtain ⟨hinode, hused⟩ := makeRoot_used rest hroot
  have hg := addFiles_grows (by omega) hfiles
  have hfix' : Grows m₂ m₃ := by
    unfold fixRoot at hfix
    rw [rinode_marks (by decide), Option.bind_eq_bind, Option.bind_some] at hfix
    obtain ⟨m₀, hw, -, -, hg'⟩ := winode_marks (m := m₂) (i := 1) (by decide)
      (nextBlock (dinode m₂.marks 1))
    obtain rfl : m₀ = m₃ := Option.some_inj.mp (hw.symm.trans hfix)
    exact hg'
  have h512 : m₃.usedblocks < 512 := by
    unfold balloc at hballoc
    split at hballoc
    · assumption
    · cases hballoc
  have h₂ : m₂.freeblock ≤ 4096 := by
    have := hfix'.le
    have := hfix'.used (hg.used hused)
    omega
  have hb := makeRoot_built rest hroot (hg.le.trans h₂)
  exact (hb.addFiles (by rw [List.length_nil]; omega) hfiles h₂).image
    (by rw [List.nil_append, List.length_map]; omega) hfix hballoc

theorem HasRoot.ent_ne (h : HasRoot disk (dots ++ entriesFrom 2 files)) {k : ℕ} {f : InputFile}
    (hk : files[k]? = some f) (hdot : f.name ≠ [46]) (hdotdot : f.name ≠ [46, 46])
    (hdistinct : (files.map fun f => f.name.take 14).Nodup) {j : ℕ} (hj : j < k + 2) :
    ((dinode disk 1).ent disk j).name ≠ f.name.take 14 := by
  match j with
  | 0 =>
    rw [h.ent (q := 0) rfl (by decide)]
    exact fun he => hdot (eq_of_take he.symm (by decide))
  | 1 =>
    rw [h.ent (q := 1) rfl (by decide)]
    exact fun he => hdotdot (eq_of_take he.symm (by decide))
  | i + 2 =>
    have hlt := (List.getElem?_eq_some_iff.mp hk).1
    have hi : files[i]? = some files[i] := List.getElem?_eq_getElem (by omega)
    have hq : (dots ++ entriesFrom 2 files)[i + 2]? = some (i + 2, files[i].name) := by
      rw [getElem?_entries, hi]
      rfl
    rw [h.ent hq (zero_notMem_name _)]
    intro he
    have hmap : (files.map fun f => f.name.take 14)[i]? =
        (files.map fun f => f.name.take 14)[k]? := by
      rw [List.getElem?_map, List.getElem?_map, hi, hk]
      exact congrArg some he
    have hik := (List.getElem?_inj (by rw [List.length_map]; omega) hdistinct).mp hmap
    omega

/-- The kernel finds every file of a finished image under its name, and reads its bytes. -/
theorem namei_readi_of_main {rest : Buffer} (h2 : 2 ≤ NINODE) (hlen : files.length ≤ 198)
    (hnames : ∀ f ∈ files, f.name ≠ [] ∧ 47 ∉ f.name ∧ f.name ≠ [46] ∧ f.name ≠ [46, 46])
    (hdistinct : (files.map fun f => f.name.take 14).Nodup) (hm : main rest files = some disk)
    (driver : ℤ) {f : InputFile} (hf : f ∈ files) :
    ∃ ip s s' dst, (Fs.fresh disk : Fs NINODE).namei none (Fs.slash :: f.name) = .ok (some ip, s) ∧
      s.ilock ip = .ok s' ∧ (s'.icache ip).d.type = T_FILE ∧ (s'.icache ip).d.nlink = 1 ∧
      (s'.icache ip).d.size.toNat = f.bytes.length ∧
      s'.readi driver ip 0 f.bytes.length = .ok (f.bytes.length, dst) ∧
      ∀ p < f.bytes.length, dst p = f.bytes.getD p 0 := by
  have himage := main_image hlen hm
  have hroot := himage.root
  obtain ⟨k, hk, rfl⟩ := List.getElem_of_mem hf
  generalize hfk : files[k] = f at hf ⊢
  have hfk' : files[k]? = some f := by rw [List.getElem?_eq_getElem hk, hfk]
  obtain ⟨hne, hslash, hdot, hdotdot⟩ := hnames f hf
  have hes : (dots ++ entriesFrom 2 files).length = files.length + 2 := by
    rw [List.length_append, length_entriesFrom]
    exact Nat.add_comm 2 _
  have hq : (dots ++ entriesFrom 2 files)[k + 2]? = some (k + 2, f.name) := by
    rw [getElem?_entries, hfk']
    rfl
  have hent := hroot.ent hq (zero_notMem_name f)
  have hinum : ((dinode disk 1).ent disk (k + 2)).inum.toNat = k + 2 := by
    rw [hent]
    exact UInt16.toNat_ofNat_of_lt' (by rw [UInt16.size]; omega)
  have hfile := himage.file k (by rwa [List.length_map])
  have hbytes : (files.map InputFile.bytes).getD k [] = f.bytes := by
    rw [List.getD_eq_getElem?_getD, List.getElem?_map, hfk']
    rfl
  rw [hbytes] at hfile
  obtain ⟨ip, s, s', hnamei, hlock, hdisk, hdev, hd⟩ := Fs.namei_fresh (q := k + 2) h2 hne hslash
    (zero_notMem_name f) hroot.type hroot.nlink (by have := hroot.size; omega)
    (fun j hj => hroot.mapped j (by omega)) (by omega) (by rw [hent])
    (fun j hj => hroot.ent_ne hfk' hdot hdotdot hdistinct hj) (by rw [hinum, hfile.type]; decide)
  rw [hinum] at hd
  have hsize : (s'.icache ip).d.size.toNat = f.bytes.length := by rw [hd, hfile.size]
  have hlt := (s'.icache ip).d.size.toNat_lt
  have hread : ∃ dst, s'.readi driver ip 0 f.bytes.length =
      .ok (((min f.bytes.length ((s'.icache ip).d.size.toNat - 0) : ℕ) : ℤ), dst) ∧
      ∀ p < min f.bytes.length ((s'.icache ip).d.size.toNat - 0),
        dst p = bytes (s'.icache ip).d (s'.disk (s'.icache ip).dev) (0 + p) :=
    Fs.readi_ok (by rw [hd, hfile.type]; decide) (by rw [hd, hdisk]; exact hfile.mapped) driver
      (Nat.zero_le _) (by omega)
  obtain ⟨dst, hdst, hbytes⟩ := hread
  rw [Nat.sub_zero, hsize, Nat.min_self] at hdst hbytes
  refine ⟨ip, s, s', dst, hnamei, hlock, ?_, ?_, hsize, hdst, fun p hp => ?_⟩
  · rw [hd, hfile.type]
  · rw [hd, hfile.nlink]
  · rw [hbytes p hp, hd, hdisk, Nat.zero_add]
    exact hfile.bytes p

/-- A file called `_a` that holds one byte. -/
def oneByte : InputFile where
  arg := [95, 97]
  reads := [[7]]
  no_zero := by decide
  ne_nil := by decide
  length_le := by decide

theorem namei_readi_of_main_oneByte : ∃ disk, main (fun _ => 0) [oneByte] = some disk ∧
    ∃ ip s s' dst, (Fs.fresh disk : Fs 2).namei none [47, 97] = .ok (some ip, s) ∧
      s.ilock ip = .ok s' ∧ (s'.icache ip).d.type = T_FILE ∧ (s'.icache ip).d.nlink = 1 ∧
      (s'.icache ip).d.size.toNat = 1 ∧ s'.readi 0 ip 0 1 = .ok (1, dst) ∧
      ∀ p < 1, dst p = [7].getD p 0 := by
  have hsome : (main (fun _ => 0) [oneByte]).isSome = true := by decide +kernel
  obtain ⟨disk, hm⟩ := Option.isSome_iff_exists.mp hsome
  exact ⟨disk, hm, namei_readi_of_main le_rfl (by decide) (by decide) (by decide) hm 0
    (List.mem_singleton_self oneByte)⟩

end Mkfs

end Xv6Shed
