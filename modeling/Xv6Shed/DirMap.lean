import Xv6Shed.Scripts
import Xv6Shed.SlotMap

/-!
# Directories as finite maps

The entries of a directory are slots with names and inode numbers. `dirlookup` and `dirlink` scan
them in different ways: the first looks at whole blocks, the second stops at the size. They agree
since the bytes after the end are zero.
-/

namespace Xv6Shed
open Function Bytes SlotMap Transition

/-- `strncmp`, from byte `i` on -/
def strncmp (p q : Buffer) : ℕ → ℕ → ℤ
  | _, 0 => 0
  | i, n + 1 => if p i ≠ 0 ∧ p i = q i then strncmp p q (i + 1) n else (p i).toNat - (q i).toNat

/-- `strncpy`, from byte `i` on: the bytes that are stored -/
def strncpy (t : Buffer) : ℕ → ℕ → List UInt8
  | _, 0 => []
  | i, n + 1 => if t i = 0 then List.replicate (n + 1) 0 else t i :: strncpy t (i + 1) n

def namecmp (s t : Buffer) : ℤ := strncmp s t 0 14

/-- A name as directories know it: the bytes before the first zero, at most `DIRSIZ` -/
def cut (name : Buffer) : List UInt8 := cstr 14 name 0

theorem strncmp_eq_zero_iff (p q : Buffer) (i n : ℕ) :
    strncmp p q i n = 0 ↔ cstr n p i = cstr n q i := by
  induction n generalizing i with
  | zero => simp [strncmp, cstr]
  | succ n ih =>
    unfold strncmp cstr
    by_cases h : p i ≠ 0 ∧ p i = q i
    · rw [if_pos h, if_neg h.1, if_neg (h.2 ▸ h.1), ih, h.2, List.cons.injEq, and_iff_right rfl]
    · rw [if_neg h]
      have hsub : ((p i).toNat : ℤ) - (q i).toNat = 0 ↔ p i = q i := by
        rw [sub_eq_zero, Nat.cast_inj, UInt8.toNat_inj]
      rw [hsub]
      by_cases hp : p i = 0
      · rw [if_pos hp, hp]
        by_cases hq : q i = 0
        · rw [if_pos hq, hq]
          exact iff_of_true rfl rfl
        · rw [if_neg hq]
          exact iff_of_false (Ne.symm hq) (List.cons_ne_nil _ _).symm
      · have hne : p i ≠ q i := fun he => h ⟨hp, he⟩
        refine iff_of_false hne ?_
        rw [if_neg hp]
        by_cases hq : q i = 0
        · rw [if_pos hq]
          exact List.cons_ne_nil _ _
        · rw [if_neg hq]
          exact fun he => hne (List.cons.inj he).1

theorem namecmp_eq_zero_iff (name x : Buffer) (off : ℕ) :
    namecmp name (fun i => x (off + 2 + i)) = 0 ↔ (Dirent.load x off).name = cut name := by
  have : cstr 14 (fun i => x (off + 2 + i)) 0 = cstr 14 x (off + 2) :=
    cstr_congr fun i _ => by rw [Nat.zero_add]
  rw [namecmp, strncmp_eq_zero_iff, this, eq_comm]
  rfl

theorem strncpy_getD (t : Buffer) (i n j : ℕ) :
    (strncpy t i n).getD j 0 = (cstr n t i).getD j 0 := by
  induction n generalizing i j with
  | zero => rfl
  | succ n ih =>
    unfold strncpy cstr
    by_cases h0 : t i = 0
    · rw [if_pos h0, if_pos h0, List.getD_eq_getElem?_getD, List.getElem?_replicate, List.getD_nil]
      split <;> rfl
    · rw [if_neg h0, if_neg h0]
      cases j with
      | zero => rfl
      | succ j => exact ih (i + 1) j

theorem bytes_eq_strncpy (ino : UInt16) (name : Buffer) (j : ℕ) :
    Dirent.bytes ⟨ino, cut name⟩ (2 + j) = (strncpy name 0 14).getD j 0 := by
  rw [strncpy_getD, Dirent.bytes, if_neg (by omega), Nat.add_sub_cancel_left]
  rfl

theorem zero_notMem_cstr (n : ℕ) (x : Buffer) (i : ℕ) : 0 ∉ cstr n x i := by
  induction n generalizing i with
  | zero => simp [cstr]
  | succ n ih =>
    unfold cstr
    by_cases h0 : x i = 0
    · rw [if_pos h0]
      exact List.not_mem_nil
    · rw [if_neg h0, List.mem_cons, not_or]
      exact ⟨Ne.symm h0, ih (i + 1)⟩

theorem length_cstr_le (n : ℕ) (x : Buffer) (i : ℕ) : (cstr n x i).length ≤ n := by
  induction n generalizing i with
  | zero => exact Nat.le_refl 0
  | succ n ih =>
    unfold cstr
    by_cases h0 : x i = 0
    · rw [if_pos h0]
      exact Nat.zero_le _
    · rw [if_neg h0]
      exact Nat.succ_le_succ (ih (i + 1))

theorem load_new (name : Buffer) (ino : UInt16) :
    Dirent.load (Dirent.bytes ⟨ino, cut name⟩) 0 = ⟨ino, cut name⟩ := by
  have h16 : ∀ i < 16, Dirent.bytes ⟨ino, cut name⟩ (0 + i) = Dirent.bytes ⟨ino, cut name⟩ i :=
    fun i _ => by rw [Nat.zero_add]
  have hcut : (cut name).take 14 = cut name := List.take_of_length_le (length_cstr_le 14 name 0)
  exact (Dirent.load_bytes (zero_notMem_cstr 14 name 0) h16).trans (congrArg _ hcut)

/-- A name as `strncpy` stores it passes `namecmp` with the names that agree with it before the
first zero of 14 bytes, and with no others. -/
theorem namecmp_strncpy (s t : Buffer) :
    namecmp s (fun j => (strncpy t 0 14).getD j 0) = 0 ↔ cut s = cut t := by
  have h := namecmp_eq_zero_iff s (Dirent.bytes ⟨0, cut t⟩) 0
  simp only [Nat.zero_add, bytes_eq_strncpy, load_new] at h
  rw [h, eq_comm]

/-- What an entry binds -/
def Dirent.binding (de : Dirent) : Option (List UInt8 × ℕ) :=
  if de.inum = 0 then none else some (de.name, de.inum.toNat)

theorem Dirent.binding_eq_some {de : Dirent} {name : List UInt8} {i : ℕ} :
    de.binding = some (name, i) ↔ de.name = name ∧ de.inum.toNat = i ∧ i ≠ 0 := by
  have h0 : de.inum = 0 ↔ de.inum.toNat = 0 := UInt16.toNat_inj.symm
  unfold binding
  split
  · next h =>
    refine iff_of_false nofun ?_
    rintro ⟨-, rfl, hi⟩
    exact hi (h0.mp h)
  · next h =>
    rw [Option.some.injEq, Prod.mk.injEq]
    refine ⟨fun hp => ⟨hp.1, hp.2, ?_⟩, fun hp => ⟨hp.1, hp.2.1⟩⟩
    rw [← hp.2]
    exact fun hz => h (h0.mpr hz)

def Dinode.slots (d : Dinode) (disk : Disk) (k : ℕ) : Option (List UInt8 × ℕ) :=
  (d.ent disk k).binding

/-- The blocks of a directory are there, with zeros after its end, and its names are different. -/
structure Dinode.Orderly (d : Dinode) (disk : Disk) : Prop where
  mapped : Mapped d disk
  tail : ∀ p, d.size.toNat ≤ p → bytes d disk p = 0
  distinct : Distinct (d.slots disk)

/-- A well-formed directory: its size is a number of entries, too. -/
structure Dinode.WellFormed (d : Dinode) (disk : Disk) : Prop extends Dinode.Orderly d disk where
  whole : 16 ∣ d.size.toNat

theorem slots_of_tail {d : Dinode} {disk : Disk} (ht : ∀ p, d.size.toNat ≤ p → bytes d disk p = 0)
    {k : ℕ} (hk : d.size.toNat ≤ 16 * k) : d.slots disk k = none := by
  refine if_pos (?_ : get16 (bytes d disk) (16 * k) = 0)
  have hzero : get16 (bytes d disk) (16 * k) = get16 zeros 0 :=
    get16_congr fun i _ => ht _ (by omega)
  rw [hzero]
  rfl

theorem slots_patch {d d' : Dinode} {disk disk' : Disk} {k : ℕ} {src : Buffer}
    (hb : bytes d' disk' = patch (bytes d disk) (16 * k) 16 src) :
    d'.slots disk' = update (d.slots disk) k (Dirent.load src 0).binding := by
  obtain ⟨hk, hother⟩ := ent_patch hb
  funext j
  by_cases hj : j = k
  · rw [hj, update_self, Dinode.slots, hk]
  · rw [update_of_ne hj, Dinode.slots, hother j hj]
    rfl

namespace Fs

variable {NINODE : ℕ} {sb : Superblock} {s s' : Fs NINODE} {dp : Fin NINODE}

/-- The slots of the directory `dp` -/
def slots (dp : Fin NINODE) (s : Fs NINODE) : ℕ → Option (List UInt8 × ℕ) :=
  (s.icache dp).d.slots (s.disk (s.icache dp).dev)

/-- The directory `dp` as a map from names to inode numbers -/
noncomputable def dirMap (dp : Fin NINODE) (s : Fs NINODE) : List UInt8 → Option ℕ :=
  toMap (s.slots dp)

/-- `dp` is a well-formed directory in use, on a disk where blocks have at most one owner and
free blocks are marked free and zero. -/
structure DirState (sb : Superblock) (dp : Fin NINODE) (s : Fs NINODE) : Prop where
  ref : 0 < (s.icache dp).ref
  dir : (s.icache dp).d.type = T_DIR
  range : (s.icache dp).inum < sb.ninodes
  copy : (s.icache dp).d = dinode (s.disk (s.icache dp).dev) (s.icache dp).inum
  volume : Volume sb (dinode (s.disk (s.icache dp).dev)) (s.disk (s.icache dp).dev)
  wf : (s.icache dp).d.WellFormed (s.disk (s.icache dp).dev)

/-- Only references to inodes, and slots of inodes that are not in use, have changed. -/
structure Quiet (s s' : Fs NINODE) : Prop where
  disk : s'.disk = s.disk
  inode : ∀ ip, 0 < (s.icache ip).ref → (s.icache ip).ref ≤ (s'.icache ip).ref ∧
    s'.icache ip = { s.icache ip with ref := (s'.icache ip).ref }

theorem DirState.quiet (h : DirState sb dp s) (hq : Quiet s s') :
    DirState sb dp s' ∧ s'.slots dp = s.slots dp := by
  obtain ⟨href, hsame⟩ := hq.inode dp h.ref
  have hd : (s'.icache dp).d = (s.icache dp).d := by rw [hsame]
  have hdev : (s'.icache dp).dev = (s.icache dp).dev := by rw [hsame]
  have hinum : (s'.icache dp).inum = (s.icache dp).inum := by rw [hsame]
  refine ⟨⟨h.ref.trans_le href, ?_, ?_, ?_, ?_, ?_⟩, ?_⟩
  · rw [hd]
    exact h.dir
  · rw [hinum]
    exact h.range
  · rw [hd, hdev, hinum, hq.disk]
    exact h.copy
  · rw [hdev, hq.disk]
    exact h.volume
  · rw [hd, hdev, hq.disk]
    exact h.wf
  · rw [slots, hd, hdev, hq.disk]
    rfl

def noFault (_ : Fault) : Prop := False

theorem returns_of_meets {α : Type} {x : Except Fault α} {Q : α → Prop} (h : Meets noFault x Q) :
    ∃ a, x = .ok a ∧ Q a :=
  h.ok_or_error.resolve_left fun ⟨_, _, he⟩ => he

theorem slots_eq {k b : ℕ} (hb : blockOf (s.icache dp).d (s.disk (s.icache dp).dev) (k / 32) = b)
    (h0 : b ≠ 0) : s.slots dp k =
      (Dirent.load (s.disk (s.icache dp).dev b) (16 * (k % 32))).binding := by
  refine congrArg Dirent.binding (Dirent.load_congr fun i hi => ?_)
  have hdiv : (16 * k + i) / 512 = k / 32 := by omega
  rw [bytes, hdiv, hb, if_neg h0]
  congr 1
  omega

theorem dirScan_slots (h : Mapped (s.icache dp).d (s.disk (s.icache dp).dev)) (name : List UInt8)
    (n j : ℕ) (hsize : 512 * (j + n) < (s.icache dp).d.size.toNat + 512) :
    Meets noFault (s.dirScan dp name n (512 * j)) fun r =>
      (r = none → ∀ k i, 32 * j ≤ k → k < 32 * (j + n) → s.slots dp k ≠ some (name, i)) ∧
      ∀ off i, r = some (off, i) → ∃ k, off = 16 * k ∧ k < 32 * (j + n) ∧
        s.slots dp k = some (name, i) := by
  induction n generalizing j with
  | zero => exact Meets.pure ⟨fun _ k i hk hlt => by omega, fun _ _ hr => nomatch hr⟩
  | succ n ih =>
    have hmap := h j (by omega)
    have hdiv : 512 * j / 512 = j := Nat.mul_div_cancel_left j (by decide)
    generalize hb : blockOf (s.icache dp).d (s.disk (s.icache dp).dev) j = b at hmap
    have hentry : ∀ k, k / 32 = j → s.slots dp k =
        (Dirent.load (s.disk (s.icache dp).dev b) (16 * (k % 32))).binding :=
      fun k hk => slots_eq (by rw [hk, hb]) hmap
    unfold dirScan
    rw [hdiv, bmap_read (by rwa [hb]), ok_bind, hb]
    dsimp only
    split
    · next k hf =>
      obtain ⟨-, hk, hp⟩ := first_eq_some hf
      rw [Bool.and_eq_true, bne_iff_ne, beq_iff_eq] at hp
      refine Meets.pure ⟨fun hn => (nomatch hn), fun off i hr => ?_⟩
      cases hr
      refine ⟨32 * j + k, by omega, by omega, ?_⟩
      rw [hentry _ (by omega), show (32 * j + k) % 32 = k by omega]
      exact Dirent.binding_eq_some.mpr ⟨hp.2, rfl, fun h0 => hp.1 (UInt16.toNat_inj.mp h0)⟩
    · next hf =>
      rw [← Nat.mul_succ]
      rw [show j + (n + 1) = j + 1 + n by omega] at hsize ⊢
      refine (ih (j + 1) hsize).imp fun r hr => ⟨fun hn k i hk hlt => ?_, hr.2⟩
      by_cases hkj : k < 32 * (j + 1)
      · -- an entry of this block
        have hno := first_eq_none hf (Nat.zero_le (k % 32)) (by omega)
        rw [hentry k (by omega)]
        intro hsome
        obtain ⟨hname, hinum, hi⟩ := Dirent.binding_eq_some.mp hsome
        rw [Bool.and_eq_false_iff, bne_eq_false_iff_eq, beq_eq_false_iff_ne] at hno
        rcases hno with h0 | hne
        · rw [h0] at hinum
          exact hi hinum.symm
        · exact hne hname
      · exact hr.1 hn k i (by omega) (by omega)

/-- What `iget` leaves: the inode asked for, with a reference more -/
structure Got (s : Fs NINODE) (dev inum : ℕ) (ip : Fin NINODE) (s' : Fs NINODE) : Prop where
  dev : (s'.icache ip).dev = dev
  inum : (s'.icache ip).inum = inum
  ref : (s'.icache ip).ref = (s.icache ip).ref + 1
  quiet : Quiet s s'
  -- `iput` takes the reference back
  iput : Meets noFault (s'.iput ip) fun s'' => s''.disk = s.disk ∧
    ∀ jp, (s''.icache jp).ref = (s.icache jp).ref ∧
      (0 < (s.icache jp).ref → s''.icache jp = s.icache jp)

theorem iget_got (dev inum : ℕ) (s : Fs NINODE) :
    Meets (· = .panic "iget: no inodes") (s.iget dev inum) fun r => Got s dev inum r.1 r.2 := by
  unfold iget
  split
  · next ip hfind =>
    have hp : 0 < (s.icache ip).ref ∧ (s.icache ip).dev = dev ∧ (s.icache ip).inum = inum := by
      simpa using List.find?_some hfind
    refine Meets.pure ⟨?_, ?_, ?_, ⟨rfl, fun jp _ => ?_⟩, ?_⟩
    · rw [setInode_icache, update_self]
      exact hp.2.1
    · rw [setInode_icache, update_self]
      exact hp.2.2
    · rw [setInode_icache, update_self]
    · rw [setInode_icache]
      by_cases hj : jp = ip
      · rw [hj, update_self]
        exact ⟨by dsimp only; omega, rfl⟩
      · rw [update_of_ne hj]
        exact ⟨le_refl _, rfl⟩
    · have hself : s.setInode ip (s.icache ip) = s := by rw [setInode, update_eq_self]
      unfold iput
      rw [setInode_icache, update_self]
      dsimp only
      rw [if_neg (fun hc => by omega)]
      refine Meets.pure ?_
      rw [setInode_icache, update_self, setInode_setInode]
      dsimp only
      rw [Int.add_sub_cancel, hself]
      exact ⟨rfl, fun jp => ⟨rfl, fun _ => rfl⟩⟩
  split
  · exact Meets.error rfl
  · next ip hfind =>
    have h0 : (s.icache ip).ref = 0 := by simpa using List.find?_some hfind
    refine Meets.pure ⟨?_, ?_, ?_, ⟨rfl, fun jp hj => ?_⟩, ?_⟩
    · rw [setInode_icache, update_self]
    · rw [setInode_icache, update_self]
    · rw [setInode_icache, update_self, h0]
      rfl
    · have hne : jp ≠ ip := fun he => by rw [he, h0] at hj; exact absurd hj (Int.lt_irrefl 0)
      rw [setInode_icache, update_of_ne hne]
      exact ⟨le_refl _, rfl⟩
    · unfold iput
      rw [setInode_icache, update_self]
      dsimp only
      rw [if_neg (fun hc => Bool.false_ne_true hc.2.1)]
      refine Meets.pure ⟨rfl, fun jp => ?_⟩
      rw [setInode_setInode]
      simp only [setInode_icache, update_self]
      by_cases hj : jp = ip
      · rw [hj, update_self, h0]
        exact ⟨rfl, fun hlt => absurd hlt (Int.lt_irrefl 0)⟩
      · rw [update_of_ne hj]
        exact ⟨rfl, fun _ => rfl⟩

theorem dirlookup_slots (h : DirState sb dp s) (name : List UInt8) :
    Meets (· = .panic "iget: no inodes") (s.dirlookup dp name) fun r =>
      (r.1 = none → r.2 = s ∧ s.dirMap dp name = none) ∧
      ∀ ip off, r.1 = some (ip, off) → ∃ k, off = 16 * k ∧
        s.slots dp k = some (name, (r.2.icache ip).inum) ∧
        Got s (s.icache dp).dev (r.2.icache ip).inum ip r.2 := by
  unfold dirlookup
  dsimp only
  rw [if_neg (not_not.mpr h.dir)]
  refine ((dirScan_slots h.wf.mapped name _ 0 (by omega)).weaken fun _ => False.elim).bind ?_
  rintro (_ | ⟨off, i⟩) ⟨hnone, hsome⟩
  · refine Meets.pure ⟨fun _ => ⟨rfl, toMap_eq_none fun k i => ?_⟩, fun _ _ hr => nomatch hr⟩
    by_cases hk : k < 32 * (((s.icache dp).d.size.toNat + 511) / 512)
    · exact hnone rfl k i (by omega) (by omega)
    · have : s.slots dp k = none := slots_of_tail h.wf.tail (by omega)
      rw [this]
      exact nofun
  · obtain ⟨k, hoff, -, hslot⟩ := hsome off i rfl
    refine (iget_got _ i s).bind ?_
    rintro ⟨ip, s'⟩ hgot
    refine Meets.pure ⟨fun hn => (nomatch hn), fun jp off' hr => ?_⟩
    cases hr
    refine ⟨k, hoff, ?_, ?_⟩
    · rw [hgot.inum]
      exact hslot
    · rw [hgot.inum]
      exact hgot

theorem writei_slot (h : DirState sb dp s) {k : ℕ} (hk : 16 * k ≤ (s.icache dp).d.size.toNat)
    (hroom : 16 * k + 16 ≤ 140 * 512) (src : Buffer)
    (hd : Distinct (update (s.slots dp) k (Dirent.load src 0).binding)) :
    Meets (· = outOfBlocks) (s.writei (-1) dp src (16 * k) 16) fun r => r.1 = 16 ∧
      DirState sb dp r.2 ∧ r.2.slots dp = update (s.slots dp) k (Dirent.load src 0).binding := by
  have hl : Live sb (dinode (s.disk (s.icache dp).dev)) (s.icache dp).inum := by
    refine ⟨h.range, ?_⟩
    rw [← h.copy, h.dir]
    decide
  have hmapped := h.wf.mapped
  have hk' := hk
  have hdir := h.dir
  rw [h.copy] at hmapped hk' hdir
  have hdev : (dinode (s.disk (s.icache dp).dev) (s.icache dp).inum).type ≠ T_DEV := by
    rw [hdir]
    decide
  have hmin : min 16 (140 * 512 - 16 * k) = 16 := by omega
  refine (writei_meets h.volume h.copy.symm rfl hl hdev hmapped (-1) src (.inl hk')
    (by omega)).imp ?_
  rintro ⟨r, s'⟩ ⟨d', disk', hr, w⟩
  rw [hmin] at hr w
  obtain ⟨rfl, rfl⟩ := Prod.mk.inj hr
  have hsync := w.synced rfl
  have hvol : Volume sb (dinode disk') disk' :=
    volume_replaced ⟨w.toOthers, w.volume, hsync⟩
  have hbytes := w.bytes
  rw [← h.copy] at hbytes
  have hsize := w.size
  rw [← h.copy] at hsize
  have hslots : (s.put dp d' disk').slots dp =
      update (s.slots dp) k (Dirent.load src 0).binding := by
    rw [slots, put_icache]
    dsimp only
    rw [put_disk]
    exact slots_patch hbytes
  refine ⟨rfl, ⟨?_, ?_, ?_, ?_, ?_, ?_⟩, hslots⟩
  · rw [put_icache]
    exact h.ref
  · rw [put_icache]
    exact (congrArg Dinode.type w.fields).trans hdir
  · rw [put_icache]
    exact h.range
  · rw [put_icache]
    dsimp only
    rw [put_disk, hsync]
  · rw [put_icache]
    dsimp only
    rw [put_disk]
    exact hvol
  · rw [put_icache]
    dsimp only
    rw [put_disk]
    refine ⟨⟨w.mapped, fun p hp => ?_, ?_⟩, ?_⟩
    · have htail := h.wf.tail p (by omega)
      rw [hbytes, patch_out _ _ (by omega), htail]
    · rw [slots, put_icache] at hslots
      dsimp only at hslots
      rw [put_disk] at hslots
      rwa [hslots]
    · have := h.wf.whole
      omega

theorem dirEmpty_slots (hdev : (s.icache dp).d.type ≠ T_DEV)
    (hm : Mapped (s.icache dp).d (s.disk (s.icache dp).dev)) (n k : ℕ)
    (hn : (s.icache dp).d.size.toNat = 16 * (k + n)) :
    Meets noFault (s.dirEmpty dp n (16 * k)) fun off => ∃ k', off = 16 * k' ∧
      off ≤ (s.icache dp).d.size.toNat ∧
      (s.slots dp k' = none ∨ off = (s.icache dp).d.size.toNat) := by
  induction n generalizing k with
  | zero => exact Meets.pure ⟨k, rfl, by omega, .inr (by omega)⟩
  | succ n ih =>
    have hsize := hm.size_le
    obtain ⟨dst, hread, hdst⟩ := readi_ok hdev hm (-1)
      (show 16 * k ≤ (s.icache dp).d.size.toNat by omega) (show 16 * k + 16 < 2 ^ 32 by omega)
    rw [show min 16 ((s.icache dp).d.size.toNat - 16 * k) = 16 by omega] at hread hdst
    have hent : Dirent.load dst 0 = (s.icache dp).d.ent (s.disk (s.icache dp).dev) k := by
      refine Dirent.load_congr fun p hp => ?_
      rw [Nat.zero_add, hdst p hp]
    unfold dirEmpty
    rw [hread, ok_bind]
    dsimp only
    rw [if_neg (fun hne => hne rfl), hent]
    by_cases h0 : ((s.icache dp).d.ent (s.disk (s.icache dp).dev) k).inum = 0
    · rw [if_pos h0]
      exact Meets.pure ⟨k, rfl, by omega, .inl (if_pos h0)⟩
    · rw [if_neg h0, ← Nat.mul_succ]
      exact ih (k + 1) (by omega)

/-- The faults of `dirlink`: no inode or no block is left. -/
def noRoom (e : Fault) : Prop := e = .panic "iget: no inodes" ∨ e = outOfBlocks

theorem dirlink_slots (h : DirState sb dp s) (name : Buffer) {ino : ℕ} (hpos : 0 < ino)
    (hino : ino < 65536) (hroom : (s.icache dp).d.size.toNat < 140 * 512) :
    Meets noRoom (s.dirlink dp (cut name) ino) fun r =>
      (s.dirMap dp (cut name) ≠ none → r.1 = -1 ∧ r.2.disk = s.disk ∧
        ∀ jp, (r.2.icache jp).ref = (s.icache jp).ref ∧
          (0 < (s.icache jp).ref → r.2.icache jp = s.icache jp)) ∧
      (s.dirMap dp (cut name) = none → r.1 = 0 ∧ DirState sb dp r.2 ∧
        r.2.dirMap dp = update (s.dirMap dp) (cut name) (some ino)) := by
  unfold dirlink
  refine ((dirlookup_slots h (cut name)).weaken fun _ => .inl).bind ?_
  rintro ⟨_ | ⟨ip, off⟩, s₁⟩ ⟨hnone, hsome⟩
  · obtain ⟨hs, hfree⟩ := hnone rfl
    obtain rfl : s₁ = s := hs
    have hwhole := h.wf.whole
    have hn : (s₁.icache dp).d.size.toNat =
        16 * (0 + ((s₁.icache dp).d.size.toNat + 15) / 16) := by omega
    have hdev : (s₁.icache dp).d.type ≠ T_DEV := by
      rw [h.dir]
      decide
    refine ((dirEmpty_slots hdev h.wf.mapped _ 0 hn).weaken fun _ => False.elim).bind ?_
    rintro _ ⟨k, rfl, hle, hfound⟩
    have hk : s₁.slots dp k = none :=
      hfound.elim id fun hend => slots_of_tail h.wf.tail (Nat.le_of_eq hend.symm)
    have hbinding : (Dirent.load (Dirent.bytes ⟨UInt16.ofNat ino, cut name⟩) 0).binding =
        some (cut name, ino) := by
      have hnat : (UInt16.ofNat ino).toNat = ino := by
        rw [UInt16.toNat_ofNat', Nat.mod_eq_of_lt hino]
      rw [load_new]
      exact Dirent.binding_eq_some.mpr ⟨rfl, hnat, by omega⟩
    refine ((writei_slot h hle (by omega) _ ?_).weaken fun _ => .inr).bind ?_
    · rw [hbinding]
      exact h.wf.distinct.add hfree k ino
    rintro ⟨r, s₂⟩ ⟨hr, h₂, hslots⟩
    dsimp only at hr ⊢
    rw [if_neg (not_not.mpr hr)]
    refine Meets.pure ⟨fun hne => absurd hfree hne, fun _ => ⟨rfl, h₂, ?_⟩⟩
    rw [dirMap, hslots, hbinding]
    exact toMap_add h.wf.distinct hk hfree ino
  · obtain ⟨k, -, hslot, hgot⟩ := hsome ip off rfl
    have hbound : s.dirMap dp (cut name) = _ := toMap_eq_some h.wf.distinct hslot
    refine (hgot.iput.weaken fun _ => False.elim).bind fun s₂ h₂ => ?_
    refine Meets.pure ⟨fun _ => ⟨rfl, h₂⟩, fun hfree => ?_⟩
    rw [hbound] at hfree
    cases hfree

/-- The operations on a directory; `remove` clears an entry as `sys_unlink` does. -/
inductive DirOp where
  | lookup (name : Buffer)
  | link (name : Buffer) (ino : ℕ)
  | remove (name : Buffer)

/-- The state after an operation -/
def dirOp (dp : Fin NINODE) (s : Fs NINODE) : DirOp → Except Fault (Fs NINODE)
  | .lookup name => do
    let (_, s) ← s.dirlookup dp (cut name)
    pure s
  | .link name ino => do
    let (_, s) ← s.dirlink dp (cut name) ino
    pure s
  | .remove name => do
    match ← s.dirlookup dp (cut name) with
    | (none, s) => pure s
    | (some (_, off), s) =>
      let (_, s) ← s.writei (-1) dp zeros off 16
      pure s

/-- An inode number is not zero and fits an entry, and the directory can grow. -/
def DirOp.Fits (dp : Fin NINODE) (s : Fs NINODE) : DirOp → Prop
  | .link _ ino => 0 < ino ∧ ino < 65536 ∧ (s.icache dp).d.size.toNat < 140 * 512
  | _ => True

/-- `writei` of a part of one block returns if its block is there or is found. -/
theorem writei_returns {ip : Fin NINODE} {off n : ℕ} {x : ℕ × Fs NINODE}
    (hdev : (s.icache ip).d.type ≠ T_DEV) (hblock : s.bmap true ip (off / 512) = .ok x)
    (hn : 0 < n) (hpart : off % 512 + n ≤ 512) (hend : off + n ≤ 140 * 512) (src : Buffer) :
    ∃ r, s.writei (-1) ip src off n = .ok r := by
  have hmin : min n (512 - off % 512) = n := by omega
  unfold writei
  rw [if_neg hdev, if_neg (by omega), if_neg (by omega)]
  dsimp only
  unfold writeLoop
  rw [if_neg (by omega), hblock, ok_bind]
  dsimp only
  rw [hmin, Nat.sub_self]
  cases n with
  | zero => omega
  | succ n =>
    unfold writeLoop
    rw [if_pos rfl]
    rw [pure_bind]
    dsimp only
    split
    · exact ⟨_, rfl⟩
    · exact ⟨_, rfl⟩

theorem clear_slots {k : ℕ} {name : List UInt8} {i : ℕ} (h : DirState sb dp s)
    (hslot : s.slots dp k = some (name, i)) :
    Meets noFault (s.writei (-1) dp zeros (16 * k) 16) fun r => r.1 = 16 ∧ DirState sb dp r.2 ∧
      r.2.dirMap dp = update (s.dirMap dp) name none := by
  have hbinding : (Dirent.load zeros 0).binding = none := if_pos rfl
  have hk : 16 * k < (s.icache dp).d.size.toNat := by
    by_contra hle
    have : s.slots dp k = none := slots_of_tail h.wf.tail (by omega)
    rw [hslot] at this
    cases this
  have hsize := h.wf.mapped.size_le
  have hwhole := h.wf.whole
  have hdev : (s.icache dp).d.type ≠ T_DEV := by
    rw [h.dir]
    decide
  have hmeets := writei_slot h hk.le (by omega) zeros
    (by rw [hbinding]; exact h.wf.distinct.clear k)
  obtain ⟨r, hr⟩ : ∃ r, s.writei (-1) dp zeros (16 * k) 16 = .ok r :=
    writei_returns hdev (bmap_read (h.wf.mapped _ (by omega))) (by decide) (by omega) (by omega) _
  obtain ⟨h16, h', hslots⟩ := hmeets.of_ok hr
  rw [hr]
  refine Meets.pure ⟨h16, h', ?_⟩
  rw [dirMap, hslots, hbinding]
  exact toMap_clear h.wf.distinct hslot

theorem dirOp_state (h : DirState sb dp s) {op : DirOp} (hf : op.Fits dp s)
    (hs : s.dirOp dp op = .ok s') : DirState sb dp s' := by
  have hlookup : ∀ name, Meets (fun _ => True) (s.dirlookup dp (cut name)) fun r =>
      DirState sb dp r.2 ∧ ∀ ip off, r.1 = some (ip, off) →
        ∃ k i, off = 16 * k ∧ r.2.slots dp k = some (cut name, i) := by
    intro name
    refine ((dirlookup_slots h (cut name)).weaken fun _ _ => trivial).imp ?_
    rintro ⟨_ | ⟨ip, off⟩, s₁⟩ ⟨hnone, hsome⟩
    · obtain ⟨hs₁, -⟩ := hnone rfl
      obtain rfl : s₁ = s := hs₁
      exact ⟨h, fun _ _ hr => nomatch hr⟩
    · obtain ⟨k, hoff, hslot, hgot⟩ := hsome ip off rfl
      obtain ⟨h₁, hslots⟩ := h.quiet hgot.quiet
      refine ⟨h₁, fun jp off' hr => ?_⟩
      cases hr
      exact ⟨k, _, hoff, by rw [hslots]; exact hslot⟩
  cases op with
  | lookup name =>
    have hm : Meets (fun _ => True) (s.dirOp dp (.lookup name)) (DirState sb dp) :=
      (hlookup name).bind fun r hr => Meets.pure hr.1
    exact hm.of_ok hs
  | link name ino =>
    have hm : Meets (fun _ => True) (s.dirOp dp (.link name ino)) (DirState sb dp) := by
      refine ((dirlink_slots h name hf.1 hf.2.1 hf.2.2).weaken fun _ _ => trivial).bind ?_
      rintro ⟨r, s₁⟩ ⟨hsome, hnone⟩
      refine Meets.pure ?_
      by_cases hfree : s.dirMap dp (cut name) = none
      · exact (hnone hfree).2.1
      · obtain ⟨-, hdisk, hinode⟩ := hsome hfree
        refine (h.quiet ⟨hdisk, fun ip hip => ?_⟩).1
        rw [(hinode ip).2 hip]
        exact ⟨le_refl _, rfl⟩
    exact hm.of_ok hs
  | remove name =>
    have hm : Meets (fun _ => True) (s.dirOp dp (.remove name)) (DirState sb dp) := by
      refine (hlookup name).bind ?_
      rintro ⟨_ | ⟨ip, off⟩, s₁⟩ ⟨h₁, hfound⟩
      · exact Meets.pure h₁
      · obtain ⟨k, i, rfl, hslot⟩ := hfound ip off rfl
        refine ((clear_slots h₁ hslot).weaken fun _ _ => trivial).bind fun r hr => ?_
        exact Meets.pure hr.2.1
    exact hm.of_ok hs

/-- A directory is a finite map, after any sequence of operations. -/
theorem directory_map {s₀ : Fs NINODE} (h₀ : DirState sb dp s₀)
    (hr : Reach (fun s op s' => DirOp.Fits dp s op ∧ s.dirOp dp op = .ok s') s₀ s) :
    (s.icache dp).d.WellFormed (s.disk (s.icache dp).dev) ∧
    (∀ name, Meets (· = .panic "iget: no inodes") (s.dirlookup dp (cut name)) fun r =>
      (r.1 = none → s.dirMap dp (cut name) = none) ∧
      ∀ ip off, r.1 = some (ip, off) →
        s.dirMap dp (cut name) = some (r.2.icache ip).inum ∧
        (r.2.icache ip).dev = (s.icache dp).dev ∧ (r.2.icache ip).ref = (s.icache ip).ref + 1 ∧
        (∃ k, off = 16 * k ∧ s.slots dp k = some (cut name, (r.2.icache ip).inum)) ∧
        Meets noFault (r.2.writei (-1) dp zeros off 16) fun w => w.1 = 16 ∧
          w.2.dirMap dp = update (s.dirMap dp) (cut name) none) ∧
    ∀ name ino, 0 < ino → ino < 65536 → (s.icache dp).d.size.toNat < 140 * 512 →
      Meets noRoom (s.dirlink dp (cut name) ino) fun r =>
        (s.dirMap dp (cut name) ≠ none → r.1 = -1 ∧ r.2.disk = s.disk ∧
          ∀ jp, (r.2.icache jp).ref = (s.icache jp).ref ∧
            (0 < (s.icache jp).ref → r.2.icache jp = s.icache jp)) ∧
        (s.dirMap dp (cut name) = none → r.1 = 0 ∧
          r.2.dirMap dp = update (s.dirMap dp) (cut name) (some ino)) := by
  have h : DirState sb dp s := by
    refine hr.invariant h₀ ?_
    rintro s op s' hs ⟨hf, ho⟩
    exact dirOp_state hs hf ho
  refine ⟨h.wf, fun name => ?_, fun name ino hpos hino hroom => ?_⟩
  · refine (dirlookup_slots h (cut name)).imp fun r hr =>
      ⟨fun hn => (hr.1 hn).2, fun ip off hip => ?_⟩
    obtain ⟨k, rfl, hslot, hgot⟩ := hr.2 ip off hip
    obtain ⟨h', hslots⟩ := h.quiet hgot.quiet
    refine ⟨toMap_eq_some h.wf.distinct hslot, hgot.dev, hgot.ref, ⟨k, rfl, hslot⟩, ?_⟩
    refine (clear_slots h' (by rw [hslots]; exact hslot)).imp fun w hw => ⟨hw.1, ?_⟩
    rw [hw.2.2, dirMap, dirMap, hslots]
  · exact (dirlink_slots h name hpos hino hroom).imp fun r hr =>
      ⟨hr.1, fun hn => ⟨(hr.2 hn).1, (hr.2 hn).2.2⟩⟩

/-- One inode in memory, locked: the root directory `d` -/
def loneDir (d : Dinode) (disk : Disk) : Fs 1 := ⟨fun _ => disk, fun _ => ⟨1, 1, 1, true, true, d⟩⟩

theorem orderly_of_bytes {d : Dinode} {disk : Disk} (hm : Mapped d disk)
    (h0 : ∀ p, bytes d disk p = 0) : d.Orderly disk := by
  refine ⟨hm, fun p _ => h0 p, fun i j a b b' hi _ => ?_⟩
  have hnone : d.slots disk i = none := by
    have : d.ent disk i = .load zeros 0 := Dirent.load_congr fun k _ => h0 _
    rw [Dinode.slots, this]
    exact if_pos rfl
  rw [hnone] at hi
  cases hi

theorem orderly_rootDir (disk : Disk) : rootDir.Orderly disk :=
  orderly_of_bytes (fun _ hk => absurd hk (Nat.not_lt_zero _)) (bytes_eq_zero rootDir_addrs)

theorem dirState_rootDir : DirState smallSuper 0 (loneDir rootDir (smallDisk rootDir)) where
  ref := by decide
  dir := rfl
  range := by decide
  copy := (dinode_smallDisk rootDir).symm
  volume := volume_smallDisk rootDir_addrs
  wf := ⟨orderly_rootDir _, by decide⟩

/-- After `dirlink` of the name `a` -/
theorem directory_map_after_link : ∃ s, (loneDir rootDir (smallDisk rootDir)).dirOp 0
    (.link (update zeros 0 97) 5) = .ok s ∧ (s.icache 0).d.size = 16 ∧
    (s.icache 0).d.WellFormed (s.disk (s.icache 0).dev) := by
  obtain ⟨s, hs, h16⟩ := exists_ok_of_any (x := (loneDir rootDir (smallDisk rootDir)).dirOp 0
    (.link (update zeros 0 97) 5)) (P := fun s => decide ((s.icache 0).d.size = 16))
    (by decide +kernel)
  have hr : Reach (fun s op s' => DirOp.Fits 0 s op ∧ s.dirOp 0 op = .ok s')
      (loneDir rootDir (smallDisk rootDir)) s :=
    .next (a := .link (update zeros 0 97) 5) .start ⟨⟨by decide, by decide, by decide⟩, hs⟩
  exact ⟨s, hs, of_decide_eq_true h16, (directory_map dirState_rootDir hr).1⟩

/-- A directory of half an entry, in block 4 -/
def halfDir : Dinode := ⟨T_DIR, 0, 0, 1, 8, update (fun _ => 0) 0 4⟩

theorem orderly_halfDir : halfDir.Orderly (smallDisk halfDir) := by
  refine orderly_of_bytes (fun k hk => ?_) (bytes_of_addrs rfl rfl)
  change 512 * k < 8 at hk
  rw [show k = 0 by omega]
  exact fun h0 => absurd h0 (by change (4 : UInt32).toNat ≠ 0; decide)

/-- `dirlink` fails on half an entry; and it leaves other bytes after the end of the directory if
the block it gets was not cleared, or was in use. -/
theorem directory_map_fails :
    (∃ s : Fs 1, (s.icache 0).d.Orderly (s.disk 1) ∧ (s.icache 0).d.size.toNat < 140 * 512 ∧
      s.dirlink 0 (cut zeros) 5 = .error (.panic "dirlink read")) ∧
    (∃ s s' : Fs 1, (s.icache 0).d.Orderly (s.disk 1) ∧ (s.icache 0).d.size = 0 ∧
      (∀ b < smallSuper.data, marked smallSuper (s.disk 1) b = true) ∧
      s.dirlink 0 (cut zeros) 5 = .ok (0, s') ∧ (s'.icache 0).d.size = 16 ∧
      bytes (s'.icache 0).d (s'.disk 1) 16 ≠ 0) ∧
    ∃ s s' : Fs 1, (s.icache 0).d.Orderly (s.disk 1) ∧ (s.icache 0).d.size = 0 ∧
      (∀ b ≥ smallSuper.data, s.disk 1 b = zeros) ∧
      s.dirlink 0 (cut zeros) 5 = .ok (0, s') ∧ (s'.icache 0).d.size = 16 ∧
      bytes (s'.icache 0).d (s'.disk 1) 64 ≠ 0 := by
  -- the first free block is 4, with an entry left in it
  let stale : Fs 1 := loneDir rootDir (update (smallDisk rootDir) 4 (update zeros 16 8))
  -- the bitmap has no mark for block 2
  let unmarked : Fs 1 := loneDir rootDir (update (smallDisk rootDir) 3 (update zeros 0 11))
  refine ⟨⟨loneDir halfDir (smallDisk halfDir), orderly_halfDir, by decide,
    eq_error_of_error? (by decide +kernel)⟩, ?_, ?_⟩
  · obtain ⟨⟨r, s'⟩, hs, hP⟩ := exists_ok_of_any (x := stale.dirlink 0 (cut zeros) 5)
      (P := fun r => decide (r.1 = 0 ∧ (r.2.icache 0).d.size = 16 ∧
        bytes (r.2.icache 0).d (r.2.disk 1) 16 ≠ 0)) (by decide +kernel)
    obtain ⟨rfl, h16, hb⟩ := of_decide_eq_true hP
    exact ⟨stale, s', orderly_rootDir _, rfl, by decide +kernel, hs, h16, hb⟩
  · obtain ⟨⟨r, s'⟩, hs, hP⟩ := exists_ok_of_any (x := unmarked.dirlink 0 (cut zeros) 5)
      (P := fun r => decide (r.1 = 0 ∧ (r.2.icache 0).d.size = 16 ∧
        bytes (r.2.icache 0).d (r.2.disk 1) 64 ≠ 0)) (by decide +kernel)
    obtain ⟨rfl, h16, hb⟩ := of_decide_eq_true hP
    refine ⟨unmarked, s', orderly_rootDir _, rfl, fun b hge => ?_, hs, h16, hb⟩
    change 4 ≤ b at hge
    have hne : b ≠ 3 := by omega
    exact (update_of_ne hne _ _).trans (smallDisk_data rootDir hge)

end Fs

end Xv6Shed
