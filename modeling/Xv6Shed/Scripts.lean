import Xv6Shed.Evaluation
import Xv6Shed.FileRuns
import Xv6Shed.Image

/-!
# Scripts of calls on small disks
-/

namespace Xv6Shed
open Function Bytes Transition Evaluation

variable {NINODE NFILE NOFILE i : ℕ} {P β : Type}

/-- Evaluate the fields of an inode up to `addrs[0]`. -/
def Inode.freeze (x : Inode) (f : Inode → β) : β :=
  force x.d.type.toNat fun type =>
  force x.d.nlink.toNat fun nlink =>
  force x.d.size.toNat fun size =>
  Evaluation.freeze UInt32.ofNat UInt32.toNat 0 1 (fun j => x.d.addrs (Fin.ofNat 13 j)) fun addrs =>
  f { x with
    d := ⟨.ofNat type, x.d.major, x.d.minor, .ofNat nlink, .ofNat size, fun j => addrs j.val⟩ }

theorem Inode.freeze_eq (x : Inode) (f : Inode → β) : x.freeze f = f x := by
  unfold Inode.freeze
  rw [force_eq, force_eq, force_eq, Evaluation.freeze_eq (fun a => UInt32.ofNat_toNat)]
  simp only [UInt16.ofNat_toNat, UInt32.ofNat_toNat, Fin.ofNat_val_eq_self]

/-- Evaluate stretches of bytes, each given by its block, its offset and its length. -/
def freezeDisk : List (ℕ × ℕ × ℕ) → Disk → (Disk → β) → β
  | [], disk, f => f disk
  | (b, a, n) :: l, disk, f =>
    freeze UInt8.ofNat UInt8.toNat a n (disk b) fun buf => freezeDisk l (update disk b buf) f

theorem freezeDisk_eq (l : List (ℕ × ℕ × ℕ)) (disk : Disk) (f : Disk → β) :
    freezeDisk l disk f = f disk := by
  induction l generalizing disk with
  | nil => rfl
  | cons r l ih => rw [freezeDisk, freeze_eq (fun _ => UInt8.ofNat_toNat), update_eq_self, ih]

namespace Files

variable {k : Files NINODE NFILE NOFILE P}

/-- Evaluate the inodes in memory and parts of disk 1. -/
def freeze (l : List (ℕ × ℕ × ℕ)) (k : Files NINODE NFILE NOFILE P)
    (f : Files NINODE NFILE NOFILE P → β) : β :=
  freezeDisk l (k.fs.disk 1) fun disk =>
  freezeAt Inode.freeze (List.finRange NINODE) k.fs.icache fun icache =>
  f { k with fs := ⟨update k.fs.disk 1 disk, icache⟩ }

theorem freeze_eq (l : List (ℕ × ℕ × ℕ)) (k : Files NINODE NFILE NOFILE P)
    (f : Files NINODE NFILE NOFILE P → β) : k.freeze l f = f k := by
  unfold freeze
  rw [freezeDisk_eq, freezeAt_eq (fun x f => x.freeze_eq f), update_eq_self]

variable [DecidableEq P]

/-- One call of a script, made in a state in which `ok` allows it -/
def script (ok : Files NINODE NFILE NOFILE P → P × FileCall P → Bool) (l : List (ℕ × ℕ × ℕ))
    (k : Files NINODE NFILE NOFILE P) (a : P × FileCall P) : Option (Files NINODE NFILE NOFILE P) :=
  if ok k a then
    match k.exec a.1 a.2 with
    | .ok (_, k') => k'.freeze l some
    | .error _ => none
  else none

theorem step_of_script {ok : Files NINODE NFILE NOFILE P → P × FileCall P → Bool}
    {l : List (ℕ × ℕ × ℕ)} {a : P × FileCall P} {k' : Files NINODE NFILE NOFILE P}
    (h : script ok l k a = some k') : ok k a = true ∧ k.Step a k' := by
  unfold script at h
  by_cases hok : ok k a = true
  · rw [if_pos hok] at h
    cases he : k.exec a.1 a.2 with
    | error e =>
      rw [he] at h
      cases h
    | ok x =>
      rw [he] at h
      dsimp only at h
      rw [freeze_eq] at h
      exact ⟨hok, x.1, he.trans (by rw [← Option.some.inj h])⟩
  · rw [if_neg hok] at h
    cases h

theorem exists_reach_of_script
    {step : Files NINODE NFILE NOFILE P → P × FileCall P → Files NINODE NFILE NOFILE P → Prop}
    (ok : Files NINODE NFILE NOFILE P → P × FileCall P → Bool)
    (hstep : ∀ k a k', ok k a = true → k.Step a k' → step k a k') (r : List (ℕ × ℕ × ℕ))
    (l : List (P × FileCall P)) {Q : Files NINODE NFILE NOFILE P → Prop} [DecidablePred Q]
    (h : (l.foldlM (script ok r) k).any (fun k => decide (Q k)) = true) :
    ∃ k', Reach step k k' ∧ Q k' := by
  have hreach : ∀ s b s', script ok r s b = some s' → Reach step s s' := fun s b s' hs =>
    .next (a := b) .start (hstep s b s' (step_of_script hs).1 (step_of_script hs).2)
  obtain ⟨k', hr, hQ⟩ := exists_reach_of_any hreach h
  exact ⟨k', hr, of_decide_eq_true hQ⟩

instance (sb : Superblock) : Decidable (k.FewLinks sb) :=
  decidable_of_iff (∀ i < sb.ninodes, (dinode (k.fs.disk 1) i).type ≠ 0 →
    (dinode (k.fs.disk 1) i).nlink.toNat < 32768)
    ⟨fun h i hi => h i hi.1 hi.2, fun h i hi ht => h i ⟨hi, ht⟩⟩

end Files

/-- The files of two processes -/
abbrev SmallFiles : Type := Files 3 2 2 (Fin 2)

/-- A root directory without entries -/
def rootDir : Dinode := ⟨T_DIR, 0, 0, 1, 0, fun _ => 0⟩

theorem rootDir_addrs (j : Fin 13) : rootDir.addrs j = 0 := rfl

theorem dinode_smallDisk (d : Dinode) : dinode (smallDisk d) 1 = d := dinode_setDinode _ _ _

theorem smallDisk_data (d : Dinode) {b : ℕ} (hb : 4 ≤ b) : smallDisk d b = zeros := by
  have h2 : smallDisk d b = blankDisk b := by
    refine setDinode_of_ne ?_
    change b ≠ 2
    omega
  rw [h2, blankDisk, if_neg (by omega), if_neg (by omega)]

theorem isDir_smallDisk {d : Dinode} (h : IsDir smallSuper (smallDisk d) i) : i = 1 :=
  live_smallDisk h.live

theorem ent_rootDir (h : IsDir smallSuper (smallDisk rootDir) i) (k : ℕ) :
    ((dinode (smallDisk rootDir) i).ent (smallDisk rootDir) k).inum = 0 := by
  rw [isDir_smallDisk h, dinode_smallDisk]
  exact ent_zero rootDir_addrs k

theorem healthy_rootDir : Healthy smallSuper (smallDisk rootDir) where
  volume := volume_smallDisk rootDir_addrs
  mapped i hi k hk := by
    rw [live_smallDisk hi, dinode_smallDisk] at hk
    exact absurd hk (Nat.not_lt_zero _)
  range j hj k _ := by
    rw [ent_rootDir hj]
    decide

/-- A root directory with one entry, in block 4 -/
def oneBlockDir : Dinode := ⟨T_DIR, 0, 0, 1, 16, update (fun _ => 0) 0 4⟩

/-- A disk with this root directory; `b4` is its block, and `b5` is in the first free block. -/
def dirDisk (b4 b5 : Buffer) : Disk := fun b =>
  if b = 3 then update zeros 0 31 else if b = 4 then b4 else if b = 5 then b5
  else smallDisk oneBlockDir b

section DirDisk

variable {b4 b5 : Buffer} {i : ℕ} {d : Dinode} {disk : Disk}

theorem readsb_dirDisk : readsb (dirDisk b4 b5) = smallSuper := by
  have : dirDisk b4 b5 1 = superBytes 64 7 := rfl
  unfold readsb
  rw [this]
  decide +kernel

theorem dinode_dirDisk (b4 b5 : Buffer) (hi : i < 8) :
    dinode (dirDisk b4 b5) i = dinode (smallDisk oneBlockDir) i := by
  have : IBLOCK i = 2 := by
    unfold IBLOCK
    omega
  unfold dinode
  rw [this]
  rfl

theorem live_dirDisk (h : Live smallSuper (dinode (dirDisk b4 b5)) i) :
    i = 1 ∧ dinode (dirDisk b4 b5) i = oneBlockDir := by
  have hi : i < 7 := h.1
  have hd := dinode_dirDisk b4 b5 (hi.trans (by decide))
  have h1 : i = 1 := live_smallDisk ⟨h.1, hd ▸ h.2⟩
  refine ⟨h1, ?_⟩
  rw [hd, h1, dinode_smallDisk]

theorem ref_of_addrs {a : Place} (hd : d.addrs = update (fun _ => 0) 0 4) (h : d.ref disk a ≠ 0) :
    a = .addr 0 ∧ d.ref disk a = 4 := by
  cases a with
  | addr j =>
    have hj : j = 0 := by
      by_contra hj
      refine h ?_
      rw [Dinode.ref, hd, update_of_ne hj]
      rfl
    rw [hj, Dinode.ref, hd]
    exact ⟨rfl, rfl⟩
  | entry j => exact absurd (Dinode.ref_entry_none (by rw [hd]; rfl)) h

theorem bytes_of_addrs (hd : d.addrs = update (fun _ => 0) 0 4) (h4 : disk 4 = zeros) (p : ℕ) :
    bytes d disk p = 0 := by
  unfold bytes
  by_cases hb : blockOf d disk (p / 512) = 0
  · rw [if_pos hb]
  · rw [if_neg hb]
    unfold blockOf at hb ⊢
    by_cases hp : p / 512 < 140
    · rw [if_pos hp] at hb ⊢
      rw [(ref_of_addrs hd hb).2, h4]
      rfl
    · rw [if_neg hp] at hb
      exact absurd rfl hb

theorem marked_dirDisk {b : ℕ} (hb : b < 4096) :
    marked smallSuper (dirDisk b4 b5) b = true ↔ b < 5 := by
  have hbb : BBLOCK b smallSuper.ninodes = 3 := by
    unfold BBLOCK
    change b / 4096 + 0 + 3 = 3
    omega
  have h3 : dirDisk b4 b5 3 = update zeros 0 31 := rfl
  unfold marked bit
  rw [hbb, h3, Nat.mod_eq_of_lt hb]
  by_cases h8 : b < 8
  · have hbits : ∀ b < 8, (31 : UInt8).toNat.testBit b = true ↔ b < 5 := by decide
    rw [Nat.div_eq_of_lt h8, Nat.mod_eq_of_lt h8, update_self]
    exact hbits b h8
  · rw [update_of_ne (by omega)]
    change Nat.testBit 0 _ = true ↔ _
    rw [Nat.zero_testBit]
    exact ⟨nofun, fun hlt => by omega⟩

end DirDisk

end Xv6Shed
