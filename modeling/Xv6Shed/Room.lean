import Xv6Shed.BlockCalls
import Xv6Shed.DirMap
import Xv6Shed.FailedCalls
import Xv6Shed.Namei

/-!
# Calls that have room

A call on a path stops with a panic when inodes or blocks run out, or when a directory ends in
the middle of an entry. To follow a path takes two free inodes in memory, since no more than a
directory and what is found in it are held. To create a file takes a free inode on the disk, and
two free blocks for an entry at the end of a directory: its block, and the block that lists it.
-/

namespace Xv6Shed.Fs
open Function Bytes

variable {NINODE B : ℕ} {sb : Superblock} {m : Mode} {c : ℕ → ℕ} {H : Multiset (Fin NINODE)}
  {L : Finset (Fin NINODE)} {dp ip : Fin NINODE} {s s' : Fs NINODE} {cwd : Option (Fin NINODE)}
  {path name : List UInt8} {type major minor : UInt16} {disk : Disk} {dev : ℕ}

theorem iunlock_ok (h : Inv m sb s H L c B) (hip : ip ∈ H) (hL : ip ∈ L) :
    ∃ s', s.iunlock ip = .ok s' := by
  have hb := (h.busy ip hip).mpr hL
  have hpos := h.mem_iff.mp hip
  unfold iunlock
  dsimp only
  rw [if_neg (by rw [hb]; simp; omega)]
  exact ⟨_, rfl⟩

theorem iunlockput_ok (h : Inv m sb s (ip ::ₘ H) L c B) (hm : m ≠ .blocks) (hL : ip ∈ L)
    (hs : s.Spare H ip) : ∃ s', s.iunlockput ip = .ok s' := by
  have hself := Multiset.mem_cons_self ip H
  obtain ⟨s₁, hu⟩ := iunlock_ok h hself hL
  obtain ⟨h₁, hk₁, hdisk₁⟩ := (iunlock_meets h hself).of_ok hu
  unfold iunlockput
  rw [hu, ok_bind]
  exact ⟨_, iput_spare h₁ hm (hs.congr hdisk₁ (hk₁ ip hself).1)⟩

theorem ilock_ok (h : Inv m sb s H L c B) (hm : m ≠ .blocks) (hip : ip ∈ H) (hL : ip ∉ L) :
    ∃ s', s.ilock ip = .ok s' := by
  have hpos := h.mem_iff.mp hip
  have hlive := (h.live_of_mem hm hip).2
  unfold ilock
  dsimp only
  rw [if_neg (by omega), if_neg fun hb => hL ((h.busy ip hip).mp hb), h.dev ip hip, if_neg hlive]
  split
  · exact ⟨_, rfl⟩
  · exact ⟨_, rfl⟩

/-- Two inodes in memory are free. -/
def TwoInodes (s : Fs NINODE) : Prop :=
  ∃ ip jp, ip ≠ jp ∧ (s.icache ip).ref = 0 ∧ (s.icache jp).ref = 0

theorem Inv.free_iff (h : Inv m sb s H L c B) : (s.icache ip).ref = 0 ↔ ip ∉ H := by
  rw [h.count ip, Int.natCast_eq_zero, Multiset.count_eq_zero]

theorem Inv.slot (h : Inv m sb s H L c B) (h2 : s.TwoInodes) (ip : Fin NINODE) :
    ∃ jp, jp ∉ ip ::ₘ H := by
  obtain ⟨a, b, hab, ha, hb⟩ := h2
  rw [h.free_iff] at ha hb
  by_cases hai : a = ip
  · exact ⟨b, by rw [Multiset.mem_cons, not_or]; exact ⟨fun hbi => hab (hai.trans hbi.symm), hb⟩⟩
  · exact ⟨a, by rw [Multiset.mem_cons, not_or]; exact ⟨hai, ha⟩⟩

theorem iget_ok (hfree : ∃ ip, (s.icache ip).ref = 0) (dev i : ℕ) : ∃ r, s.iget dev i = .ok r := by
  unfold iget
  split
  · exact ⟨_, rfl⟩
  · split
    · next hnone =>
      obtain ⟨ip, h0⟩ := hfree
      exact absurd h0 (by simpa using List.find?_eq_none.mp hnone ip (List.mem_finRange ip))
    · exact ⟨_, rfl⟩

theorem dirlookup_ok (h : Inv m sb s H L c B) (hdp : dp ∈ H) (hv : (s.icache dp).valid = true)
    (hdir : (s.icache dp).d.type = T_DIR) (hfree : ∃ jp, jp ∉ H) (name : List UInt8) :
    ∃ r, s.dirlookup dp name = .ok r := by
  obtain ⟨r, hscan, -⟩ := returns_of_meets (dirScan_slots (h.mapped_cached hdp hv) name
    (((s.icache dp).d.size.toNat + 511) / 512) 0 (by omega))
  unfold dirlookup
  dsimp only
  rw [if_neg (not_not.mpr hdir), show (0 : ℕ) = 512 * 0 from rfl, hscan, ok_bind]
  cases r with
  | none => exact ⟨_, rfl⟩
  | some oi =>
    obtain ⟨ip, hip⟩ := hfree
    obtain ⟨r, hget⟩ := s.iget_ok ⟨ip, h.free_iff.mpr hip⟩ (s.icache dp).dev oi.2
    dsimp only
    rw [hget]
    exact ⟨_, rfl⟩

theorem Inv.slots_eq (h : Inv m sb s H L c B) (hdp : dp ∈ H) (hv : (s.icache dp).valid = true)
    (k : ℕ) : s.slots dp k = (s.entryOf dp k).binding := by
  rw [slots, Dinode.slots, entryOf, Dinode.ent, Dinode.ent, h.bytes_eq hdp hv]

/-- A name that is not there is still not there when nothing is written to the directory. -/
theorem dirlookup_again {m' : Mode} {H' : Multiset (Fin NINODE)} {L' : Finset (Fin NINODE)}
    {c' : ℕ → ℕ} {B' : ℕ} (h : Inv m sb s H L c B) (h' : Inv m' sb s' H' L' c' B')
    (hk : Keep H s s') (hdp : dp ∈ H) (hdp' : dp ∈ H') (hv : (s.icache dp).valid = true)
    (hlook : s.dirlookup dp name = .ok (none, s)) : s'.dirlookup dp name = .ok (none, s') := by
  obtain ⟨-, hkept⟩ := hk dp hdp
  obtain ⟨hv', hd, hent⟩ := hkept hv
  obtain ⟨ht, hsz⟩ := h.type_eq hdp hv
  obtain ⟨ht', hsz'⟩ := h'.type_eq hdp' hv'
  have hdir := ((dirlookup_meets h hdp hv name).of_ok hlook).1
  obtain ⟨r, hscan, hno, -⟩ := returns_of_meets (dirScan_slots (h.mapped_cached hdp hv) name
    (((s.onDisk dp).size.toNat + 511) / 512) 0 (by rw [hsz]; omega))
  obtain ⟨r', hscan', -, hsome'⟩ := returns_of_meets (dirScan_slots (h'.mapped_cached hdp' hv') name
    (((s.onDisk dp).size.toNat + 511) / 512) 0 (by rw [hsz', hd]; omega))
  rw [Nat.mul_zero] at hscan hscan'
  unfold dirlookup at hlook ⊢
  dsimp only at hlook ⊢
  rw [if_neg (by rw [ht]; exact not_not.mpr hdir), hsz, hscan, ok_bind] at hlook
  rw [if_neg (by rw [ht', hd]; exact not_not.mpr hdir), hsz', hd, hscan', ok_bind]
  have hr : r = none := by
    cases r with
    | none => rfl
    | some oi =>
      obtain ⟨x, -, hx⟩ := bind_eq_ok.mp hlook
      cases hx
  cases r' with
  | none => rfl
  | some oi =>
    obtain ⟨k, -, hlt, hslot⟩ := hsome' oi.1 oi.2 rfl
    rw [h'.slots_eq hdp' hv', hent k, ← h.slots_eq hdp hv] at hslot
    exact absurd hslot (hno hr k oi.2 (Nat.zero_le k) hlt)

theorem nameiLoop_ok (hm : m ≠ .blocks) (parent : Bool) (fuel : ℕ) (path : List UInt8)
    (hfuel : path.length < fuel) (h : Inv m sb s (ip ::ₘ H) ∅ c B) (hs : s.Spare H ip)
    (hroom : ∀ jp, ∃ kp, kp ∉ jp ::ₘ H) : ∃ r, nameiLoop parent fuel ip path s = .ok r := by
  induction fuel generalizing ip path s with
  | zero => cases hfuel
  | succ fuel ih =>
    have hself := Multiset.mem_cons_self ip H
    have hin := Finset.mem_insert_self ip (∅ : Finset (Fin NINODE))
    unfold nameiLoop
    cases hpath : skipelem path with
    | none =>
      dsimp only
      rw [iput_spare h hm hs]
      split
      · exact ⟨_, rfl⟩
      · exact ⟨_, rfl⟩
    | some pn =>
      obtain ⟨rest, name⟩ := pn
      obtain ⟨-, -, hlt⟩ := skipelem_some hpath
      obtain ⟨s₁, hlock⟩ := ilock_ok h hm hself (Finset.notMem_empty ip)
      obtain ⟨h₁, -, -, hv₁, hs₁⟩ := ilock_spare h hs hlock
      obtain ⟨s₂, hput⟩ := iunlockput_ok h₁ hm hin hs₁
      dsimp only
      rw [hlock, ok_bind]
      by_cases hd : (s₁.icache ip).d.type ≠ T_DIR
      · rw [if_pos hd, hput]
        exact ⟨_, rfl⟩
      rw [if_neg hd]
      by_cases hp : parent = true ∧ atEnd rest = true
      · obtain ⟨s₃, hu⟩ := iunlock_ok h₁ hself hin
        rw [if_pos hp, hu]
        exact ⟨_, rfl⟩
      obtain ⟨⟨next, s₃⟩, hlook⟩ := dirlookup_ok h₁ hself hv₁ (not_not.mp hd) (hroom ip) name
      obtain ⟨-, hnone, hsome⟩ := (dirlookup_meets h₁ hself hv₁ name).of_ok hlook
      rw [if_neg hp, hlook, ok_bind]
      cases next with
      | none =>
        rw [show s₃ = s₁ from hnone rfl]
        dsimp only
        rw [hput]
        exact ⟨_, rfl⟩
      | some no =>
        -- the directory is given back while the inode found in it is held
        obtain ⟨jp, off⟩ := no
        obtain ⟨h₃, hk₃, hdisk₃, -⟩ := hsome jp off rfl
        dsimp only at h₃ hk₃ hdisk₃ ⊢
        rw [Multiset.cons_swap] at h₃
        have hs₃ : s₃.Spare (jp ::ₘ H) ip := (hs₁.congr hdisk₃ (hk₃ ip hself).1).cons jp
        obtain ⟨s₄, hput₄⟩ := iunlockput_ok h₃ hm hin hs₃
        obtain ⟨h₄, -, hs₄⟩ := release_parent h₁ hm hv₁ hs₁ hlook hput₄
        rw [hput₄, ok_bind]
        exact ih rest (by omega) h₄ hs₄

theorem nameiFrom_ok (h : Inv m sb s H ∅ c B) (hm : m ≠ .blocks) (parent : Bool)
    (hcwd : ∀ ip, cwd = some ip → ip ∈ H) (hstart : path.headD 0 = slash ∨ cwd ≠ none)
    (h2 : s.TwoInodes) : ∃ r, s.nameiFrom parent cwd path = .ok r := by
  have hroom := h.slot h2
  have hfuel := Nat.lt_succ_self path.length
  unfold nameiFrom
  by_cases hslash : path.headD 0 = slash
  · obtain ⟨ip, _, _, h0, _⟩ := h2
    obtain ⟨⟨jp, s₁⟩, hget⟩ := s.iget_ok ⟨ip, h0⟩ 1 1
    obtain ⟨h₁, -, hs₁⟩ := h.root_spare hm hget
    rw [if_pos hslash, hget, ok_bind]
    exact nameiLoop_ok hm parent _ path hfuel h₁ hs₁ hroom
  · obtain ⟨ip, rfl⟩ := Option.ne_none_iff_exists'.mp (hstart.resolve_left hslash)
    have hin := hcwd ip rfl
    rw [if_neg hslash]
    exact nameiLoop_ok hm parent _ path hfuel (h.another hin).1 (.inl hin) hroom

theorem namei_ok (h : Inv m sb s H ∅ c B) (hm : m ≠ .blocks)
    (hcwd : ∀ ip, cwd = some ip → ip ∈ H) (hstart : path.headD 0 = slash ∨ cwd ≠ none)
    (h2 : s.TwoInodes) : ∃ r, s.namei cwd path = .ok r := by
  obtain ⟨r, hr⟩ := nameiFrom_ok h hm false hcwd hstart h2
  unfold namei
  rw [hr]
  exact ⟨_, rfl⟩

theorem balloc_ok (s : Fs NINODE) (dev : ℕ) {b : ℕ} (hb : b < (readsb (s.disk dev)).blocks)
    (hfree : marked (readsb (s.disk dev)) (s.disk dev) b = false) :
    ∃ x, s.balloc dev = .ok (x, s.setDisk dev (mark (readsb (s.disk dev)) (s.disk dev) x)) := by
  rcases s.balloc_cases dev with ⟨-, hall⟩ | ⟨x, hok, -⟩
  · rw [hall b hb] at hfree
    cases hfree
  · exact ⟨x, hok⟩

/-- Two blocks of the disk are free. -/
def TwoBlocks (sb : Superblock) (disk : Disk) : Prop :=
  ∃ a b, a ≠ b ∧ a < sb.size ∧ b < sb.size ∧ marked sb disk a = false ∧ marked sb disk b = false

theorem TwoBlocks.one (h : TwoBlocks sb disk) : ∃ b < sb.blocks, marked sb disk b = false := by
  obtain ⟨a, -, -, ha, -, hf, -⟩ := h
  refine ⟨a, ?_, hf⟩
  unfold Superblock.blocks
  omega

/-- When one of two free blocks is taken the other one is left. -/
theorem TwoBlocks.mark (h : TwoBlocks sb disk) (x : ℕ) :
    ∃ b < sb.blocks, marked sb (mark sb disk x) b = false := by
  obtain ⟨a, b, hab, ha, hb, hfa, hfb⟩ := h
  have hle : sb.size ≤ sb.blocks := by
    unfold Superblock.blocks
    omega
  by_cases hax : a = x
  · refine ⟨b, by omega, ?_⟩
    rw [marked_mark, hfb, Bool.or_false, decide_eq_false_iff_not]
    omega
  · refine ⟨a, by omega, ?_⟩
    rw [marked_mark, hfa, Bool.or_false, decide_eq_false_iff_not]
    exact hax

theorem TwoBlocks.setDinode {i : ℕ} (h : TwoBlocks sb disk) (hi : i < sb.ninodes) (d : Dinode) :
    TwoBlocks sb (setDinode disk i d) := by
  obtain ⟨a, b, hab, ha, hb, hfa, hfb⟩ := h
  exact ⟨a, b, hab, ha, hb, (marked_setDinode hi disk d a).trans hfa,
    (marked_setDinode hi disk d b).trans hfb⟩

theorem readsb_mark (sb : Superblock) (disk : Disk) (b : ℕ) :
    readsb (mark sb disk b) = readsb disk :=
  readsb_update_of_ne (by unfold BBLOCK; omega)

theorem loadIndirect_ok (hsb : readsb (s.disk (s.icache ip).dev) = sb)
    (h2 : TwoBlocks sb (s.disk (s.icache ip).dev)) :
    ∃ s', s.loadIndirect ip = .ok s' ∧ (readsb (s'.disk (s.icache ip).dev)) = sb ∧
      ∃ b < sb.blocks, marked sb (s'.disk (s.icache ip).dev) b = false := by
  unfold loadIndirect
  by_cases h12 : (s.icache ip).d.addrs 12 = 0
  · obtain ⟨b, hb, hf⟩ := h2.one
    obtain ⟨x, hx⟩ := balloc_ok s (s.icache ip).dev (by rwa [hsb]) (by rwa [hsb])
    rw [if_pos h12, hx, hsb]
    refine ⟨_, rfl, ?_⟩
    change readsb (update s.disk _ _ _) = sb ∧
      ∃ b < sb.blocks, marked sb (update s.disk _ _ _) b = false
    rw [update_self, readsb_mark]
    exact ⟨hsb, h2.mark x⟩
  · rw [if_neg h12]
    exact ⟨s, rfl, hsb, h2.one⟩

theorem bmap_ok {bn : ℕ} (hsb : readsb (s.disk (s.icache ip).dev) = sb)
    (h2 : TwoBlocks sb (s.disk (s.icache ip).dev)) (hbn : bn < 140) :
    ∃ r, s.bmap true ip bn = .ok r := by
  unfold bmap
  dsimp only
  by_cases hdir : bn < 12
  · rw [if_pos hdir, if_neg (show ¬(true = false) by decide)]
    obtain ⟨b, hb, hf⟩ := h2.one
    obtain ⟨x, hx⟩ := balloc_ok s (s.icache ip).dev (by rwa [hsb]) (by rwa [hsb])
    rw [hx]
    split
    · exact ⟨_, rfl⟩
    · exact ⟨_, rfl⟩
  · obtain ⟨s₁, hload, hsb₁, b, hb, hf⟩ := loadIndirect_ok hsb h2
    obtain ⟨x, hx⟩ := balloc_ok s₁ (s.icache ip).dev (by rwa [hsb₁]) (by rwa [hsb₁])
    rw [if_neg hdir, if_pos (by omega), if_neg (by simp), hload, ok_bind,
      if_neg (show ¬(true = false) by decide), hx]
    split
    · exact ⟨_, rfl⟩
    · exact ⟨_, rfl⟩

/-- A directory of whole entries that can take one more -/
def RoomFor (d : Dinode) : Prop := 16 ∣ d.size.toNat ∧ d.size.toNat < 140 * 512

instance (d : Dinode) : Decidable (RoomFor d) :=
  inferInstanceAs (Decidable (_ ∧ _))

/-- What it takes to create a file -/
structure Spacious (sb : Superblock) (disk : Disk) : Prop where
  inode : ∃ i, 0 < i ∧ i < sb.ninodes ∧ (dinode disk i).type = 0
  blocks : TwoBlocks sb disk
  dirs : ∀ i, IsDir sb disk i → RoomFor (dinode disk i)

/-- `dirlink` of a name that is not there -/
theorem dirlink_ok {ino : ℕ} (h : Inv m sb s H L c B) (hm : m ≠ .blocks) (hdp : dp ∈ H)
    (hv : (s.icache dp).valid = true) (hlook : s.dirlookup dp name = .ok (none, s))
    (hroom : RoomFor (s.onDisk dp)) (h2 : TwoBlocks sb (s.disk 1)) :
    ∃ s', s.dirlink dp name ino = .ok (0, s') ∧ (s'.onDisk dp).nlink = (s.onDisk dp).nlink := by
  obtain ⟨ht, hsz⟩ := h.type_eq hdp hv
  obtain ⟨hwhole, hlt⟩ := hroom
  have hdev : (s.icache dp).dev = 1 := h.dev dp hdp
  have hndev : (s.onDisk dp).type ≠ T_DEV := by
    rw [((dirlookup_meets h hdp hv name).of_ok hlook).1]
    decide
  obtain ⟨off, hempty, k, rfl, hle, -⟩ := returns_of_meets (dirEmpty_slots (by rwa [ht])
    (h.mapped_cached hdp hv) (((s.icache dp).d.size.toNat + 15) / 16) 0 (by rw [hsz]; omega))
  rw [hsz] at hle
  have hsuper : readsb (s.disk (s.icache dp).dev) = sb := by
    rw [hdev]
    exact h.healthy.volume.super
  obtain ⟨x, hx⟩ := bmap_ok hsuper (by rwa [hdev]) (show 16 * k / 512 < 140 by omega)
  obtain ⟨⟨r, s₁⟩, hwrite⟩ := writei_returns (by rwa [ht]) hx (show 0 < 16 by decide) (by omega)
    (by omega) (Dirent.bytes ⟨UInt16.ofNat ino, name⟩)
  obtain ⟨d, disk, heq, hw⟩ :=
    (writei_copy h hdp hv hndev (-1) _ (.inl hle) (by omega)).of_ok hwrite
  have hst := h.stored hdp hv hw
  unfold dirlink
  rw [hlook, ok_bind]
  dsimp only
  rw [show (0 : ℕ) = 16 * 0 from rfl, hempty, ok_bind, hwrite, ok_bind]
  cases heq
  dsimp only
  rw [if_neg (not_not.mpr (by omega))]
  refine ⟨_, rfl, ?_⟩
  rw [onDisk, h.put_disk_one hdp, put_icache]
  exact hst.nlink hm

theorem ialloc_ok {i : ℕ} (hsb : readsb (s.disk dev) = sb) (h0 : 0 < i) (hi : i < sb.ninodes)
    (hdead : (dinode (s.disk dev) i).type = 0) (hfree : ∃ ip, (s.icache ip).ref = 0)
    (type : UInt16) : ∃ r, s.ialloc dev type = .ok r := by
  unfold ialloc
  rw [hsb]
  cases hf : Bytes.first (fun i => (dinode (s.disk dev) i).type == 0) (sb.ninodes - 1) 1 with
  | none =>
    have := first_eq_none hf (show 1 ≤ i by omega) (by omega)
    rw [hdead] at this
    cases this
  | some inum => exact iget_ok (s := s.setDisk dev _) hfree dev inum

theorem createNew_ok (h : Inv m sb s (dp ::ₘ H) (insert dp ∅) noCredit B) (hm : m ≠ .blocks)
    (hv : (s.icache dp).valid = true) (hB : 1 ≤ B) (ht : type ≠ 0) (hfile : type ≠ T_DIR)
    (hs : s.Spare H dp) (hlook : s.dirlookup dp name = .ok (none, s))
    (hfree : ∃ jp, jp ∉ dp ::ₘ H) (hspace : Spacious sb (s.disk 1)) (major minor : UInt16) :
    ∃ r, s.createNew dp name type major minor = .ok r := by
  have hdp := Multiset.mem_cons_self dp H
  have hdir := ((dirlookup_meets h hdp hv name).of_ok hlook).1
  obtain ⟨jp, hjp⟩ := hfree
  obtain ⟨i, h0, hi, hdead⟩ := hspace.inode
  obtain ⟨⟨ip, s₁⟩, halloc⟩ := ialloc_ok h.healthy.volume.super h0 hi hdead
    ⟨jp, h.free_iff.mpr hjp⟩ type
  have y : Young m sb s (dp ::ₘ H) (insert dp ∅) B type ip s₁ := (ialloc_meets h ht).of_ok halloc
  have hipdp := y.ne h hdp hv
  have hself := Multiset.mem_cons_self ip (dp ::ₘ H)
  have hdp' : dp ∈ ip ::ₘ dp ::ₘ H := Multiset.mem_cons_of_mem hdp
  have hweak : m.weak ≠ .blocks := fun hw => hm (Mode.weak_blocks.mp hw)
  obtain ⟨s₂, hlock⟩ := ilock_ok y.inv hweak hself
    (by rwa [Finset.mem_insert, or_iff_left (Finset.notMem_empty ip)])
  obtain ⟨h₂, hk₂, hdisk₂, -, hv₂⟩ := (ilock_meets y.inv hself).of_ok hlock
  have hmade := Young.made h (fun _ => hB) y ht h₂ hk₂ hdisk₂ hv₂ major minor
  unfold createNew
  rw [h.dev dp hdp, halloc, ok_bind]
  dsimp only
  rw [hlock, ok_bind]
  dsimp only at hmade ⊢
  generalize ht' : (s₂.setCopy ip _).iupdate ip = t at hmade ⊢
  obtain ⟨-, d, -, hdisk⟩ := y.made_disk halloc h₂ hk₂ hdisk₂ hv₂ ht'.symm
  obtain ⟨-, hkept⟩ := hmade.keep dp hdp
  obtain ⟨hvd, hdt, -⟩ := hkept hv
  have h2 : TwoBlocks sb (t.disk 1) := by
    rw [hdisk, update_self]
    exact hspace.blocks.setDinode (y.inv.range ip hself) d
  have hroom : RoomFor (t.onDisk dp) := by
    rw [hdt]
    exact hspace.dirs _ ⟨h.range dp hdp, hdir⟩
  obtain ⟨s₃, hlink, hn₃⟩ := dirlink_ok hmade.inv hm hdp' hvd
    (dirlookup_again h hmade.inv hmade.keep hdp hdp' hv hlook) hroom h2
  obtain ⟨-, hok⟩ := (hmade.dirlink_meets hipdp hvd name).of_ok hlink
  obtain ⟨h₃, -⟩ := hok (Int.lt_irrefl 0)
  rw [Multiset.cons_swap] at h₃
  have hs₃ : s₃.Spare (ip ::ₘ H) dp := by
    refine Spare.cons (hs.imp_right fun hn => ?_) ip
    rwa [hn₃, hdt]
  obtain ⟨s₄, hput⟩ := iunlockput_ok h₃ hm
    (Finset.mem_insert_of_mem (Finset.mem_insert_self dp ∅)) hs₃
  rw [hlink, ok_bind]
  dsimp only
  rw [if_neg (by decide), if_neg hfile, pure_bind, hput]
  exact ⟨_, rfl⟩

end Xv6Shed.Fs
