import Xv6Shed.Room

/-!
# `open`

When `sys_open` has its inode it takes an entry of the file table and then a descriptor. With no
entry left it gives the inode back, which does not take back a file that was created for it.
With no descriptor left it closes an entry that was only allocated, and `fileclose` panics.
-/

namespace Xv6Shed

namespace Fs
open Function Bytes

variable {NINODE B : ℕ} {sb : Superblock} {m : Mode} {c : ℕ → ℕ} {H : Multiset (Fin NINODE)}
  {L : Finset (Fin NINODE)} {dp ip : Fin NINODE} {s s' : Fs NINODE} {cwd : Option (Fin NINODE)}
  {path name : List UInt8} {type major minor : UInt16} {omode : UInt32}

/-- `open` asks for a new file if the path leads nowhere, and it does not. -/
def Creates (s : Fs NINODE) (cwd : Option (Fin NINODE)) (path : List UInt8)
    (omode : UInt32) : Prop :=
  omode &&& 0x200 ≠ 0 ∧ ∃ s', s.namei cwd path = .ok (none, s')

theorem namei_of_parent (hr : s.nameiparent cwd path = .ok (some (dp, name), s')) :
    s.namei cwd path = s'.lookup dp name := by
  rcases List.eq_nil_or_concat' (components path) with hc | ⟨names, last, hc⟩
  · rw [nameiparent_nil cwd s hc] at hr
    obtain ⟨⟨ip, s₁⟩, -, hr⟩ := bind_eq_ok.mp hr
    obtain ⟨s₂, -, hr⟩ := bind_eq_ok.mp hr
    cases hr
  · rw [namei_of_nameiparent cwd s hc, hr]
    rfl

/-- What `nameiparent` returns is a directory when it is locked again. -/
theorem nameiparent_dir {s₁ : Fs NINODE} (hr : s.nameiparent cwd path = .ok (some (dp, name), s'))
    (hlock : s'.ilock dp = .ok s₁) : (s₁.icache dp).d.type = T_DIR := by
  rcases List.eq_nil_or_concat' (components path) with hc | ⟨names, last, hc⟩
  · rw [nameiparent_nil cwd s hc] at hr
    obtain ⟨⟨ip, s₂⟩, -, hr⟩ := bind_eq_ok.mp hr
    obtain ⟨s₃, -, hr⟩ := bind_eq_ok.mp hr
    cases hr
  · rw [nameiparent_eq_walk cwd s hc] at hr
    obtain ⟨⟨ip, s₂⟩, -, hr⟩ := bind_eq_ok.mp hr
    obtain ⟨⟨found, s₃⟩, -, hr⟩ := bind_eq_ok.mp hr
    cases found with
    | none => cases hr
    | some jp =>
      obtain ⟨s₄, hlock₄, hr⟩ := bind_eq_ok.mp hr
      obtain ⟨s₅, hu, hagain⟩ := ilock_again hlock₄
      by_cases hd : (s₄.icache jp).d.type ≠ T_DIR
      · rw [if_pos hd] at hr
        obtain ⟨s₆, -, hr⟩ := bind_eq_ok.mp hr
        cases hr
      · rw [if_neg hd, hu, ok_bind] at hr
        cases hr
        rw [hagain] at hlock
        cases hlock
        exact not_not.mp hd

theorem createFound_ok (h : Inv m sb s (ip ::ₘ H) ∅ noCredit B) (hm : m ≠ .blocks)
    (hs : s.Spare H ip) : ∃ r, s.createFound ip type major minor = .ok r := by
  obtain ⟨s₁, hlock⟩ := ilock_ok h hm (Multiset.mem_cons_self ip H) (Finset.notMem_empty ip)
  obtain ⟨h₁, -, -, -, hs₁⟩ := ilock_spare h hs hlock
  obtain ⟨s₂, hput⟩ := iunlockput_ok h₁ hm (Finset.mem_insert_self ip ∅) hs₁
  unfold createFound
  rw [hlock, ok_bind, hput]
  dsimp only
  split
  · exact ⟨_, rfl⟩
  · exact ⟨_, rfl⟩

theorem dirlink_other {ino : ℕ} {r : ℤ} (h : Inv m sb s H L c B) (hdp : dp ∈ H)
    (hv : (s.icache dp).valid = true) (hr : s.dirlink dp name ino = .ok (r, s')) (hpos : ¬r < 0)
    (hip : ip ∈ H) (hne : (s.icache ip).inum ≠ (s.icache dp).inum) :
    s'.onDisk ip = s.onDisk ip := by
  obtain ⟨⟨found, s₁⟩, hlook, hr⟩ := bind_eq_ok.mp hr
  obtain ⟨hdir, hnone, -⟩ := (dirlookup_meets h hdp hv name).of_ok hlook
  cases found with
  | some po =>
    obtain ⟨s₂, -, hr⟩ := bind_eq_ok.mp hr
    cases hr
    exact absurd (show (-1 : ℤ) < 0 by decide) hpos
  | none =>
    rw [show s₁ = s from hnone rfl] at hr
    obtain ⟨off, hempty, hr⟩ := bind_eq_ok.mp hr
    obtain ⟨⟨r₁, s₂⟩, hwrite, hr⟩ := bind_eq_ok.mp hr
    rw [(h.type_eq hdp hv).2] at hempty
    obtain ⟨k, -, hle, -⟩ :=
      (dirEmpty_meets h hdp hv hdir _ 0 (Nat.zero_le _) (by omega)).of_ok hempty
    have hsize := (h.mapped_of_valid hdp hv).size_le
    obtain ⟨d, disk, heq, hw⟩ := (writei_copy h hdp hv (by rw [hdir]; decide) (-1) _ (.inl hle)
      (by omega)).of_ok hwrite
    have hst := h.stored hdp hv hw
    cases heq
    have hpdp : ip ≠ dp := by
      rintro rfl
      exact hne rfl
    have hs' : s' = s.put dp d disk := by
      dsimp only at hr
      split at hr
      · cases hr
      · cases hr
        rfl
    rw [hs', onDisk, h.put_disk_one hdp, put_icache_of_ne hpdp]
    exact hst.inodes _ (h.range ip hip) hne

theorem createNew_some (h : Inv m sb s (dp ::ₘ H) (insert dp ∅) noCredit B)
    (hv : (s.icache dp).valid = true) (hB : 1 ≤ B) (ht : type ≠ 0) (hfile : type ≠ T_DIR)
    (hr : s.createNew dp name type major minor = .ok (some ip, s')) :
    (dinode (s.disk 1) (s'.icache ip).inum).type = 0 ∧ (s'.onDisk ip).nlink = 1 := by
  have hdp := Multiset.mem_cons_self dp H
  unfold createNew at hr
  rw [h.dev dp hdp] at hr
  obtain ⟨⟨jp, s₁⟩, halloc, hr⟩ := bind_eq_ok.mp hr
  have y : Young m sb s (dp ::ₘ H) (insert dp ∅) B type jp s₁ := (ialloc_meets h ht).of_ok halloc
  have hipdp := y.ne h hdp hv
  have hself := Multiset.mem_cons_self jp (dp ::ₘ H)
  have hdp' : dp ∈ jp ::ₘ dp ::ₘ H := Multiset.mem_cons_of_mem hdp
  obtain ⟨s₂, hlock, hr⟩ := bind_eq_ok.mp hr
  obtain ⟨h₂, hk₂, hdisk₂, -, hv₂⟩ := (ilock_meets y.inv hself).of_ok hlock
  have hmade := Young.made h (fun _ => hB) y ht h₂ hk₂ hdisk₂ hv₂ major minor
  have hinum : (((s₂.setCopy jp
      { (s₂.icache jp).d with major := major, minor := minor, nlink := 1 }).iupdate jp).icache
        jp).inum = (s₁.icache jp).inum := by
    rw [setCopy_iupdate, put_icache]
    exact (hk₂ jp hself).1
  dsimp only at hmade hr
  generalize (s₂.setCopy jp _).iupdate jp = t at hmade hr hinum
  obtain ⟨-, hkept⟩ := hmade.keep dp hdp
  obtain ⟨hvd, -⟩ := hkept hv
  obtain ⟨⟨r₃, s₃⟩, hlink, hr⟩ := bind_eq_ok.mp hr
  obtain ⟨-, hok⟩ := (hmade.dirlink_meets hipdp hvd name).of_ok hlink
  dsimp only at hok hr
  by_cases hneg : r₃ < 0
  · rw [if_pos hneg] at hr
    obtain ⟨s₄, -, hr⟩ := bind_eq_ok.mp hr
    obtain ⟨s₅, -, hr⟩ := bind_eq_ok.mp hr
    cases hr
  · rw [if_neg hneg, if_neg hfile] at hr
    obtain ⟨s₄, hpure, hr⟩ := bind_eq_ok.mp hr
    cases hpure
    obtain ⟨s₅, hput, hr⟩ := bind_eq_ok.mp hr
    cases hr
    obtain ⟨h₃, hg₃⟩ := hok hneg
    obtain ⟨hi₃, hkept₃⟩ := hg₃ ip hself
    have hd₃ := dirlink_other hmade.inv hdp' hvd hlink hneg hself (hmade.inum_ne hipdp)
    rw [Multiset.cons_swap] at h₃
    obtain ⟨-, hk₄⟩ := (iunlockput_meets h₃).of_ok hput
    obtain ⟨hi₄, hkept₄⟩ := hk₄ ip (Multiset.mem_cons_self ip H)
    obtain ⟨-, hd₄, -⟩ := hkept₄ (hkept₃ hmade.valid).1
    refine ⟨?_, by rw [hd₄, hd₃, hmade.nlink]⟩
    rw [hi₄, hi₃, hinum]
    exact y.dead

/-- The inode was there: nothing is written, and it can be given back. -/
def Found (s : Fs NINODE) (H : Multiset (Fin NINODE)) (ip : Fin NINODE) (s' : Fs NINODE) : Prop :=
  s'.disk = s.disk ∧ s'.Spare H ip

/-- The inode was free and has a link now. -/
def New (s : Fs NINODE) (ip : Fin NINODE) (s' : Fs NINODE) : Prop :=
  (dinode (s.disk 1) (s'.icache ip).inum).type = 0 ∧ (s'.onDisk ip).nlink ≠ 0

section

variable (h : Inv m sb s H ∅ noCredit B) (hm : m ≠ .blocks) (hB : 1 ≤ B)
  (hcwd : ∀ ip, cwd = some ip → ip ∈ H)
include h hm hB hcwd

theorem create_some (ht : type ≠ 0) (hfile : type ≠ T_DIR)
    (hr : s.create cwd path true type major minor = .ok (some ip, s')) :
    (∃ jp s₂, s.namei cwd path = .ok (some jp, s₂)) ∧ Found s H ip s' ∨
      (∃ s₂, s.namei cwd path = .ok (none, s₂)) ∧ New s ip s' := by
  obtain ⟨⟨found, s₁⟩, hname, hr⟩ := bind_eq_ok.mp hr
  obtain ⟨hdisk₁, hspare⟩ := nameiFrom_quiet h hm hcwd hname
  obtain ⟨-, -, hsome⟩ := (nameiFrom_meets h true hcwd path).of_ok hname
  cases found with
  | none => cases hr
  | some dn =>
    obtain ⟨dp, name⟩ := dn
    have hdp := Multiset.mem_cons_self dp H
    rw [namei_of_parent hname, lookup]
    obtain ⟨s₂, hlock, hr⟩ := bind_eq_ok.mp hr
    obtain ⟨h₂, -, hdisk₂, hv₂, hs₂⟩ := ilock_spare (hsome dp name rfl) (hspare dp name rfl) hlock
    rw [if_pos rfl] at hr
    obtain ⟨⟨entry, s₃⟩, hlook, hr⟩ := bind_eq_ok.mp hr
    obtain ⟨hdir, hnone, -⟩ := (dirlookup_meets h₂ hdp hv₂ name).of_ok hlook
    rw [← (h₂.type_eq hdp hv₂).1] at hdir
    rw [hlock, ok_bind, if_neg (not_not.mpr hdir), hlook, ok_bind]
    cases entry with
    | none =>
      right
      rw [show s₃ = s₂ from hnone rfl] at hr ⊢
      obtain ⟨s₄, hput⟩ := iunlockput_ok h₂ hm (Finset.mem_insert_self dp ∅) hs₂
      obtain ⟨hdead, hone⟩ := createNew_some h₂ hv₂ hB ht hfile hr
      refine ⟨⟨s₄, by dsimp only; rw [hput]; rfl⟩, ?_, by rw [hone]; decide⟩
      rwa [hdisk₂.trans hdisk₁] at hdead
    | some po =>
      left
      dsimp only at hr ⊢
      obtain ⟨s₄, hput, hr⟩ := bind_eq_ok.mp hr
      obtain ⟨h₄, hdisk₄, hs₄⟩ := release_parent h₂ hm hv₂ hs₂ hlook hput
      obtain ⟨s₅, hlock₅, hr⟩ := bind_eq_ok.mp hr
      obtain ⟨-, -, hdisk₅, -, hs₅⟩ := ilock_spare h₄ hs₄ hlock₅
      dsimp only at hr
      split at hr
      · obtain ⟨s₆, -, hr⟩ := bind_eq_ok.mp hr
        cases hr
      · cases hr
        refine ⟨⟨_, s₄, by rw [hput]; rfl⟩, ?_, hs₅⟩
        exact hdisk₅.trans (hdisk₄.trans (hdisk₂.trans hdisk₁))

theorem create_ok (hstart : path.headD 0 = slash ∨ cwd ≠ none) (ht : type ≠ 0)
    (hfile : type ≠ T_DIR) (h2 : s.TwoInodes)
    (hspace : (∃ s', s.namei cwd path = .ok (none, s')) → Spacious sb (s.disk 1)) :
    ∃ r, s.create cwd path true type major minor = .ok r := by
  obtain ⟨⟨found, s₁⟩, hname⟩ := nameiFrom_ok h hm true hcwd hstart h2
  obtain ⟨hdisk₁, hspare⟩ := nameiFrom_quiet h hm hcwd hname
  obtain ⟨-, -, hsome⟩ := (nameiFrom_meets h true hcwd path).of_ok hname
  unfold create
  rw [show s.nameiparent cwd path = .ok (found, s₁) from hname, ok_bind]
  cases found with
  | none => exact ⟨_, rfl⟩
  | some dn =>
    obtain ⟨dp, name⟩ := dn
    have hdp := Multiset.mem_cons_self dp H
    have hin := Finset.mem_insert_self dp (∅ : Finset (Fin NINODE))
    have hfree := h.slot h2 dp
    obtain ⟨s₂, hlock⟩ := ilock_ok (hsome dp name rfl) hm hdp (Finset.notMem_empty dp)
    obtain ⟨h₂, -, hdisk₂, hv₂, hs₂⟩ := ilock_spare (hsome dp name rfl) (hspare dp name rfl) hlock
    have hdir := nameiparent_dir hname hlock
    obtain ⟨⟨entry, s₃⟩, hlook⟩ := dirlookup_ok h₂ hdp hv₂ hdir hfree name
    obtain ⟨-, hnone, hgot⟩ := (dirlookup_meets h₂ hdp hv₂ name).of_ok hlook
    dsimp only
    rw [hlock, ok_bind, if_pos rfl, hlook, ok_bind]
    cases entry with
    | none =>
      rw [show s₃ = s₂ from hnone rfl] at hlook ⊢
      obtain ⟨s₄, hput⟩ := iunlockput_ok h₂ hm hin hs₂
      have hnowhere : s.namei cwd path = .ok (none, s₄) := by
        rw [namei_of_parent hname, lookup, hlock, ok_bind, if_neg (not_not.mpr hdir),
          hlook, ok_bind]
        dsimp only
        rw [hput]
        rfl
      have hroom := hspace ⟨s₄, hnowhere⟩
      rw [← hdisk₁, ← hdisk₂] at hroom
      exact createNew_ok h₂ hm hv₂ hB ht hfile hs₂ hlook hfree hroom major minor
    | some po =>
      obtain ⟨ip, off⟩ := po
      obtain ⟨h₃, hk₃, hdisk₃, -⟩ := hgot ip off rfl
      dsimp only at h₃ hk₃ hdisk₃ ⊢
      rw [Multiset.cons_swap] at h₃
      have hs₃ : s₃.Spare (ip ::ₘ H) dp := (hs₂.congr hdisk₃ (hk₃ dp hdp).1).cons ip
      obtain ⟨s₄, hput⟩ := iunlockput_ok h₃ hm hin hs₃
      obtain ⟨h₄, -, hs₄⟩ := release_parent h₂ hm hv₂ hs₂ hlook hput
      rw [hput, ok_bind]
      exact createFound_ok h₄ hm hs₄

/-- What `sys_open` has when it begins to look for a file entry: an inode that was there, or one
that was created. -/
theorem openInode_some (hr : s.openInode cwd path omode = .ok (some ip, s')) :
    ¬s.Creates cwd path omode ∧ Found s H ip s' ∨ s.Creates cwd path omode ∧ New s ip s' := by
  unfold openInode at hr
  by_cases hcreate : omode &&& 0x200 ≠ 0
  · rw [if_pos hcreate] at hr
    rcases create_some h hm hB hcwd (by decide) (by decide) hr with
      ⟨⟨jp, s₂, hname⟩, hf⟩ | ⟨hname, hn⟩
    · refine .inl ⟨?_, hf⟩
      rintro ⟨-, s₃, hnone⟩
      rw [hname] at hnone
      cases hnone
    · exact .inr ⟨⟨hcreate, hname⟩, hn⟩
  · rw [if_neg hcreate] at hr
    refine .inl ⟨fun hc => hcreate hc.1, ?_⟩
    obtain ⟨⟨found, s₁⟩, hname, hr⟩ := bind_eq_ok.mp hr
    obtain ⟨hdisk₁, hspare⟩ := namei_quiet h hm hcwd hname
    obtain ⟨-, -, hsome⟩ := (namei_meets h hcwd path).of_ok hname
    cases found with
    | none => cases hr
    | some jp =>
      obtain ⟨s₂, hlock, hr⟩ := bind_eq_ok.mp hr
      obtain ⟨-, -, hdisk₂, -, hs₂⟩ := ilock_spare (hsome jp rfl) (hspare jp rfl) hlock
      split at hr
      · obtain ⟨s₃, -, hr⟩ := bind_eq_ok.mp hr
        cases hr
      · cases hr
        exact ⟨hdisk₂.trans hdisk₁, hs₂⟩

/-- `sys_open` gets as far as the file table if there is room for what it does on the way. -/
theorem openInode_ok (hstart : path.headD 0 = slash ∨ cwd ≠ none) (h2 : s.TwoInodes)
    (hspace : s.Creates cwd path omode → Spacious sb (s.disk 1)) :
    ∃ r, s.openInode cwd path omode = .ok r := by
  unfold openInode
  by_cases hcreate : omode &&& 0x200 ≠ 0
  · rw [if_pos hcreate]
    exact create_ok h hm hB hcwd hstart (by decide) (by decide) h2 fun hn => hspace ⟨hcreate, hn⟩
  · obtain ⟨⟨found, s₁⟩, hname⟩ := namei_ok h hm hcwd hstart h2
    obtain ⟨-, hspare⟩ := namei_quiet h hm hcwd hname
    obtain ⟨-, -, hsome⟩ := (namei_meets h hcwd path).of_ok hname
    rw [if_neg hcreate, hname, ok_bind]
    cases found with
    | none => exact ⟨_, rfl⟩
    | some jp =>
      obtain ⟨s₂, hlock⟩ := ilock_ok (hsome jp rfl) hm (Multiset.mem_cons_self jp H)
        (Finset.notMem_empty jp)
      obtain ⟨h₂, -, -, -, hs₂⟩ := ilock_spare (hsome jp rfl) (hspare jp rfl) hlock
      obtain ⟨s₃, hput⟩ := iunlockput_ok h₂ hm (Finset.mem_insert_self jp ∅) hs₂
      dsimp only
      rw [hlock, ok_bind, hput]
      split
      · exact ⟨_, rfl⟩
      · exact ⟨_, rfl⟩

theorem openInode_quiet (hr : s.openInode cwd path omode = .ok (none, s')) : Restored sb s s' := by
  unfold openInode at hr
  by_cases hcreate : omode &&& 0x200 ≠ 0
  · rw [if_pos hcreate] at hr
    exact create_quiet h hm hB hcwd (by decide) hr
  · rw [if_neg hcreate] at hr
    obtain ⟨⟨found, s₁⟩, hname, hr⟩ := bind_eq_ok.mp hr
    obtain ⟨hdisk₁, hspare⟩ := namei_quiet h hm hcwd hname
    obtain ⟨-, -, hsome⟩ := (namei_meets h hcwd path).of_ok hname
    left
    cases found with
    | none =>
      cases hr
      exact hdisk₁
    | some jp =>
      obtain ⟨s₂, hlock, hr⟩ := bind_eq_ok.mp hr
      obtain ⟨h₂, -, hdisk₂, -, hs₂⟩ := ilock_spare (hsome jp rfl) (hspare jp rfl) hlock
      split at hr
      · obtain ⟨s₃, hput, hr⟩ := bind_eq_ok.mp hr
        cases hr
        exact (iunlockput_spare h₂ hm hs₂ hput).trans (hdisk₂.trans hdisk₁)
      · cases hr

end

end Fs

namespace Files
open Function Transition

variable {NINODE NFILE NOFILE B : ℕ} {P : Type} [DecidableEq P] {sb : Superblock}
  {k k' : Files NINODE NFILE NOFILE P} {p : P} {t : Task NINODE NFILE NOFILE} {path : List UInt8}
  {omode : UInt32} {s : Fs NINODE} {ip : Fin NINODE}

/-- `open` has made a free descriptor refer to a file entry that was free, or it has failed and
left descriptors, files, inodes and directories as they were. -/
def OpensCleanly (sb : Superblock) (k : Files NINODE NFILE NOFILE P) (p : P)
    (t : Task NINODE NFILE NOFILE) (path : List UInt8) (omode : UInt32) : Prop :=
  ∃ r k', k.sysOpen p t path omode = .ok (r, k') ∧
    ((∃ (fd : Fin NOFILE) (f : Fin NFILE), r = fd.val ∧ t.ofile fd = none ∧
      k'.task p = some (t.setFd fd (some f)) ∧ (k.file f).type = .closed ∧
      (k'.file f).type = .inode ∧ (k'.file f).ref = 1) ∨
    r = -1 ∧ k'.task = k.task ∧
      (∀ f, (k'.file f).type = (k.file f).type ∧ (k'.file f).ref = (k.file f).ref) ∧
      Fs.Unaltered sb k.fs k'.fs)

/-- What there has to be when `open` is called -/
structure RoomToOpen (sb : Superblock) (k : Files NINODE NFILE NOFILE P)
    (t : Task NINODE NFILE NOFILE) (path : List UInt8) (omode : UInt32) : Prop where
  start : path.headD 0 = Fs.slash ∨ t.cwd ≠ none
  inodes : k.fs.TwoInodes
  space : k.fs.Creates t.cwd path omode → Fs.Spacious sb (k.fs.disk 1)
  entry : (∃ f, (k.file f).type = .closed) ∧ (∃ fd, t.ofile fd = none) ∨
    (∀ f, (k.file f).type ≠ .closed) ∧ ¬k.fs.Creates t.cwd path omode

theorem sysOpen_no_fd (hopen : k.fs.openInode t.cwd path omode = .ok (some ip, s))
    (hfile : ∃ f, (k.file f).type = .closed) (hfd : ∀ fd, t.ofile fd ≠ none) :
    k.sysOpen p t path omode = .error (.panic "fileclose") := by
  unfold sysOpen
  rw [hopen, ok_bind]
  dsimp only
  cases halloc : (k.setFs s).filealloc with
  | none =>
    obtain ⟨f, hf⟩ := hfile
    exact absurd hf (filealloc_none.mp halloc f)
  | some fk =>
    obtain ⟨f, k₁⟩ := fk
    obtain ⟨-, rfl⟩ := filealloc_eq halloc
    dsimp only
    rw [Task.fdalloc_none.mpr hfd]
    dsimp only
    rw [fileclose_allocated (by simp) (by simp)]
    rfl

variable [Fintype P] (h : Fs.Inv .names sb k.fs k.pointers ∅ Fs.noCredit B) (hB : B < 65535)
  (ht : k.task p = some t)

include h hB ht

section

variable (hopen : k.fs.openInode t.cwd path omode = .ok (some ip, s))
include hopen

omit [DecidableEq P] in
theorem openInode_inv :
    Fs.Inv .names sb s (ip ::ₘ k.pointers) (insert ip ∅) Fs.noCredit 65535 ∧
      Fs.Grow k.pointers k.fs s ∧
      (¬k.fs.Creates t.cwd path omode ∧ Fs.Found k.fs k.pointers ip s ∨
        k.fs.Creates t.cwd path omode ∧ Fs.New k.fs ip s) := by
  have hcwd : ∀ ip, t.cwd = some ip → ip ∈ k.pointers := fun ip hi => mem_of_cwd ht hi
  have h₀ : Fs.Inv .names sb k.fs k.pointers ∅ Fs.noCredit 65534 := h.weaken (by omega)
  have hr := (Fs.openInode_meets h₀ (fun _ => by decide) hcwd path omode).of_ok hopen
  exact ⟨(hr.inode ip rfl).1, hr.grow, Fs.openInode_some h₀ (by decide) (by decide) hcwd hopen⟩

theorem sysOpen_no_file (hfile : ∀ f, (k.file f).type ≠ .closed) :
    ∃ s', k.sysOpen p t path omode = .ok (-1, k.setFs s') ∧
      (¬k.fs.Creates t.cwd path omode → Fs.Unaltered sb k.fs s') ∧
      (k.fs.Creates t.cwd path omode → ¬Fs.Unaltered sb k.fs s') := by
  obtain ⟨hs, hg, hcases⟩ := openInode_inv h hB ht hopen
  have hself := Multiset.mem_cons_self ip k.pointers
  have hspare : s.Spare k.pointers ip := by
    rcases hcases with ⟨-, hf⟩ | ⟨-, hn⟩
    · exact hf.2
    · exact .inr hn.2
  obtain ⟨s', hput⟩ := Fs.iunlockput_ok hs (by decide) (Finset.mem_insert_self ip ∅) hspare
  have hdisk := Fs.iunlockput_spare hs (by decide) hspare hput
  obtain ⟨hs', hk'⟩ := (Fs.release_meets hs).of_ok hput
  refine ⟨s', ?_, fun hc => ?_, fun hc hu => ?_⟩
  · unfold sysOpen
    rw [hopen, ok_bind]
    dsimp only
    rw [show (k.setFs s).filealloc = none from filealloc_none.mpr hfile]
    dsimp only
    rw [hput]
    rfl
  · rcases hcases with ⟨-, hf⟩ | ⟨hcr, -⟩
    · exact .of_restored h hs' (hg.trans hk'.grow) (.inl (hdisk.trans hf.1))
    · exact absurd hcr hc
  · rcases hcases with ⟨hcr, -⟩ | ⟨-, hn⟩
    · exact hcr hc
    · -- the new inode is in use
      have hlive := hs.live_of_mem (by decide) hself
      have := hu.free _ hlive.1 hn.1
      rw [hdisk] at this
      exact hlive.2 this

theorem sysOpen_done (hfile : ∃ f, (k.file f).type = .closed) (hfd : ∃ fd, t.ofile fd = none) :
    OpensCleanly sb k p t path omode := by
  obtain ⟨hs, -, -⟩ := openInode_inv h hB ht hopen
  obtain ⟨s', hu⟩ := Fs.iunlock_ok hs (Multiset.mem_cons_self ip k.pointers)
    (Finset.mem_insert_self ip ∅)
  cases halloc : (k.setFs s).filealloc with
  | none =>
    obtain ⟨f, hf⟩ := hfile
    exact absurd hf (filealloc_none.mp halloc f)
  | some fk =>
    obtain ⟨f, k₁⟩ := fk
    obtain ⟨hclosed, hk₁⟩ := filealloc_eq halloc
    cases hfdalloc : t.fdalloc f with
    | none =>
      obtain ⟨fd, hfd⟩ := hfd
      exact absurd hfd (Task.fdalloc_none.mp hfdalloc fd)
    | some ft =>
      obtain ⟨fd, t'⟩ := ft
      obtain ⟨hfree, ht'⟩ := Task.fdalloc_eq hfdalloc
      have hfs : k₁.fs = s := by
        rw [hk₁]
        rfl
      have hx : k.sysOpen p t path omode = .ok ((fd.val : ℤ),
          ((k₁.setFs s').setTask p (some t')).setFile f { (k₁.setFs s').file f with
            type := .inode, ip := some ip, off := 0, readable := decide (omode &&& 1 = 0),
            writable := decide (omode &&& 1 ≠ 0 ∨ omode &&& 2 ≠ 0) }) := by
        unfold sysOpen
        rw [hopen, ok_bind]
        simp only [halloc, hfdalloc, hfs]
        rw [hu]
        rfl
      refine ⟨_, _, hx, .inl ⟨fd, f, rfl, hfree, ?_, hclosed, ?_, ?_⟩⟩
      · rw [← ht']
        exact update_self _ _ _
      · simp
      · simp [hk₁]

end

/-- `sys_open` is clean exactly when it finds or creates its inode without a panic and has no
use for it, or there are a file entry and a descriptor, or there is no file entry and no file was
created. -/
theorem opensCleanly_iff : OpensCleanly sb k p t path omode ↔
    ∃ r s, k.fs.openInode t.cwd path omode = .ok (r, s) ∧
      (r = none ∨ (∃ f, (k.file f).type = .closed) ∧ (∃ fd, t.ofile fd = none) ∨
        (∀ f, (k.file f).type ≠ .closed) ∧ ¬k.fs.Creates t.cwd path omode) := by
  constructor
  · rintro ⟨r, k', hx, hclean⟩
    obtain ⟨⟨o, s⟩, hopen, -⟩ := bind_eq_ok.mp hx
    refine ⟨o, s, hopen, ?_⟩
    cases o with
    | none => exact .inl rfl
    | some ip =>
      right
      by_cases hfile : ∃ f, (k.file f).type = .closed
      · left
        refine ⟨hfile, ?_⟩
        by_contra hfd
        rw [sysOpen_no_fd hopen hfile fun fd h0 => hfd ⟨fd, h0⟩] at hx
        cases hx
      · right
        have hnone : ∀ f, (k.file f).type ≠ .closed := fun f hf => hfile ⟨f, hf⟩
        refine ⟨hnone, fun hc => ?_⟩
        obtain ⟨s', hx', -, hbad⟩ := sysOpen_no_file h hB ht hopen hnone
        rw [hx'] at hx
        cases hx
        rcases hclean with ⟨fd, f, -, -, -, hf, -⟩ | ⟨-, -, -, hu⟩
        · exact hnone f hf
        · exact hbad hc hu
  · rintro ⟨o, s, hopen, hcases⟩
    cases o with
    | none =>
      have hcwd : ∀ ip, t.cwd = some ip → ip ∈ k.pointers := fun ip hi => mem_of_cwd ht hi
      have h₀ : Fs.Inv .names sb k.fs k.pointers ∅ Fs.noCredit 65534 := h.weaken (by omega)
      have hr := (Fs.openInode_meets h₀ (fun _ => by decide) hcwd path omode).of_ok hopen
      have hq := Fs.openInode_quiet h₀ (by decide) (by decide) hcwd hopen
      refine ⟨-1, k.setFs s, ?_, .inr ⟨rfl, rfl, fun f => ⟨rfl, rfl⟩,
        .of_restored h (hr.fail rfl) hr.grow hq⟩⟩
      unfold sysOpen
      rw [hopen]
      rfl
    | some ip =>
      rcases hcases with hn | ⟨hfile, hfd⟩ | ⟨hnone, hc⟩
      · cases hn
      · exact sysOpen_done h hB ht hopen hfile hfd
      · obtain ⟨s', hx, hgood, -⟩ := sysOpen_no_file h hB ht hopen hnone
        exact ⟨-1, k.setFs s', hx, .inr ⟨rfl, rfl, fun f => ⟨rfl, rfl⟩, hgood hc⟩⟩

omit h hB ht

end Files

end Xv6Shed
