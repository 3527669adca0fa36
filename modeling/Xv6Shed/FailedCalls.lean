import Xv6Shed.Consistency

/-!
# Calls on names that fail

`link`, `unlink`, `mkdir`, `mknod` and `chdir` change nothing when they return -1. On the way a
path is followed, and what is taken for that is given back: every inode that a path leads
through has a name or another pointer to it, so to give it back frees nothing. `link` writes a
link count and then writes back the one before; `create` takes an inode that was free and frees
it again.
-/

namespace Xv6Shed

namespace Fs
open Function Bytes

variable {NINODE B i off dev : ℕ} {sb : Superblock} {m : Mode} {c : ℕ → ℕ}
  {H : Multiset (Fin NINODE)} {L : Finset (Fin NINODE)} {dp ip : Fin NINODE} {s s' : Fs NINODE}
  {cwd : Option (Fin NINODE)} {path name new : List UInt8} {r : ℤ} {type major minor : UInt16}

/-- There is another pointer to the inode, or it has a link. -/
def Spare (s : Fs NINODE) (H : Multiset (Fin NINODE)) (ip : Fin NINODE) : Prop :=
  ip ∈ H ∨ (s.onDisk ip).nlink ≠ 0

theorem Spare.congr (h : s.Spare H ip) (hdisk : s'.disk = s.disk)
    (hi : (s'.icache ip).inum = (s.icache ip).inum) : s'.Spare H ip := by
  refine h.imp_right fun hn => ?_
  rwa [onDisk, hdisk, hi]

theorem Spare.cons (h : s.Spare H ip) (jp : Fin NINODE) : s.Spare (jp ::ₘ H) ip :=
  h.imp_left Multiset.mem_cons_of_mem

theorem iput_spare (h : Inv m sb s (ip ::ₘ H) L c B) (hm : m ≠ .blocks) (hs : s.Spare H ip) :
    s.iput ip = .ok (s.setInode ip { s.icache ip with ref := (s.icache ip).ref - 1 }) := by
  unfold iput
  dsimp only
  rw [if_neg]
  · rfl
  · rintro ⟨href, hv, h0⟩
    rcases hs with hip | hn
    · have hcount := h.count_cons
      have := Multiset.count_pos.mpr hip
      omega
    · rw [← h.nlink hm ip (Multiset.mem_cons_self ip H) hv] at hn
      exact hn h0

theorem iunlockput_spare (h : Inv m sb s (ip ::ₘ H) L c B) (hm : m ≠ .blocks)
    (hs : s.Spare H ip) (hr : s.iunlockput ip = .ok s') : s'.disk = s.disk := by
  have hself := Multiset.mem_cons_self ip H
  obtain ⟨s₁, hu, hr⟩ := bind_eq_ok.mp hr
  obtain ⟨h₁, hk₁, hdisk₁⟩ := (iunlock_meets h hself).of_ok hu
  rw [iput_spare h₁ hm (hs.congr hdisk₁ (hk₁ ip hself).1)] at hr
  cases hr
  exact hdisk₁

theorem ilock_spare (h : Inv m sb s (ip ::ₘ H) ∅ c B) (hs : s.Spare H ip)
    (hr : s.ilock ip = .ok s') : Inv m sb s' (ip ::ₘ H) (insert ip ∅) c B ∧
      Keep (ip ::ₘ H) s s' ∧ s'.disk = s.disk ∧ (s'.icache ip).valid = true ∧ s'.Spare H ip := by
  have hself := Multiset.mem_cons_self ip H
  obtain ⟨h', hk, hdisk, -, hv⟩ := (ilock_meets h hself).of_ok hr
  exact ⟨h', hk, hdisk, hv, hs.congr hdisk (hk ip hself).1⟩

theorem dirlookup_spare {K : Multiset (Fin NINODE)} (h : Inv m sb s H L c B) (hm : m ≠ .blocks)
    (hdp : dp ∈ H) (hv : (s.icache dp).valid = true) (hs : s.Spare K dp)
    (hr : s.dirlookup dp name = .ok (some (ip, off), s')) : s'.Spare K ip := by
  obtain ⟨hdir, -, hsome⟩ := (dirlookup_meets h hdp hv name).of_ok hr
  obtain ⟨h', hk', hdisk, k, -, hk, -, he, h0⟩ := hsome ip off rfl
  dsimp only at h' hk' hdisk he h0
  by_cases hi : (s'.icache dp).inum = (s'.icache ip).inum
  · obtain rfl : ip = dp :=
      h'.one ip (Multiset.mem_cons_self ip H) dp (Multiset.mem_cons_of_mem hdp) hi.symm
    exact hs.congr hdisk (hk' ip hdp).1
  · right
    rw [(hk' dp hdp).1] at hi
    rw [onDisk, hdisk]
    exact h.named_links hdp hdir hk he h0 hm hi

theorem release_parent {s₁ : Fs NINODE} (h : Inv m sb s (dp ::ₘ H) (insert dp ∅) c B)
    (hm : m ≠ .blocks) (hv : (s.icache dp).valid = true) (hs : s.Spare H dp)
    (hlook : s.dirlookup dp name = .ok (some (ip, off), s₁)) (hput : s₁.iunlockput dp = .ok s') :
    Inv m sb s' (ip ::ₘ H) ∅ c B ∧ s'.disk = s.disk ∧ s'.Spare H ip := by
  have hdp := Multiset.mem_cons_self dp H
  obtain ⟨-, -, hsome⟩ := (dirlookup_meets h hdp hv name).of_ok hlook
  obtain ⟨h₁, hk₁, hdisk₁, -⟩ := hsome ip off rfl
  have hs₁ := hs.congr hdisk₁ (hk₁ dp hdp).1
  have hip := dirlookup_spare h hm hdp hv hs hlook
  rw [Multiset.cons_swap] at h₁
  have hdisk := iunlockput_spare h₁ hm (hs₁.cons ip) hput
  obtain ⟨h', hk'⟩ := (release_meets h₁).of_ok hput
  exact ⟨h', hdisk.trans hdisk₁, hip.congr hdisk (hk' ip (Multiset.mem_cons_self ip H)).1⟩

theorem nameiLoop_quiet (hm : m ≠ .blocks) (parent : Bool) (fuel : ℕ) (path : List UInt8)
    {r : Option (Fin NINODE × List UInt8)} (h : Inv m sb s (ip ::ₘ H) ∅ c B) (hs : s.Spare H ip)
    (hr : nameiLoop parent fuel ip path s = .ok (r, s')) :
    s'.disk = s.disk ∧ ∀ jp name, r = some (jp, name) → s'.Spare H jp := by
  induction fuel generalizing ip path s with
  | zero => cases hr
  | succ fuel ih =>
    have hself := Multiset.mem_cons_self ip H
    unfold nameiLoop at hr
    cases hpath : skipelem path with
    | none =>
      simp only [hpath] at hr
      by_cases hp : parent = true
      · rw [if_pos hp, iput_spare h hm hs, ok_bind] at hr
        cases hr
        exact ⟨rfl, fun _ _ hj => (Option.some_ne_none _ hj.symm).elim⟩
      · rw [if_neg hp] at hr
        cases hr
        refine ⟨rfl, fun jp name hj => ?_⟩
        cases hj
        exact hs
    | some pn =>
      obtain ⟨rest, name⟩ := pn
      simp only [hpath] at hr
      obtain ⟨s₁, hlock, hr⟩ := bind_eq_ok.mp hr
      obtain ⟨h₁, hk₁, hdisk₁, hv₁, hs₁⟩ := ilock_spare h hs hlock
      by_cases hd : (s₁.icache ip).d.type ≠ T_DIR
      · rw [if_pos hd] at hr
        obtain ⟨s₂, hput, hr⟩ := bind_eq_ok.mp hr
        cases hr
        exact ⟨(iunlockput_spare h₁ hm hs₁ hput).trans hdisk₁,
          fun _ _ hj => (Option.some_ne_none _ hj.symm).elim⟩
      rw [if_neg hd] at hr
      by_cases hp : parent = true ∧ atEnd rest = true
      · rw [if_pos hp] at hr
        obtain ⟨s₂, hu, hr⟩ := bind_eq_ok.mp hr
        obtain ⟨-, hk₂, hdisk₂⟩ := (iunlock_meets h₁ hself).of_ok hu
        cases hr
        refine ⟨hdisk₂.trans hdisk₁, fun jp nm hj => ?_⟩
        cases hj
        exact hs₁.congr hdisk₂ (hk₂ ip hself).1
      rw [if_neg hp] at hr
      obtain ⟨⟨next, s₂⟩, hlook, hr⟩ := bind_eq_ok.mp hr
      obtain ⟨-, hnone, -⟩ := (dirlookup_meets h₁ hself hv₁ name).of_ok hlook
      cases next with
      | none =>
        rw [show s₂ = s₁ from hnone rfl] at hr
        obtain ⟨s₃, hput, hr⟩ := bind_eq_ok.mp hr
        cases hr
        exact ⟨(iunlockput_spare h₁ hm hs₁ hput).trans hdisk₁,
          fun _ _ hj => (Option.some_ne_none _ hj.symm).elim⟩
      | some no =>
        obtain ⟨s₃, hput, hr⟩ := bind_eq_ok.mp hr
        obtain ⟨h₃, hdisk₃, hs₃⟩ := release_parent h₁ hm hv₁ hs₁ hlook hput
        obtain ⟨hdisk, hres⟩ := ih rest h₃ hs₃ hr
        exact ⟨hdisk.trans (hdisk₃.trans hdisk₁), hres⟩

theorem Inv.root_spare (h : Inv m sb s H L c B) (hm : m ≠ .blocks)
    (hget : s.iget 1 1 = .ok (ip, s')) :
    Inv m sb s' (ip ::ₘ H) L c B ∧ s'.disk = s.disk ∧ s'.Spare H ip := by
  have hroot : Live sb (dinode (s.disk 1)) 1 := graph_live.mp (h.linked hm).root
  have hlinks : (dinode (s.disk 1) 1).nlink ≠ 0 := by
    intro h0
    have := (h.linked hm).counted 1 (h.linked hm).root
    rw [graph_links hroot, h0, if_pos rfl] at this
    exact absurd this (by change ¬_ ≤ 0; omega)
  obtain ⟨h₁, -, hdisk₁, hi₁⟩ := (iget_meets h h.root (fun _ => hroot) fun _ _ => hlinks).of_ok hget
  dsimp only at h₁ hdisk₁ hi₁
  refine ⟨h₁, hdisk₁, .inr ?_⟩
  rwa [onDisk, hdisk₁, hi₁]

theorem nameiFrom_quiet (h : Inv m sb s H ∅ c B) (hm : m ≠ .blocks) {parent : Bool}
    (hcwd : ∀ ip, cwd = some ip → ip ∈ H) {r : Option (Fin NINODE × List UInt8)}
    (hr : s.nameiFrom parent cwd path = .ok (r, s')) :
    s'.disk = s.disk ∧ ∀ jp name, r = some (jp, name) → s'.Spare H jp := by
  unfold nameiFrom at hr
  by_cases hslash : path.headD 0 = slash
  · rw [if_pos hslash] at hr
    obtain ⟨⟨ip, s₁⟩, hget, hr⟩ := bind_eq_ok.mp hr
    obtain ⟨h₁, hdisk₁, hs₁⟩ := h.root_spare hm hget
    obtain ⟨hdisk, hres⟩ := nameiLoop_quiet hm parent _ path h₁ hs₁ hr
    exact ⟨hdisk.trans hdisk₁, hres⟩
  · rw [if_neg hslash] at hr
    obtain ⟨ip, hip, hr⟩ := bind_eq_ok.mp hr
    have hin := hcwd ip (deref_eq_ok.mp hip)
    have h₁ : Inv m sb (s.idup ip) (ip ::ₘ H) ∅ c B := (h.another hin).1
    have hs₁ : (s.idup ip).Spare H ip := .inl hin
    have hquiet := nameiLoop_quiet hm parent _ path h₁ hs₁ hr
    exact hquiet

theorem namei_quiet (h : Inv m sb s H ∅ c B) (hm : m ≠ .blocks)
    (hcwd : ∀ ip, cwd = some ip → ip ∈ H) {r : Option (Fin NINODE)}
    (hr : s.namei cwd path = .ok (r, s')) :
    s'.disk = s.disk ∧ ∀ jp, r = some jp → s'.Spare H jp := by
  obtain ⟨⟨q, s₁⟩, hfrom, hr⟩ := bind_eq_ok.mp hr
  cases hr
  obtain ⟨hdisk, hres⟩ := nameiFrom_quiet h hm hcwd hfrom
  refine ⟨hdisk, fun jp hj => ?_⟩
  obtain ⟨⟨_, name⟩, rfl, rfl⟩ := Option.map_eq_some_iff.mp hj
  exact hres _ name rfl

theorem dirlink_quiet {ino : ℕ} (h : Inv m sb s H L c B) (hm : m ≠ .blocks) (hdp : dp ∈ H)
    (hv : (s.icache dp).valid = true) (hr : s.dirlink dp name ino = .ok (r, s')) (hneg : r < 0) :
    s'.disk = s.disk := by
  obtain ⟨⟨found, s₁⟩, hlook, hr⟩ := bind_eq_ok.mp hr
  obtain ⟨-, -, hsome⟩ := (dirlookup_meets h hdp hv name).of_ok hlook
  cases found with
  | none =>
    obtain ⟨off, -, hr⟩ := bind_eq_ok.mp hr
    obtain ⟨⟨r₁, s₂⟩, -, hr⟩ := bind_eq_ok.mp hr
    dsimp only at hr
    by_cases h16 : r₁ ≠ 16
    · rw [if_pos h16] at hr
      cases hr
    · rw [if_neg h16] at hr
      cases hr
      exact absurd hneg (Int.lt_irrefl 0)
  | some po =>
    obtain ⟨ip, off⟩ := po
    obtain ⟨h₁, -, hdisk₁, -⟩ := hsome ip off rfl
    have hs : s₁.Spare H ip := dirlookup_spare h hm hdp hv (.inl hdp) hlook
    dsimp only at h₁ hr
    rw [iput_spare h₁ hm hs, ok_bind] at hr
    cases hr
    exact hdisk₁

theorem sysChdir_quiet (h : Inv m sb s H ∅ c B) (hm : m ≠ .blocks)
    (hcwd : ∀ ip, cwd = some ip → ip ∈ H) (hr : s.sysChdir cwd path = .ok (none, s')) :
    s'.disk = s.disk ∧ Inv m sb s' H ∅ c B ∧ Grow H s s' := by
  obtain ⟨⟨found, s₁⟩, hname, hr⟩ := bind_eq_ok.mp hr
  obtain ⟨hdisk₁, hspare⟩ := namei_quiet h hm hcwd hname
  obtain ⟨hk₁, hnone, hsome⟩ := (namei_meets h hcwd path).of_ok hname
  cases found with
  | none =>
    cases hr
    exact ⟨hdisk₁, hnone rfl, hk₁.grow⟩
  | some ip =>
    obtain ⟨s₂, hlock, hr⟩ := bind_eq_ok.mp hr
    obtain ⟨h₂, hk₂, hdisk₂, -, hs₂⟩ := ilock_spare (hsome ip rfl) (hspare ip rfl) hlock
    by_cases hdir : (s₂.icache ip).d.type ≠ T_DIR
    · rw [if_pos hdir] at hr
      obtain ⟨s₃, hput, hr⟩ := bind_eq_ok.mp hr
      cases hr
      obtain ⟨h₃, hk₃⟩ := (release_meets h₂).of_ok hput
      exact ⟨(iunlockput_spare h₂ hm hs₂ hput).trans (hdisk₂.trans hdisk₁), h₃,
        ((hk₁.trans (hk₂.mono (mem_cons_sub ip H))).trans hk₃).grow⟩
    · rw [if_neg hdir] at hr
      obtain ⟨s₃, -, hr⟩ := bind_eq_ok.mp hr
      obtain ⟨old, -, hr⟩ := bind_eq_ok.mp hr
      obtain ⟨s₄, -, hr⟩ := bind_eq_ok.mp hr
      cases hr

theorem removeEntry_result (hr : s.removeEntry dp ip off = .ok (r, s')) :
    r = 0 := by
  obtain ⟨⟨r₁, s₁⟩, -, hr⟩ := bind_eq_ok.mp hr
  dsimp only at hr
  by_cases h16 : r₁ ≠ 16
  · rw [if_pos h16] at hr
    cases hr
  · rw [if_neg h16] at hr
    obtain ⟨s₂, -, hr⟩ := bind_eq_ok.mp hr
    obtain ⟨s₃, -, hr⟩ := bind_eq_ok.mp hr
    cases hr
    rfl

theorem unlinkEntry_quiet (h : Inv m sb s (ip ::ₘ dp ::ₘ H) (insert dp ∅) c B) (hm : m ≠ .blocks)
    (hip : s.Spare (dp ::ₘ H) ip) (hdp : s.Spare H dp) (hr : s.unlinkEntry dp ip off = .ok (-1, s'))
    : s'.disk = s.disk := by
  have hself := Multiset.mem_cons_self ip (dp ::ₘ H)
  have hd : dp ∈ ip ::ₘ dp ::ₘ H := Multiset.mem_cons_of_mem (Multiset.mem_cons_self dp H)
  obtain ⟨s₁, hlock, hr⟩ := bind_eq_ok.mp hr
  obtain ⟨h₁, hk₁, hdisk₁, -⟩ := (ilock_meets h hself).of_ok hlock
  by_cases hn : short (s₁.icache ip).d.nlink < 1
  · rw [if_pos hn] at hr
    cases hr
  rw [if_neg hn] at hr
  have hend : ∀ empty : Bool,
      (if empty = false then do
        let s ← s₁.iunlockput ip
        pure (-1, ← s.iunlockput dp)
      else s₁.removeEntry dp ip off) = .ok (-1, s') → s'.disk = s.disk := by
    intro empty hr
    by_cases he : empty = false
    · rw [if_pos he] at hr
      obtain ⟨s₂, hput₂, hr⟩ := bind_eq_ok.mp hr
      obtain ⟨s₃, hput₃, hr⟩ := bind_eq_ok.mp hr
      cases hr
      have hdisk₂ := iunlockput_spare h₁ hm (hip.congr hdisk₁ (hk₁ ip hself).1) hput₂
      obtain ⟨h₂, hk₂⟩ := (iunlockput_meets h₁).of_ok hput₂
      have hs₂ := (hdp.congr hdisk₁ (hk₁ dp hd).1).congr hdisk₂
        (hk₂ dp (Multiset.mem_cons_self dp H)).1
      exact (iunlockput_spare h₂ hm hs₂ hput₃).trans (hdisk₂.trans hdisk₁)
    · rw [if_neg he] at hr
      exact absurd (removeEntry_result hr) (by decide)
  dsimp only at hr
  by_cases hdir : (s₁.icache ip).d.type = T_DIR
  · rw [if_pos hdir] at hr
    obtain ⟨empty, -, hr⟩ := bind_eq_ok.mp hr
    exact hend empty hr
  · rw [if_neg hdir] at hr
    exact hend true hr

theorem sysUnlink_quiet (h : Inv m sb s H ∅ c B) (hm : m ≠ .blocks)
    (hcwd : ∀ ip, cwd = some ip → ip ∈ H) (hr : s.sysUnlink cwd path = .ok (-1, s')) :
    s'.disk = s.disk := by
  obtain ⟨⟨found, s₁⟩, hname, hr⟩ := bind_eq_ok.mp hr
  obtain ⟨hdisk₁, hspare⟩ := nameiFrom_quiet h hm hcwd hname
  obtain ⟨-, -, hsome⟩ := (nameiFrom_meets h true hcwd path).of_ok hname
  cases found with
  | none =>
    cases hr
    exact hdisk₁
  | some dn =>
    obtain ⟨dp, name⟩ := dn
    have hdp := Multiset.mem_cons_self dp H
    obtain ⟨s₂, hlock, hr⟩ := bind_eq_ok.mp hr
    obtain ⟨h₂, hk₂, hdisk₂, hv₂, hs₂⟩ := ilock_spare (hsome dp name rfl) (hspare dp name rfl) hlock
    have hback : ∀ {t : Fs NINODE}, s₂.iunlockput dp = .ok t → t.disk = s.disk := fun hput =>
      (iunlockput_spare h₂ hm hs₂ hput).trans (hdisk₂.trans hdisk₁)
    by_cases hdot : name = dot ∨ name = dotdot
    · rw [if_pos hdot] at hr
      obtain ⟨s₃, hput, hr⟩ := bind_eq_ok.mp hr
      cases hr
      exact hback hput
    rw [if_neg hdot] at hr
    obtain ⟨⟨entry, s₃⟩, hlook, hr⟩ := bind_eq_ok.mp hr
    obtain ⟨-, hnone, hentry⟩ := (dirlookup_meets h₂ hdp hv₂ name).of_ok hlook
    cases entry with
    | none =>
      rw [show s₃ = s₂ from hnone rfl] at hr
      obtain ⟨s₄, hput, hr⟩ := bind_eq_ok.mp hr
      cases hr
      exact hback hput
    | some po =>
      obtain ⟨ip, off⟩ := po
      obtain ⟨h₃, hk₃, hdisk₃, -⟩ := hentry ip off rfl
      have hip : s₃.Spare (dp ::ₘ H) ip := dirlookup_spare h₂ hm hdp hv₂ (.inl hdp) hlook
      have hdisk₄ := unlinkEntry_quiet h₃ hm hip (hs₂.congr hdisk₃ (hk₃ dp hdp).1) hr
      exact hdisk₄.trans (hdisk₃.trans (hdisk₂.trans hdisk₁))

theorem setNlink_disk (h : Inv m sb s H L c B) (hip : ip ∈ H) (hv : (s.icache ip).valid = true)
    (n : UInt16) : (s.setNlink ip n).disk =
      update s.disk 1 (setDinode (s.disk 1) (s.icache ip).inum
        { s.onDisk ip with nlink := n }) := by
  unfold setNlink
  rw [setCopy_iupdate, put, h.dev ip hip, h.copy ip hip hv]

section

variable (h : Inv m sb s (ip ::ₘ H) ∅ (give c i) B) (hm : m ≠ .blocks) (hi : (s.icache ip).inum = i)
  (hv : (s.icache ip).valid = true) (hdir : (s.onDisk ip).type ≠ T_DIR)
  (hs : ip ∈ H ∨ (s.onDisk ip).nlink ≠ 1)
include h hm hi hv hdir hs

theorem linkBad_none_quiet (hr : s.linkBad none ip = .ok (r, s')) : s'.disk = update s.disk 1
      (setDinode (s.disk 1) i { s.onDisk ip with nlink := (s.onDisk ip).nlink - 1 }) := by
  have hself := Multiset.mem_cons_self ip H
  obtain ⟨_, heq, hr⟩ := bind_eq_ok.mp hr
  cases heq
  obtain ⟨s₁, hlock, hr⟩ := bind_eq_ok.mp hr
  obtain ⟨h₁, hk₁, hdisk₁, -, hv₁⟩ := (ilock_meets h hself).of_ok hlock
  obtain ⟨hi₁, hkept⟩ := hk₁ ip hself
  obtain ⟨-, hd₁, -⟩ := hkept hv
  obtain ⟨h₂, hg₂⟩ := down_inv h₁ hself hv₁ (fun _ => by rw [hi₁, hi, give_self]; omega)
    (fun _ => by rwa [hd₁])
  have hdisk₂ := setNlink_disk h₁ hself hv₁ ((s₁.icache ip).d.nlink - 1)
  have hn₁ := h₁.nlink hm ip hself hv₁
  obtain ⟨s₃, hput, hr⟩ := bind_eq_ok.mp hr
  cases hr
  have hs₂ : (s₁.setNlink ip ((s₁.icache ip).d.nlink - 1)).Spare H ip := by
    refine hs.imp_right fun hne => ?_
    rw [onDisk, hdisk₂, update_self, (hg₂ ip hself).1, dinode_setDinode, hn₁, hd₁]
    intro h0
    change (s.onDisk ip).nlink - 1 = 0 at h0
    have hone := UInt16.sub_add_cancel (s.onDisk ip).nlink 1
    rw [h0] at hone
    exact hne hone.symm
  rw [iunlockput_spare h₂ hm hs₂ hput, hdisk₂, hn₁, hd₁, hdisk₁, hi₁, hi]

theorem linkName_quiet (hcwd : ∀ jp, cwd = some jp → jp ∈ H)
    (hr : s.linkName cwd ip new = .ok (-1, s')) :
    s'.disk = update s.disk 1
      (setDinode (s.disk 1) i { s.onDisk ip with nlink := (s.onDisk ip).nlink - 1 }) := by
  have hself := Multiset.mem_cons_self ip H
  have hcwd' : ∀ jp, cwd = some jp → jp ∈ ip ::ₘ H :=
    fun jp hj => Multiset.mem_cons_of_mem (hcwd jp hj)
  -- `bad` in any state that follows without a store
  have hbad : ∀ {t : Fs NINODE}, t.disk = s.disk → Keep (ip ::ₘ H) s t →
      Inv m sb t (ip ::ₘ H) ∅ (give c i) B → t.linkBad none ip = .ok (-1, s') →
      s'.disk = update s.disk 1
        (setDinode (s.disk 1) i { s.onDisk ip with nlink := (s.onDisk ip).nlink - 1 }) := by
    intro t hdisk hk ht hb
    obtain ⟨hit, hkept⟩ := hk ip hself
    obtain ⟨hvt, hd, -⟩ := hkept hv
    rw [← hd] at hdir hs
    have := linkBad_none_quiet ht hm (hit.trans hi) hvt hdir hs hb
    rwa [hd, hdisk] at this
  obtain ⟨⟨found, s₁⟩, hname, hr⟩ := bind_eq_ok.mp hr
  obtain ⟨hdisk₁, hspare⟩ := nameiFrom_quiet h hm hcwd' hname
  obtain ⟨hk₁, hnone, hsome⟩ := (nameiFrom_meets h true hcwd' new).of_ok hname
  cases found with
  | none => exact hbad hdisk₁ hk₁ (hnone rfl) hr
  | some dn =>
    obtain ⟨dp, name⟩ := dn
    have hdp := Multiset.mem_cons_self dp (ip ::ₘ H)
    have hip : ip ∈ dp ::ₘ ip ::ₘ H := Multiset.mem_cons_of_mem hself
    obtain ⟨s₂, hlock, hr⟩ := bind_eq_ok.mp hr
    obtain ⟨h₂, hk₂, hdisk₂, hv₂, hs₂⟩ := ilock_spare (hsome dp name rfl) (hspare dp name rfl) hlock
    have hk := hk₁.trans (hk₂.mono (mem_cons_sub dp _))
    -- the label `bad` with the directory still locked
    have hsomeBad : ∀ {t : Fs NINODE}, t.disk = s₂.disk → Keep (dp ::ₘ ip ::ₘ H) s₂ t →
        Inv m sb t (dp ::ₘ ip ::ₘ H) (insert dp ∅) (give c i) B →
        t.linkBad (some dp) ip = .ok (-1, s') → s'.disk = update s.disk 1
          (setDinode (s.disk 1) i { s.onDisk ip with nlink := (s.onDisk ip).nlink - 1 }) := by
      intro t hdisk hkt ht hb
      obtain ⟨t₁, hput, hb⟩ := bind_eq_ok.mp hb
      have hdisk₃ := iunlockput_spare ht hm (hs₂.congr hdisk (hkt dp hdp).1) hput
      obtain ⟨h₃, hk₃⟩ := (release_meets ht).of_ok hput
      exact hbad (hdisk₃.trans (hdisk.trans (hdisk₂.trans hdisk₁)))
        ((hk.trans (hkt.mono (mem_cons_sub dp _))).trans hk₃) h₃ hb
    dsimp only at hr
    rw [if_neg (by rw [h₂.dev dp hdp, h₂.dev ip hip]; exact fun hne => hne rfl)] at hr
    obtain ⟨⟨r, s₃⟩, hlink, hr⟩ := bind_eq_ok.mp hr
    dsimp only at hr
    by_cases hneg : r < 0
    · rw [if_pos hneg] at hr
      have hdisk₃ := dirlink_quiet h₂ hm hdp hv₂ hlink hneg
      obtain ⟨hi₂, hkept⟩ := hk ip hself
      obtain ⟨-, hdi, -⟩ := hkept hv
      obtain ⟨-, hfail, -⟩ :=
        (dirlink_credit_meets h₂ (hi₂.trans hi) hv₂ (by rwa [hdi]) name).of_ok hlink
      obtain ⟨h₃, hk₃⟩ := hfail hneg
      exact hsomeBad hdisk₃ hk₃ h₃ hr
    · rw [if_neg hneg] at hr
      obtain ⟨s₄, -, hr⟩ := bind_eq_ok.mp hr
      obtain ⟨s₅, -, hr⟩ := bind_eq_ok.mp hr
      cases hr

end

theorem sysLink_quiet {old : List UInt8} (h : Inv m sb s H ∅ c B) (hm : m ≠ .blocks)
    (hB : B < 65535) (hcwd : ∀ ip, cwd = some ip → ip ∈ H)
    (hr : s.sysLink cwd old new = .ok (-1, s')) : s'.disk = s.disk := by
  obtain ⟨⟨found, s₁⟩, hname, hr⟩ := bind_eq_ok.mp hr
  obtain ⟨hdisk₁, hspare⟩ := namei_quiet h hm hcwd hname
  obtain ⟨-, -, hsome⟩ := (namei_meets h hcwd old).of_ok hname
  cases found with
  | none =>
    cases hr
    exact hdisk₁
  | some ip =>
    have hself := Multiset.mem_cons_self ip H
    obtain ⟨s₂, hlock, hr⟩ := bind_eq_ok.mp hr
    obtain ⟨h₂, -, hdisk₂, hv₂, hs₂⟩ := ilock_spare (hsome ip rfl) (hspare ip rfl) hlock
    by_cases hdir : (s₂.icache ip).d.type = T_DIR
    · rw [if_pos hdir] at hr
      obtain ⟨s₃, hput, hr⟩ := bind_eq_ok.mp hr
      cases hr
      exact (iunlockput_spare h₂ hm hs₂ hput).trans (hdisk₂.trans hdisk₁)
    rw [if_neg hdir] at hr
    rw [(h₂.type_eq hself hv₂).1] at hdir
    obtain ⟨s₄, hu, hr⟩ := bind_eq_ok.mp hr
    have hn₂ := h₂.nlink hm ip hself hv₂
    obtain ⟨h₃, hg₃⟩ := up_inv h₂ hself hv₂ fun _ => hB
    have hdisk₃ := setNlink_disk h₂ hself hv₂ ((s₂.icache ip).d.nlink + 1)
    generalize s₂.setNlink ip ((s₂.icache ip).d.nlink + 1) = s₃ at h₃ hg₃ hdisk₃ hu
    obtain ⟨h₄, hk₄, hdisk₄⟩ := (iunlock_meets h₃ hself).of_ok hu
    rw [Finset.erase_insert_eq_erase, Finset.erase_empty] at h₄
    obtain ⟨hi₃, hkept₃⟩ := hg₃ ip hself
    obtain ⟨hv₃, -⟩ := hkept₃ hv₂
    obtain ⟨hi₄, hkept₄⟩ := hk₄ ip hself
    obtain ⟨hv₄, hd₄, -⟩ := hkept₄ hv₃
    have hd : s₄.onDisk ip = { s₂.onDisk ip with nlink := (s₂.onDisk ip).nlink + 1 } := by
      rw [hd₄, onDisk, hdisk₃, update_self, hi₃, dinode_setDinode, hn₂]
    have hquiet := linkName_quiet h₄ hm (hi₄.trans hi₃) hv₄ (by rwa [hd]) ?_ hcwd hr
    · have hback : ({ s₄.onDisk ip with nlink := (s₄.onDisk ip).nlink - 1 } : Dinode) =
          s₂.onDisk ip := by
        rw [hd]
        dsimp only
        rw [UInt16.add_sub_cancel]
      rw [hquiet, hback, hdisk₄, hdisk₃, update_self, update_idem, setDinode_setDinode, onDisk,
        setDinode_dinode, update_eq_self, hdisk₂, hdisk₁]
    · refine hs₂.imp_right fun hne h1 => ?_
      rw [hd] at h1
      change (s₂.onDisk ip).nlink + 1 = 1 at h1
      have hzero := UInt16.add_sub_cancel (s₂.onDisk ip).nlink 1
      rw [h1] at hzero
      exact hne hzero.symm

theorem itrunc_empty (ha : ∀ j, (s.icache ip).d.addrs j = 0) :
    s.itrunc ip = .ok ((s.setCopy ip { (s.icache ip).d with size := 0 }).iupdate ip) := by
  have hloop : ∀ l : List ℕ, l.foldlM (truncDirect ip) s = .ok s := by
    intro l
    induction l with
    | nil => rfl
    | cons j l ih =>
      rw [List.foldlM_cons, truncDirect, if_pos (ha _)]
      exact ih
  unfold itrunc
  rw [hloop, ok_bind]
  dsimp only
  rw [if_pos (ha 12)]
  rfl

theorem ifree_empty (ha : ∀ j, (s.icache ip).d.addrs j = 0) (hr : s.ifree ip = .ok s') :
    ∃ d : Dinode, d.type = 0 ∧ s'.disk = update s.disk (s.icache ip).dev
      (setDinode (s.disk (s.icache ip).dev) (s.icache ip).inum d) := by
  unfold ifree at hr
  by_cases hb : (s.icache ip).busy = true
  · rw [if_pos hb] at hr
    cases hr
  rw [if_neg hb, itrunc_empty (by simpa using ha), ok_bind] at hr
  cases hr
  refine ⟨{ (s.icache ip).d with size := 0, type := 0 }, rfl, ?_⟩
  simp only [iupdate, setInode, setCopy, setDisk, update_self, update_idem, setDinode_setDinode]

theorem discard_quiet (h : Inv m sb s (ip ::ₘ H) L c B) (hv : (s.icache ip).valid = true)
    (hip : ip ∉ H) (ha : ∀ j, (s.onDisk ip).addrs j = 0)
    (hr : (s.setCopy ip { (s.icache ip).d with nlink := 0 }).iunlockput ip = .ok s') :
    ∃ d : Dinode, d.type = 0 ∧
      s'.disk = update s.disk 1 (setDinode (s.disk 1) (s.icache ip).inum d) := by
  have hself := Multiset.mem_cons_self ip H
  have href : (s.icache ip).ref = 1 := by
    rw [h.count_cons, Multiset.count_eq_zero_of_notMem hip]
    rfl
  have haddrs : ∀ j, (s.icache ip).d.addrs j = 0 := by
    intro j
    rw [h.copy ip hself hv]
    exact ha j
  obtain ⟨s₁, hu, hr⟩ := bind_eq_ok.mp hr
  have hs₁ : s₁ = s.setInode ip
      { s.icache ip with busy := false, d := { (s.icache ip).d with nlink := 0 } } := by
    unfold iunlock at hu
    dsimp only at hu
    by_cases hb : ((s.setCopy ip { (s.icache ip).d with nlink := 0 }).icache ip).busy = false ∨
        ((s.setCopy ip { (s.icache ip).d with nlink := 0 }).icache ip).ref < 1
    · rw [if_pos hb] at hu
      cases hu
    · rw [if_neg hb] at hu
      cases hu
      rw [setCopy, setInode_setInode, setInode_icache, update_self]
  have hx : s₁.icache ip =
      { s.icache ip with busy := false, d := { (s.icache ip).d with nlink := 0 } } := by
    rw [hs₁, setInode_icache, update_self]
  have hdisk₁ : s₁.disk = s.disk := by
    rw [hs₁]
    rfl
  unfold iput at hr
  dsimp only at hr
  rw [if_pos (by rw [hx]; exact ⟨href, hv, rfl⟩)] at hr
  obtain ⟨s₂, hfree, hr⟩ := bind_eq_ok.mp hr
  cases hr
  obtain ⟨d, hd, hdisk⟩ := ifree_empty (by rw [hx]; exact haddrs) hfree
  refine ⟨d, hd, ?_⟩
  rw [show (s.icache ip).inum = (s₁.icache ip).inum by rw [hx]]
  rw [show (s₁.icache ip).dev = 1 by rw [hx]; exact h.dev ip hself, hdisk₁] at hdisk
  exact hdisk

/-- Nothing is written but at most an inode that is free, and it stays free. -/
def Restored (sb : Superblock) (s s' : Fs NINODE) : Prop :=
  s'.disk = s.disk ∨ ∃ i d, i < sb.ninodes ∧ (dinode (s.disk 1) i).type = 0 ∧ d.type = 0 ∧
    s'.disk = update s.disk 1 (setDinode (s.disk 1) i d)

theorem iget_disk (hr : s.iget dev i = .ok (ip, s')) : s'.disk = s.disk := by
  unfold iget at hr
  split at hr
  · cases hr
    rfl
  · split at hr
    · cases hr
    · cases hr
      rfl

theorem ialloc_disk (hr : s.ialloc dev type = .ok (ip, s')) :
    s'.disk = update s.disk dev (s'.disk dev) := by
  unfold ialloc at hr
  split at hr
  · cases hr
  · rw [iget_disk hr]
    simp only [setDisk, update_self]

/-- The disk holds the new inode, which has no blocks. -/
theorem Young.made_disk {s₁ s₂ t : Fs NINODE} (y : Young m sb s H L B type ip s₁)
    (halloc : s.ialloc 1 type = .ok (ip, s₁)) {L₂ : Finset (Fin NINODE)}
    (h₂ : Inv m.weak sb s₂ (ip ::ₘ H) L₂ noCredit B) (hk₂ : Keep (ip ::ₘ H) s₁ s₂)
    (hdisk₂ : s₂.disk = s₁.disk) (hv₂ : (s₂.icache ip).valid = true)
    (ht : t = (s₂.setCopy ip
      { (s₂.icache ip).d with major := major, minor := minor, nlink := 1 }).iupdate ip) :
    (t.icache ip).inum = (s₁.icache ip).inum ∧ ∃ d : Dinode, (∀ j, d.addrs j = 0) ∧
      t.disk = update s.disk 1 (setDinode (s.disk 1) (s₁.icache ip).inum d) := by
  have hself := Multiset.mem_cons_self ip H
  have hi₂ := (hk₂ ip hself).1
  subst ht
  refine ⟨?_, { (s₂.icache ip).d with major := major, minor := minor, nlink := 1 },
    fun j => ?_, ?_⟩
  · rw [setCopy_iupdate, put_icache, hi₂]
  · dsimp only
    rw [h₂.copy ip hself hv₂, onDisk, hdisk₂, y.disk, hi₂, dinode_setDinode]
    rfl
  · rw [setCopy_iupdate, put, h₂.dev ip hself, hdisk₂, ialloc_disk halloc, update_self, y.disk,
      update_idem, hi₂, setDinode_setDinode]

theorem createNew_quiet (h : Inv m sb s (dp ::ₘ H) (insert dp ∅) noCredit B) (hm : m ≠ .blocks)
    (hv : (s.icache dp).valid = true) (hB : 1 ≤ B) (ht : type ≠ 0) (hs : s.Spare H dp)
    (hr : s.createNew dp name type major minor = .ok (none, s')) : Restored sb s s' := by
  have hdp := Multiset.mem_cons_self dp H
  unfold createNew at hr
  rw [h.dev dp hdp] at hr
  obtain ⟨⟨ip, s₁⟩, halloc, hr⟩ := bind_eq_ok.mp hr
  have y : Young m sb s (dp ::ₘ H) (insert dp ∅) B type ip s₁ := (ialloc_meets h ht).of_ok halloc
  have hipdp := y.ne h hdp hv
  have hself := Multiset.mem_cons_self ip (dp ::ₘ H)
  have hdp' : dp ∈ ip ::ₘ dp ::ₘ H := Multiset.mem_cons_of_mem hdp
  obtain ⟨s₂, hlock, hr⟩ := bind_eq_ok.mp hr
  obtain ⟨h₂, hk₂, hdisk₂, -, hv₂⟩ := (ilock_meets y.inv hself).of_ok hlock
  have hmade := Young.made h (fun _ => hB) y ht h₂ hk₂ hdisk₂ hv₂ major minor
  dsimp only at hmade hr
  generalize ht' : (s₂.setCopy ip _).iupdate ip = t at hmade hr
  obtain ⟨hit, d, ha, hdisk⟩ := y.made_disk halloc h₂ hk₂ hdisk₂ hv₂ ht'.symm
  obtain ⟨hjt, hkept⟩ := hmade.keep dp hdp
  obtain ⟨hvd, hdt, -⟩ := hkept hv
  obtain ⟨⟨r₃, s₃⟩, hlink, hr⟩ := bind_eq_ok.mp hr
  obtain ⟨hfail, -⟩ := (hmade.dirlink_meets hipdp hvd name).of_ok hlink
  dsimp only at hfail hr
  by_cases hneg : r₃ < 0
  · rw [if_pos hneg] at hr
    have hdisk₃ := dirlink_quiet hmade.inv hm hdp' hvd hlink hneg
    obtain ⟨h₃, hk₃⟩ := hfail hneg
    obtain ⟨s₄, hput₄, hr⟩ := bind_eq_ok.mp hr
    obtain ⟨s₅, hput₅, hr⟩ := bind_eq_ok.mp hr
    cases hr
    obtain ⟨hi₃, hkept₃⟩ := hk₃ ip hself
    obtain ⟨hv₃, hd₃, -⟩ := hkept₃ hmade.valid
    obtain ⟨hvd₃, hdd₃, -⟩ := (hk₃ dp hdp').2 hvd
    have hond : s₃.onDisk ip = d := by rw [hd₃, onDisk, hdisk, update_self, hit, dinode_setDinode]
    obtain ⟨d', hd', hdisk₄⟩ := discard_quiet h₃ hv₃ (hmade.fresh hm) (by rwa [hond]) hput₄
    rw [hdisk₃, hdisk, update_self, update_idem, hi₃, hit, setDinode_setDinode] at hdisk₄
    obtain ⟨h₄, hk₄⟩ := (hmade.discard_meets hipdp h₃ hk₃).of_ok hput₄
    have hs₄ : s₄.Spare H dp := by
      obtain ⟨-, hdd₄, -⟩ := (hk₄ dp hdp).2 hvd₃
      refine hs.imp_right fun hn => ?_
      rwa [hdd₄, hdd₃, hdt]
    refine .inr ⟨(s₁.icache ip).inum, d', y.inv.range ip hself, y.dead, hd', ?_⟩
    rw [iunlockput_spare h₄ hm hs₄ hput₅, hdisk₄]
  · rw [if_neg hneg] at hr
    by_cases hdir : type = T_DIR
    · rw [if_pos hdir] at hr
      obtain ⟨s₄, -, hr⟩ := bind_eq_ok.mp hr
      obtain ⟨s₅, -, hr⟩ := bind_eq_ok.mp hr
      cases hr
    · rw [if_neg hdir] at hr
      obtain ⟨s₄, -, hr⟩ := bind_eq_ok.mp hr
      obtain ⟨s₅, -, hr⟩ := bind_eq_ok.mp hr
      cases hr

theorem createFound_quiet (h : Inv m sb s (ip ::ₘ H) ∅ noCredit B) (hm : m ≠ .blocks)
    (hs : s.Spare H ip) (hr : s.createFound ip type major minor = .ok (none, s')) :
    s'.disk = s.disk := by
  obtain ⟨s₁, hlock, hr⟩ := bind_eq_ok.mp hr
  obtain ⟨h₁, -, hdisk₁, -, hs₁⟩ := ilock_spare h hs hlock
  dsimp only at hr
  split at hr
  · obtain ⟨s₂, hput, hr⟩ := bind_eq_ok.mp hr
    cases hr
    exact (iunlockput_spare h₁ hm hs₁ hput).trans hdisk₁
  · cases hr

theorem Restored.after {s₀ : Fs NINODE} (h : Restored sb s s') (hdisk : s.disk = s₀.disk) :
    Restored sb s₀ s' := by
  unfold Restored at h
  rwa [hdisk] at h

section

variable (h : Inv m sb s H ∅ noCredit B) (hm : m ≠ .blocks) (hB : 1 ≤ B)
  (hcwd : ∀ ip, cwd = some ip → ip ∈ H) (ht : type ≠ 0)
include h hm hB hcwd ht

theorem create_quiet {canexist : Bool}
    (hr : s.create cwd path canexist type major minor = .ok (none, s')) : Restored sb s s' := by
  obtain ⟨⟨found, s₁⟩, hname, hr⟩ := bind_eq_ok.mp hr
  obtain ⟨hdisk₁, hspare⟩ := nameiFrom_quiet h hm hcwd hname
  obtain ⟨-, -, hsome⟩ := (nameiFrom_meets h true hcwd path).of_ok hname
  cases found with
  | none =>
    cases hr
    exact .inl hdisk₁
  | some dn =>
    obtain ⟨dp, name⟩ := dn
    have hdp := Multiset.mem_cons_self dp H
    obtain ⟨s₂, hlock, hr⟩ := bind_eq_ok.mp hr
    obtain ⟨h₂, hk₂, hdisk₂, hv₂, hs₂⟩ := ilock_spare (hsome dp name rfl) (hspare dp name rfl) hlock
    have hnew : s₂.createNew dp name type major minor = .ok (none, s') → Restored sb s s' :=
      fun hc => (createNew_quiet h₂ hm hv₂ hB ht hs₂ hc).after (hdisk₂.trans hdisk₁)
    by_cases hcan : canexist = true
    · rw [if_pos hcan] at hr
      obtain ⟨⟨entry, s₃⟩, hlook, hr⟩ := bind_eq_ok.mp hr
      obtain ⟨-, hnone, -⟩ := (dirlookup_meets h₂ hdp hv₂ name).of_ok hlook
      cases entry with
      | none =>
        rw [show s₃ = s₂ from hnone rfl] at hr
        exact hnew hr
      | some po =>
        obtain ⟨s₄, hput, hr⟩ := bind_eq_ok.mp hr
        obtain ⟨h₄, hdisk₄, hs₄⟩ := release_parent h₂ hm hv₂ hs₂ hlook hput
        have hdisk₅ := createFound_quiet h₄ hm hs₄ hr
        exact .inl (hdisk₅.trans (hdisk₄.trans (hdisk₂.trans hdisk₁)))
    · rw [if_neg hcan] at hr
      exact hnew hr

theorem sysMake_quiet (hr : s.sysMake cwd path type major minor = .ok (-1, s')) :
    Restored sb s s' := by
  obtain ⟨⟨made, s₁⟩, hcreate, hr⟩ := bind_eq_ok.mp hr
  cases made with
  | none =>
    cases hr
    exact create_quiet h hm hB hcwd ht hcreate
  | some ip =>
    obtain ⟨s₂, -, hr⟩ := bind_eq_ok.mp hr
    cases hr

end

/-- Files, directories, the inodes and blocks in use, and the pointers to inodes in memory are
the same. -/
structure Unaltered (sb : Superblock) (s s' : Fs NINODE) : Prop where
  free : ∀ i < sb.ninodes, (dinode (s.disk 1) i).type = 0 → (dinode (s'.disk 1) i).type = 0
  inode : ∀ i, Live sb (dinode (s.disk 1)) i → dinode (s'.disk 1) i = dinode (s.disk 1) i
  contents : ∀ i, Live sb (dinode (s.disk 1)) i →
    bytes (dinode (s'.disk 1) i) (s'.disk 1) = bytes (dinode (s.disk 1) i) (s.disk 1)
  entries : ∀ i, IsDir sb (s.disk 1) i → ∀ k,
    (dinode (s'.disk 1) i).ent (s'.disk 1) k = (dinode (s.disk 1) i).ent (s.disk 1) k
  bitmap : ∀ b, marked sb (s'.disk 1) b = marked sb (s.disk 1) b
  others : ∀ dev, dev ≠ 1 → s'.disk dev = s.disk dev
  ref : ∀ ip, (s'.icache ip).ref = (s.icache ip).ref
  pointee : ∀ ip, 0 < (s.icache ip).ref → (s'.icache ip).dev = (s.icache ip).dev ∧
    (s'.icache ip).inum = (s.icache ip).inum

theorem Unaltered.of_restored {c' : ℕ → ℕ} {B' : ℕ} (h : Inv m sb s H ∅ c B)
    (h' : Inv m sb s' H ∅ c' B') (hg : Grow H s s') (hr : Restored sb s s') :
    Unaltered sb s s' := by
  have hbytes : (∀ i, Live sb (dinode (s.disk 1)) i → dinode (s'.disk 1) i = dinode (s.disk 1) i ∧
      bytes (dinode (s'.disk 1) i) (s'.disk 1) = bytes (dinode (s.disk 1) i) (s.disk 1)) := by
    intro j hl
    rcases hr with hdisk | ⟨i, d, hi, hdead, -, hdisk⟩
    · rw [hdisk]
      exact ⟨rfl, rfl⟩
    · have hne : j ≠ i := by
        rintro rfl
        exact hl.2 hdead
      rw [hdisk, update_self, dinode_setDinode_of_ne hne]
      exact ⟨rfl, (setDinode_same h.healthy.volume hi hl d).2⟩
  refine ⟨?_, fun i hl => (hbytes i hl).1, fun i hl => (hbytes i hl).2, ?_, ?_, ?_, ?_, ?_⟩
  · intro j hj h0
    rcases hr with hdisk | ⟨i, d, -, -, hd, hdisk⟩
    · rwa [hdisk]
    · rw [hdisk, update_self]
      by_cases hji : j = i
      · rw [hji, dinode_setDinode, hd]
      · rwa [dinode_setDinode_of_ne hji]
  · intro j hdir k
    unfold Dinode.ent
    rw [(hbytes j hdir.live).2]
  · intro b
    rcases hr with hdisk | ⟨i, d, hi, -, -, hdisk⟩
    · rw [hdisk]
    · rw [hdisk, update_self]
      exact marked_setDinode hi _ _ b
  · intro dev hdev
    rcases hr with hdisk | ⟨i, d, -, -, -, hdisk⟩
    · rw [hdisk]
    · rw [hdisk, update_of_ne hdev]
  · intro ip
    rw [h.count ip, h'.count ip]
  · intro ip hpos
    have hip := h.mem_iff.mpr hpos
    exact ⟨(h'.dev ip hip).trans (h.dev ip hip).symm, (hg ip hip).1⟩

end Fs

namespace Files
open Transition

variable {NINODE NFILE NOFILE : ℕ} {P : Type} [DecidableEq P] [Fintype P] {sb : Superblock} {B : ℕ}
  {k k' : Files NINODE NFILE NOFILE P} {p : P}

/-- The calls that work on names alone -/
def NameCall : FileCall P → Prop
  | .link _ _ | .unlink _ | .mkdir _ | .mknod _ _ _ | .chdir _ => True
  | _ => False

/-- A call on names that returns -1 changes no file, directory or inode, takes no block and no
pointer, and leaves open files and current directories as they are. -/
theorem failed_name_call {c : FileCall P} (hc : NameCall c)
    (h : Fs.Inv .names sb k.fs k.pointers ∅ Fs.noCredit B) (hB : B < 65535)
    (hr : k.exec p c = .ok (-1, k')) :
    Fs.Unaltered sb k.fs k'.fs ∧ k'.file = k.file ∧ k'.task = k.task := by
  unfold exec at hr
  cases ht : k.task p with
  | none =>
    simp only [ht] at hr
    cases c <;> first | exact hc.elim | cases hr
  | some t =>
    simp only [ht] at hr
    have hcwd : ∀ ip, t.cwd = some ip → ip ∈ k.pointers := fun ip hi => mem_of_cwd ht hi
    have h₀ : Fs.Inv .names sb k.fs k.pointers ∅ Fs.noCredit 65534 := h.weaken (by omega)
    have hend : ∀ {s : Fs NINODE} {B' : ℕ}, Fs.Inv .names sb s k.pointers ∅ Fs.noCredit B' →
        Fs.Grow k.pointers k.fs s → Fs.Restored sb k.fs s →
        Fs.Unaltered sb k.fs (k.setFs s).fs ∧ (k.setFs s).file = k.file ∧
          (k.setFs s).task = k.task :=
      fun hs hg hq => ⟨.of_restored h hs hg hq, rfl, rfl⟩
    cases c with
    | link old new =>
      obtain ⟨⟨r, s⟩, hx, hr⟩ := bind_eq_ok.mp hr
      cases hr
      obtain ⟨hs, hg⟩ := (Fs.sysLink_meets h₀ (fun _ => by decide) hcwd old new).of_ok hx
      exact hend hs hg (.inl (Fs.sysLink_quiet h₀ (by decide) (by decide) hcwd hx))
    | unlink path =>
      obtain ⟨⟨r, s⟩, hx, hr⟩ := bind_eq_ok.mp hr
      cases hr
      obtain ⟨hs, hg⟩ := (Fs.sysUnlink_meets h₀ hcwd path (fun hm => by cases hm)).of_ok hx
      exact hend hs hg (.inl (Fs.sysUnlink_quiet h₀ (by decide) hcwd hx))
    | mkdir path =>
      obtain ⟨⟨r, s⟩, hx, hr⟩ := bind_eq_ok.mp hr
      cases hr
      obtain ⟨hs, hg⟩ :=
        (Fs.sysMake_meets h₀ (fun _ => by decide) hcwd path (by decide) 0 0).of_ok hx
      exact hend hs hg (Fs.sysMake_quiet h₀ (by decide) (by decide) hcwd (by decide) hx)
    | mknod path major minor =>
      obtain ⟨⟨r, s⟩, hx, hr⟩ := bind_eq_ok.mp hr
      cases hr
      obtain ⟨hs, hg⟩ :=
        (Fs.sysMake_meets h₀ (fun _ => by decide) hcwd path (by decide) major minor).of_ok hx
      exact hend hs hg (Fs.sysMake_quiet h₀ (by decide) (by decide) hcwd (by decide) hx)
    | chdir path =>
      obtain ⟨⟨r, s⟩, hx, hr⟩ := bind_eq_ok.mp hr
      cases r with
      | some ip => cases hr
      | none =>
        cases hr
        obtain ⟨hdisk, hs, hg⟩ := Fs.sysChdir_quiet h₀ (by decide) hcwd hx
        exact hend hs hg (.inl hdisk)
    | _ => exact hc.elim

/-- A second `mkdir` of the same name -/
theorem failed_mkdir : ∃ k k' : SmallFiles,
    Reach (fun k a k' => k.FewLinks smallSuper ∧ Step k a k') (boot fun _ => smallDisk rootDir) k ∧
    k.exec 0 (.mkdir [47, 97]) = .ok (-1, k') ∧ Fs.Unaltered smallSuper k.fs k'.fs ∧
    k'.file = k.file ∧ k'.task = k.task := by
  obtain ⟨k, hreach, hfew, hfail⟩ : ∃ k : SmallFiles,
      Reach (fun k a k' => k.FewLinks smallSuper ∧ Step k a k')
        (boot fun _ => smallDisk rootDir) k ∧
      k.FewLinks smallSuper ∧ (k.exec 0 (.mkdir [47, 97])).toOption.map Prod.fst = some (-1) := by
    refine exists_reach_of_script (fun k _ => decide (k.FewLinks smallSuper))
      (fun k a k' hok hs => ⟨of_decide_eq_true hok, hs⟩) [] [(0, .start), (0, .mkdir [47, 97])] ?_
    decide +kernel
  have h := ((sound_of_reach consistent_rootDir hreach).before fun _ => hfew).1
  cases hx : k.exec 0 (.mkdir [47, 97]) with
  | error e =>
    rw [hx] at hfail
    cases hfail
  | ok r =>
    obtain ⟨r, k'⟩ := r
    rw [hx] at hfail
    cases hfail
    exact ⟨k, k', hreach, hx,
      failed_name_call (c := .mkdir [47, 97]) trivial h (by decide) hx⟩

end Files

end Xv6Shed
