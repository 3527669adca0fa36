import Xv6Shed.Icache
import Xv6Shed.Image

/-!
# The inode cache agrees with the disk

An inode in the cache that is valid and not locked is what the disk has, as long as `ialloc` takes
no inode that is still in the cache.
-/

namespace Xv6Shed
open Function Transition

namespace Icache

variable {T : Type} {NINODE dev inum : ℕ} {s s' : Icache T NINODE} {t t' : T} {ip jp : Fin NINODE}
  {type : UInt16} {D E : Fin NINODE → Prop} {x : IPc NINODE} {a : ILabel T NINODE}

/-- `t` alone has the inode that it is making, and has not read it. -/
structure Young (s : Icache T NINODE) (t : T) (ip : Fin NINODE) (type : UInt16) : Prop where
  refs : s.refs ip = [t]
  valid : (s.fs.icache ip).valid = false
  ne_zero : type ≠ 0
  onDisk : (s.onDisk ip).type = type

/-- No slot is for this inode. -/
def Uncached (s : Icache T NINODE) (dev inum : ℕ) : Prop :=
  ∀ ip, s.refs ip ≠ [] → s.key ip ≠ (dev, inum)

/-- What process `t` relies on -/
def ProcOk (s : Icache T NINODE) (t : T) : IPc NINODE → Prop
  | .idle => True
  | .scan dev type ninodes _ => type ≠ 0 ∧ ninodes = s.ninodes dev
  | .found dev type inum => type ≠ 0 ∧ inum < s.ninodes dev ∧
      (dinode (s.fs.disk dev) inum).type = type ∧ s.Uncached dev inum
  | .lock ip want => t ∈ s.refs ip ∧ ∀ type, want = some type → s.Young t ip type
  | .load ip want => s.owner ip = some t ∧ ∀ type, want = some type → s.Young t ip type
  | .locked ip type => s.owner ip = some t ∧ (s.fs.icache ip).d.type = type
  | .update ip | .trunc ip | .free ip | .put ip => s.owner ip = some t

/-- The cache agrees with the disk but for the inodes `D`. -/
structure Inv (D : Fin NINODE → Prop) (s : Icache T NINODE) : Prop where
  count : ∀ ip, (s.fs.icache ip).ref = (s.refs ip).length
  unique : ∀ ip jp, s.refs ip ≠ [] → s.refs jp ≠ [] → s.key ip = s.key jp → ip = jp
  bound : ∀ ip, s.refs ip ≠ [] → (s.fs.icache ip).inum < s.ninodes (s.fs.icache ip).dev
  busy : ∀ ip, (s.fs.icache ip).busy = (s.owner ip).isSome
  owner : ∀ ip t, s.owner ip = some t → t ∈ s.refs ip
  synced : ∀ ip, s.refs ip ≠ [] → (s.fs.icache ip).valid = true → ¬D ip →
    (s.fs.icache ip).d = s.onDisk ip
  proc : ∀ t, s.ProcOk t (s.pc t)
  one : ∀ t t' dev inum type type', s.pc t = .found dev type inum →
    s.pc t' = .found dev type' inum → t = t'

/-- The inodes that have been changed and not written -/
def Dirty (s : Icache T NINODE) (ip : Fin NINODE) : Prop :=
  (∃ t, s.pc t = .update ip) ∨ s.unwritten ip = true

theorem inv_start (disk : ℕ → Disk) : Inv D (start disk : Icache T NINODE) where
  count _ := rfl
  unique _ _ h := absurd rfl h
  bound _ h := absurd rfl h
  busy _ := rfl
  owner _ _ h := nomatch h
  synced _ h := absurd rfl h
  proc _ := trivial
  one _ _ _ _ _ _ h := nomatch h

theorem Inv.mono (h : Inv D s) (hle : ∀ ip, D ip → E ip) : Inv E s :=
  { h with synced := fun ip hr hv hE => h.synced ip hr hv fun hD => hE (hle ip hD) }

theorem Inv.record (h : Inv D s) (w : Fin NINODE → Bool) : Inv D { s with unwritten := w } := by
  refine ⟨h.count, h.unique, h.bound, h.busy, h.owner, h.synced, fun t => ?_, h.one⟩
  have hy : ∀ {ip type}, s.Young t ip type → Young { s with unwritten := w } t ip type :=
    fun hy => ⟨hy.refs, hy.valid, hy.ne_zero, hy.onDisk⟩
  have hp := h.proc t
  change ProcOk _ t (s.pc t)
  cases hpc : s.pc t with
  | lock ip want | load ip want =>
    rw [hpc] at hp
    exact ⟨hp.1, fun type hw => hy (hp.2 type hw)⟩
  | idle | scan | found | locked | update | trunc | free | put =>
    rw [hpc] at hp
    exact hp

/-- The slots that `t` refers to are left to it. -/
structure Leaves (s s' : Icache T NINODE) (t : T) : Prop where
  pc : s'.pc t = s.pc t
  ninodes : ∀ dev, s'.ninodes dev = s.ninodes dev
  disk : ∀ dev inum, s.Making t dev inum →
    (dinode (s'.fs.disk dev) inum).type = (dinode (s.fs.disk dev) inum).type
  refs : ∀ ip, t ∈ s.refs ip → t ∈ s'.refs ip
  key : ∀ ip, t ∈ s.refs ip → s'.key ip = s.key ip
  owner : ∀ ip, s.owner ip = some t → s'.owner ip = some t
  copy : ∀ ip, s.owner ip = some t → (s'.fs.icache ip).d.type = (s.fs.icache ip).d.type
  young : ∀ ip, s.refs ip = [t] → s.Making t (s.key ip).1 (s.key ip).2 →
    s'.refs ip = [t] ∧ (s'.fs.icache ip).valid = (s.fs.icache ip).valid
  uncached : ∀ dev type inum, s.pc t = .found dev type inum → s.Uncached dev inum →
    s'.Uncached dev inum

theorem Leaves.youngOf (h : Leaves s s' t) (hy : s.Young t ip type)
    (hm : s.Making t (s.key ip).1 (s.key ip).2) : s'.Young t ip type := by
  obtain ⟨hrefs, hvalid⟩ := h.young ip hy.refs hm
  have hkey := h.key ip (by rw [hy.refs]; exact List.mem_singleton_self t)
  refine ⟨hrefs, hvalid.trans hy.valid, hy.ne_zero, ?_⟩
  have hdisk := h.disk _ _ hm
  have hon : s'.onDisk ip = dinode (s'.fs.disk (s.key ip).1) (s.key ip).2 := by
    rw [← hkey]
    rfl
  rw [hon, hdisk]
  exact hy.onDisk

theorem Leaves.procOk (h : Leaves s s' t) (hp : s.ProcOk t (s.pc t)) : s'.ProcOk t (s'.pc t) := by
  rw [h.pc]
  cases hpc : s.pc t with
  | idle => trivial
  | scan dev type n inum =>
    rw [hpc] at hp
    exact ⟨hp.1, hp.2.trans (h.ninodes dev).symm⟩
  | found dev type inum =>
    rw [hpc] at hp
    obtain ⟨hne, hlt, htype, hunc⟩ := hp
    have hm : s.Making t dev inum := by
      unfold Making
      rw [hpc]
      exact ⟨rfl, rfl⟩
    refine ⟨hne, ?_, (h.disk dev inum hm).trans htype, h.uncached dev type inum hpc hunc⟩
    rwa [h.ninodes]
  | lock ip want =>
    rw [hpc] at hp
    refine ⟨h.refs ip hp.1, fun type hw => h.youngOf (hp.2 type hw) ?_⟩
    subst hw
    unfold Making
    rw [hpc]
  | load ip want =>
    rw [hpc] at hp
    refine ⟨h.owner ip hp.1, fun type hw => h.youngOf (hp.2 type hw) ?_⟩
    subst hw
    unfold Making
    rw [hpc]
  | locked ip type =>
    rw [hpc] at hp
    exact ⟨h.owner ip hp.1, (h.copy ip hp.1).trans hp.2⟩
  | update ip | trunc ip | free ip | put ip =>
    rw [hpc] at hp
    exact h.owner ip hp

theorem not_making_of_idle (h : s.pc t = .idle) : ¬s.Making t dev inum := by
  unfold Making
  rw [h]
  exact id

theorem not_making_of_mem (ht : s.pc t = .idle) (hmem : t ∈ s.refs ip) (h : s.refs ip = [t']) :
    ¬s.Making t' dev inum := by
  rw [h, List.mem_singleton] at hmem
  exact not_making_of_idle (hmem ▸ ht)

theorem procs_of_leaves (hidle : s.pc t = .idle) (hpc : s'.pc = s.pc)
    (hproc : ∀ t, s.ProcOk t (s.pc t)) (h : ∀ t', t' ≠ t → Leaves s s' t') (t' : T) :
    s'.ProcOk t' (s'.pc t') := by
  by_cases htt : t' = t
  · rw [htt, hpc, hidle]
    trivial
  · exact (h t' htt).procOk (hproc t')

def setSlot (ip : Fin NINODE) (x : Inode) (refs : List T) (owner : Option T)
    (s : Icache T NINODE) : Icache T NINODE :=
  { s with
    fs := s.fs.setInode ip x
    refs := update s.refs ip refs
    owner := update s.owner ip owner }

/-- Process `t` changes a slot. A slot in use stays one for its inode, and a free slot is taken for
an inode that has none and that no process is making. -/
theorem Inv.setSlot (h : Inv D s) (hidle : s.pc t = .idle) {x : Inode} {r : List T} {o : Option T}
    (hcount : x.ref = r.length) (hbusy : x.busy = o.isSome) (hown : ∀ t', o = some t' → t' ∈ r)
    (hothers : ∀ t', t' ≠ t → (t' ∈ s.refs ip → t' ∈ r) ∧
      (s.owner ip = some t' → o = some t' ∧ x.d.type = (s.fs.icache ip).d.type))
    (hused : s.refs ip ≠ [] → (x.dev, x.inum) = s.key ip ∧
      ∀ t', s.refs ip = [t'] → ¬s.Making t' (s.key ip).1 (s.key ip).2)
    (hfresh : s.refs ip = [] → s.Uncached x.dev x.inum ∧ x.inum < s.ninodes x.dev ∧
      ∀ t', ¬s.Making t' x.dev x.inum)
    (hsynced : r ≠ [] → x.valid = true → ¬E ip → x.d = dinode (s.fs.disk x.dev) x.inum)
    (hE : ∀ jp, jp ≠ ip → D jp → E jp) : Inv E (s.setSlot ip x r o) := by
  generalize hs' : s.setSlot ip x r o = s'
  have hself : s'.fs.icache ip = x ∧ s'.refs ip = r ∧ s'.owner ip = o := by
    rw [← hs']
    exact ⟨update_self .., update_self .., update_self ..⟩
  have hother : ∀ {jp}, jp ≠ ip → s'.fs.icache jp = s.fs.icache jp ∧ s'.refs jp = s.refs jp ∧
      s'.owner jp = s.owner jp := by
    intro jp hj
    rw [← hs']
    exact ⟨update_of_ne hj .., update_of_ne hj .., update_of_ne hj ..⟩
  have hpc : s'.pc = s.pc := by rw [← hs']; rfl
  have hdisk : s'.fs.disk = s.fs.disk := by rw [← hs']; rfl
  have hnin : ∀ dev, s'.ninodes dev = s.ninodes dev := fun dev => by rw [ninodes, hdisk]; rfl
  have hkey : s'.key ip = (x.dev, x.inum) := by rw [key, hself.1]
  have hkeys : ∀ {jp}, jp ≠ ip → s'.key jp = s.key jp := fun hj => by rw [key, (hother hj).1]; rfl
  -- no other slot in use is for the inode of `ip`
  have hne : ∀ {jp}, jp ≠ ip → s.refs jp ≠ [] → s'.key ip ≠ s.key jp := by
    intro jp hj hjp
    rw [hkey]
    by_cases hr : s.refs ip = []
    · exact fun he => (hfresh hr).1 jp hjp he.symm
    · rw [(hused hr).1]
      exact fun he => hj (h.unique jp ip hjp hr he.symm)
  refine ⟨fun jp => ?_, fun jp kp hjp hkp he => ?_, fun jp hjp => ?_, fun jp => ?_,
    fun jp t' hjp => ?_, fun jp hjp hv hn => ?_,
    procs_of_leaves hidle hpc h.proc fun t' htt => ?_, hpc ▸ h.one⟩
  · by_cases hj : jp = ip
    · rw [hj, hself.1, hself.2.1, hcount]
    · rw [(hother hj).1, (hother hj).2.1, h.count]
  · by_cases hj : jp = ip <;> by_cases hk : kp = ip
    · rw [hj, hk]
    · rw [hj, hkeys hk] at he
      rw [(hother hk).2.1] at hkp
      exact absurd he (hne hk hkp)
    · rw [hk, hkeys hj] at he
      rw [(hother hj).2.1] at hjp
      exact absurd he.symm (hne hj hjp)
    · rw [hkeys hj, hkeys hk] at he
      rw [(hother hj).2.1] at hjp
      rw [(hother hk).2.1] at hkp
      exact h.unique jp kp hjp hkp he
  · rw [hnin]
    by_cases hj : jp = ip
    · rw [hj, hself.1]
      by_cases hr : s.refs ip = []
      · exact (hfresh hr).2.1
      · obtain ⟨hdev, hinum⟩ := Prod.mk.inj (hused hr).1
        rw [hdev, hinum]
        exact h.bound ip hr
    · rw [(hother hj).2.1] at hjp
      rw [(hother hj).1]
      exact h.bound jp hjp
  · by_cases hj : jp = ip
    · rw [hj, hself.1, hself.2.2, hbusy]
    · rw [(hother hj).1, (hother hj).2.2, h.busy]
  · by_cases hj : jp = ip
    · rw [hj, hself.2.2] at hjp
      rw [hj, hself.2.1]
      exact hown t' hjp
    · rw [(hother hj).2.2] at hjp
      rw [(hother hj).2.1]
      exact h.owner jp t' hjp
  · rw [onDisk, hdisk]
    by_cases hj : jp = ip
    · rw [hj, hself.2.1] at hjp
      rw [hj, hself.1] at hv
      rw [hj] at hn ⊢
      rw [hself.1]
      exact hsynced hjp hv hn
    · rw [(hother hj).1] at hv ⊢
      rw [(hother hj).2.1] at hjp
      exact h.synced jp hjp hv fun hD => hn (hE jp hj hD)
  · obtain ⟨hmem, hkeep⟩ := hothers t' htt
    refine ⟨congrFun hpc t', hnin, fun _ _ _ => by rw [hdisk], fun jp hjp => ?_, fun jp hjp => ?_,
      fun jp hjp => ?_, fun jp hjp => ?_, fun jp hjp hm => ?_,
      fun dev type inum hf hunc jp hjp => ?_⟩
    · by_cases hj : jp = ip
      · rw [hj, hself.2.1]
        exact hmem (hj ▸ hjp)
      · rwa [(hother hj).2.1]
    · by_cases hj : jp = ip
      · rw [hj, hkey, (hused (List.ne_nil_of_mem (hj ▸ hjp))).1]
      · exact hkeys hj
    · by_cases hj : jp = ip
      · rw [hj, hself.2.2]
        exact (hkeep (hj ▸ hjp)).1
      · rwa [(hother hj).2.2]
    · by_cases hj : jp = ip
      · rw [hj, hself.1]
        exact (hkeep (hj ▸ hjp)).2
      · rw [(hother hj).1]
    · have hj : jp ≠ ip := by
        rintro rfl
        exact (hused (by rw [hjp]; exact List.cons_ne_nil _ _)).2 t' hjp hm
      rw [(hother hj).1, (hother hj).2.1]
      exact ⟨hjp, rfl⟩
    · by_cases hj : jp = ip
      · rw [hj, hkey]
        by_cases hr : s.refs ip = []
        · intro he
          refine (hfresh hr).2.2 t' ?_
          unfold Making
          rw [hf]
          exact Prod.mk.inj he.symm
        · rw [(hused hr).1]
          exact hunc ip hr
      · rw [(hother hj).2.1] at hjp
        rw [hkeys hj]
        exact hunc jp hjp

theorem Inv.owner_none (h : Inv D s) (hbusy : (s.fs.icache ip).busy = false) :
    s.owner ip = none := by
  rw [h.busy ip] at hbusy
  exact Option.isSome_eq_false_iff.mp hbusy |> Option.isNone_iff_eq_none.mp

section

variable (h : Inv D s) (hidle : s.pc t = .idle)
include h hidle

theorem Inv.setBusy (hmem : t ∈ s.refs ip) (hbusy : (s.fs.icache ip).busy = false) :
    Inv D (s.setBusy t ip) := by
  have heq : s.setBusy t ip =
      s.setSlot ip { s.fs.icache ip with busy := true } (s.refs ip) (some t) := by
    simp only [Icache.setBusy, Icache.setSlot, update_eq_self]
  rw [heq]
  refine h.setSlot hidle (h.count ip) rfl ?_ ?_
    (fun _ => ⟨rfl, fun _ => not_making_of_mem hidle hmem⟩) (absurd · (List.ne_nil_of_mem hmem))
    ?_ fun _ _ => id
  · intro t' ht'
    cases ht'
    exact hmem
  · intro t' _
    rw [h.owner_none hbusy]
    exact ⟨id, nofun⟩
  · intro hr hv hD
    exact h.synced ip hr hv hD

theorem Inv.clearBusy (hown : s.owner ip = some t) : Inv D (s.clearBusy ip) := by
  have heq : s.clearBusy ip =
      s.setSlot ip { s.fs.icache ip with busy := false } (s.refs ip) none := by
    simp only [Icache.clearBusy, Icache.setSlot, update_eq_self]
  have hmem := h.owner ip t hown
  rw [heq]
  refine h.setSlot hidle (h.count ip) rfl nofun ?_
    (fun _ => ⟨rfl, fun _ => not_making_of_mem hidle hmem⟩) (absurd · (List.ne_nil_of_mem hmem))
    ?_ fun _ _ => id
  · intro t' hne
    rw [hown]
    exact ⟨id, fun ht' => absurd (Option.some_inj.mp ht').symm hne⟩
  · intro hr hv hD
    exact h.synced ip hr hv hD

theorem Inv.drop [DecidableEq T] (hmem : t ∈ s.refs ip) (hown : s.owner ip ≠ some t) :
    Inv D (s.drop t ip) := by
  have heq : s.drop t ip = s.setSlot ip { s.fs.icache ip with ref := (s.fs.icache ip).ref - 1 }
      ((s.refs ip).erase t) (s.owner ip) := by
    simp only [Icache.drop, Icache.setSlot, update_eq_self]
  have hne : s.refs ip ≠ [] := List.ne_nil_of_mem hmem
  have hpos : 0 < (s.refs ip).length := List.length_pos_iff.mpr hne
  have hkeep : ∀ t', t' ≠ t → t' ∈ s.refs ip → t' ∈ (s.refs ip).erase t :=
    fun t' htt ht' => (List.mem_erase_of_ne htt).mpr ht'
  rw [heq]
  refine h.setSlot hidle ?_ (h.busy ip) ?_ ?_
    (fun _ => ⟨rfl, fun _ => not_making_of_mem hidle hmem⟩) (absurd · hne) ?_ fun _ _ => id
  · dsimp only
    rw [h.count, List.length_erase_of_mem hmem]
    omega
  · intro t' ht'
    exact hkeep t' (fun he => hown (he ▸ ht')) (h.owner ip t' ht')
  · intro t' htt
    exact ⟨hkeep t' htt, fun ht' => ⟨ht', rfl⟩⟩
  · intro _ hv hD
    exact h.synced ip hne hv hD

theorem Inv.setCopy (hown : s.owner ip = some t) (valid : Bool) (d : Dinode)
    (hd : ¬E ip → valid = true → d = s.onDisk ip) (hE : ∀ jp, jp ≠ ip → D jp → E jp) :
    Inv E { s with fs := s.fs.setInode ip { s.fs.icache ip with valid := valid, d := d } } := by
  have hmem := h.owner ip t hown
  have heq : { s with fs := s.fs.setInode ip { s.fs.icache ip with valid := valid, d := d } } =
      s.setSlot ip { s.fs.icache ip with valid := valid, d := d } (s.refs ip) (s.owner ip) := by
    simp only [Icache.setSlot, update_eq_self]
  rw [heq]
  refine h.setSlot hidle (h.count ip) (h.busy ip) (h.owner ip) ?_
    (fun _ => ⟨rfl, fun _ => not_making_of_mem hidle hmem⟩) (absurd · (List.ne_nil_of_mem hmem))
    ?_ hE
  · intro t' htt
    refine ⟨id, fun ht' => ?_⟩
    rw [hown] at ht'
    exact absurd (Option.some_inj.mp ht').symm htt
  · intro _ hv hEi
    exact hd hEi hv

end

/-- One more reference of `t` -/
def addRef (t : T) (ip : Fin NINODE) (s : Icache T NINODE) : Icache T NINODE :=
  s.setSlot ip { s.fs.icache ip with ref := (s.fs.icache ip).ref + 1 } (t :: s.refs ip)
    (s.owner ip)

/-- `t` takes the slot for an inode. -/
def take (t : T) (dev inum : ℕ) (ip : Fin NINODE) (s : Icache T NINODE) : Icache T NINODE :=
  s.setSlot ip { s.fs.icache ip with
    dev := dev, inum := inum, ref := 1, busy := false, valid := false } [t] (s.owner ip)

theorem Inv.addRef (h : Inv D s) (hidle : s.pc t = .idle) (hne : s.refs ip ≠ [])
    (hyoung : ∀ t', s.refs ip = [t'] → ¬s.Making t' (s.key ip).1 (s.key ip).2) :
    Inv D (s.addRef t ip) := by
  refine h.setSlot hidle ?_ (h.busy ip) ?_ ?_ (fun _ => ⟨rfl, hyoung⟩) (absurd · hne) ?_
    fun _ _ => id
  · dsimp only
    rw [h.count, List.length_cons]
    omega
  · exact fun t' ht' => List.mem_cons_of_mem t (h.owner ip t' ht')
  · exact fun t' _ => ⟨List.mem_cons_of_mem t, fun ht' => ⟨ht', rfl⟩⟩
  · intro _ hv hD
    exact h.synced ip hne hv hD

theorem Inv.take (h : Inv D s) (hidle : s.pc t = .idle) (hfree : s.refs ip = [])
    (hunc : s.Uncached dev inum) (hlt : inum < s.ninodes dev)
    (hmaking : ∀ t', ¬s.Making t' dev inum) : Inv D (s.take t dev inum ip) := by
  have hnone : ∀ t', s.owner ip ≠ some t' := by
    intro t' ht'
    have := h.owner ip t' ht'
    rw [hfree] at this
    exact List.not_mem_nil this
  refine h.setSlot hidle rfl ?_ (fun t' ht' => absurd ht' (hnone t')) ?_ (absurd hfree)
    (fun _ => ⟨hunc, hlt, hmaking⟩) nofun fun _ _ => id
  · rw [Option.eq_none_iff_forall_ne_some.mpr hnone]
    rfl
  · intro t' _
    rw [hfree]
    exact ⟨(absurd · List.not_mem_nil), fun ht' => absurd ht' (hnone t')⟩

theorem idup_eq_addRef (t : T) (ip : Fin NINODE) (s : Icache T NINODE) :
    { s with fs := s.fs.idup ip, refs := update s.refs ip (t :: s.refs ip) } = s.addRef t ip := by
  simp only [addRef, setSlot, update_eq_self]
  rfl

theorem iget_pc (hs : s.iget t dev inum = some (ip, s')) : s'.pc = s.pc := by
  unfold Icache.iget at hs
  split at hs <;> cases hs
  rfl

theorem iget_unwritten (hs : s.iget t dev inum = some (ip, s')) : s'.unwritten = s.unwritten := by
  unfold Icache.iget at hs
  split at hs <;> cases hs
  rfl

theorem iget_cases (hcount : ∀ jp, (s.fs.icache jp).ref = (s.refs jp).length)
    (hs : s.iget t dev inum = some (ip, s')) :
    (s.refs ip ≠ [] ∧ s.key ip = (dev, inum) ∧ s' = s.addRef t ip) ∨
    s.refs ip = [] ∧ s.Uncached dev inum ∧ s' = s.take t dev inum ip := by
  have hpos : ∀ jp, 0 < (s.fs.icache jp).ref ↔ s.refs jp ≠ [] := by
    intro jp
    rw [hcount, Int.natCast_pos, List.length_pos_iff]
  unfold Icache.iget Fs.iget at hs
  cases hhit : (List.finRange NINODE).find? fun ip => 0 < (s.fs.icache ip).ref ∧
      (s.fs.icache ip).dev = dev ∧ (s.fs.icache ip).inum = inum with
  | some jp =>
    simp only [hhit, pure, Except.pure, Option.some_inj, Prod.mk.injEq] at hs
    obtain ⟨rfl, rfl⟩ := hs
    obtain ⟨href, hdev, hinum⟩ : 0 < (s.fs.icache jp).ref ∧ (s.fs.icache jp).dev = dev ∧
        (s.fs.icache jp).inum = inum := by
      simpa using List.find?_some hhit
    exact .inl ⟨(hpos jp).mp href, by rw [key, hdev, hinum], idup_eq_addRef t jp s⟩
  | none =>
    have hunc : s.Uncached dev inum := by
      intro jp hjp hkey
      have hno := List.find?_eq_none.mp hhit jp (List.mem_finRange jp)
      simp only [decide_eq_true_eq] at hno
      exact hno ⟨(hpos jp).mpr hjp, (Prod.mk.inj hkey).1, (Prod.mk.inj hkey).2⟩
    cases hfree : (List.finRange NINODE).find? fun ip => (s.fs.icache ip).ref = 0 with
    | none =>
      simp only [hhit, hfree] at hs
      cases hs
    | some jp =>
      simp only [hhit, hfree, pure, Except.pure, Option.some_inj, Prod.mk.injEq] at hs
      obtain ⟨rfl, rfl⟩ := hs
      have href : (s.fs.icache jp).ref = 0 := by simpa using List.find?_some hfree
      have hnil : s.refs jp = [] := by
        by_contra hne
        exact absurd ((hpos jp).mpr hne) (by omega)
      refine .inr ⟨hnil, hunc, ?_⟩
      simp only [take, setSlot, hnil, update_eq_self]

theorem Inv.iget (h : Inv D s) (hidle : s.pc t = .idle) (hlt : inum < s.ninodes dev)
    (hmaking : ∀ t', ¬s.Making t' dev inum) (hs : s.iget t dev inum = some (ip, s')) :
    Inv D s' ∧ s'.pc = s.pc ∧ s'.fs.disk = s.fs.disk ∧ s'.key ip = (dev, inum) ∧
      (s.Uncached dev inum → s'.refs ip = [t] ∧ (s'.fs.icache ip).valid = false) := by
  rcases iget_cases h.count hs with ⟨hne, hkey, rfl⟩ | ⟨hnil, hunc, rfl⟩
  · refine ⟨h.addRef hidle hne fun t' _ => hkey ▸ hmaking t', rfl, rfl, ?_, fun hunc => ?_⟩
    · rw [← hkey]
      simp [key, Icache.addRef, Icache.setSlot]
    · exact absurd hkey (hunc ip hne)
  · refine ⟨h.take hidle hnil hunc hlt hmaking, rfl, rfl, ?_,
      fun _ => ⟨update_self .., ?_⟩⟩
    · simp [key, Icache.take, Icache.setSlot]
    · simp [Icache.take, Icache.setSlot]

theorem Inv.making (h : Inv D s) (hm : s.Making t dev inum) :
    inum < s.ninodes dev ∧ (dinode (s.fs.disk dev) inum).type ≠ 0 ∧
      (s.Uncached dev inum ∨ ∃ ip, s.refs ip = [t] ∧ s.key ip = (dev, inum)) := by
  have hp := h.proc t
  have hyoung : ∀ ip type, s.Young t ip type → s.key ip = (dev, inum) → inum < s.ninodes dev ∧
      (dinode (s.fs.disk dev) inum).type ≠ 0 ∧
        (s.Uncached dev inum ∨ ∃ ip, s.refs ip = [t] ∧ s.key ip = (dev, inum)) := by
    intro ip type hy hkey
    obtain ⟨hdev, hinum⟩ := Prod.mk.inj hkey
    have hb := h.bound ip (by rw [hy.refs]; exact List.cons_ne_nil _ _)
    have hon := hy.onDisk
    rw [onDisk, hdev, hinum] at hon
    rw [hdev, hinum] at hb
    exact ⟨hb, hon ▸ hy.ne_zero, .inr ⟨ip, hy.refs, hkey⟩⟩
  unfold Making at hm
  split at hm
  · next hpc =>
    rw [hpc] at hp
    obtain ⟨hne, hlt, htype, hunc⟩ := hp
    obtain ⟨rfl, rfl⟩ := hm
    exact ⟨hlt, htype ▸ hne, .inl hunc⟩
  · next hpc =>
    rw [hpc] at hp
    exact hyoung _ _ (hp.2 _ rfl) hm
  · next hpc =>
    rw [hpc] at hp
    exact hyoung _ _ (hp.2 _ rfl) hm
  · exact hm.elim

theorem Inv.setDisk (h : Inv D s) {disk : ℕ → Disk}
    (hsuper : ∀ dev, readsb (disk dev) = readsb (s.fs.disk dev))
    (hsynced : ∀ ip, s.refs ip ≠ [] → (s.fs.icache ip).valid = true → ¬E ip →
      (s.fs.icache ip).d = dinode (disk (s.fs.icache ip).dev) (s.fs.icache ip).inum)
    (hmaking : ∀ t dev inum, s.Making t dev inum →
      dinode (disk dev) inum = dinode (s.fs.disk dev) inum) :
    Inv E { s with fs := { s.fs with disk := disk } } := by
  have hnin : ∀ dev, ninodes { s with fs := { s.fs with disk := disk } } dev = s.ninodes dev :=
    fun dev => congrArg Superblock.ninodes (hsuper dev)
  refine ⟨h.count, h.unique, fun ip hip => ?_, h.busy, h.owner, hsynced, fun t => ?_, h.one⟩
  · rw [hnin]
    exact h.bound ip hip
  · have hl : Leaves s { s with fs := { s.fs with disk := disk } } t :=
      ⟨rfl, hnin, fun dev inum hm => congrArg Dinode.type (hmaking t dev inum hm), fun _ => id,
        fun _ _ => rfl, fun _ => id, fun _ _ => rfl, fun _ hr _ => ⟨hr, rfl⟩, fun _ _ _ _ => id⟩
    exact hl.procOk (h.proc t)

theorem readsb_setDinode (disk : Disk) (i : ℕ) (d : Dinode) :
    readsb (setDinode disk i d) = readsb disk :=
  readsb_update_of_ne (by unfold IBLOCK; omega)

theorem readsb_update (disk : ℕ → Disk) (dev i : ℕ) (d : Dinode) (dev' : ℕ) :
    readsb (update disk dev (setDinode (disk dev) i d) dev') = readsb (disk dev') := by
  by_cases he : dev' = dev
  · rw [he, update_self, readsb_setDinode]
  · rw [update_of_ne he]

theorem dinode_update_setDinode (disk : ℕ → Disk) (d : Dinode) {dev' inum' : ℕ}
    (h : (dev', inum') ≠ (dev, inum)) :
    dinode (update disk dev (setDinode (disk dev) inum d) dev') inum' =
    dinode (disk dev') inum' := by
  by_cases he : dev' = dev
  · rw [he, update_self]
    exact dinode_setDinode_of_ne fun hi => h (by rw [he, hi])
  · rw [update_of_ne he]

theorem Inv.iupdate (h : Inv D s) (hidle : s.pc t = .idle) (hmem : t ∈ s.refs ip) :
    Inv (fun jp => jp ≠ ip ∧ D jp) (s.iupdate ip) := by
  have hne : s.refs ip ≠ [] := List.ne_nil_of_mem hmem
  refine Inv.record (h.setDisk (fun dev => readsb_update ..) (fun jp hjp hv hD => ?_)
    fun t' dev inum hm => ?_) _
  · by_cases hj : jp = ip
    · rw [hj, update_self, dinode_setDinode]
    · have hk : s.key jp ≠ s.key ip := fun he => hj (h.unique jp ip hjp hne he)
      rw [dinode_update_setDinode _ _ hk]
      exact h.synced jp hjp hv fun hDj => hD ⟨hj, hDj⟩
  · refine dinode_update_setDinode _ _ fun he => ?_
    rcases (h.making hm).2.2 with hunc | ⟨jp, hr, hkey⟩
    · exact hunc ip hne he.symm
    · have hj : jp = ip :=
        h.unique jp ip (by rw [hr]; exact List.cons_ne_nil _ _) hne (hkey.trans he)
      exact not_making_of_mem hidle hmem (hj ▸ hr) hm

theorem Inv.mark (h : Inv D s) (hfree : (dinode (s.fs.disk dev) inum).type = 0)
    (hunc : s.Uncached dev inum) (d : Dinode) :
    Inv D { s with fs := s.fs.setDisk dev (setDinode (s.fs.disk dev) inum d) } := by
  refine h.setDisk (fun dev => readsb_update ..) (fun jp hjp hv hD => ?_) fun t' dev' inum' hm => ?_
  · rw [dinode_update_setDinode _ _ (hunc jp hjp)]
    exact h.synced jp hjp hv hD
  · refine dinode_update_setDinode _ _ fun he => ?_
    obtain ⟨rfl, rfl⟩ := Prod.mk.inj he
    exact (h.making hm).2.1 hfree

theorem Inv.other (h : Inv D s) {disk : Disk} (hsuper : readsb disk = readsb (s.fs.disk dev))
    (hinodes : ∀ i < s.ninodes dev, dinode disk i = dinode (s.fs.disk dev) i) :
    Inv D { s with fs := s.fs.setDisk dev disk } := by
  have hdisk : ∀ dev' i, i < s.ninodes dev' →
      dinode (update s.fs.disk dev disk dev') i = dinode (s.fs.disk dev') i := by
    intro dev' i hi
    by_cases he : dev' = dev
    · rw [he] at hi ⊢
      rw [update_self]
      exact hinodes i hi
    · rw [update_of_ne he]
  refine h.setDisk (fun dev' => ?_) (fun jp hjp hv hD => ?_) fun t' dev' inum' hm => ?_
  · by_cases he : dev' = dev
    · rw [he, update_self, hsuper]
    · rw [update_of_ne he]
  · rw [hdisk _ _ (h.bound jp hjp)]
    exact h.synced jp hjp hv hD
  · exact hdisk _ _ (h.making hm).1

variable [DecidableEq T]

theorem ProcOk.setPc {y : IPc NINODE} (h : s.ProcOk t' y) : (s.setPc t x).ProcOk t' y := by
  have hy : ∀ {ip type}, s.Young t' ip type → (s.setPc t x).Young t' ip type :=
    fun hy => ⟨hy.refs, hy.valid, hy.ne_zero, hy.onDisk⟩
  cases y with
  | lock ip want | load ip want => exact ⟨h.1, fun type hw => hy (h.2 type hw)⟩
  | idle | scan | found | locked | update | trunc | free | put => exact h

theorem Inv.setPc (h : Inv D s) (hx : s.ProcOk t x)
    (hone : ∀ dev type inum, x = .found dev type inum → ∀ t' type', t' ≠ t →
      s.pc t' ≠ .found dev type' inum) : Inv D (s.setPc t x) := by
  have hpc : ∀ {t'}, t' ≠ t → (s.setPc t x).pc t' = s.pc t' := fun ht => update_of_ne ht ..
  have hself : (s.setPc t x).pc t = x := update_self ..
  refine ⟨h.count, h.unique, h.bound, h.busy, h.owner, h.synced, fun t' => ?_,
    fun t₁ t₂ dev inum type type' h₁ h₂ => ?_⟩
  · by_cases ht : t' = t
    · rw [ht, hself]
      exact hx.setPc
    · rw [hpc ht]
      exact (h.proc t').setPc
  · by_cases ht₁ : t₁ = t <;> by_cases ht₂ : t₂ = t
    · rw [ht₁, ht₂]
    · rw [ht₁, hself] at h₁
      rw [hpc ht₂] at h₂
      exact absurd h₂ (hone dev type inum h₁ t₂ type' ht₂)
    · rw [ht₂, hself] at h₂
      rw [hpc ht₁] at h₁
      exact absurd h₁ (hone dev type' inum h₂ t₁ type ht₁)
    · rw [hpc ht₁] at h₁
      rw [hpc ht₂] at h₂
      exact h.one t₁ t₂ dev inum type type' h₁ h₂

theorem Inv.goto (h : Inv D s) (hx : s.ProcOk t x)
    (hone : ∀ dev type inum, x ≠ .found dev type inum) : Inv D (s.setPc t x) :=
  h.setPc hx fun dev type inum he => absurd he (hone dev type inum)

theorem Inv.idle (h : Inv D s) (t : T) : Inv D (s.setPc t .idle) := h.goto trivial nofun

theorem idle_pc (s : Icache T NINODE) (t : T) : (s.setPc t .idle).pc t = .idle := update_self ..

theorem setPc_idle (t : T) (x : IPc NINODE) (s : Icache T NINODE) :
    (s.setPc t .idle).setPc t x = s.setPc t x := by
  simp only [Icache.setPc, update_idem]

omit [DecidableEq T] in
theorem Dirty.congr (h : s.Dirty ip) (hpc : s'.pc = s.pc)
    (hw : s'.unwritten ip = s.unwritten ip) : s'.Dirty ip := by
  unfold Dirty at h ⊢
  rwa [hpc, hw]

theorem Dirty.setPc (hpc : ∀ ip, s.pc t ≠ .update ip) (h : s.Dirty ip) :
    (s.setPc t x).Dirty ip := by
  refine h.imp_left fun ⟨t', ht'⟩ => ⟨t', ?_⟩
  have htt : t' ≠ t := fun he => hpc ip (he ▸ ht')
  exact (update_of_ne htt ..).trans ht'

theorem Inv.found (h : Inv D s) {n : ℕ} (hpc : s.pc t = .scan dev type n inum) (hlt : inum < n)
    (hfree : (dinode (s.fs.disk dev) inum).type = 0) (hunc : s.Uncached dev inum) :
    Inv D (Icache.setPc t (.found dev type inum) { s with
      fs := s.fs.setDisk dev
        (setDinode (s.fs.disk dev) inum { Dinode.zero with type := type }) }) := by
  have hp := h.proc t
  rw [hpc] at hp
  obtain ⟨hne, hn⟩ := hp
  refine (h.mark hfree hunc _).setPc ⟨hne, ?_, ?_, hunc⟩ fun dev' type' inum' he t' ty htt ht' => ?_
  · change inum < (readsb (update s.fs.disk dev (setDinode (s.fs.disk dev) inum _) dev)).ninodes
    rw [readsb_update]
    exact hlt.trans_eq hn
  · change (dinode (update s.fs.disk dev (setDinode (s.fs.disk dev) inum _) dev) inum).type = type
    rw [update_self, dinode_setDinode]
  · cases he
    have hp' := h.proc t'
    rw [show s.pc t' = _ from ht'] at hp'
    exact hp'.1 (hp'.2.2.1.symm.trans hfree)

theorem iget_setPc (s : Icache T NINODE) (t : T) (x : IPc NINODE) (dev inum : ℕ) :
    (s.setPc t x).iget t dev inum = (s.iget t dev inum).map fun r => (r.1, r.2.setPc t x) := by
  unfold Icache.iget
  rw [show (s.setPc t x).fs = s.fs from rfl]
  cases s.fs.iget dev inum <;> rfl

theorem Inv.got (h : Inv D s) (hpc : s.pc t = .found dev type inum)
    (hs : s.iget t dev inum = some (ip, s')) : Inv D (s'.setPc t (.lock ip (some type))) := by
  have hp := h.proc t
  rw [hpc] at hp
  obtain ⟨hne, hlt, htype, hunc⟩ := hp
  have hmaking : ∀ t', ¬(s.setPc t .idle).Making t' dev inum := by
    intro t' hm
    have htt : t' ≠ t := fun he => not_making_of_idle (he ▸ idle_pc s t) hm
    have hm' : s.Making t' dev inum := by
      unfold Making at hm ⊢
      rwa [show (s.setPc t .idle).pc t' = s.pc t' from update_of_ne htt ..] at hm
    have hp' := h.proc t'
    unfold Making at hm'
    split at hm'
    · next hpc' =>
      obtain ⟨rfl, rfl⟩ := hm'
      exact htt (h.one t' t _ _ _ _ hpc' hpc)
    · next hpc' =>
      rw [hpc'] at hp'
      exact hunc _ (List.ne_nil_of_mem hp'.1) hm'
    · next hpc' =>
      rw [hpc'] at hp'
      exact hunc _ (List.ne_nil_of_mem (h.owner _ _ hp'.1)) hm'
    · exact hm'
  have hs' : (s.setPc t .idle).iget t dev inum = some (ip, s'.setPc t .idle) := by
    rw [iget_setPc, hs]
    rfl
  obtain ⟨hi, -, hdisk, hkey, hyoung⟩ := (h.idle t).iget (idle_pc s t) hlt hmaking hs'
  obtain ⟨hrefs, hvalid⟩ := hyoung hunc
  have hx : (s'.setPc t .idle).Young t ip type := by
    refine ⟨hrefs, hvalid, hne, ?_⟩
    obtain ⟨hd, hn⟩ := Prod.mk.inj hkey
    rw [onDisk, hd, hn, hdisk]
    exact htype
  rw [← setPc_idle]
  refine hi.goto ⟨?_, fun ty hty => ?_⟩ fun _ _ _ he => ?_
  · rw [hrefs]
    exact List.mem_singleton_self t
  · cases hty
    exact hx
  · cases he

theorem Inv.load (h : Inv D s) {want : Option UInt16} (hpc : s.pc t = .load ip want) :
    Inv (fun jp => jp ≠ ip ∧ D jp)
      ((s.read ip (s.onDisk ip)).setPc t (want.elim .idle (.locked ip))) := by
  have hp := h.proc t
  rw [hpc] at hp
  obtain ⟨hown, hyoung⟩ := hp
  have hcopy := (h.idle t).setCopy (E := fun jp => jp ≠ ip ∧ D jp) (idle_pc s t) hown true
    (s.onDisk ip) (fun _ _ => rfl) fun _ => And.intro
  have hi : Inv (fun jp => jp ≠ ip ∧ D jp) ((s.read ip (s.onDisk ip)).setPc t .idle) :=
    hcopy.record _
  rw [← setPc_idle]
  cases want with
  | none => exact hi.goto trivial nofun
  | some type =>
    refine hi.goto ⟨hown, ?_⟩ nofun
    change (update s.fs.icache ip _ ip).d.type = type
    rw [update_self]
    exact (hyoung type rfl).onDisk

theorem Inv.store (h : Inv D s) (hown : s.owner ip = some t) (d : Dinode)
    (hx : (s.store ip d).ProcOk t x) (hone : ∀ dev type inum, x ≠ .found dev type inum) :
    Inv (fun jp => jp ≠ ip ∧ D jp) ((s.store ip d).setPc t x) := by
  have hcopy := (h.idle t).setCopy (E := fun jp => jp = ip ∨ D jp) (idle_pc s t) hown
    (s.fs.icache ip).valid d (fun hn => absurd (.inl rfl) hn) fun _ _ hD => .inr hD
  have hwritten := hcopy.iupdate (idle_pc s t) (h.owner ip t hown)
  have hinv : Inv (fun jp => jp ≠ ip ∧ D jp) ((s.store ip d).setPc t .idle) :=
    hwritten.mono fun jp hjp => ⟨hjp.1, hjp.2.resolve_left hjp.1⟩
  rw [← setPc_idle]
  exact hinv.goto hx.setPc hone

omit [DecidableEq T] in
theorem Young.setBusy (h : s.Young t ip type) : (s.setBusy t ip).Young t ip type := by
  have hself : (s.setBusy t ip).fs.icache ip = { s.fs.icache ip with busy := true } :=
    update_self ..
  refine ⟨h.refs, ?_, h.ne_zero, ?_⟩
  · rw [hself]
    exact h.valid
  · rw [Icache.onDisk, hself]
    exact h.onDisk

theorem Inv.lock (h : Inv D s) (hmem : t ∈ s.refs ip) (hbusy : (s.fs.icache ip).busy = false)
    (hx : (s.setBusy t ip).ProcOk t x) (hone : ∀ dev type inum, x ≠ .found dev type inum) :
    Inv D ((s.setBusy t ip).setPc t x) := by
  have hi : Inv D ((s.setBusy t ip).setPc t .idle) := (h.idle t).setBusy (idle_pc s t) hmem hbusy
  rw [← setPc_idle]
  exact hi.goto hx.setPc hone

theorem Inv.run (h : Inv s.Dirty s) (hgone : s.Gone (.run t)) (hs : s.run t = some s') :
    Inv s'.Dirty s' := by
  have hp := h.proc t
  have hpos : ∀ {jp}, s.refs jp ≠ [] → 0 < (s.fs.icache jp).ref := by
    intro jp hjp
    rw [h.count]
    exact Int.natCast_pos.mpr (List.length_pos_iff.mpr hjp)
  unfold Icache.run at hs
  unfold Gone at hgone
  cases hpc : s.pc t with
  | idle =>
    simp only [hpc] at hs
    cases hs
  | scan dev type n inum =>
    have hd : ∀ ip, s.pc t ≠ .update ip := by simp [hpc]
    simp only [hpc, Option.ite_none_right_eq_some] at hs hgone
    rw [hpc] at hp
    obtain ⟨hlt, hs⟩ := hs
    split at hs
    · next hfree =>
      obtain rfl := Option.some_inj.mp hs
      have hunc : s.Uncached dev inum := fun ip hip => hgone hfree ip (hpos hip)
      exact (h.found hpc hlt hfree hunc).mono fun _ hD => hD.setPc hd
    · obtain rfl := Option.some_inj.mp hs
      exact (h.goto (x := .scan dev type n (inum + 1)) hp nofun).mono fun _ hD => hD.setPc hd
  | found dev type inum =>
    have hd : ∀ ip, s.pc t ≠ .update ip := by simp [hpc]
    simp only [hpc, Option.bind_eq_bind, Option.bind_eq_some_iff, Option.some_inj] at hs
    obtain ⟨⟨ip, s₁⟩, hget, rfl⟩ := hs
    have hpc₁ := iget_pc hget
    refine (h.got hpc hget).mono fun ip hD => ?_
    exact Dirty.setPc (hpc₁ ▸ hd) (hD.congr hpc₁ (congrFun (iget_unwritten hget) ip))
  | lock ip want =>
    have hd : ∀ ip, s.pc t ≠ .update ip := by simp [hpc]
    simp only [hpc, Option.ite_none_left_eq_some, Option.some_inj, Bool.not_eq_true] at hs
    rw [hpc] at hp
    obtain ⟨hbusy, rfl⟩ := hs
    have hx : (s.setBusy t ip).ProcOk t (.load ip want) :=
      ⟨update_self .., fun type hw => (hp.2 type hw).setBusy⟩
    exact (h.lock hp.1 hbusy hx nofun).mono fun _ hD => Dirty.setPc (s := s.setBusy t ip) hd hD
  | load ip want =>
    have hd : ∀ ip, s.pc t ≠ .update ip := by simp [hpc]
    simp only [hpc] at hs
    rw [hpc] at hp
    split at hs
    · next hv =>
      obtain rfl := Option.some_inj.mp hs
      refine (h.goto (x := want.elim .idle (.locked ip)) ?_ ?_).mono fun _ hD => hD.setPc hd
      · cases want with
        | none => trivial
        | some type =>
          have hy := (hp.2 type rfl).valid
          rw [hv] at hy
          cases hy
      · cases want <;> exact nofun
    · rw [Option.ite_none_left_eq_some, Option.some_inj] at hs
      obtain ⟨-, rfl⟩ := hs
      exact (h.load hpc).mono fun jp hD =>
        Dirty.setPc (s := s.read ip (s.onDisk ip)) hd (hD.2.congr rfl (update_of_ne hD.1 ..))
  | locked ip type =>
    have hd : ∀ ip, s.pc t ≠ .update ip := by simp [hpc]
    simp only [hpc, Option.some_inj] at hs
    subst hs
    exact (h.idle t).mono fun _ hD => hD.setPc hd
  | update ip =>
    simp only [hpc, Option.some_inj] at hs
    rw [hpc] at hp
    subst hs
    have hi := (h.idle t).iupdate (idle_pc s t) (h.owner ip t hp)
    refine Inv.mono (D := fun jp => jp ≠ ip ∧ s.Dirty jp) hi fun jp hD => ?_
    obtain ⟨hj, ⟨t', ht'⟩ | hw⟩ := hD
    · have htt : t' ≠ t := by
        intro he
        rw [he, hpc] at ht'
        cases ht'
        exact hj rfl
      exact .inl ⟨t', (update_of_ne htt ..).trans ht'⟩
    · exact .inr ((update_of_ne hj ..).trans hw)
  | trunc ip =>
    have hd : ∀ ip, s.pc t ≠ .update ip := by simp [hpc]
    simp only [hpc, Option.some_inj] at hs
    rw [hpc] at hp
    subst hs
    exact (h.store (x := .free ip) hp _ hp nofun).mono fun _ hD =>
      Dirty.setPc (s := s.store ip _) hd (hD.2.congr rfl (update_of_ne hD.1 ..))
  | free ip =>
    have hd : ∀ ip, s.pc t ≠ .update ip := by simp [hpc]
    simp only [hpc, Option.some_inj] at hs
    rw [hpc] at hp
    subst hs
    exact (h.store (x := .put ip) hp _ hp nofun).mono fun _ hD =>
      Dirty.setPc (s := s.store ip _) hd (hD.2.congr rfl (update_of_ne hD.1 ..))
  | put ip =>
    have hd : ∀ ip, s.pc t ≠ .update ip := by simp [hpc]
    simp only [hpc, Option.some_inj] at hs
    rw [hpc] at hp
    subst hs
    have hfree := (h.idle t).clearBusy (idle_pc s t) hp
    have hnone : ((s.setPc t .idle).clearBusy ip).owner ip ≠ some t := by
      rw [show ((s.setPc t .idle).clearBusy ip).owner ip = none from update_self ..]
      exact nofun
    have hi := hfree.drop (idle_pc s t) (h.owner ip t hp) hnone
    exact Inv.mono (s := ((s.clearBusy ip).drop t ip).setPc t .idle) hi fun _ hD =>
      Dirty.setPc (s := (s.clearBusy ip).drop t ip) hd hD

theorem Inv.step (h : Inv s.Dirty s) (hallowed : s.Allowed a) (hgone : s.Gone a)
    (hs : s.step a = some s') : Inv s'.Dirty s' := by
  cases a with
  | other dev disk =>
    obtain rfl := Option.some_inj.mp hs
    exact h.other hallowed.1 hallowed.2
  | iget t dev inum =>
    simp only [Icache.step, Option.ite_none_right_eq_some, Option.map_eq_some_iff] at hs
    obtain ⟨hidle, ⟨ip, s₁⟩, hget, rfl⟩ := hs
    obtain ⟨hi, hpc, -⟩ := h.iget hidle hallowed.1 hallowed.2 hget
    exact hi.mono fun jp hD => hD.congr hpc (congrFun (iget_unwritten hget) jp)
  | idup t ip =>
    simp only [Icache.step, Option.ite_none_right_eq_some, Option.some_inj] at hs
    obtain ⟨⟨hidle, hmem⟩, rfl⟩ := hs
    rw [idup_eq_addRef]
    exact h.addRef hidle (List.ne_nil_of_mem hmem) fun _ hr => not_making_of_mem hidle hmem hr
  | ialloc t dev type =>
    simp only [Icache.step, Option.ite_none_right_eq_some, Option.some_inj] at hs
    obtain ⟨hidle, rfl⟩ := hs
    refine (h.goto (x := .scan dev type _ 1) ⟨hallowed, rfl⟩ nofun).mono fun _ hD => hD.setPc ?_
    simp [hidle]
  | ilock t ip =>
    simp only [Icache.step, Option.ite_none_right_eq_some, Option.some_inj] at hs
    obtain ⟨⟨hidle, hmem⟩, rfl⟩ := hs
    refine (h.goto (x := .lock ip none) ⟨hmem, nofun⟩ nofun).mono fun _ hD => hD.setPc ?_
    simp [hidle]
  | change t ip d =>
    simp only [Icache.step, Option.ite_none_right_eq_some, Option.some_inj] at hs
    obtain ⟨⟨hidle, hown, -⟩, rfl⟩ := hs
    have hi := h.setCopy (E := fun jp => jp = ip ∨ s.Dirty jp) hidle hown (s.fs.icache ip).valid d
      (fun hn => absurd (.inl rfl) hn) fun _ _ hD => .inr hD
    refine (hi.goto (x := .update ip) hown nofun).mono fun jp hD => ?_
    rcases hD with rfl | hD
    · exact .inl ⟨t, update_self ..⟩
    · exact Dirty.setPc (s := { s with fs := s.fs.setCopy ip d }) (by simp [hidle]) hD
  | assign t ip d =>
    simp only [Icache.step, Option.ite_none_right_eq_some, Option.some_inj] at hs
    obtain ⟨⟨hidle, hown, -⟩, rfl⟩ := hs
    have hi := h.setCopy (E := fun jp => jp = ip ∨ s.Dirty jp) hidle hown (s.fs.icache ip).valid d
      (fun hn => absurd (.inl rfl) hn) fun _ _ hD => .inr hD
    refine Inv.mono (hi.record (update s.unwritten ip true)) fun jp hD => ?_
    by_cases hj : jp = ip
    · exact .inr (by simp [hj])
    · exact (hD.resolve_left hj).congr rfl (update_of_ne hj ..)
  | iunlock t ip =>
    simp only [Icache.step, Option.ite_none_right_eq_some, Option.some_inj] at hs
    obtain ⟨⟨hidle, hown⟩, rfl⟩ := hs
    exact h.clearBusy hidle hown
  | iput t ip =>
    simp only [Icache.step, Option.ite_none_right_eq_some] at hs
    obtain ⟨⟨hidle, hmem, hown⟩, hs⟩ := hs
    unfold Icache.iput at hs
    dsimp only at hs
    split at hs
    · simp only [Option.ite_none_left_eq_some, Option.some_inj, Bool.not_eq_true] at hs
      obtain ⟨hbusy, rfl⟩ := hs
      refine (h.lock (x := .trunc ip) hmem hbusy (update_self ..) nofun).mono fun jp hD => ?_
      exact Dirty.setPc (s := s.setBusy t ip) (by simp [Icache.setBusy, hidle]) hD
    · obtain rfl := Option.some_inj.mp hs
      exact h.drop hidle hmem hown
  | run t => exact h.run hgone hs

/-- In every run in which `ialloc` takes no inode that is in the cache, `ilock` of an inode from
`ialloc` returns with the type asked for, and an inode that is valid, not busy and referred to is
what the disk has, unless a store to it was left without `iupdate`. -/
theorem coherent_of_reach {disk : ℕ → Disk}
    (h : Reach (fun s a s' => s.Gone a ∧ Step s a s') (start disk) s) :
    (∀ t ip type, s.pc t = .locked ip type → (s.fs.icache ip).d.type = type) ∧
    ∀ ip, 0 < (s.fs.icache ip).ref → (s.fs.icache ip).valid = true →
      (s.fs.icache ip).busy = false → s.unwritten ip = false →
      (s.fs.icache ip).d = s.onDisk ip := by
  have hinv : Inv s.Dirty s := by
    refine h.invariant (P := fun s : Icache T NINODE => Inv s.Dirty s) (inv_start disk) ?_
    intro s a s' hs ⟨hgone, hallowed, ha⟩
    exact hs.step hallowed hgone ha
  refine ⟨fun t ip type hpc => ?_, fun ip href hv hbusy hw => ?_⟩
  · have hp := hinv.proc t
    rw [hpc] at hp
    exact hp.2
  · have hrefs : s.refs ip ≠ [] := by
      rw [hinv.count] at href
      exact List.length_pos_iff.mp (Int.natCast_pos.mp href)
    refine hinv.synced ip hrefs hv ?_
    rintro (⟨t, ht⟩ | hw')
    · have hp := hinv.proc t
      rw [ht] at hp
      rw [hinv.busy, show s.owner ip = some t from hp] at hbusy
      cases hbusy
    · rw [hw] at hw'
      cases hw'

/-- A step that needs nothing of the rest of the kernel, but for a type -/
def stepAlone (s : Icache T NINODE) (a : ILabel T NINODE) : Option (Icache T NINODE) :=
  match a with
  | .other _ _ => none
  | .iget _ _ _ => none
  | .ialloc _ _ type => if type = 0 then none else s.step a
  | _ => s.step a

theorem step_of_stepAlone (h : s.stepAlone a = some s') : Step s a s' := by
  unfold stepAlone at h
  split at h
  · cases h
  · cases h
  · rw [Option.ite_none_left_eq_some] at h
    exact ⟨h.1, h.2⟩
  · refine ⟨?_, h⟩
    unfold Allowed
    split <;> simp_all

instance (s : Icache T NINODE) (a : ILabel T NINODE) : Decidable (s.Gone a) := by
  unfold Gone
  split
  · split <;> infer_instance
  · infer_instance

theorem reach_of_gone (h : (if s.Gone a then s.stepAlone a else none) = some s') :
    Reach (fun s a s' => s.Gone a ∧ Step s a s') s s' :=
  .next .start ((Option.ite_none_right_eq_some.mp h).imp_right step_of_stepAlone)

/-- A disk with a root -/
def rootOnly : ℕ → Disk := fun _ => smallDisk { Dinode.zero with type := T_DIR, nlink := 1 }

/-- A process makes an inode. -/
theorem coherent_after_ialloc : ∃ s : Icache Bool 1,
    Reach (fun s a s' => s.Gone a ∧ Step s a s') (start rootOnly) s ∧
    s.pc false = .locked 0 T_FILE ∧ (s.fs.icache 0).d.type = T_FILE := by
  have hk : (([.ialloc false 1 T_FILE, .run false, .run false, .run false, .run false, .run false] :
      List (ILabel Bool 1)).foldlM
      (fun (s : Icache Bool 1) a => if s.Gone a then s.stepAlone a else none)
      (start rootOnly)).any (fun s => s.pc false = .locked 0 T_FILE) = true := by
    decide +kernel
  obtain ⟨s, hr, hs⟩ := exists_reach_of_any (fun _ _ _ => reach_of_gone) hk
  have hpc := of_decide_eq_true hs
  exact ⟨s, hr, hpc, (coherent_of_reach hr).1 false 0 T_FILE hpc⟩

/-- Process `false` makes a file, unlocks it and puts it. When it has freed the inode on the disk
and not yet ended `iput`, process `true` gets the same inode from `ialloc` for a directory, and
finds it in the cache. -/
def reuse : List (ILabel Bool 1) :=
  [.ialloc false 1 T_FILE, .run false, .run false, .run false, .run false, .run false, .run false,
    .iunlock false 0, .iput false 0, .run false, .run false,
    .ialloc true 1 T_DIR, .run true, .run true, .run true, .run false, .run true, .run true]

/-- A process makes a file, and `dirlink` fails: `create` stores `ip->nlink = 0` and unlocks it. -/
def failedCreate : List (ILabel Bool 1) :=
  [.ialloc false 1 T_FILE, .run false, .run false, .run false, .run false, .run false, .run false,
    .change false 0 { Dinode.zero with type := T_FILE, nlink := 1 }, .run false,
    .assign false 0 { Dinode.zero with type := T_FILE }, .iunlock false 0]

/-- `ilock` returns with the type of a free inode, and so the inode is unlocked. After a `create`
that failed the inode has no links in memory and one on the disk. -/
theorem incoherent_after_reuse : (∃ s : Icache Bool 1, Reach Step (start rootOnly) s ∧
      s.pc true = .locked 0 T_DIR ∧ (s.fs.icache 0).d.type = 0) ∧
    (∃ s : Icache Bool 1, Reach Step (start rootOnly) s ∧ 0 < (s.fs.icache 0).ref ∧
      (s.fs.icache 0).valid = true ∧ (s.fs.icache 0).busy = false ∧ s.unwritten 0 = false ∧
      (s.fs.icache 0).d ≠ s.onDisk 0) ∧
    ∃ s : Icache Bool 1, Reach (fun s a s' => s.Gone a ∧ Step s a s') (start rootOnly) s ∧
      0 < (s.fs.icache 0).ref ∧ (s.fs.icache 0).valid = true ∧ (s.fs.icache 0).busy = false ∧
      (s.fs.icache 0).d.nlink = 0 ∧ (s.onDisk 0).nlink = 1 := by
  have hlock : (reuse.foldlM stepAlone (start rootOnly)).any
      (fun s => s.pc true = .locked 0 T_DIR ∧ (s.fs.icache 0).d.type = 0) = true := by
    decide +kernel
  have hunlock : ((reuse ++ [ILabel.run true, ILabel.iunlock true 0]).foldlM stepAlone
      (start rootOnly)).any (fun (s : Icache Bool 1) => 0 < (s.fs.icache 0).ref ∧
        (s.fs.icache 0).valid = true ∧ (s.fs.icache 0).busy = false ∧ s.unwritten 0 = false ∧
        (s.fs.icache 0).d.type ≠ (s.onDisk 0).type) = true := by
    decide +kernel
  have hfailed : (failedCreate.foldlM (fun (s : Icache Bool 1) a =>
      if s.Gone a then s.stepAlone a else none) (start rootOnly)).any (fun (s : Icache Bool 1) =>
        0 < (s.fs.icache 0).ref ∧ (s.fs.icache 0).valid = true ∧ (s.fs.icache 0).busy = false ∧
        (s.fs.icache 0).d.nlink = 0 ∧ (s.onDisk 0).nlink = 1) = true := by
    decide +kernel
  have hstep : ∀ (s : Icache Bool 1) a s', s.stepAlone a = some s' → Reach Step s s' :=
    fun _ _ _ h => .next .start (step_of_stepAlone h)
  obtain ⟨s, hr, hs⟩ := exists_reach_of_any hstep hlock
  obtain ⟨s', hr', hs'⟩ := exists_reach_of_any hstep hunlock
  obtain ⟨s'', hr'', hs''⟩ := exists_reach_of_any (fun _ _ _ => reach_of_gone) hfailed
  obtain ⟨href, hvalid, hbusy, hw, hne⟩ := of_decide_eq_true hs'
  exact ⟨⟨s, hr, of_decide_eq_true hs⟩,
    ⟨s', hr', href, hvalid, hbusy, hw, fun he => hne (by rw [he])⟩, s'', hr'',
    of_decide_eq_true hs''⟩

end Icache

end Xv6Shed
