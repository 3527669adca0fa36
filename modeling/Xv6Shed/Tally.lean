import Xv6Shed.Scripts

/-!
# Reference counts of inodes in memory

The functions of the inode layer take and drop references and locks in pairs, whatever is on the
disk. So between calls the `ref` of an inode is the number of open files and current directories
that point to it, and no inode is locked.
-/

namespace Xv6Shed
open Function Transition

variable {NINODE NFILE NOFILE : ℕ} {P : Type}

def anyFault (_ : Fault) : Prop := True

namespace Fs

variable {s s' s'' : Fs NINODE} {ip dp : Fin NINODE} {H : Multiset (Fin NINODE)}
  {L : Finset (Fin NINODE)} {cwd : Option (Fin NINODE)}

/-- References and locks are the same. -/
def Same (s s' : Fs NINODE) : Prop :=
  ∀ ip, (s'.icache ip).ref = (s.icache ip).ref ∧ (s'.icache ip).busy = (s.icache ip).busy

namespace Same

theorem refl (s : Fs NINODE) : Same s s := fun _ => ⟨rfl, rfl⟩

theorem trans (h : Same s s') (h' : Same s' s'') : Same s s'' :=
  fun ip => ⟨(h' ip).1.trans (h ip).1, (h' ip).2.trans (h ip).2⟩

theorem setDisk (dev : ℕ) (x : Disk) (s : Fs NINODE) : Same s (s.setDisk dev x) := refl s

theorem setCopy (ip : Fin NINODE) (d : Dinode) (s : Fs NINODE) : Same s (s.setCopy ip d) := by
  intro jp
  rw [setCopy_icache]
  by_cases hj : jp = ip
  · rw [hj, update_self]
    exact ⟨rfl, rfl⟩
  · rw [update_of_ne hj]
    exact ⟨rfl, rfl⟩

theorem store (ip : Fin NINODE) (d : Dinode) (s : Fs NINODE) :
    Same s ((s.setCopy ip d).iupdate ip) :=
  setCopy ip d s

theorem setNlink (ip : Fin NINODE) (n : UInt16) (s : Fs NINODE) : Same s (s.setNlink ip n) :=
  store ip _ s

end Same

theorem balloc_same (dev : ℕ) (s : Fs NINODE) :
    Meets anyFault (s.balloc dev) fun r => Same s r.2 := by
  unfold balloc
  dsimp only
  split
  · exact Meets.pure (.setDisk dev _ s)
  · exact Meets.error trivial

theorem bfree_same (dev b : ℕ) (s : Fs NINODE) : Meets anyFault (s.bfree dev b) (Same s) := by
  unfold bfree
  dsimp only
  split
  · exact Meets.error trivial
  · exact Meets.pure (.refl s)

theorem itrunc_same (ip : Fin NINODE) (s : Fs NINODE) : Meets anyFault (s.itrunc ip) (Same s) := by
  have hdirect : ∀ s₁ j, j ∈ List.range 12 → Same s s₁ →
      Meets anyFault (truncDirect ip s₁ j) (Same s) := by
    intro s₁ j _ h
    unfold truncDirect
    dsimp only
    split
    · exact Meets.pure h
    · exact (bfree_same _ _ s₁).bind fun s₂ h₂ => Meets.pure ((h.trans h₂).trans (.setCopy ip _ s₂))
  have hentry : ∀ dev a, ∀ s₁ j, j ∈ List.range 128 → Same s s₁ →
      Meets anyFault (truncEntry dev a s₁ j) (Same s) := by
    intro dev a s₁ j _ h
    unfold truncEntry
    split
    · exact Meets.pure h
    · exact (bfree_same _ _ s₁).imp fun s₂ h₂ => h.trans h₂
  unfold itrunc
  refine (Meets.foldlM (.refl s) hdirect).bind fun s₁ h₁ => ?_
  dsimp only
  split
  · exact Meets.pure (h₁.trans (.setCopy ip _ s₁))
  · refine (Meets.foldlM h₁ (hentry _ _)).bind fun s₂ h₂ => ?_
    exact Meets.pure ((h₂.trans (.setCopy ip _ s₂)).trans (.setCopy ip _ _))

theorem bmap_same (alloc : Bool) (ip : Fin NINODE) (bn : ℕ) (s : Fs NINODE) :
    Meets anyFault (s.bmap alloc ip bn) fun r => Same s r.2 := by
  have hload : Meets anyFault (s.loadIndirect ip) (Same s) := by
    unfold loadIndirect
    split
    · exact (balloc_same _ s).bind fun r hr => Meets.pure (hr.trans (.setCopy ip _ r.2))
    · exact Meets.pure (.refl s)
  unfold bmap
  dsimp only
  split
  · split
    · exact Meets.pure (.refl s)
    · split
      · exact Meets.pure (.refl s)
      · exact (balloc_same _ s).bind fun r hr => Meets.pure (hr.trans (.setCopy ip _ r.2))
  · split
    · split
      · exact Meets.pure (.refl s)
      · refine hload.bind fun s₁ h₁ => ?_
        split
        · exact Meets.pure h₁
        · split
          · exact Meets.pure h₁
          · exact (balloc_same _ s₁).bind fun r hr => Meets.pure (h₁.trans hr)
    · exact Meets.error trivial

theorem writeLoop_same (ip : Fin NINODE) (fuel : ℕ) (src : Bytes.Buffer) (off n : ℕ)
    (s : Fs NINODE) : Meets anyFault (writeLoop ip fuel src off n s) fun r => Same s r.2 := by
  induction fuel generalizing src off n s with
  | zero => exact Meets.error trivial
  | succ fuel ih =>
    unfold writeLoop
    split
    · exact Meets.pure (.refl s)
    · refine (bmap_same true ip _ s).bind fun r hr => ?_
      exact (ih _ _ _ _).imp fun r' hr' => hr.trans hr'

theorem writei_same (driver : ℤ) (ip : Fin NINODE) (src : Bytes.Buffer) (off n : ℕ)
    (s : Fs NINODE) : Meets anyFault (s.writei driver ip src off n) fun r => Same s r.2 := by
  unfold writei
  split
  · exact Meets.pure (.refl s)
  split
  · exact Meets.pure (.refl s)
  dsimp only
  generalize (if 140 * 512 < off + n then (140 * 512 + 2 ^ 32 - off) % 2 ^ 32 else n) = n'
  refine (writeLoop_same ip _ src off _ s).bind fun r hr => ?_
  split
  · exact Meets.pure (hr.trans (.setCopy ip _ r.2))
  · exact Meets.pure hr

/-- `H` are the references, with repetitions, and `L` the locked inodes. -/
structure Tally (s : Fs NINODE) (H : Multiset (Fin NINODE)) (L : Finset (Fin NINODE)) : Prop where
  ref : ∀ ip, (s.icache ip).ref = H.count ip
  busy : ∀ ip, (s.icache ip).busy = true ↔ ip ∈ L
  sub : ∀ ip ∈ L, ip ∈ H

namespace Tally

theorem same (h : Tally s H L) (hs : Same s s') : Tally s' H L :=
  ⟨fun ip => (hs ip).1.trans (h.ref ip), fun ip => by rw [(hs ip).2]; exact h.busy ip, h.sub⟩

theorem setInode (h : Tally s H L) {H' : Multiset (Fin NINODE)} {L' : Finset (Fin NINODE)}
    {x : Inode} (href : x.ref = H'.count ip) (hbusy : x.busy = true ↔ ip ∈ L')
    (hH : ∀ jp ≠ ip, H'.count jp = H.count jp) (hL : ∀ jp ≠ ip, jp ∈ L' ↔ jp ∈ L)
    (hsub : ip ∈ L' → ip ∈ H') : Tally (s.setInode ip x) H' L' := by
  refine ⟨fun jp => ?_, fun jp => ?_, fun jp hj => ?_⟩
  · rw [setInode_icache]
    by_cases hjp : jp = ip
    · rw [hjp, update_self, href]
    · rw [update_of_ne hjp, h.ref, hH jp hjp]
  · rw [setInode_icache]
    by_cases hjp : jp = ip
    · rw [hjp, update_self, hbusy]
    · rw [update_of_ne hjp, h.busy, hL jp hjp]
  · by_cases hjp : jp = ip
    · rw [hjp] at hj ⊢
      exact hsub hj
    · rw [← Multiset.count_pos, hH jp hjp, Multiset.count_pos]
      exact h.sub jp ((hL jp hjp).mp hj)

theorem more (h : Tally s H L) {x : Inode} (href : x.ref = H.count ip + 1)
    (hbusy : x.busy = (s.icache ip).busy) : Tally (s.setInode ip x) (ip ::ₘ H) L := by
  refine h.setInode ?_ ?_ (fun jp hj => ?_) (fun _ _ => Iff.rfl) fun _ => Multiset.mem_cons_self _ _
  · rw [Multiset.count_cons_self, href]
    rfl
  · rw [hbusy]
    exact h.busy ip
  · exact Multiset.count_cons_of_ne hj H

theorem less (h : Tally s (ip ::ₘ H) L) (hL : ip ∈ L → ip ∈ H) :
    Tally (s.setInode ip { s.icache ip with ref := (s.icache ip).ref - 1 }) H L := by
  refine h.setInode ?_ (h.busy ip) (fun jp hj => ?_) (fun _ _ => Iff.rfl) hL
  · have := h.ref ip
    rw [Multiset.count_cons_self] at this
    dsimp only
    omega
  · exact (Multiset.count_cons_of_ne hj H).symm

theorem not_busy (h : Tally s H L) (hip : ip ∉ L) : (s.icache ip).busy = false := by
  rw [← Bool.not_eq_true, h.busy]
  exact hip

end Tally

theorem idup_tally (h : Tally s H L) (ip : Fin NINODE) : Tally (s.idup ip) (ip ::ₘ H) L :=
  h.more (congrArg (· + 1) (h.ref ip)) rfl

theorem iget_tally (h : Tally s H L) (dev inum : ℕ) :
    Meets anyFault (s.iget dev inum) fun r => Tally r.2 (r.1 ::ₘ H) L := by
  unfold iget
  split
  · exact Meets.pure (idup_tally h _)
  split
  · exact Meets.error trivial
  · next ip hfind =>
    have h0 : (s.icache ip).ref = 0 := by simpa using List.find?_some hfind
    have hcount := h.ref ip
    refine Meets.pure (h.more (by dsimp only; omega) (h.not_busy fun hL => ?_).symm)
    have := Multiset.count_pos.mpr (h.sub ip hL)
    omega

theorem ilock_tally (h : Tally s H L) (ip : Fin NINODE) :
    Meets anyFault (s.ilock ip) fun s' => ip ∉ L ∧ Tally s' H (insert ip L) := by
  unfold ilock
  dsimp only
  split
  · exact Meets.error trivial
  next href =>
  split
  · exact Meets.error trivial
  next hbusy =>
  have hset : ∀ x : Inode, x.ref = (s.icache ip).ref → x.busy = true →
      Tally (s.setInode ip x) H (insert ip L) := by
    intro x hx hb
    refine h.setInode (hx.trans (h.ref ip)) (by simp [hb]) (fun _ _ => rfl)
      (fun jp hj => ?_) fun _ => ?_
    · rw [Finset.mem_insert, or_iff_right hj]
    · rw [← Multiset.count_pos]
      have := h.ref ip
      omega
  have hL : ip ∉ L := fun hL => hbusy ((h.busy ip).mpr hL)
  split
  · exact Meets.pure ⟨hL, hset _ rfl rfl⟩
  split
  · exact Meets.error trivial
  · exact Meets.pure ⟨hL, hset _ rfl rfl⟩

theorem iunlock_tally (h : Tally s H L) (ip : Fin NINODE) :
    Meets anyFault (s.iunlock ip) fun s' => ip ∈ L ∧ Tally s' H (L.erase ip) := by
  unfold iunlock
  dsimp only
  split
  · exact Meets.error trivial
  · next hno =>
    refine Meets.pure ⟨(h.busy ip).mp (by simpa using (not_or.mp hno).1), ?_⟩
    refine h.setInode (h.ref ip) (by simp) (fun _ _ => rfl) (fun jp hj => ?_) fun hL => ?_
    · rw [Finset.mem_erase, and_iff_right hj]
    · exact absurd hL (Finset.notMem_erase ip L)

theorem Same.unlock {s₁ : Fs NINODE} (hbusy : (s.icache ip).busy = false)
    (h : Same (s.setInode ip { s.icache ip with busy := true }) s₁) :
    Same s (s₁.setInode ip { s₁.icache ip with busy := false }) := by
  intro jp
  have hjp := h jp
  rw [setInode_icache] at hjp ⊢
  by_cases hj : jp = ip
  · rw [hj, update_self] at hjp ⊢
    exact ⟨hjp.1, hbusy.symm⟩
  · rw [update_of_ne hj] at hjp ⊢
    exact hjp

theorem ifree_same (ip : Fin NINODE) (s : Fs NINODE) : Meets anyFault (s.ifree ip) (Same s) := by
  unfold ifree
  split
  · exact Meets.error trivial
  next hbusy =>
  refine (itrunc_same ip _).bind fun s₁ h₁ => Meets.pure ?_
  exact .unlock (Bool.eq_false_iff.mpr hbusy) (h₁.trans (.setCopy ip _ s₁))

theorem iput_tally (h : Tally s (ip ::ₘ H) L) (hL : ip ∈ L → ip ∈ H) :
    Meets anyFault (s.iput ip) fun s' => Tally s' H L := by
  unfold iput
  dsimp only
  split
  · exact (ifree_same ip s).bind fun s₁ h₁ => Meets.pure ((h.same h₁).less hL)
  · exact Meets.pure (h.less hL)

theorem iunlockput_tally (h : Tally s (ip ::ₘ H) L) :
    Meets anyFault (s.iunlockput ip) fun s' => Tally s' H (L.erase ip) := by
  refine (iunlock_tally h ip).bind fun s₁ h₁ => ?_
  exact iput_tally h₁.2 fun hip => absurd hip (Finset.notMem_erase ip L)

theorem iunlockput_tally_insert (h : Tally s (ip ::ₘ H) (insert ip L)) (hL : ip ∉ L) :
    Meets anyFault (s.iunlockput ip) fun s' => Tally s' H L := by
  refine (iunlockput_tally h).imp fun s' h' => ?_
  rwa [Finset.erase_insert hL] at h'

theorem dirlookup_tally (h : Tally s H L) (dp : Fin NINODE) (name : List UInt8) :
    Meets anyFault (s.dirlookup dp name) fun r => (r.1 = none → Tally r.2 H L) ∧
      ∀ ip off, r.1 = some (ip, off) → Tally r.2 (ip ::ₘ H) L := by
  unfold dirlookup
  dsimp only
  split
  · exact Meets.error trivial
  have hscan : Meets anyFault (s.dirScan dp name (((s.icache dp).d.size.toNat + 511) / 512) 0)
      fun _ => True := by
    cases s.dirScan dp name (((s.icache dp).d.size.toNat + 511) / 512) 0 with
    | ok r => exact Meets.pure trivial
    | error e => exact Meets.error trivial
  refine hscan.bind ?_
  rintro (_ | ⟨off, inum⟩) -
  · exact Meets.pure ⟨fun _ => h, fun _ _ hr => nomatch hr⟩
  · refine (iget_tally h _ inum).bind fun r hr => Meets.pure ⟨fun hn => (nomatch hn), ?_⟩
    intro ip off' he
    cases he
    exact hr

theorem dirlink_tally (h : Tally s H L) (dp : Fin NINODE) (name : List UInt8) (ino : ℕ) :
    Meets anyFault (s.dirlink dp name ino) fun r => Tally r.2 H L := by
  unfold dirlink
  refine (dirlookup_tally h dp name).bind ?_
  rintro ⟨_ | ⟨ip, off⟩, s₁⟩ ⟨hnone, hsome⟩
  · have hempty : Meets anyFault
        (s₁.dirEmpty dp (((s₁.icache dp).d.size.toNat + 15) / 16) 0) fun _ => True := by
      cases s₁.dirEmpty dp (((s₁.icache dp).d.size.toNat + 15) / 16) 0 with
      | ok r => exact Meets.pure trivial
      | error e => exact Meets.error trivial
    refine hempty.bind fun off _ => ?_
    refine (writei_same _ dp _ off 16 s₁).bind ?_
    rintro ⟨r, s₂⟩ hr
    dsimp only
    split
    · exact Meets.error trivial
    · exact Meets.pure ((hnone rfl).same hr)
  · refine (iput_tally (hsome ip off rfl) (h.sub ip)).bind fun s₂ h₂ => ?_
    exact Meets.pure h₂

theorem nameiLoop_tally (parent : Bool) (fuel : ℕ) (path : List UInt8)
    (h : Tally s (ip ::ₘ H) ∅) :
    Meets anyFault (nameiLoop parent fuel ip path s) fun r => (r.1 = none → Tally r.2 H ∅) ∧
      ∀ jp name, r.1 = some (jp, name) → Tally r.2 (jp ::ₘ H) ∅ := by
  induction fuel generalizing ip path s with
  | zero => exact Meets.error trivial
  | succ fuel ih =>
    unfold nameiLoop
    split
    · split
      · refine (iput_tally h (by simp)).bind fun s₁ h₁ => ?_
        exact Meets.pure ⟨fun _ => h₁, fun _ _ hr => nomatch hr⟩
      · refine Meets.pure ⟨fun hn => (nomatch hn), fun jp name hr => ?_⟩
        cases hr
        exact h
    · refine (ilock_tally h ip).bind ?_
      rintro s₁ ⟨hL, h₁⟩
      split
      · refine (iunlockput_tally_insert h₁ hL).bind fun s₂ h₂ => ?_
        exact Meets.pure ⟨fun _ => h₂, fun _ _ hr => nomatch hr⟩
      split
      · refine (iunlock_tally h₁ ip).bind ?_
        rintro s₂ ⟨-, h₂⟩
        rw [Finset.erase_insert hL] at h₂
        refine Meets.pure ⟨fun hn => (nomatch hn), fun jp name hr => ?_⟩
        cases hr
        exact h₂
      refine (dirlookup_tally h₁ ip _).bind ?_
      rintro ⟨_ | ⟨next, off⟩, s₂⟩ ⟨hnone, hsome⟩
      · refine (iunlockput_tally_insert (hnone rfl) hL).bind fun s₃ h₃ => ?_
        exact Meets.pure ⟨fun _ => h₃, fun _ _ hr => nomatch hr⟩
      · have h₂ := hsome next off rfl
        rw [Multiset.cons_swap] at h₂
        exact (iunlockput_tally_insert h₂ hL).bind fun s₃ h₃ => ih _ h₃

theorem nameiFrom_tally (h : Tally s H ∅) (parent : Bool) (cwd : Option (Fin NINODE))
    (path : List UInt8) :
    Meets anyFault (s.nameiFrom parent cwd path) fun r => (r.1 = none → Tally r.2 H ∅) ∧
      ∀ jp name, r.1 = some (jp, name) → Tally r.2 (jp ::ₘ H) ∅ := by
  unfold nameiFrom
  split
  · exact (iget_tally h 1 1).bind fun r hr => nameiLoop_tally parent _ path hr
  · cases cwd with
    | none => exact Meets.error trivial
    | some ip => exact nameiLoop_tally parent _ path (idup_tally h ip)

theorem namei_tally (h : Tally s H ∅) (cwd : Option (Fin NINODE)) (path : List UInt8) :
    Meets anyFault (s.namei cwd path) fun r => (r.1 = none → Tally r.2 H ∅) ∧
      ∀ jp, r.1 = some jp → Tally r.2 (jp ::ₘ H) ∅ := by
  unfold namei
  refine (nameiFrom_tally h false cwd path).bind ?_
  rintro ⟨_ | ⟨jp, name⟩, s₁⟩ ⟨hnone, hsome⟩
  · exact Meets.pure ⟨fun _ => hnone rfl, fun _ hr => nomatch hr⟩
  · refine Meets.pure ⟨fun hn => (nomatch hn), fun jp' hr => ?_⟩
    cases hr
    exact hsome jp name rfl

theorem linkBad_tally (h : Tally s (ip ::ₘ H) ∅) :
    Meets anyFault (s.linkBad none ip) fun r => Tally r.2 H ∅ := by
  unfold linkBad
  refine (ilock_tally h ip).bind ?_
  rintro s₁ ⟨hL, h₁⟩
  refine (iunlockput_tally_insert (h₁.same (.setNlink ip _ s₁)) hL).bind fun s₂ h₂ => ?_
  exact Meets.pure h₂

theorem linkBad_some_tally (h : Tally s (dp ::ₘ ip ::ₘ H) {dp}) :
    Meets anyFault (s.linkBad (some dp) ip) fun r => Tally r.2 H ∅ :=
  (iunlockput_tally_insert h (Finset.notMem_empty dp)).bind fun _ h₁ => linkBad_tally h₁

theorem sysLink_tally (h : Tally s H ∅) (cwd : Option (Fin NINODE)) (old new : List UInt8) :
    Meets anyFault (s.sysLink cwd old new) fun r => Tally r.2 H ∅ := by
  unfold sysLink
  refine (namei_tally h cwd old).bind ?_
  rintro ⟨_ | ip, s₁⟩ ⟨hnone, hsome⟩
  · exact Meets.pure (hnone rfl)
  refine (ilock_tally (hsome ip rfl) ip).bind ?_
  rintro s₂ ⟨hL, h₂⟩
  split
  · exact (iunlockput_tally_insert h₂ hL).bind fun s₃ h₃ => Meets.pure h₃
  refine (iunlock_tally (h₂.same (.setNlink ip _ s₂)) ip).bind ?_
  rintro s₃ ⟨-, h₃⟩
  rw [Finset.erase_insert hL] at h₃
  unfold linkName
  refine (nameiFrom_tally h₃ true cwd new).bind ?_
  rintro ⟨_ | ⟨dp, name⟩, s₄⟩ ⟨hnone, hsome⟩
  · exact linkBad_tally (hnone rfl)
  refine (ilock_tally (hsome dp name rfl) dp).bind ?_
  rintro s₅ ⟨hL, h₅⟩
  split
  · exact linkBad_some_tally h₅
  refine (dirlink_tally h₅ dp name _).bind ?_
  rintro ⟨r, s₆⟩ h₆
  dsimp only
  split
  · exact linkBad_some_tally h₆
  refine (iunlockput_tally_insert h₆ hL).bind fun s₇ h₇ => ?_
  exact (iput_tally h₇ (by simp)).bind fun s₈ h₈ => Meets.pure h₈

theorem unlinkEntry_tally (h : Tally s (ip ::ₘ dp ::ₘ H) {dp}) (off : ℕ) :
    Meets anyFault (s.unlinkEntry dp ip off) fun r => Tally r.2 H ∅ := by
  unfold unlinkEntry
  refine (ilock_tally h ip).bind ?_
  rintro s₁ ⟨hL, h₁⟩
  split
  · exact Meets.error trivial
  have hkeep : Meets anyFault (do
      let s ← s₁.iunlockput ip
      pure (-1, ← s.iunlockput dp)) fun r : ℤ × Fs NINODE => Tally r.2 H ∅ := by
    refine (iunlockput_tally_insert h₁ hL).bind fun s₂ h₂ => ?_
    refine (iunlockput_tally_insert h₂ (Finset.notMem_empty dp)).bind fun s₃ h₃ => ?_
    exact Meets.pure h₃
  have hremove : Meets anyFault (s₁.removeEntry dp ip off) fun r => Tally r.2 H ∅ := by
    unfold removeEntry
    refine (writei_same _ dp _ off 16 s₁).bind ?_
    rintro ⟨r, s₂⟩ hs
    have h₂ := h₁.same hs
    dsimp only at h₂ ⊢
    split
    · exact Meets.error trivial
    rw [Multiset.cons_swap] at h₂
    have hne : dp ≠ ip := fun he => hL (Finset.mem_singleton.mpr he.symm)
    refine (iunlockput_tally h₂).bind fun s₃ h₃ => ?_
    have herase : (insert ip {dp} : Finset (Fin NINODE)).erase dp = {ip} := by
      rw [Finset.erase_insert_of_ne hne.symm, Finset.erase_singleton]
      rfl
    rw [herase] at h₃
    refine (iunlockput_tally_insert (L := ∅) (h₃.same (.setNlink ip _ s₃)) (by simp)).bind ?_
    exact fun s₄ h₄ => Meets.pure h₄
  have hafter : ∀ empty : Bool, Meets anyFault
      (if empty = false then do
        let s ← s₁.iunlockput ip
        pure (-1, ← s.iunlockput dp)
      else s₁.removeEntry dp ip off) fun r => Tally r.2 H ∅ := by
    intro empty
    split
    · exact hkeep
    · exact hremove
  split
  · have hempty : Meets anyFault (s₁.isdirempty ip) fun _ => True := by
      cases s₁.isdirempty ip with
      | ok r => exact Meets.pure trivial
      | error e => exact Meets.error trivial
    exact hempty.bind fun empty _ => hafter empty
  · exact hafter true

theorem sysUnlink_tally (h : Tally s H ∅) (cwd : Option (Fin NINODE)) (path : List UInt8) :
    Meets anyFault (s.sysUnlink cwd path) fun r => Tally r.2 H ∅ := by
  unfold sysUnlink
  refine (nameiFrom_tally h true cwd path).bind ?_
  rintro ⟨_ | ⟨dp, name⟩, s₁⟩ ⟨hnone, hsome⟩
  · exact Meets.pure (hnone rfl)
  refine (ilock_tally (hsome dp name rfl) dp).bind ?_
  rintro s₂ ⟨hL, h₂⟩
  split
  · exact (iunlockput_tally_insert h₂ hL).bind fun s₃ h₃ => Meets.pure h₃
  refine (dirlookup_tally h₂ dp name).bind ?_
  rintro ⟨_ | ⟨ip, off⟩, s₃⟩ ⟨hnone, hsome⟩
  · exact (iunlockput_tally_insert (hnone rfl) hL).bind fun s₄ h₄ => Meets.pure h₄
  · exact unlinkEntry_tally (hsome ip off rfl) off

/-- What a function leaves that returns a locked inode, or none -/
structure Returned (H : Multiset (Fin NINODE)) (r : Option (Fin NINODE) × Fs NINODE) : Prop where
  none : r.1 = none → Tally r.2 H ∅
  some : ∀ ip, r.1 = some ip → Tally r.2 (ip ::ₘ H) {ip}

theorem Returned.of_none (h : Tally s H ∅) : Returned H (Option.none, s) :=
  ⟨fun _ => h, fun _ hr => nomatch hr⟩

theorem Returned.of_some (h : Tally s (ip ::ₘ H) {ip}) : Returned H (Option.some ip, s) := by
  refine ⟨fun hn => (nomatch hn), fun jp hr => ?_⟩
  cases hr
  exact h

theorem ialloc_tally (h : Tally s H L) (dev : ℕ) (type : UInt16) :
    Meets anyFault (s.ialloc dev type) fun r => Tally r.2 (r.1 ::ₘ H) L := by
  unfold ialloc
  split
  · exact Meets.error trivial
  · exact iget_tally (h.same (.setDisk dev _ s)) dev _

theorem createDots_tally (h : Tally s H L) (dp ip : Fin NINODE) :
    Meets anyFault (s.createDots dp ip) fun s' => Tally s' H L := by
  unfold createDots
  refine (dirlink_tally (h.same (.setNlink dp _ s)) ip dot _).bind ?_
  rintro ⟨r₁, s₁⟩ h₁
  dsimp only
  split
  · exact Meets.error trivial
  refine (dirlink_tally h₁ ip dotdot _).bind ?_
  rintro ⟨r₂, s₂⟩ h₂
  dsimp only
  split
  · exact Meets.error trivial
  · exact Meets.pure h₂

theorem createNew_tally (h : Tally s (dp ::ₘ H) {dp}) (name : List UInt8)
    (type major minor : UInt16) :
    Meets anyFault (s.createNew dp name type major minor) (Returned H) := by
  unfold createNew
  refine (ialloc_tally h _ type).bind ?_
  rintro ⟨ip, s₁⟩ h₁
  refine (ilock_tally h₁ ip).bind ?_
  rintro s₂ ⟨hL, h₂⟩
  have hne : ip ≠ dp := fun he => hL (Finset.mem_singleton.mpr he)
  refine (dirlink_tally (h₂.same (.store ip _ s₂)) dp name _).bind ?_
  rintro ⟨r, s₃⟩ h₃
  dsimp only at h₃ ⊢
  split
  · refine (iunlockput_tally_insert (h₃.same (.setCopy ip _ s₃)) hL).bind fun s₄ h₄ => ?_
    refine (iunlockput_tally_insert h₄ (Finset.notMem_empty dp)).bind fun s₅ h₅ => ?_
    exact Meets.pure (.of_none h₅)
  have hend : ∀ s₄, Tally s₄ (ip ::ₘ dp ::ₘ H) (insert ip {dp}) →
      Meets anyFault (do pure (some ip, ← s₄.iunlockput dp)) (Returned H) := by
    intro s₄ h₄
    rw [Multiset.cons_swap] at h₄
    refine (iunlockput_tally h₄).bind fun s₅ h₅ => Meets.pure (.of_some ?_)
    rwa [Finset.erase_insert_of_ne hne, Finset.erase_singleton] at h₅
  split
  · exact (createDots_tally h₃ dp ip).bind hend
  · exact hend s₃ h₃

theorem create_tally (h : Tally s H ∅) (cwd : Option (Fin NINODE)) (path : List UInt8)
    (canexist : Bool) (type major minor : UInt16) :
    Meets anyFault (s.create cwd path canexist type major minor) (Returned H) := by
  unfold create
  refine (nameiFrom_tally h true cwd path).bind ?_
  rintro ⟨_ | ⟨dp, name⟩, s₁⟩ ⟨hnone, hsome⟩
  · exact Meets.pure (.of_none (hnone rfl))
  refine (ilock_tally (hsome dp name rfl) dp).bind ?_
  rintro s₂ ⟨hL, h₂⟩
  split
  · refine (dirlookup_tally h₂ dp name).bind ?_
    rintro ⟨_ | ⟨ip, off⟩, s₃⟩ ⟨hnone, hsome⟩
    · exact createNew_tally (hnone rfl) name type major minor
    have h₃ := hsome ip off rfl
    rw [Multiset.cons_swap] at h₃
    refine (iunlockput_tally_insert h₃ hL).bind fun s₄ h₄ => ?_
    unfold createFound
    refine (ilock_tally h₄ ip).bind ?_
    rintro s₅ ⟨hL, h₅⟩
    dsimp only
    split
    · exact (iunlockput_tally_insert h₅ hL).bind fun s₆ h₆ => Meets.pure (.of_none h₆)
    · exact Meets.pure (.of_some h₅)
  · exact createNew_tally h₂ name type major minor

theorem sysMake_tally (h : Tally s H ∅) (cwd : Option (Fin NINODE)) (path : List UInt8)
    (type major minor : UInt16) :
    Meets anyFault (s.sysMake cwd path type major minor) fun r => Tally r.2 H ∅ := by
  unfold sysMake
  refine (create_tally h cwd path false type major minor).bind ?_
  rintro ⟨_ | ip, s₁⟩ hr
  · exact Meets.pure (hr.none rfl)
  · refine (iunlockput_tally_insert (L := ∅) (hr.some ip rfl) (Finset.notMem_empty ip)).bind ?_
    exact fun s₂ h₂ => Meets.pure h₂

theorem execFile_tally (h : Tally s H ∅) (cwd : Option (Fin NINODE)) (path : List UInt8) (r : ℤ) :
    Meets anyFault (s.execFile cwd path r) fun r => Tally r.2 H ∅ := by
  unfold execFile
  refine (namei_tally h cwd path).bind ?_
  rintro ⟨_ | ip, s₁⟩ ⟨hnone, hsome⟩
  · exact Meets.pure (hnone rfl)
  refine (ilock_tally (hsome ip rfl) ip).bind ?_
  rintro s₂ ⟨hL, h₂⟩
  exact (iunlockput_tally_insert h₂ hL).bind fun s₃ h₃ => Meets.pure h₃

theorem openInode_tally (h : Tally s H ∅) (cwd : Option (Fin NINODE)) (path : List UInt8)
    (omode : UInt32) : Meets anyFault (s.openInode cwd path omode) (Returned H) := by
  unfold openInode
  split
  · exact create_tally h cwd path true T_FILE 0 0
  refine (namei_tally h cwd path).bind ?_
  rintro ⟨_ | ip, s₁⟩ ⟨hnone, hsome⟩
  · exact Meets.pure (.of_none (hnone rfl))
  refine (ilock_tally (hsome ip rfl) ip).bind ?_
  rintro s₂ ⟨hL, h₂⟩
  split
  · exact (iunlockput_tally_insert h₂ hL).bind fun s₃ h₃ => Meets.pure (.of_none h₃)
  · exact Meets.pure (.of_some h₂)

theorem sysChdir_tally (h : Tally s H ∅) (hcwd : ∀ ip, cwd = some ip → ip ∈ H)
    (path : List UInt8) :
    Meets anyFault (s.sysChdir cwd path) fun r => (r.1 = none → Tally r.2 H ∅) ∧
      ∀ ip, r.1 = some ip → ∃ old, cwd = some old ∧ Tally r.2 (ip ::ₘ H.erase old) ∅ := by
  unfold sysChdir
  refine (namei_tally h cwd path).bind ?_
  rintro ⟨_ | ip, s₁⟩ ⟨hnone, hsome⟩
  · exact Meets.pure ⟨fun _ => hnone rfl, fun _ hr => nomatch hr⟩
  refine (ilock_tally (hsome ip rfl) ip).bind ?_
  rintro s₂ ⟨hL, h₂⟩
  split
  · refine (iunlockput_tally_insert h₂ hL).bind fun s₃ h₃ => ?_
    exact Meets.pure ⟨fun _ => h₃, fun _ hr => nomatch hr⟩
  refine (iunlock_tally h₂ ip).bind ?_
  rintro s₃ ⟨-, h₃⟩
  rw [Finset.erase_insert hL] at h₃
  cases cwd with
  | none => exact Meets.error trivial
  | some old =>
    rw [← Multiset.cons_erase (hcwd old rfl), Multiset.cons_swap] at h₃
    rw [deref_some, ok_bind]
    refine (iput_tally h₃ (by simp)).bind fun s₄ h₄ => ?_
    refine Meets.pure ⟨fun hn => (nomatch hn), fun jp hr => ?_⟩
    cases hr
    exact ⟨old, rfl, h₄⟩

/-- References and locks are counted, and nothing else matters. -/
def counts (NINODE : ℕ) : Discipline NINODE where
  before s H := Tally s H ∅
  holds := Tally
  frame _ _ _ := True
  fault := anyFault
  file _ _ := True
  unlinks _ _ _ := True

theorem counts_sound : (counts NINODE).Sound where
  weaken h := h
  frame_trans _ _ := trivial
  frame_file _ _ _ := trivial
  file_ref _ _ := trivial
  null := trivial
  panic _ := trivial
  idup h _ := ⟨idup_tally h _, trivial⟩
  ilock h _ := (ilock_tally h _).imp fun _ hs => ⟨hs.2, trivial⟩
  iunlock h _ := (iunlock_tally h _).imp fun s' hs => by
    rw [Finset.erase_singleton] at hs
    exact ⟨hs.2, trivial⟩
  iput h := (iput_tally h (by simp)).imp fun _ hs => ⟨hs, trivial⟩
  iunlockput h := (iunlockput_tally_insert (L := ∅) h (by simp)).imp fun _ hs => ⟨hs, trivial⟩
  readi {s H ip x n} driver _ _ _ _ := by
    cases s.readi driver ip x.off n with
    | ok r => exact Meets.pure trivial
    | error e => exact Meets.error trivial
  writei driver src h _ _ _ _ _ :=
    (writei_same driver _ src _ _ _).imp fun _ hr => ⟨h.same hr, trivial, trivial⟩
  sysLink old new h _ := (sysLink_tally h _ old new).imp fun _ hr => ⟨hr, trivial⟩
  sysUnlink path h _ _ := (sysUnlink_tally h _ path).imp fun _ hr => ⟨hr, trivial⟩
  sysMake path type major minor h _ _ :=
    (sysMake_tally h _ path type major minor).imp fun _ hr => ⟨hr, trivial⟩
  execFile path r h _ := (execFile_tally h _ path r).imp fun _ hr => ⟨hr, trivial⟩
  openInode path omode h _ := (openInode_tally h _ path omode).imp fun _ hr =>
    ⟨trivial, hr.none, fun ip hip => ⟨hr.some ip hip, fun _ => trivial⟩⟩
  sysChdir {s H old} path h := by
    have hcwd : ∀ ip, some old = some ip → ip ∈ old ::ₘ H := by
      intro ip hip
      cases hip
      exact Multiset.mem_cons_self old H
    refine (sysChdir_tally h hcwd path).imp fun r hr => ⟨trivial, hr.1, fun ip hip => ?_⟩
    obtain ⟨old', hold, ht⟩ := hr.2 ip hip
    cases hold
    rwa [Multiset.erase_cons_head] at ht
  chdir_null {s H} path h := by
    have hcwd : ∀ ip, (none : Option (Fin NINODE)) = some ip → ip ∈ H := by simp
    refine (sysChdir_tally h hcwd path).imp fun r hr => ?_
    have hnone : r.1 = none := by
      by_contra hsome
      obtain ⟨ip, hip⟩ := Option.ne_none_iff_exists'.mp hsome
      obtain ⟨old, hold, -⟩ := hr.2 ip hip
      cases hold
    exact ⟨trivial, hnone, hr.1 hnone⟩
  namei path h := (namei_tally h none path).imp fun _ hr => ⟨trivial, hr⟩

end Fs

namespace Files

variable [DecidableEq P] [Fintype P] {disk : ℕ → Disk} {k k' : Files NINODE NFILE NOFILE P}

theorem counts_step (h : (Fs.counts NINODE).Holds k) {a : P × FileCall P} (hs : k.Step a k') :
    (Fs.counts NINODE).Holds k' := by
  obtain ⟨r, hr⟩ := hs
  have hbefore : (Fs.counts NINODE).Before k := ⟨h.fs, h.file⟩
  exact (Fs.counts_sound.exec_meets hbefore a.1 a.2 fun _ _ _ _ => trivial).of_ok hr

/-- Between calls, `ref` counts the open files and the current directories, and no inode is
locked. -/
theorem ref_of_reach (hr : Reach Step (boot disk) k) (ip : Fin NINODE) :
    (k.fs.icache ip).ref =
      (Finset.univ.filter fun f => (k.file f).type = .inode ∧ (k.file f).ip = some ip).card +
      (Finset.univ.filter fun p => (k.task p).bind Task.cwd = some ip).card ∧
    (k.fs.icache ip).busy = false := by
  have h : (Fs.counts NINODE).Holds k := by
    refine hr.invariant (P := (Fs.counts NINODE).Holds) ?_ fun k a k' hk hs => counts_step hk hs
    refine ⟨?_, fun _ _ => trivial⟩
    rw [pointers_boot]
    exact ⟨fun _ => rfl, fun ip => by simp [boot, unusedInode], by simp⟩
  have htally : Fs.Tally k.fs k.pointers ∅ := h.fs
  refine ⟨?_, htally.not_busy (Finset.notMem_empty ip)⟩
  have hfile : ∀ f, (k.file f).pointer = some ip ↔
      (k.file f).type = .inode ∧ (k.file f).ip = some ip := by
    intro f
    unfold File.pointer
    split <;> simp_all
  rw [htally.ref ip, pointers, Multiset.count_add, count_gather, count_gather, Nat.cast_add]
  simp only [hfile]

/-- A process opens the root directory and forks: the root has two directories and one file. -/
theorem ref_after_fork : ∃ k : SmallFiles, Reach Step (boot fun _ => smallDisk rootDir) k ∧
    (k.fs.icache 0).ref = 3 ∧ (3 : ℤ) =
      (Finset.univ.filter fun f => (k.file f).type = .inode ∧ (k.file f).ip = some 0).card +
      (Finset.univ.filter fun p => (k.task p).bind Task.cwd = some 0).card := by
  obtain ⟨k, hr, h3⟩ : ∃ k : SmallFiles, Reach Step (boot fun _ => smallDisk rootDir) k ∧
      (k.fs.icache 0).ref = 3 := by
    refine exists_reach_of_script (fun _ _ => true) (fun k a k' _ hs => hs) []
      [(0, .start), (0, .openFile [47] 0), (0, .fork 1 2)] ?_
    decide +kernel
  refine ⟨k, hr, h3, ?_⟩
  rw [← h3]
  exact (ref_of_reach hr 0).1

end Files

end Xv6Shed
