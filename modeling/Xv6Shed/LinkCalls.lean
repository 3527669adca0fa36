import Xv6Shed.Paths

/-!
# `link` and `unlink`

`sys_link` raises the link count before it makes the entry and lowers it again if it cannot;
`sys_unlink` clears the entry before it lowers the count. In between the difference is a
credit of the inode.
-/

namespace Xv6Shed.Fs
open Function Bytes

variable {NINODE : ℕ} {sb : Superblock} {m : Mode} {c : ℕ → ℕ} {B B' i : ℕ}
  {H R : Multiset (Fin NINODE)} {L : Finset (Fin NINODE)} {dp ip : Fin NINODE} {s s' : Fs NINODE}
  {cwd : Option (Fin NINODE)}

theorem Inv.weaken (h : Inv m sb s H L c B) (hB : B ≤ B') : Inv m sb s H L c B' :=
  { h with linked := fun hm => (h.linked hm).weaken hB }

/-- One credit more for inode `i` -/
def give (c : ℕ → ℕ) (i : ℕ) : ℕ → ℕ := update c i (c i + 1)

theorem give_self (c : ℕ → ℕ) (i : ℕ) : give c i i = c i + 1 := update_self _ _ _

theorem take_give (c : ℕ → ℕ) (i : ℕ) : update (give c i) i (give c i i - 1) = c := by
  rw [give_self, Nat.add_sub_cancel, give, update_idem, update_eq_self]

theorem mem_cons_sub (ip : Fin NINODE) (H : Multiset (Fin NINODE)) : ∀ jp ∈ H, jp ∈ ip ::ₘ H :=
  fun _ hj => Multiset.mem_cons_of_mem hj

theorem linkBad_none_meets (h : Inv m sb s (ip ::ₘ H) ∅ (give c i) B)
    (hi : (s.icache ip).inum = i) (hv : (s.icache ip).valid = true)
    (hdir : (s.onDisk ip).type ≠ T_DIR) :
    Meets (Allowed m) (s.linkBad none ip) fun r => Inv m sb r.2 H ∅ c B ∧ Grow H s r.2 := by
  have hself := Multiset.mem_cons_self ip H
  unfold linkBad
  refine Meets.bind (Meets.pure rfl) (Q := (· = s)) ?_
  rintro _ rfl
  refine (ilock_meets h hself).bind ?_
  rintro s₁ ⟨h₁, hk₁, hdisk, -, hv₁⟩
  obtain ⟨hi₁, hkept⟩ := hk₁ ip hself
  obtain ⟨-, hd₁, -⟩ := hkept hv
  obtain ⟨h₂, hg₂⟩ := down_inv h₁ hself hv₁ (fun _ => by rw [hi₁, hi, give_self]; omega)
    (fun _ => by rwa [hd₁])
  rw [hi₁, hi, take_give] at h₂
  refine (release_meets h₂).bind ?_
  rintro s₃ ⟨h₃, hk₃⟩
  exact Meets.pure ⟨h₃, ((hk₁.grow.trans hg₂).mono (mem_cons_sub ip H)).trans hk₃.grow⟩

theorem linkBad_some_meets (h : Inv m sb s (dp ::ₘ ip ::ₘ H) (insert dp ∅) (give c i) B)
    (hi : (s.icache ip).inum = i) (hv : (s.icache ip).valid = true)
    (hdir : (s.onDisk ip).type ≠ T_DIR) :
    Meets (Allowed m) (s.linkBad (some dp) ip) fun r => Inv m sb r.2 H ∅ c B ∧ Grow H s r.2 := by
  have hself := Multiset.mem_cons_self ip H
  unfold linkBad
  refine (release_meets h).bind ?_
  rintro s₁ ⟨h₁, hk₁⟩
  obtain ⟨hi₁, hkept⟩ := hk₁ ip hself
  obtain ⟨hv₁, hd₁, -⟩ := hkept hv
  have := linkBad_none_meets h₁ (hi₁.trans hi) hv₁ (by rwa [hd₁])
  refine this.imp ?_
  rintro r ⟨h₂, hg₂⟩
  exact ⟨h₂, (hk₁.grow.mono (mem_cons_sub ip H)).trans hg₂⟩

theorem dirlink_credit_meets (h : Inv m sb s (dp ::ₘ ip ::ₘ H) L (give c i) B)
    (hi : (s.icache ip).inum = i) (hv : (s.icache dp).valid = true)
    (hdir : (s.onDisk ip).type ≠ T_DIR) (name : List UInt8) :
    Meets (Allowed m) (s.dirlink dp name (s.icache ip).inum) fun r =>
      (s.onDisk dp).type = T_DIR ∧
      (r.1 < 0 → Inv m sb r.2 (dp ::ₘ ip ::ₘ H) L (give c i) B ∧ Keep (dp ::ₘ ip ::ₘ H) s r.2) ∧
      (¬r.1 < 0 → Inv m sb r.2 (dp ::ₘ ip ::ₘ H) L c B ∧ Grow (dp ::ₘ ip ::ₘ H) s r.2) := by
  have hdp := Multiset.mem_cons_self dp (ip ::ₘ H)
  have hip : ip ∈ dp ::ₘ ip ::ₘ H := Multiset.mem_cons_of_mem (Multiset.mem_cons_self ip H)
  have hne : (s.onDisk dp).type = T_DIR → i ≠ (s.icache dp).inum := by
    intro hd he
    rw [← hi] at he
    rw [← h.one ip hip dp hdp he] at hd
    exact hdir hd
  refine dirlink_meets h hdp hv name (h.range ip hip) (fun hm => h.live_of_mem hm hip) ?_ ?_
  · intro _ hd
    rw [hi]
    exact .inr ⟨hne hd, by rw [give_self]; omega, (take_give c i).symm⟩
  · intro _ hd he
    rw [hi] at he
    exact absurd he (hne hd)

theorem linkName_meets (h : Inv m sb s (ip ::ₘ H) ∅ (give c i) B) (hi : (s.icache ip).inum = i)
    (hv : (s.icache ip).valid = true) (hdir : (s.onDisk ip).type ≠ T_DIR)
    (hcwd : ∀ jp, cwd = some jp → jp ∈ H) (new : List UInt8) :
    Meets (Allowed m) (s.linkName cwd ip new) fun r => Inv m sb r.2 H ∅ c B ∧ Grow H s r.2 := by
  have hself := Multiset.mem_cons_self ip H
  unfold linkName nameiparent
  refine (nameiFrom_meets h true (fun jp hj => Multiset.mem_cons_of_mem (hcwd jp hj)) new).bind ?_
  rintro ⟨_ | ⟨dp, name⟩, s₁⟩ ⟨hk₁, hnone, hsome⟩
  · obtain ⟨hi₁, hkept⟩ := hk₁ ip hself
    obtain ⟨hv₁, hd₁, -⟩ := hkept hv
    refine (linkBad_none_meets (hnone rfl) (hi₁.trans hi) hv₁ (by rwa [hd₁])).imp ?_
    rintro r ⟨h₂, hg₂⟩
    exact ⟨h₂, (hk₁.grow.mono (mem_cons_sub ip H)).trans hg₂⟩
  have h₁ := hsome dp name rfl
  have hdp := Multiset.mem_cons_self dp (ip ::ₘ H)
  have hip : ip ∈ dp ::ₘ ip ::ₘ H := Multiset.mem_cons_of_mem hself
  refine (ilock_meets h₁ hdp).bind ?_
  rintro s₂ ⟨h₂, hk₂, -, -, hv₂⟩
  have hk := hk₁.trans (hk₂.mono (mem_cons_sub dp _))
  obtain ⟨hi₂, hkept⟩ := hk ip hself
  obtain ⟨hvi, hdi, -⟩ := hkept hv
  dsimp only
  rw [if_neg (by rw [h₂.dev dp hdp, h₂.dev ip hip]; exact fun hne => hne rfl)]
  refine (dirlink_credit_meets h₂ (hi₂.trans hi) hv₂ (by rwa [hdi]) name).bind ?_
  rintro ⟨r, s₃⟩ ⟨-, hfail, hok⟩
  dsimp only at hfail hok ⊢
  by_cases hr : r < 0
  · rw [if_pos hr]
    obtain ⟨h₃, hk₃⟩ := hfail hr
    obtain ⟨hi₃, hkept₃⟩ := hk₃ ip hip
    obtain ⟨hv₃, hd₃, -⟩ := hkept₃ hvi
    refine (linkBad_some_meets h₃ (hi₃.trans (hi₂.trans hi)) hv₃ (by rwa [hd₃, hdi])).imp ?_
    rintro r ⟨h₄, hg₄⟩
    exact ⟨h₄, ((hk.trans (hk₃.mono (mem_cons_sub dp _))).grow.mono (mem_cons_sub ip H)).trans hg₄⟩
  · rw [if_neg hr]
    obtain ⟨h₃, hg₃⟩ := hok hr
    refine (release_meets h₃).bind ?_
    rintro s₄ ⟨h₄, hk₄⟩
    refine (iput_meets h₄ (by simp)).bind ?_
    rintro s₅ ⟨h₅, hk₅⟩
    exact Meets.pure ⟨h₅, (((hk.grow.trans (hg₃.mono (mem_cons_sub dp _))).trans hk₄.grow).mono
      (mem_cons_sub ip H)).trans hk₅.grow⟩

theorem sysLink_meets (h : Inv m sb s H ∅ c B) (hB : m ≠ .blocks → B < 65535)
    (hcwd : ∀ jp, cwd = some jp → jp ∈ H) (old new : List UInt8) :
    Meets (Allowed m) (s.sysLink cwd old new) fun r =>
      Inv m sb r.2 H ∅ c (B + 1) ∧ Grow H s r.2 := by
  unfold sysLink
  refine (namei_meets h hcwd old).bind ?_
  rintro ⟨_ | ip, s₁⟩ ⟨hk₁, hnone, hsome⟩
  · exact Meets.pure ⟨(hnone rfl).weaken (Nat.le_succ B), hk₁.grow⟩
  have h₁ := hsome ip rfl
  have hself := Multiset.mem_cons_self ip H
  refine (ilock_meets h₁ hself).bind ?_
  rintro s₂ ⟨h₂, hk₂, -, -, hv₂⟩
  have hk := hk₁.trans (hk₂.mono (mem_cons_sub ip H))
  rw [(h₂.type_eq hself hv₂).1]
  by_cases hdir : (s₂.onDisk ip).type = T_DIR
  · rw [if_pos hdir]
    refine (release_meets h₂).bind ?_
    rintro s₃ ⟨h₃, hk₃⟩
    exact Meets.pure ⟨h₃.weaken (Nat.le_succ B), (hk.trans hk₃).grow⟩
  · rw [if_neg hdir]
    obtain ⟨h₃, hg₃⟩ := up_inv h₂ hself hv₂ hB
    refine (iunlock_meets h₃ hself).bind ?_
    rintro s₄ ⟨h₄, hk₄, -⟩
    rw [Finset.erase_insert_eq_erase, Finset.erase_empty] at h₄
    have hg := hg₃.trans hk₄.grow
    obtain ⟨hi₄, hkept⟩ := hg ip hself
    obtain ⟨hv₄, ht₄, -⟩ := hkept hv₂
    refine (linkName_meets h₄ hi₄ hv₄ (by rwa [ht₄]) hcwd new).imp ?_
    rintro r ⟨h₅, hg₅⟩
    exact ⟨h₅, (hk.grow.trans (hg.mono (mem_cons_sub ip H))).trans hg₅⟩

theorem noEntries_meets (s : Fs NINODE) (ip : Fin NINODE) (n off : ℕ) :
    Meets (Allowed m) (s.noEntries ip n off) fun _ => True := by
  induction n generalizing off with
  | zero => exact Meets.pure trivial
  | succ n ih =>
    unfold noEntries
    refine (readi_meets s (-1) ip off 16).bind fun r _ => ?_
    dsimp only
    by_cases hr : r.1 ≠ 16
    · rw [if_pos hr]
      exact Meets.error (.panic (by decide))
    · rw [if_neg hr]
      split
      · exact Meets.pure trivial
      · exact ih _

/-- The inode that `sys_unlink` finds under a path, with the state in which it finds it -/
def unlinkTarget (cwd : Option (Fin NINODE)) (path : List UInt8) (s : Fs NINODE) :
    Except Fault (Option (Fin NINODE × Fs NINODE)) := do
  match ← s.nameiparent cwd path with
  | (none, _) => pure none
  | (some (dp, name), s) =>
    let s ← s.ilock dp
    if name = dot ∨ name = dotdot then pure none
    else
      match ← s.dirlookup dp name with
      | (none, _) => pure none
      | (some (ip, _), s) => pure (some (ip, s))

/-- The path leads to an empty directory, which `sys_unlink` removes. -/
def UnlinksDir (cwd : Option (Fin NINODE)) (path : List UInt8) (s : Fs NINODE) : Prop :=
  ∃ ip s₁ s₂, s.unlinkTarget cwd path = .ok (some (ip, s₁)) ∧ s₁.ilock ip = .ok s₂ ∧
    (s₂.onDisk ip).type = T_DIR ∧ s₂.isdirempty ip = .ok true

section Unlink

variable {k : ℕ} (h : Inv m sb s (ip ::ₘ dp ::ₘ H) (insert ip (insert dp ∅)) c B) (hne : ip ≠ dp)
  (hvi : (s.icache ip).valid = true) (hvd : (s.icache dp).valid = true)

include h hne hvi hvd

section

variable (hdir : (s.onDisk dp).type = T_DIR) (hk : k < maxEntries)
  (hoff : 512 * (16 * k / 512) < (s.onDisk dp).size.toNat)
  (he : (s.entryOf dp k).inum.toNat = (s.icache ip).inum) (h0 : (s.icache ip).inum ≠ 0)
include hdir hk hoff he h0

theorem removeEntry_meets (hfile : m = .exact → (s.onDisk ip).type ≠ T_DIR) :
    Meets (Allowed m) (s.removeEntry dp ip (16 * k)) fun r =>
      Inv m sb r.2 H ∅ c B ∧ Grow H s r.2 := by
  have hip := Multiset.mem_cons_self ip (dp ::ₘ H)
  have hdp : dp ∈ ip ::ₘ dp ::ₘ H := Multiset.mem_cons_of_mem (Multiset.mem_cons_self dp H)
  have hd : IsDir sb (s.disk 1) (s.icache dp).inum := ⟨h.range dp hdp, hdir⟩
  have hentry : (graph sb (s.disk 1)).entry (s.icache dp).inum k = (s.icache ip).inum := by
    rw [graph_entry hd hk]
    exact he
  have hinum : (s.icache dp).inum ≠ (s.icache ip).inum :=
    fun hi => hne (h.one ip hip dp hdp hi.symm)
  have hwrite : Meets (Allowed m) (s.writei (-1) dp zeros (16 * k) 16) fun r => r.1 = 16 →
      Inv m sb r.2 (ip ::ₘ dp ::ₘ H) (insert ip (insert dp ∅)) (give c (s.icache ip).inum) B ∧
        Grow (ip ::ₘ dp ::ₘ H) s r.2 := by
    have hzero : Dirent.load zeros 0 = .zero := rfl
    refine writei_entry_meets h hdp hvd hdir hzero (.inr hoff) (Nat.zero_lt_of_lt hd.1) ?_ ?_ ?_
    · exact fun hm hk => (h.linked hm).remove hd.1 hk hentry h0 hinum
    · exact fun hm hk => (h.exact hm).remove (h.linked (by rw [hm]; decide)) hd.1 hk hentry hinum
    · intro hm _ hz
      exact absurd hz.symm ((h.linked (by rw [hm]; decide)).ne_zero (graph_live.mpr hd.live))
  unfold removeEntry
  refine hwrite.bind ?_
  rintro ⟨r, s₁⟩ hr
  dsimp only at hr ⊢
  by_cases h16 : r = 16
  · rw [if_neg (not_not.mpr h16)]
    obtain ⟨h₁, hg₁⟩ := hr h16
    rw [Multiset.cons_swap] at h₁
    refine (iunlockput_meets h₁).bind ?_
    rintro s₂ ⟨h₂, hk₂⟩
    rw [Finset.erase_insert_of_ne hne, Finset.erase_insert_eq_erase, Finset.erase_empty] at h₂
    have hself := Multiset.mem_cons_self ip H
    obtain ⟨hi₁, hkept₁⟩ := hg₁ ip hip
    obtain ⟨hv₁, ht₁, -⟩ := hkept₁ hvi
    obtain ⟨hi₂, hkept₂⟩ := hk₂ ip hself
    obtain ⟨hv₂, hd₂, -⟩ := hkept₂ hv₁
    obtain ⟨h₃, hg₃⟩ := down_inv h₂ hself hv₂ (fun _ => by rw [hi₂, hi₁, give_self]; omega)
      (fun hm => by rw [hd₂, ht₁]; exact hfile hm)
    rw [hi₂, hi₁, take_give] at h₃
    refine (release_meets h₃).bind ?_
    rintro s₄ ⟨h₄, hk₄⟩
    refine Meets.pure ⟨h₄, ?_⟩
    have hsub : ∀ jp ∈ ip ::ₘ H, jp ∈ ip ::ₘ dp ::ₘ H := fun jp hj =>
      Multiset.cons_subset_cons (Multiset.subset_cons H dp) hj
    exact (((hg₁.mono hsub).trans hk₂.grow).trans hg₃).mono (mem_cons_sub ip H) |>.trans hk₄.grow
  · rw [if_pos h16]
    exact Meets.error (.panic (by decide))

theorem removeOrKeep_meets (empty : Bool)
    (hfile : m = .exact → empty = true → (s.onDisk ip).type ≠ T_DIR) :
    Meets (Allowed m)
      (if empty = false then do
        let s ← s.iunlockput ip
        pure (-1, ← s.iunlockput dp)
      else s.removeEntry dp ip (16 * k)) fun r => Inv m sb r.2 H ∅ c B ∧ Grow H s r.2 := by
  by_cases hempty : empty = false
  · rw [if_pos hempty]
    refine (iunlockput_meets h).bind ?_
    rintro s₁ ⟨h₁, hk₁⟩
    rw [Finset.erase_insert (by simpa using hne)] at h₁
    refine (release_meets h₁).bind ?_
    rintro s₂ ⟨h₂, hk₂⟩
    exact Meets.pure ⟨h₂, ((hk₁.mono (mem_cons_sub dp H)).trans hk₂).grow⟩
  · rw [if_neg hempty]
    exact removeEntry_meets h hne hvi hvd hdir hk hoff he h0 fun hm =>
      hfile hm (Bool.eq_true_of_not_eq_false hempty)

end

end Unlink

theorem unlinkEntry_meets {k : ℕ} (h : Inv m sb s (ip ::ₘ dp ::ₘ H) (insert dp ∅) c B)
    (hv : (s.icache dp).valid = true) (hdir : (s.onDisk dp).type = T_DIR) (hk : k < maxEntries)
    (hoff : 512 * (16 * k / 512) < (s.onDisk dp).size.toNat)
    (he : (s.entryOf dp k).inum.toNat = (s.icache ip).inum) (h0 : (s.icache ip).inum ≠ 0)
    (hfile : m = .exact → ∀ s', s.ilock ip = .ok s' → s'.isdirempty ip = .ok true →
      (s'.onDisk ip).type ≠ T_DIR) :
    Meets (Allowed m) (s.unlinkEntry dp ip (16 * k)) fun r =>
      Inv m sb r.2 H ∅ c B ∧ Grow H s r.2 := by
  have hip := Multiset.mem_cons_self ip (dp ::ₘ H)
  have hdp : dp ∈ ip ::ₘ dp ::ₘ H := Multiset.mem_cons_of_mem (Multiset.mem_cons_self dp H)
  unfold unlinkEntry
  refine (ilock_meets h hip).bind_eq ?_
  rintro s₁ hx₁ ⟨h₁, hk₁, -, hL, hv₁⟩
  have hne : ip ≠ dp := fun hi => hL (by rw [hi]; exact Finset.mem_insert_self _ _)
  obtain ⟨hi₁, -⟩ := hk₁ ip hip
  obtain ⟨-, hkept⟩ := hk₁ dp hdp
  obtain ⟨hvd, hd₁, hent⟩ := hkept hv
  rw [← hd₁] at hdir hoff
  rw [← hent] at he
  rw [← hi₁] at he h0
  have hend := fun empty hfile =>
    (removeOrKeep_meets h₁ hne hv₁ hvd hdir hk hoff he h0 empty hfile).imp fun r hr =>
      And.intro hr.1 ((hk₁.grow.mono fun jp hj =>
        Multiset.mem_cons_of_mem (Multiset.mem_cons_of_mem hj)).trans hr.2)
  by_cases hn : short (s₁.icache ip).d.nlink < 1
  · rw [if_pos hn]
    exact Meets.error (.panic (by decide))
  rw [if_neg hn]
  by_cases hd : (s₁.icache ip).d.type = T_DIR
  · rw [if_pos hd]
    refine (noEntries_meets s₁ ip _ _).bind_eq fun empty hx _ => hend empty fun hm hempty => ?_
    exact hfile hm s₁ hx₁ (hempty ▸ hx)
  · rw [if_neg hd]
    refine hend true fun _ _ => ?_
    rwa [h₁.copy ip hip hv₁] at hd

theorem sysUnlink_meets (h : Inv m sb s H ∅ c B) (hcwd : ∀ jp, cwd = some jp → jp ∈ H)
    (path : List UInt8) (hfile : m = .exact → ¬s.UnlinksDir cwd path) :
    Meets (Allowed m) (s.sysUnlink cwd path) fun r => Inv m sb r.2 H ∅ c B ∧ Grow H s r.2 := by
  unfold sysUnlink
  refine (nameiFrom_meets h true hcwd path).bind_eq ?_
  rintro ⟨_ | ⟨dp, name⟩, s₁⟩ hx₁ ⟨hk₁, hnone, hsome⟩
  · exact Meets.pure ⟨hnone rfl, hk₁.grow⟩
  have h₁ := hsome dp name rfl
  have hdp := Multiset.mem_cons_self dp H
  refine (ilock_meets h₁ hdp).bind_eq ?_
  rintro s₂ hx₂ ⟨h₂, hk₂, -, -, hv₂⟩
  have hk := hk₁.trans (hk₂.mono (mem_cons_sub dp H))
  have hgive : Meets (Allowed m) (do pure ((-1 : ℤ), ← s₂.iunlockput dp)) fun r =>
      Inv m sb r.2 H ∅ c B ∧ Grow H s r.2 := by
    refine (release_meets h₂).bind ?_
    rintro s₃ ⟨h₃, hk₃⟩
    exact Meets.pure ⟨h₃, (hk.trans hk₃).grow⟩
  by_cases hdots : name = dot ∨ name = dotdot
  · rw [if_pos hdots]
    exact hgive
  rw [if_neg hdots]
  refine (dirlookup_meets h₂ hdp hv₂ name).bind_eq ?_
  rintro ⟨_ | ⟨ip, off⟩, s₃⟩ hx₃ ⟨hdir, hnone, hsome⟩
  · obtain rfl : s₃ = s₂ := hnone rfl
    exact hgive
  obtain ⟨h₃, hk₃, hdisk, k, rfl, hk', hoff, he, h0⟩ := hsome ip off rfl
  obtain ⟨-, hkept⟩ := hk₃ dp hdp
  obtain ⟨hv₃, hd₃, hent⟩ := hkept hv₂
  have htarget : s.unlinkTarget cwd path = .ok (some (ip, s₃)) := by
    unfold unlinkTarget nameiparent
    rw [hx₁, ok_bind]
    dsimp only
    rw [hx₂, ok_bind, if_neg hdots, hx₃, ok_bind]
    rfl
  refine (unlinkEntry_meets h₃ hv₃ (by rwa [hd₃]) hk' (by rwa [hd₃]) (by rwa [hent]) h0
    fun hm s₄ hx₄ hempty hd => hfile hm ⟨ip, s₃, s₄, htarget, hx₄, hd, hempty⟩).imp ?_
  rintro r ⟨h₄, hg₄⟩
  exact ⟨h₄, (hk.trans (hk₃.mono (mem_cons_sub dp H))).grow.trans hg₄⟩

end Xv6Shed.Fs
