import Xv6Shed.LinkCalls

/-!
# Calls that create and open files

`create` takes a free inode, gives it a link count of 1 and then its name; if the name is
there already the inode is freed again. Until the count is stored the new inode has no links,
so exact link counts are only claimed again from then on.
-/

namespace Xv6Shed

/-- What is kept of links while a new inode has none -/
def Mode.weak : Mode → Mode
  | .exact => .names
  | m => m

variable {m : Mode}

theorem Mode.weak_ne_exact : m.weak ≠ .exact := by
  cases m <;> decide

theorem Mode.weak_blocks : m.weak = .blocks ↔ m = .blocks := by
  cases m <;> decide

theorem Allowed.of_weak {e : Fault} (h : Allowed m.weak e) : Allowed m e :=
  fun hm => h fun hw => hm (Mode.weak_blocks.mp hw)

namespace Fs
open Function Bytes

variable {NINODE B i : ℕ} {sb : Superblock} {H : Multiset (Fin NINODE)} {L : Finset (Fin NINODE)}
  {dp ip : Fin NINODE} {s s' s₁ : Fs NINODE} {cwd r : Option (Fin NINODE)} {c : ℕ → ℕ}
  {type : UInt16}

/-- Between calls all link counts are where they belong. -/
abbrev noCredit : ℕ → ℕ := fun _ => 0

theorem update_noCredit (i : ℕ) : update noCredit i 0 = noCredit := by
  funext j
  by_cases h : j = i
  · rw [h, update_self]
  · rw [update_of_ne h]

theorem Inv.weak (h : Inv m sb s H L c B) : Inv m.weak sb s H L c B where
  toCounted := h.toCounted
  small hm := h.small fun he => hm (Mode.weak_blocks.mpr he)
  nlink hm := h.nlink fun he => hm (Mode.weak_blocks.mpr he)
  linked hm := h.linked fun he => hm (Mode.weak_blocks.mpr he)
  exact hm := absurd hm Mode.weak_ne_exact
  fresh hm := absurd hm Mode.weak_ne_exact
  tidy hm := absurd hm Mode.weak_ne_exact

theorem setDisk_self (s : Fs NINODE) (x : Disk) : (s.setDisk 1 x).disk 1 = x := by
  simp only [setDisk, update_self]

theorem Inv.keep_of_replaced {d : Dinode} (h : Inv m sb s H L c B)
    (hdead : (dinode (s.disk 1) i).type = 0)
    (r : Replaced sb (dinode (s.disk 1)) i (s.disk 1) d (s'.disk 1))
    (hslot : ∀ jp ∈ H, (s'.icache jp).inum = (s.icache jp).inum ∧
      ((s.icache jp).valid = true → (s'.icache jp).valid = true)) : Keep H s s' := by
  intro jp hj
  obtain ⟨hi, hvalid⟩ := hslot jp hj
  refine ⟨hi, fun hv => ⟨hvalid hv, ?_⟩⟩
  have hne : (s.icache jp).inum ≠ i := by
    intro he
    have := h.live jp hj hv
    rw [onDisk, he] at this
    exact this hdead
  refine ⟨?_, fun k => ?_⟩
  · rw [onDisk, hi]
    exact r.inodes _ (h.range jp hj) hne
  · rw [entryOf, onDisk, hi]
    exact ent_replaced r hne ⟨h.range jp hj, h.live jp hj hv⟩ k

section Alloc

variable {d : Dinode} (hi : i < sb.ninodes) (h0 : i ≠ 0) (hdead : (dinode (s.disk 1) i).type = 0)
  (ha : ∀ j, d.addrs j = 0) {c : ℕ → ℕ}

include hi hdead ha

theorem Inv.alloc_replaced (h : Inv m sb s H L c B) :
    Replaced sb (dinode (s.disk 1)) i (s.disk 1) d (setDinode (s.disk 1) i d) :=
  h.healthy.alloc_replaced hi hdead ha

theorem Inv.alloc_keep (h : Inv m sb s H L c B) :
    Keep H s (s.setDisk 1 (setDinode (s.disk 1) i d)) := by
  have r := h.alloc_replaced hi hdead ha
  rw [← s.setDisk_self (setDinode (s.disk 1) i d)] at r
  exact h.keep_of_replaced hdead r fun jp _ => ⟨rfl, id⟩

theorem Inv.alloc (h : Inv m sb s H L noCredit B) (hm : m ≠ .exact) (h0 : i ≠ 0)
    (ht : d.type ≠ 0) (hn : d.nlink = 0) (hs : d.size = 0) :
    Inv m sb (s.setDisk 1 (setDinode (s.disk 1) i d)) H L noCredit B := by
  have r := h.alloc_replaced hi hdead ha
  have hkeep := h.alloc_keep hi hdead ha
  have hent : ∀ k, (d.ent (setDinode (s.disk 1) i d) k).inum = 0 := ent_zero ha
  have hgraph := graph_alloc r hi ht hent
  have hdisk := s.setDisk_self (setDinode (s.disk 1) i d)
  refine ⟨⟨?_, h.root, h.count, h.sub, h.busy, h.dev, h.range, h.one, ?_, ?_⟩, h.small, ?_, ?_,
    fun he => absurd he hm, fun he => absurd he hm, fun he => absurd he hm⟩
  · rw [hdisk]
    refine h.healthy.replace r (fun _ k hk => ?_) fun _ k _ => ?_
    · rw [hs] at hk
      exact absurd hk (Nat.not_lt_zero _)
    · rw [hent]
      exact Nat.zero_lt_of_lt hi
  · intro jp hj hv
    rw [((hkeep jp hj).2 hv).2.1]
    exact h.copy jp hj hv
  · intro jp hj hv
    rw [((hkeep jp hj).2 hv).2.1]
    exact h.live jp hj hv
  · intro hm jp hj hv
    rw [((hkeep jp hj).2 hv).2.1]
    exact h.nlink hm jp hj hv
  · intro hm
    rw [hdisk, hgraph, hn]
    have hfree : (graph sb (s.disk 1)).live i = false :=
      Bool.eq_false_iff.mpr fun hl => (graph_live.mp hl).2 hdead
    rw [← update_noCredit i]
    exact (h.linked hm).alloc hfree h0 (Nat.zero_le B)

end Alloc

/-- After `ialloc`: `ip` is a pointer to an inode that was free in state `s`. -/
structure Young (m : Mode) (sb : Superblock) (s : Fs NINODE) (H : Multiset (Fin NINODE))
    (L : Finset (Fin NINODE)) (B : ℕ) (type : UInt16) (ip : Fin NINODE) (s' : Fs NINODE) :
    Prop where
  inv : Inv m.weak sb s' (ip ::ₘ H) L noCredit B
  keep : Keep H s s'
  dead : (dinode (s.disk 1) (s'.icache ip).inum).type = 0
  pos : (s'.icache ip).inum ≠ 0
  disk : s'.disk 1 = setDinode (s.disk 1) (s'.icache ip).inum { Dinode.zero with type := type }

theorem ialloc_meets (h : Inv m sb s H L noCredit B) (ht : type ≠ 0) :
    Meets (Allowed m) (s.ialloc 1 type) fun r => Young m sb s H L B type r.1 r.2 := by
  unfold ialloc
  rw [h.healthy.volume.super]
  cases hf : Bytes.first (fun i => (dinode (s.disk 1) i).type == 0) (sb.ninodes - 1) 1 with
  | none => exact Meets.error (.panic (by decide))
  | some i =>
    obtain ⟨h₁, h₂, hdead⟩ := first_eq_some hf
    have hdead : (dinode (s.disk 1) i).type = 0 := by simpa using hdead
    have hi : i < sb.ninodes := by omega
    have ha : ∀ j, ({ Dinode.zero with type := type } : Dinode).addrs j = 0 := fun _ => rfl
    have hinv := h.weak.alloc hi hdead ha Mode.weak_ne_exact (by omega) ht rfl rfl
    have hkeep := h.alloc_keep hi hdead ha
    have hdisk := s.setDisk_self (setDinode (s.disk 1) i { Dinode.zero with type := type })
    refine ((iget_meets hinv hi (fun _ => ⟨hi, ?_⟩)
      fun he => absurd he Mode.weak_ne_exact).weaken fun _ => Allowed.of_weak).imp ?_
    · rw [hdisk, dinode_setDinode]
      exact ht
    · rintro ⟨ip, s'⟩ ⟨h', hk', hd', rfl⟩
      refine ⟨h', hkeep.trans hk', hdead, by dsimp only at h₁ ⊢; omega, ?_⟩
      dsimp only at hd' ⊢
      rw [hd', hdisk]

/-- A new inode, locked, with its link count as a credit -/
structure Made (m : Mode) (sb : Superblock) (s : Fs NINODE) (H : Multiset (Fin NINODE))
    (L : Finset (Fin NINODE)) (B : ℕ) (type : UInt16) (ip : Fin NINODE) (s' : Fs NINODE) :
    Prop where
  inv : Inv m sb s' (ip ::ₘ H) (insert ip L) (give noCredit (s'.icache ip).inum) B
  keep : Keep H s s'
  valid : (s'.icache ip).valid = true
  fresh : m ≠ .blocks → ip ∉ H
  type : (s'.onDisk ip).type = type
  nlink : (s'.onDisk ip).nlink = 1
  entries : ∀ k, (s'.entryOf ip k).inum = 0

theorem Young.made {s₂ : Fs NINODE} (h : Inv m sb s H L noCredit B) (hB : m ≠ .blocks → 1 ≤ B)
    (y : Young m sb s H L B type ip s₁) (ht : type ≠ 0)
    (h₂ : Inv m.weak sb s₂ (ip ::ₘ H) (insert ip L) noCredit B) (hk₂ : Keep (ip ::ₘ H) s₁ s₂)
    (hdisk₂ : s₂.disk = s₁.disk) (hv₂ : (s₂.icache ip).valid = true) (major minor : UInt16) :
    Made m sb s H L B type ip ((s₂.setCopy ip
      { (s₂.icache ip).d with major := major, minor := minor, nlink := 1 }).iupdate ip) := by
  have hself := Multiset.mem_cons_self ip H
  have hi₂ := (hk₂ ip hself).1
  have hi := h₂.range ip hself
  have hond : s₂.onDisk ip = { Dinode.zero with type := type } := by
    rw [onDisk, hdisk₂, y.disk, hi₂, dinode_setDinode]
  have hcopy := h₂.copy ip hself hv₂
  rw [hond] at hcopy
  generalize hd :
    ({ (s₂.icache ip).d with major := major, minor := minor, nlink := 1 } : Dinode) = d
  have hd' : d = { Dinode.zero with type := type, major := major, minor := minor, nlink := 1 } := by
    rw [← hd, hcopy]
  have hdt : d.type = type := by rw [hd']
  have hdn : d.nlink = 1 := by rw [hd']
  have hda : ∀ j, d.addrs j = 0 := by
    intro j
    rw [hd']
    rfl
  have hdisk : ((s₂.setCopy ip d).iupdate ip).disk 1 =
      setDinode (s₂.disk 1) (s₂.icache ip).inum d := by
    rw [setCopy_iupdate, h₂.put_disk_one hself, h₂.dev ip hself]
  have hlinks : (graph sb (s₂.disk 1)).links (s₂.icache ip).inum = 0 := by
    have hl : Live sb (dinode (s₂.disk 1)) (s₂.icache ip).inum := ⟨hi, h₂.live ip hself hv₂⟩
    rw [graph_links hl]
    exact congrArg (fun x : Dinode => x.nlink.toNat) hond
  have hup : Inv m.weak sb ((s₂.setCopy ip d).iupdate ip) (ip ::ₘ H) (insert ip L)
      (give noCredit (s₂.icache ip).inum) B ∧
      Grow (ip ::ₘ H) s₂ ((s₂.setCopy ip d).iupdate ip) := by
    refine iupdate_inv h₂ hself hv₂ (by rw [hond, hdt]) (by rw [hond, hd']) (by rw [hond, hd'])
      (fun hm => ?_) fun hm => absurd hm Mode.weak_ne_exact
    have hm' : m ≠ .blocks := fun he => hm (Mode.weak_blocks.mpr he)
    have := (h₂.linked hm).up (i := (s₂.icache ip).inum) (by rw [hlinks]; exact hB hm')
      (Nat.le_refl B)
    rw [hlinks] at this
    rw [hdn]
    exact this
  obtain ⟨hinv, hgrow⟩ := hup
  generalize ht' : (s₂.setCopy ip d).iupdate ip = t at hinv hgrow hdisk ⊢
  obtain ⟨hit, hkept⟩ := hgrow ip hself
  have hslot : ∀ jp ∈ H, (t.icache jp).inum = (s.icache jp).inum ∧
      ((s.icache jp).valid = true → (t.icache jp).valid = true) := by
    intro jp hj
    obtain ⟨e₁, v₁⟩ := y.keep jp hj
    obtain ⟨e₂, v₂⟩ := hk₂ jp (Multiset.mem_cons_of_mem hj)
    obtain ⟨e₃, v₃⟩ := hgrow jp (Multiset.mem_cons_of_mem hj)
    exact ⟨e₃.trans (e₂.trans e₁), fun hv => (v₃ (v₂ (v₁ hv).1).1).1⟩
  have hdead := y.dead
  have hpos := y.pos
  rw [← hi₂] at hdead hpos
  -- seen from state `s`, one free inode comes into use
  have r : Replaced sb (dinode (s.disk 1)) (s₂.icache ip).inum (s.disk 1) d (t.disk 1) := by
    have hvol := h.healthy.volume.alloc (fun hl => hl.2 hdead) hda
    rw [hdisk, hdisk₂, y.disk, hi₂]
    rw [hi₂] at hvol hi
    exact ((Keeps.refl (s.disk 1)).toOthers.setDinode hvol hi _).replaced (hvol.setDinode hi _) hi
  have hkeep := h.keep_of_replaced hdead r hslot
  have hondt : t.onDisk ip = d := by rw [onDisk, hit, r.self]
  have hent : ∀ k, (t.entryOf ip k).inum = 0 := by
    intro k
    rw [entryOf, hondt]
    exact ent_zero hda k
  have hfresh : m ≠ .blocks → ip ∉ H := by
    intro hm hj
    have := (h.live_of_mem hm hj).2
    rw [← (hslot ip hj).1, hit] at this
    exact this hdead
  rw [← hit] at hinv
  refine ⟨⟨hinv.toCounted, h.small, fun hm => hinv.nlink fun he => hm (Mode.weak_blocks.mp he),
    fun hm => hinv.linked fun he => hm (Mode.weak_blocks.mp he), ?_, ?_, ?_⟩, hkeep, (hkept hv₂).1,
    hfresh, by rw [hondt, hdt], by rw [hondt, hdn], hent⟩
  · intro hm
    have hm' : m ≠ .blocks := by
      rw [hm]
      decide
    have hnotdir : ¬IsDir sb (s.disk 1) (s₂.icache ip).inum := fun hd => hd.live.2 hdead
    have hfree : (graph sb (s.disk 1)).live (s₂.icache ip).inum = false :=
      Bool.eq_false_iff.mpr fun hl => (graph_live.mp hl).2 hdead
    have halloc : Exact sb.ninodes maxEntries
        ((graph sb (s.disk 1)).alloc (s₂.icache ip).inum (decide (d.type = T_DIR)) 1) (s.Held H)
        (update noCredit (s₂.icache ip).inum 1) :=
      (h.exact hm).alloc (h.linked hm') hfree hpos (graph_entry_of_not hnotdir) (by decide)
    rw [graph_alloc r hi (by rw [hdt]; exact ht) (ent_zero hda), hdn, hit]
    refine halloc.hold ?_
    rintro x ⟨jp, hj, hx⟩
    exact .inl ⟨jp, Multiset.mem_cons_of_mem hj, (hslot jp hj).1.trans hx⟩
  · intro hm jp hjp hv
    rcases Multiset.mem_cons.mp hjp with rfl | hj
    · rw [(hkept hv₂).1] at hv
      cases hv
    · have hm' : m ≠ .blocks := by
        rw [hm]
        decide
      have hne : (s.icache jp).inum ≠ (s₂.icache ip).inum := by
        intro he
        have := (h.live_of_mem hm' hj).2
        rw [he] at this
        exact this hdead
      rw [onDisk, (hslot jp hj).1, r.inodes _ (h.range jp hj) hne]
      refine h.fresh hm jp hj (Bool.eq_false_iff.mpr fun hvs => ?_)
      rw [(hslot jp hj).2 hvs] at hv
      cases hv
  · intro hm
    refine (h.tidy hm).replace r (fun _ k _ => ent_zero hda k) fun _ _ k hk => ?_
    rw [ent_zero hda] at hk
    exact absurd hk.symm hpos

theorem createDots_meets (h : Inv m sb s (ip ::ₘ dp ::ₘ H) L noCredit B)
    (hvi : (s.icache ip).valid = true) (hvd : (s.icache dp).valid = true)
    (hne : m ≠ .blocks → (s.icache dp).inum ≠ (s.icache ip).inum) (hB : m ≠ .blocks → B < 65535) :
    Meets (Allowed m) (s.createDots dp ip) fun s' =>
      Inv m sb s' (ip ::ₘ dp ::ₘ H) L noCredit (B + 1) ∧ Grow (ip ::ₘ dp ::ₘ H) s s' := by
  have hip := Multiset.mem_cons_self ip (dp ::ₘ H)
  have hdp : dp ∈ ip ::ₘ dp ::ₘ H := Multiset.mem_cons_of_mem (Multiset.mem_cons_self dp H)
  unfold createDots
  obtain ⟨h₁, hg₁⟩ := up_inv h hdp hvd hB
  generalize s.setNlink dp ((s.icache dp).d.nlink + 1) = s₁ at h₁ hg₁ ⊢
  obtain ⟨hi₁, hkept₁⟩ := hg₁ ip hip
  obtain ⟨hj₁, -⟩ := hg₁ dp hdp
  have hv₁ := (hkept₁ hvi).1
  rw [← hi₁, ← hj₁] at hne
  rw [← hj₁] at h₁
  change Inv m sb s₁ _ L (give noCredit (s₁.icache dp).inum) (B + 1) at h₁
  refine Meets.bind (Q := fun r => ¬r.1 < 0 →
      Inv m sb r.2 (ip ::ₘ dp ::ₘ H) L (give noCredit (s₁.icache dp).inum) (B + 1) ∧
        Grow (ip ::ₘ dp ::ₘ H) s₁ r.2)
    ((dirlink_meets h₁ hip hv₁ dot (h₁.range ip hip) (fun hm => h₁.live_of_mem hm hip)
      (fun _ _ => .inl ⟨rfl, rfl⟩) fun _ _ _ => rfl).imp fun _ hr => hr.2.2) ?_
  rintro ⟨r₂, s₂⟩ hr₂
  dsimp only at hr₂ ⊢
  by_cases hneg₂ : r₂ < 0
  · rw [if_pos hneg₂]
    exact Meets.error (.panic (by decide))
  rw [if_neg hneg₂]
  obtain ⟨h₂, hg₂⟩ := hr₂ hneg₂
  obtain ⟨hi₂, hkept₂⟩ := hg₂ ip hip
  obtain ⟨hj₂, -⟩ := hg₂ dp hdp
  rw [← hi₂, ← hj₂] at hne
  rw [← hj₂] at h₂
  refine Meets.bind (Q := fun r => ¬r.1 < 0 →
      Inv m sb r.2 (ip ::ₘ dp ::ₘ H) L noCredit (B + 1) ∧ Grow (ip ::ₘ dp ::ₘ H) s₂ r.2)
    ((dirlink_meets h₂ hip (hkept₂ hv₁).1 dotdot (h₂.range dp hdp)
      (fun hm => h₂.live_of_mem hm hdp) (fun hm _ => .inr ⟨hne hm, ?_, (take_give _ _).symm⟩)
      fun hm _ he => absurd he (hne (by rw [hm]; decide))).imp fun _ hr => hr.2.2) ?_
  · rw [give_self]
    omega
  rintro ⟨r₃, s₃⟩ hr₃
  dsimp only at hr₃ ⊢
  by_cases hneg₃ : r₃ < 0
  · rw [if_pos hneg₃]
    exact Meets.error (.panic (by decide))
  rw [if_neg hneg₃]
  obtain ⟨h₃, hg₃⟩ := hr₃ hneg₃
  exact Meets.pure ⟨h₃, (hg₁.trans hg₂).trans hg₃⟩

/-- What a call that creates or finds a file leaves: nothing, or a locked inode of that type -/
structure Opened (m : Mode) (sb : Superblock) (s : Fs NINODE) (H : Multiset (Fin NINODE)) (B : ℕ)
    (type : UInt16 → Prop) (r : Option (Fin NINODE)) (s' : Fs NINODE) : Prop where
  grow : Grow H s s'
  fail : r = none → Inv m sb s' H ∅ noCredit B
  inode : ∀ ip, r = some ip → Inv m sb s' (ip ::ₘ H) (insert ip ∅) noCredit B ∧
    (s'.icache ip).valid = true ∧ type (s'.onDisk ip).type

section Name

variable {type : UInt16} {t : Fs NINODE} (hmade : Made m sb s (dp ::ₘ H) (insert dp ∅) B type ip t)
  (hipdp : ip ≠ dp)

include hmade hipdp

theorem Made.inum_ne : (t.icache ip).inum ≠ (t.icache dp).inum :=
  fun he => hipdp (hmade.inv.one ip (Multiset.mem_cons_self ip _) dp
    (Multiset.mem_cons_of_mem (Multiset.mem_cons_self dp H)) he)

theorem Made.dirlink_meets (hvd : (t.icache dp).valid = true) (name : List UInt8) :
    Meets (Allowed m) (t.dirlink dp name (t.icache ip).inum) fun r =>
      (r.1 < 0 → Inv m sb r.2 (ip ::ₘ dp ::ₘ H) (insert ip (insert dp ∅))
        (give noCredit (t.icache ip).inum) B ∧ Keep (ip ::ₘ dp ::ₘ H) t r.2) ∧
      (¬r.1 < 0 → Inv m sb r.2 (ip ::ₘ dp ::ₘ H) (insert ip (insert dp ∅)) noCredit B ∧
        Grow (ip ::ₘ dp ::ₘ H) t r.2) := by
  have hself := Multiset.mem_cons_self ip (dp ::ₘ H)
  have hdp : dp ∈ ip ::ₘ dp ::ₘ H := Multiset.mem_cons_of_mem (Multiset.mem_cons_self dp H)
  have hne := hmade.inum_ne hipdp
  exact (Fs.dirlink_meets hmade.inv hdp hvd name (hmade.inv.range ip hself)
    (fun hm => hmade.inv.live_of_mem hm hself)
    (fun _ _ => .inr ⟨hne, by rw [give_self]; omega, (take_give _ _).symm⟩)
    fun _ _ he => absurd he hne).imp fun _ hr => hr.2

theorem Made.discard_meets {s₃ : Fs NINODE}
    (h₃ : Inv m sb s₃ (ip ::ₘ dp ::ₘ H) (insert ip (insert dp ∅))
      (give noCredit (t.icache ip).inum) B)
    (hk₃ : Keep (ip ::ₘ dp ::ₘ H) t s₃) :
    Meets (Allowed m) ((s₃.setCopy ip { (s₃.icache ip).d with nlink := 0 }).iunlockput ip) fun s' =>
      Inv m sb s' (dp ::ₘ H) (insert dp ∅) noCredit B ∧ Keep (dp ::ₘ H) s₃ s' := by
  obtain ⟨hi₃, hkept₃⟩ := hk₃ ip (Multiset.mem_cons_self ip _)
  obtain ⟨hv₃, hd₃, hent₃⟩ := hkept₃ hmade.valid
  refine (Fs.discard_meets h₃ hv₃ hmade.fresh (fun _ => ?_) fun _ => ?_).imp ?_
  · rw [hd₃, hmade.nlink, hi₃, give_self]
    exact Nat.le_refl 1
  · refine graph_entry_zero fun k => ?_
    have := hent₃ k
    rw [entryOf] at this
    exact (congrArg Dirent.inum this).trans (hmade.entries k)
  · rintro s₄ ⟨h₄, hk₄⟩
    rw [Finset.erase_insert (by simpa using hipdp), hi₃, give, update_idem, update_noCredit] at h₄
    exact ⟨h₄, hk₄⟩

end Name

theorem Young.ne (h : Inv m sb s H L noCredit B) (y : Young m sb s H L B type ip s₁) (hdp : dp ∈ H)
    (hv : (s.icache dp).valid = true) : ip ≠ dp := by
  rintro rfl
  have := h.live ip hdp hv
  rw [onDisk, ← (y.keep ip hdp).1] at this
  exact this y.dead

theorem createNew_meets (h : Inv m sb s (dp ::ₘ H) (insert dp ∅) noCredit B)
    (hv : (s.icache dp).valid = true) (hB : m ≠ .blocks → 1 ≤ B ∧ B < 65535) (ht : type ≠ 0)
    (name : List UInt8) (major minor : UInt16) :
    Meets (Allowed m) (s.createNew dp name type major minor) fun r =>
      Opened m sb s H (B + 1) (· = type) r.1 r.2 := by
  have hdp := Multiset.mem_cons_self dp H
  unfold createNew
  rw [h.dev dp hdp]
  refine (ialloc_meets h ht).bind ?_
  rintro ⟨ip, s₁⟩ y
  have hself := Multiset.mem_cons_self ip (dp ::ₘ H)
  have hdp' : dp ∈ ip ::ₘ dp ::ₘ H := Multiset.mem_cons_of_mem hdp
  refine ((ilock_meets y.inv hself).weaken fun _ => Allowed.of_weak).bind ?_
  rintro s₂ ⟨h₂, hk₂, hdisk₂, -, hv₂⟩
  have hmade := Young.made h (fun hm => (hB hm).1) y ht h₂ hk₂ hdisk₂ hv₂ major minor
  dsimp only at hmade ⊢
  generalize (s₂.setCopy ip _).iupdate ip = t at hmade ⊢
  obtain ⟨-, hkept⟩ := hmade.keep dp hdp
  obtain ⟨hvd, -⟩ := hkept hv
  have hipdp := y.ne h hdp hv
  refine (hmade.dirlink_meets hipdp hvd name).bind ?_
  rintro ⟨r₃, s₃⟩ ⟨hfail, hok⟩
  dsimp only at hfail hok ⊢
  have hkeep : Grow H s t := (hmade.keep.mono (mem_cons_sub dp H)).grow
  by_cases hneg : r₃ < 0
  · -- the name is there: the new inode goes again
    rw [if_pos hneg]
    obtain ⟨h₃, hk₃⟩ := hfail hneg
    refine (hmade.discard_meets hipdp h₃ hk₃).bind ?_
    rintro s₄ ⟨h₄, hk₄⟩
    refine (release_meets h₄).bind ?_
    rintro s₅ ⟨h₅, hk₅⟩
    refine Meets.pure ⟨?_, fun _ => h₅.weaken (Nat.le_succ B),
      fun _ hr => (Option.some_ne_none _ hr.symm).elim⟩
    exact ((hkeep.trans (hk₃.mono fun jp hj => Multiset.mem_cons_of_mem
      (Multiset.mem_cons_of_mem hj)).grow).trans (hk₄.mono (mem_cons_sub dp H)).grow).trans hk₅.grow
  · rw [if_neg hneg]
    obtain ⟨h₃, hg₃⟩ := hok hneg
    have hend : ∀ s₄, Inv m sb s₄ (ip ::ₘ dp ::ₘ H) (insert ip (insert dp ∅)) noCredit (B + 1) ∧
        Grow (ip ::ₘ dp ::ₘ H) s₃ s₄ →
        Meets (Allowed m) (do pure (some ip, ← s₄.iunlockput dp)) fun r =>
          Opened m sb s H (B + 1) (· = type) r.1 r.2 := by
      rintro s₄ ⟨h₄, hg₄⟩
      have hg := hg₃.trans hg₄
      obtain ⟨-, hkept₄⟩ := hg ip hself
      obtain ⟨hv₄, ht₄, -⟩ := hkept₄ hmade.valid
      rw [Multiset.cons_swap] at h₄
      refine (iunlockput_meets h₄).bind ?_
      rintro s₅ ⟨h₅, hk₅⟩
      rw [Finset.erase_insert_of_ne hipdp, Finset.erase_insert_eq_erase, Finset.erase_empty] at h₅
      obtain ⟨-, hkept₅⟩ := hk₅ ip (Multiset.mem_cons_self ip H)
      obtain ⟨hv₅, hd₅, -⟩ := hkept₅ hv₄
      refine Meets.pure ⟨?_, fun hr => (Option.some_ne_none _ hr).elim, ?_⟩
      · exact (hkeep.trans (hg.mono fun jp hj => Multiset.mem_cons_of_mem
          (Multiset.mem_cons_of_mem hj))).trans (hk₅.mono (mem_cons_sub ip H)).grow
      · intro jp hr
        cases hr
        exact ⟨h₅, hv₅, by rw [hd₅, ht₄, hmade.type]⟩
    by_cases hdir : type = T_DIR
    · rw [if_pos hdir]
      obtain ⟨hi₃, hkept₃⟩ := hg₃ ip hself
      obtain ⟨hj₃, hkeptd⟩ := hg₃ dp hdp'
      refine (createDots_meets h₃ (hkept₃ hmade.valid).1 (hkeptd hvd).1 (fun _ => ?_)
        fun hm => (hB hm).2).bind hend
      rw [hi₃, hj₃]
      exact (hmade.inum_ne hipdp).symm
    · rw [if_neg hdir]
      exact hend s₃ ⟨h₃.weaken (Nat.le_succ B), (Keep.refl _ s₃).grow⟩

theorem createFound_meets (h : Inv m sb s (ip ::ₘ H) ∅ noCredit B) (type major minor : UInt16) :
    Meets (Allowed m) (s.createFound ip type major minor) fun r =>
      Opened m sb s H B (· = type) r.1 r.2 := by
  have hself := Multiset.mem_cons_self ip H
  unfold createFound
  refine (ilock_meets h hself).bind ?_
  rintro s₁ ⟨h₁, hk₁, -, -, hv₁⟩
  dsimp only
  by_cases hother : (s₁.icache ip).d.type ≠ type ∨ (s₁.icache ip).d.major ≠ major ∨
      (s₁.icache ip).d.minor ≠ minor
  · rw [if_pos hother]
    refine (release_meets h₁).bind ?_
    rintro s₂ ⟨h₂, hk₂⟩
    exact Meets.pure ⟨((hk₁.mono (mem_cons_sub ip H)).trans hk₂).grow, fun _ => h₂,
      fun _ hr => nomatch hr⟩
  · rw [if_neg hother]
    refine Meets.pure ⟨(hk₁.mono (mem_cons_sub ip H)).grow, fun hr => (nomatch hr), ?_⟩
    intro jp hr
    cases hr
    refine ⟨h₁, hv₁, ?_⟩
    rw [← (h₁.type_eq hself hv₁).1]
    exact not_not.mp fun hne => hother (.inl hne)

theorem Opened.weaken {B' : ℕ} {type : UInt16 → Prop} (h : Opened m sb s H B type r s')
    (hB : B ≤ B') : Opened m sb s H B' type r s' :=
  ⟨h.grow, fun hr => (h.fail hr).weaken hB, fun ip hr => by
    obtain ⟨hi, hrest⟩ := h.inode ip hr
    exact ⟨hi.weaken hB, hrest⟩⟩

theorem Opened.after {type : UInt16 → Prop} {s₀ : Fs NINODE} (h : Opened m sb s H B type r s')
    (hg : Grow H s₀ s) : Opened m sb s₀ H B type r s' :=
  ⟨hg.trans h.grow, h.fail, h.inode⟩

section

variable (h : Inv m sb s H ∅ noCredit B) (hB : m ≠ .blocks → 1 ≤ B ∧ B < 65535)
  (hcwd : ∀ jp, cwd = some jp → jp ∈ H) (path : List UInt8)
include h hB hcwd path

theorem create_meets (canexist : Bool) (ht : type ≠ 0) (major minor : UInt16) :
    Meets (Allowed m) (s.create cwd path canexist type major minor) fun r =>
      Opened m sb s H (B + 1) (· = type) r.1 r.2 := by
  unfold create nameiparent
  refine (nameiFrom_meets h true hcwd path).bind ?_
  rintro ⟨_ | ⟨dp, name⟩, s₁⟩ ⟨hk₁, hnone, hsome⟩
  · exact Meets.pure ⟨hk₁.grow, fun _ => (hnone rfl).weaken (Nat.le_succ B), fun _ hr => nomatch hr⟩
  have h₁ := hsome dp name rfl
  have hdp := Multiset.mem_cons_self dp H
  refine (ilock_meets h₁ hdp).bind ?_
  rintro s₂ ⟨h₂, hk₂, -, -, hv₂⟩
  have hk := hk₁.trans (hk₂.mono (mem_cons_sub dp H))
  have hnew : Meets (Allowed m) (s₂.createNew dp name type major minor) fun r =>
      Opened m sb s H (B + 1) (· = type) r.1 r.2 :=
    (createNew_meets h₂ hv₂ hB ht name major minor).imp fun _ hr => hr.after hk.grow
  by_cases hcan : canexist = true
  · rw [if_pos hcan]
    refine (dirlookup_meets h₂ hdp hv₂ name).bind ?_
    rintro ⟨_ | ⟨ip, off⟩, s₃⟩ ⟨-, hnone, hsome⟩
    · obtain rfl : s₃ = s₂ := hnone rfl
      exact hnew
    · obtain ⟨h₃, hk₃, -⟩ := hsome ip off rfl
      rw [Multiset.cons_swap] at h₃
      refine (release_meets h₃).bind ?_
      rintro s₄ ⟨h₄, hk₄⟩
      refine (createFound_meets h₄ type major minor).imp fun _ hr => ?_
      exact (hr.weaken (Nat.le_succ B)).after ((hk.trans (hk₃.mono (mem_cons_sub dp H))).trans
        (hk₄.mono (mem_cons_sub ip H))).grow
  · rw [if_neg hcan]
    exact hnew

theorem sysMake_meets (ht : type ≠ 0) (major minor : UInt16) :
    Meets (Allowed m) (s.sysMake cwd path type major minor) fun r =>
      Inv m sb r.2 H ∅ noCredit (B + 1) ∧ Grow H s r.2 := by
  unfold sysMake
  refine (create_meets h hB hcwd path false ht major minor).bind ?_
  rintro ⟨_ | ip, s₁⟩ hr
  · exact Meets.pure ⟨hr.fail rfl, hr.grow⟩
  · obtain ⟨h₁, -⟩ := hr.inode ip rfl
    refine (release_meets h₁).bind ?_
    rintro s₂ ⟨h₂, hk₂⟩
    exact Meets.pure ⟨h₂, hr.grow.trans hk₂.grow⟩

end

theorem execFile_meets (h : Inv m sb s H ∅ c B) (hcwd : ∀ jp, cwd = some jp → jp ∈ H)
    (path : List UInt8) (r : ℤ) :
    Meets (Allowed m) (s.execFile cwd path r) fun r => Inv m sb r.2 H ∅ c B ∧ Grow H s r.2 := by
  unfold execFile
  refine (namei_meets h hcwd path).bind ?_
  rintro ⟨_ | ip, s₁⟩ ⟨hk₁, hnone, hsome⟩
  · exact Meets.pure ⟨hnone rfl, hk₁.grow⟩
  · refine (ilock_meets (hsome ip rfl) (Multiset.mem_cons_self ip H)).bind ?_
    rintro s₂ ⟨h₂, hk₂, -⟩
    refine (release_meets h₂).bind ?_
    rintro s₃ ⟨h₃, hk₃⟩
    exact Meets.pure ⟨h₃, ((hk₁.trans (hk₂.mono (mem_cons_sub ip H))).trans hk₃).grow⟩

/-- A mode that `sys_open` makes a writable file of -/
def Writes (omode : UInt32) : Prop := omode &&& 1 ≠ 0 ∨ omode &&& 2 ≠ 0

theorem Writes.and_three {omode : UInt32} (h : Writes omode) : omode &&& 3 ≠ 0 := by
  intro h3
  have h₁ : omode &&& 1 = (omode &&& 3) &&& 1 := by rw [UInt32.and_assoc]; rfl
  have h₂ : omode &&& 2 = (omode &&& 3) &&& 2 := by rw [UInt32.and_assoc]; rfl
  rw [h3] at h₁ h₂
  rcases h with h | h
  · exact h (h₁.trans rfl)
  · exact h (h₂.trans rfl)

theorem openInode_meets (h : Inv m sb s H ∅ noCredit B) (hB : m ≠ .blocks → 1 ≤ B ∧ B < 65535)
    (hcwd : ∀ jp, cwd = some jp → jp ∈ H) (path : List UInt8) (omode : UInt32) :
    Meets (Allowed m) (s.openInode cwd path omode) fun r =>
      Opened m sb s H (B + 1) (fun type => Writes omode → type ≠ T_DIR) r.1 r.2 := by
  unfold openInode
  by_cases hcreate : omode &&& 0x200 ≠ 0
  · rw [if_pos hcreate]
    refine (create_meets h hB hcwd path true (by decide) 0 0).imp fun r hr =>
      ⟨hr.grow, hr.fail, fun ip hip => ?_⟩
    obtain ⟨h₁, hv₁, ht₁⟩ := hr.inode ip hip
    exact ⟨h₁, hv₁, fun _ => by rw [ht₁]; decide⟩
  rw [if_neg hcreate]
  refine (namei_meets h hcwd path).bind ?_
  rintro ⟨_ | ip, s₁⟩ ⟨hk₁, hnone, hsome⟩
  · exact Meets.pure ⟨hk₁.grow, fun _ => (hnone rfl).weaken (Nat.le_succ B), fun _ hr => nomatch hr⟩
  have hself := Multiset.mem_cons_self ip H
  refine (ilock_meets (hsome ip rfl) hself).bind ?_
  rintro s₂ ⟨h₂, hk₂, -, -, hv₂⟩
  have hk := hk₁.trans (hk₂.mono (mem_cons_sub ip H))
  rw [(h₂.type_eq hself hv₂).1]
  by_cases hdir : (s₂.onDisk ip).type = T_DIR ∧ omode &&& 3 ≠ 0
  · rw [if_pos hdir]
    refine (release_meets h₂).bind ?_
    rintro s₃ ⟨h₃, hk₃⟩
    exact Meets.pure ⟨(hk.trans hk₃).grow, fun _ => h₃.weaken (Nat.le_succ B),
      fun _ hr => nomatch hr⟩
  · rw [if_neg hdir]
    refine Meets.pure ⟨hk.grow, fun hr => (nomatch hr), ?_⟩
    intro jp hr
    cases hr
    exact ⟨h₂.weaken (Nat.le_succ B), hv₂, fun hw hd => hdir ⟨hd, hw.and_three⟩⟩

theorem sysChdir_meets {old : Fin NINODE} (h : Inv m sb s (old ::ₘ H) ∅ c B) (path : List UInt8) :
    Meets (Allowed m) (s.sysChdir (some old) path) fun r => Grow H s r.2 ∧
      (r.1 = none → Inv m sb r.2 (old ::ₘ H) ∅ c B) ∧
      ∀ ip, r.1 = some ip → Inv m sb r.2 (ip ::ₘ H) ∅ c B := by
  have hcwd : ∀ jp, some old = some jp → jp ∈ old ::ₘ H := by
    rintro jp hj
    cases hj
    exact Multiset.mem_cons_self old H
  have hsub := mem_cons_sub old H
  unfold sysChdir
  refine (namei_meets h hcwd path).bind ?_
  rintro ⟨_ | ip, s₁⟩ ⟨hk₁, hnone, hsome⟩
  · exact Meets.pure ⟨(hk₁.mono hsub).grow, fun _ => hnone rfl, fun _ hr => nomatch hr⟩
  have hself := Multiset.mem_cons_self ip (old ::ₘ H)
  refine (ilock_meets (hsome ip rfl) hself).bind ?_
  rintro s₂ ⟨h₂, hk₂, -⟩
  have hk := hk₁.trans (hk₂.mono (mem_cons_sub ip _))
  by_cases hdir : (s₂.icache ip).d.type ≠ T_DIR
  · rw [if_pos hdir]
    refine (release_meets h₂).bind ?_
    rintro s₃ ⟨h₃, hk₃⟩
    exact Meets.pure ⟨((hk.trans hk₃).mono hsub).grow, fun _ => h₃, fun _ hr => nomatch hr⟩
  · rw [if_neg hdir]
    refine (iunlock_meets h₂ hself).bind ?_
    rintro s₃ ⟨h₃, hk₃, -⟩
    rw [Finset.erase_insert_eq_erase, Finset.erase_empty, Multiset.cons_swap] at h₃
    rw [deref_some, ok_bind]
    refine (iput_meets h₃ (by simp)).bind ?_
    rintro s₄ ⟨h₄, hk₄⟩
    refine Meets.pure ⟨?_, fun hr => (nomatch hr), ?_⟩
    · exact (((hk.trans (hk₃.mono (mem_cons_sub ip _))).mono hsub).trans
        (hk₄.mono (mem_cons_sub ip H))).grow
    · intro jp hr
      cases hr
      exact h₄

end Fs

end Xv6Shed
