import Xv6Shed.Inodes

/-!
# Stores to inodes

What the calls write to an inode that they have locked: its link count, the bytes of a file,
and one entry of a directory.
-/

namespace Xv6Shed.Fs
open Function Bytes

variable {NINODE B B' off n : ℕ} {sb : Superblock} {m : Mode} {c c' : ℕ → ℕ}
  {H : Multiset (Fin NINODE)} {L : Finset (Fin NINODE)} {ip : Fin NINODE} {s : Fs NINODE}
  {d : Dinode} {disk : Disk} {src : Buffer}

theorem Inv.put_disk_one (h : Inv m sb s H L c B) (hip : ip ∈ H) (d : Dinode) (disk : Disk) :
    (s.put ip d disk).disk 1 = disk := by
  have := s.put_disk ip d disk
  rwa [h.dev ip hip] at this

theorem Inv.put {d' : Dinode} (h : Inv m sb s H L c B) (hip : ip ∈ H)
    (hv : (s.icache ip).valid = true)
    (r : Replaced sb (dinode (s.disk 1)) (s.icache ip).inum (s.disk 1) d' disk)
    (hd : d = { d' with nlink := d.nlink }) (hs : m ≠ .blocks → d = d')
    (ht : d'.type = (s.onDisk ip).type) (hsize : (s.onDisk ip).size.toNat ≤ d'.size.toNat)
    (hhealthy : Healthy sb disk)
    (hlinked : m ≠ .blocks → Linked sb.ninodes maxEntries (graph sb disk) (s.Held H) c' B')
    (hexact : m = .exact → Exact sb.ninodes maxEntries (graph sb disk) (s.Held H) c')
    (htidy : m = .exact → Tidy sb disk) :
    Inv m sb (s.put ip d disk) H L c' B' ∧ Grow H s (s.put ip d disk) := by
  have hdisk := h.put_disk_one hip d disk
  have hself : (s.put ip d disk).icache ip = { s.icache ip with d := d } := put_icache ..
  have hother : ∀ {jp}, jp ≠ ip → (s.put ip d disk).icache jp = s.icache jp :=
    fun hj => put_icache_of_ne hj d disk s
  have hinum : ∀ jp, ((s.put ip d disk).icache jp).inum = (s.icache jp).inum := by
    intro jp
    by_cases hji : jp = ip
    · rw [hji, hself]
    · rw [hother hji]
  have hond : (s.put ip d disk).onDisk ip = d' := by rw [onDisk, hdisk, hself, r.self]
  have honDisk : ∀ {jp}, jp ∈ H → jp ≠ ip → (s.put ip d disk).onDisk jp = s.onDisk jp := by
    intro jp hj hji
    rw [onDisk, hdisk, hinum, r.inodes _ (h.range jp hj) fun he => hji (h.one jp hj ip hip he)]
    rfl
  have hheld : (s.put ip d disk).Held H = s.Held H := by
    funext y
    exact propext (exists_congr fun jp => by rw [hinum])
  have htype := h.live ip hip hv
  generalize s.put ip d disk = t at *
  refine ⟨⟨⟨hdisk ▸ hhealthy, h.root, ?_, h.sub, ?_, ?_, ?_, ?_, ?_, ?_⟩, h.small, ?_, ?_, ?_, ?_,
    hdisk ▸ htidy⟩, ?_⟩
  · intro jp
    by_cases hji : jp = ip
    · rw [hji, hself]
      exact h.count ip
    · rw [hother hji]
      exact h.count jp
  · intro jp hj
    by_cases hji : jp = ip
    · rw [hji, hself]
      exact h.busy ip hip
    · rw [hother hji]
      exact h.busy jp hj
  · intro jp hj
    by_cases hji : jp = ip
    · rw [hji, hself]
      exact h.dev ip hip
    · rw [hother hji]
      exact h.dev jp hj
  · intro jp hj
    rw [hinum]
    exact h.range jp hj
  · intro jp hj kp hk
    rw [hinum, hinum]
    exact h.one jp hj kp hk
  · intro jp hj
    by_cases hji : jp = ip
    · rw [hji, hself, hond]
      exact fun _ => hd
    · rw [hother hji, honDisk hj hji]
      exact h.copy jp hj
  · intro jp hj
    by_cases hji : jp = ip
    · rw [hji, hond, ht]
      exact fun _ => htype
    · rw [hother hji, honDisk hj hji]
      exact h.live jp hj
  · intro hm jp hj
    by_cases hji : jp = ip
    · rw [hji, hself, hond]
      exact fun _ => by rw [hs hm]
    · rw [hother hji, honDisk hj hji]
      exact h.nlink hm jp hj
  · rw [hdisk, hheld]
    exact hlinked
  · rw [hdisk, hheld]
    exact hexact
  · intro hm jp hj
    by_cases hji : jp = ip
    · rw [hji, hself]
      exact fun hf => absurd (hv.symm.trans hf) (by decide)
    · rw [hother hji, honDisk hj hji]
      exact h.fresh hm jp hj
  · intro jp hj
    by_cases hji : jp = ip
    · rw [hji, hself, hond]
      exact ⟨rfl, fun _ => ⟨hv, ht, hsize⟩⟩
    · rw [hother hji, honDisk hj hji]
      exact ⟨rfl, fun hvj => ⟨hvj, rfl, Nat.le_refl _⟩⟩

theorem setCopy_iupdate (s : Fs NINODE) (ip : Fin NINODE) (d : Dinode) :
    (s.setCopy ip d).iupdate ip =
      s.put ip d (setDinode (s.disk (s.icache ip).dev) (s.icache ip).inum d) := by
  conv_lhs => rw [← s.put_self ip]
  rw [put_setCopy, put_iupdate]

section

variable (h : Inv m sb s H L c B) (hip : ip ∈ H) (hv : (s.icache ip).valid = true)
include h hip hv

theorem iupdate_inv (ht : d.type = (s.onDisk ip).type) (hsize : d.size = (s.onDisk ip).size)
    (ha : d.addrs = (s.onDisk ip).addrs) (hlinked : m ≠ .blocks → Linked sb.ninodes maxEntries
      ((graph sb (s.disk 1)).setLinks (s.icache ip).inum d.nlink.toNat) (s.Held H) c' B')
    (hexact : m = .exact → Exact sb.ninodes maxEntries
      ((graph sb (s.disk 1)).setLinks (s.icache ip).inum d.nlink.toNat) (s.Held H) c') :
    Inv m sb ((s.setCopy ip d).iupdate ip) H L c' B' ∧ Grow H s ((s.setCopy ip d).iupdate ip) := by
  have hl : Live sb (dinode (s.disk 1)) (s.icache ip).inum := ⟨h.range ip hip, h.live ip hip hv⟩
  have ht0 : d.type ≠ 0 := by
    rw [ht]
    exact hl.2
  rw [setCopy_iupdate, h.dev ip hip]
  obtain ⟨r, hb, hblock⟩ := h.healthy.setDinode_replaced hl ha ht0
  have hent := fun k => ent_congr hb k
  have hgraph := graph_setLinks r hl ht hent
  refine h.put hip hv r rfl (fun _ => rfl) ht (by rw [hsize]) (h.healthy.replace r ?_ ?_) ?_ ?_ ?_
  · intro _ k hk
    rw [hblock]
    rw [hsize] at hk
    exact h.healthy.mapped _ hl k hk
  · intro hdir k hk
    rw [hent]
    exact h.healthy.range _ ⟨hl.1, ht.symm.trans hdir⟩ k hk
  · rwa [hgraph]
  · rwa [hgraph]
  · intro hm
    refine (h.tidy hm).replace r (fun hdir k hk => ?_) fun hdir h1 k hk => ?_
    · rw [hsize] at hk
      rw [hent]
      exact (h.tidy hm).tail _ ⟨hl.1, ht.symm.trans hdir⟩ k hk
    · rw [hent] at hk ⊢
      exact (h.tidy hm).own _ ⟨hl.1, ht.symm.trans hdir⟩ h1 k hk

theorem setNlink_inv (n : UInt16) (hlinked : m ≠ .blocks → Linked sb.ninodes maxEntries
      ((graph sb (s.disk 1)).setLinks (s.icache ip).inum n.toNat) (s.Held H) c' B')
    (hexact : m = .exact → Exact sb.ninodes maxEntries
      ((graph sb (s.disk 1)).setLinks (s.icache ip).inum n.toNat) (s.Held H) c') :
    Inv m sb (s.setNlink ip n) H L c' B' ∧ Grow H s (s.setNlink ip n) := by
  have hcopy := h.copy ip hip hv
  refine iupdate_inv h hip hv ?_ ?_ ?_ hlinked hexact
  · rw [hcopy]
  · rw [hcopy]
  · rw [hcopy]

theorem up_inv (hB : m ≠ .blocks → B < 65535) :
    Inv m sb (s.setNlink ip ((s.icache ip).d.nlink + 1)) H L
        (update c (s.icache ip).inum (c (s.icache ip).inum + 1)) (B + 1) ∧
      Grow H s (s.setNlink ip ((s.icache ip).d.nlink + 1)) := by
  have hl : Live sb (dinode (s.disk 1)) (s.icache ip).inum := ⟨h.range ip hip, h.live ip hip hv⟩
  have hn : m ≠ .blocks → ((s.icache ip).d.nlink + 1).toNat =
      (graph sb (s.disk 1)).links (s.icache ip).inum + 1 ∧
      (graph sb (s.disk 1)).links (s.icache ip).inum ≤ B := by
    intro hm
    have hfew := (h.linked hm).few _ (graph_live.mpr hl)
    have := hB hm
    refine ⟨?_, hfew⟩
    rw [graph_links hl] at hfew ⊢
    rw [h.nlink hm ip hip hv, UInt16.toNat_add]
    exact Nat.mod_eq_of_lt (by change _ + 1 < 65536; unfold onDisk; omega)
  refine setNlink_inv h hip hv _ (fun hm => ?_) fun hm => ?_
  · rw [(hn hm).1]
    have := (hn hm).2
    exact (h.linked hm).up (by omega) (by omega)
  · rw [(hn (by rw [hm]; decide)).1]
    exact (h.exact hm).up

theorem down_inv (hc : m ≠ .blocks → 0 < c (s.icache ip).inum)
    (hdir : m = .exact → (s.onDisk ip).type ≠ T_DIR) :
    Inv m sb (s.setNlink ip ((s.icache ip).d.nlink - 1)) H L
        (update c (s.icache ip).inum (c (s.icache ip).inum - 1)) B ∧
      Grow H s (s.setNlink ip ((s.icache ip).d.nlink - 1)) := by
  have hl : Live sb (dinode (s.disk 1)) (s.icache ip).inum := ⟨h.range ip hip, h.live ip hip hv⟩
  have hn : m ≠ .blocks → ((s.icache ip).d.nlink - 1).toNat =
      (graph sb (s.disk 1)).links (s.icache ip).inum - 1 := by
    intro hm
    have hcount := (h.linked hm).counted _ (graph_live.mpr hl)
    have := hc hm
    rw [graph_links hl] at hcount ⊢
    rw [h.nlink hm ip hip hv, UInt16.toNat_sub_of_le]
    · rfl
    · rw [UInt16.le_iff_toNat_le]
      change 1 ≤ _
      unfold onDisk
      omega
  refine setNlink_inv h hip hv _ (fun hm => ?_) fun hm => ?_
  · rw [hn hm]
    exact (h.linked hm).down (hc hm)
  · have hm' : m ≠ .blocks := by
      rw [hm]
      decide
    rw [hn hm']
    refine (h.exact hm).down (hc hm') (Bool.eq_false_iff.mpr fun hd => ?_) ⟨ip, hip, rfl⟩
    exact hdir hm (graph_dir.mp hd).2

theorem writei_copy (hdev : (s.onDisk ip).type ≠ T_DEV) (driver : ℤ) (src : Buffer)
    (hoff : off ≤ (s.onDisk ip).size.toNat ∨ 0 < n ∧ 512 * (off / 512) < (s.onDisk ip).size.toNat)
    (hn : off + n < 2 ^ 32) :
    Meets (· = outOfBlocks) (s.writei driver ip src off n) fun r => ∃ d disk,
      r = (((min n (140 * 512 - off) : ℕ) : ℤ), s.put ip d disk) ∧
      Written sb (update (dinode (s.disk 1)) (s.icache ip).inum (s.icache ip).d) (s.icache ip).inum
        (s.disk 1) off (min n (140 * 512 - off)) src d disk := by
  have hl : Live sb (dinode (s.disk 1)) (s.icache ip).inum := ⟨h.range ip hip, h.live ip hip hv⟩
  have hcopy := h.copy ip hip hv
  have hdisk : s.disk (s.icache ip).dev = s.disk 1 := by rw [h.dev ip hip]
  generalize hd : (s.icache ip).d = d at hcopy
  have ha : d.addrs = (s.onDisk ip).addrs := by rw [hcopy]
  have ht : d.type = (s.onDisk ip).type := by rw [hcopy]
  have hsize : d.size = (s.onDisk ip).size := by rw [hcopy]
  have ht0 : d.type ≠ 0 := by
    rw [ht]
    exact hl.2
  have hmapped : Mapped d (s.disk 1) := by
    intro k hk
    rw [blockOf_congr fun _ => Dinode.ref_congr_addrs ha]
    rw [hsize] at hk
    exact h.healthy.mapped _ hl k hk
  have hvol := h.healthy.volume.fields hl ha ht0
  rw [← hdisk] at hvol hmapped ⊢
  refine writei_meets hvol (by rw [update_self, hd]) rfl (live_self hl.1 ht0) ?_ ?_ driver src ?_ hn
  · rwa [update_self, ht]
  · rwa [update_self]
  · rwa [update_self, hsize]

end

/-- What `writei` leaves of inode `i`, with `d` its copy in memory -/
structure Stored (m : Mode) (sb : Superblock) (disk : Disk) (i off n : ℕ) (src : Buffer)
    (d : Dinode)
    (disk' : Disk) : Prop extends Replaced sb (dinode disk) i disk (dinode disk' i) disk' where
  copy : d = { dinode disk' i with nlink := d.nlink }
  synced : m ≠ .blocks → d = dinode disk' i
  type : (dinode disk' i).type = (dinode disk i).type
  nlink : m ≠ .blocks → (dinode disk' i).nlink = (dinode disk i).nlink
  size : (dinode disk' i).size.toNat = max (dinode disk i).size.toNat (off + n)
  mapped : Mapped (dinode disk' i) disk'
  bytes : bytes (dinode disk' i) disk' = patch (bytes (dinode disk i) disk) off n src

theorem Inv.stored (h : Inv m sb s H L c B) (hip : ip ∈ H) (hv : (s.icache ip).valid = true)
    (w : Written sb (update (dinode (s.disk 1)) (s.icache ip).inum (s.icache ip).d)
      (s.icache ip).inum (s.disk 1) off n src d disk) :
    Stored m sb (s.disk 1) (s.icache ip).inum off n src d disk := by
  have hcopy := h.copy ip hip hv
  have hnlink := fun hm => h.nlink hm ip hip hv
  have hlive := h.live ip hip hv
  unfold onDisk at hcopy hnlink hlive
  have ht : (s.icache ip).d.type ≠ 0 := by
    rw [hcopy]
    exact hlive
  obtain ⟨r, hd, hs⟩ := w.replaced (h.range ip hip) hcopy ht
  have hsynced : m ≠ .blocks → d = dinode disk (s.icache ip).inum := by
    intro hm
    refine hs (hcopy.trans ?_)
    rw [hnlink hm]
  have hfields := w.fields
  have hsize := w.size
  have hbytes := w.bytes
  have hmapped := w.mapped
  rw [update_self] at hfields hsize hbytes
  generalize (s.icache ip).d = e at hfields hsize hbytes hcopy hnlink
  have ha : d.addrs = (dinode disk (s.icache ip).inum).addrs := by rw [hd]
  have hsz : d.size = (dinode disk (s.icache ip).inum).size := by rw [hd]
  have hty : d.type = (dinode disk (s.icache ip).inum).type := by rw [hd]
  refine ⟨r, hd, hsynced, ?_, ?_, ?_, ?_, ?_⟩
  · rw [← hty, hfields, hcopy]
  · intro hm
    rw [← hsynced hm, hfields, ← hnlink hm]
  · rw [← hsz, hsize, hcopy]
  · intro k hk
    rw [← hsz] at hk
    rw [← blockOf_congr fun _ => Dinode.ref_congr_addrs ha]
    exact hmapped k hk
  · rw [← bytes_congr_addrs ha, hbytes]
    have hae : e.addrs = (dinode (s.disk 1) (s.icache ip).inum).addrs := by rw [hcopy]
    rw [bytes_congr_addrs hae]

theorem outOfBlocks_allowed {e : Fault} (h : e = outOfBlocks) : Allowed m e := by
  rw [h]
  exact .panic (by decide)

theorem writei_file_meets (h : Inv m sb s H L c B) (hip : ip ∈ H) (hv : (s.icache ip).valid = true)
    (hdir : (s.onDisk ip).type ≠ T_DIR) (driver : ℤ) (src : Buffer)
    (hoff : (s.onDisk ip).type ≠ T_DEV → off ≤ (s.onDisk ip).size.toNat) (hlt : off < 2 ^ 32)
    (hn : n < 2 ^ 32) :
    Meets (Allowed m) (s.writei driver ip src off n) fun r => Inv m sb r.2 H L c B ∧
      Grow H s r.2 ∧ ((s.onDisk ip).type ≠ T_DEV → 0 < r.1 →
        off + r.1.toNat ≤ (r.2.onDisk ip).size.toNat) := by
  have hct : (s.icache ip).d.type = (s.onDisk ip).type := by rw [h.copy ip hip hv]
  by_cases hdev : (s.onDisk ip).type = T_DEV
  · unfold writei
    rw [hct, if_pos hdev]
    exact Meets.pure ⟨h, (Keep.refl H s).grow, fun hne => absurd hdev hne⟩
  by_cases hwrap : (off + n) % 2 ^ 32 < off
  · unfold writei
    rw [hct, if_neg hdev, if_pos hwrap]
    exact Meets.pure ⟨h, (Keep.refl H s).grow,
      fun _ hr => absurd (show (0 : ℤ) < -1 from hr) (by decide)⟩
  have hl : Live sb (dinode (s.disk 1)) (s.icache ip).inum := ⟨h.range ip hip, h.live ip hip hv⟩
  refine ((writei_copy h hip hv hdev driver src (.inl (hoff hdev)) (by omega)).weaken
    fun _ => outOfBlocks_allowed).imp ?_
  rintro _ ⟨d, disk, rfl, w⟩
  have hw : Stored m sb (s.disk 1) (s.icache ip).inum off (min n (140 * 512 - off)) src d disk :=
    h.stored hip hv w
  have hnd : (dinode disk (s.icache ip).inum).type ≠ T_DIR := by
    rw [hw.type]
    exact hdir
  have hgraph : m ≠ .blocks → graph sb disk = graph sb (s.disk 1) :=
    fun hm => graph_file hw.toReplaced hl hw.type hnd (hw.nlink hm)
  have hput : Inv m sb (s.put ip d disk) H L c B ∧ Grow H s (s.put ip d disk) := h.put hip hv
    hw.toReplaced hw.copy hw.synced hw.type (by rw [hw.size]; exact Nat.le_max_left _ _)
    (h.healthy.replace hw.toReplaced (fun _ => hw.mapped) fun hd => absurd hd hnd)
    (fun hm => by rw [hgraph hm]; exact h.linked hm)
    (fun hm => by rw [hgraph (by rw [hm]; decide)]; exact h.exact hm)
    fun hm => (h.tidy hm).replace hw.toReplaced (fun hd => absurd hd hnd) fun hd => absurd hd hnd
  refine ⟨hput.1, hput.2, fun _ _ => ?_⟩
  dsimp only
  rw [onDisk, h.put_disk_one hip, put_icache]
  dsimp only
  rw [hw.size]
  omega

theorem writei_entry_meets {k : ℕ} {de : Dirent} (h : Inv m sb s H L c B) (hip : ip ∈ H)
    (hv : (s.icache ip).valid = true) (hdir : (s.onDisk ip).type = T_DIR)
    (hde : Dirent.load src 0 = de) (hoff : 16 * k ≤ (s.onDisk ip).size.toNat ∨
      512 * (16 * k / 512) < (s.onDisk ip).size.toNat) (hrange : de.inum.toNat < sb.ninodes)
    (hlinked : m ≠ .blocks → k < maxEntries → Linked sb.ninodes maxEntries
      ((graph sb (s.disk 1)).setEntry (s.icache ip).inum k de.inum.toNat) (s.Held H) c' B)
    (hexact : m = .exact → k < maxEntries → Exact sb.ninodes maxEntries
      ((graph sb (s.disk 1)).setEntry (s.icache ip).inum k de.inum.toNat) (s.Held H) c')
    (hown : m = .exact → (s.icache ip).inum ≠ 1 → de.inum.toNat = (s.icache ip).inum →
      de.name = dot) :
    Meets (Allowed m) (s.writei (-1) ip src (16 * k) 16) fun r => r.1 = 16 →
      Inv m sb r.2 H L c' B ∧ Grow H s r.2 := by
  have hl : Live sb (dinode (s.disk 1)) (s.icache ip).inum := ⟨h.range ip hip, h.live ip hip hv⟩
  have hd : IsDir sb (s.disk 1) (s.icache ip).inum := ⟨hl.1, hdir⟩
  have hsize := (h.healthy.mapped _ hl).size_le
  unfold onDisk at hoff
  refine ((writei_copy h hip hv (by rw [hdir]; decide) (-1) src
    (hoff.imp_right fun ho => ⟨by decide, ho⟩) (by omega)).weaken
      fun _ => outOfBlocks_allowed).imp ?_
  rintro _ ⟨d, disk, rfl, w⟩ hr
  have hk : k < maxEntries := by
    dsimp only at hr
    unfold maxEntries
    omega
  rw [show min 16 (140 * 512 - 16 * k) = 16 by unfold maxEntries at hk; omega] at w
  have hw : Stored m sb (s.disk 1) (s.icache ip).inum (16 * k) 16 src d disk := h.stored hip hv w
  obtain ⟨hek, hother⟩ := ent_patch hw.bytes
  rw [hde] at hek
  have hgraph : m ≠ .blocks → graph sb disk =
      (graph sb (s.disk 1)).setEntry (s.icache ip).inum k de.inum.toNat := fun hm =>
    graph_setEntry hw.toReplaced hd (hw.type.trans hdir) (hw.nlink hm) hk hek fun k' _ => hother k'
  refine h.put hip hv hw.toReplaced hw.copy hw.synced hw.type
    (by rw [hw.size]; exact Nat.le_max_left _ _)
    (h.healthy.replace hw.toReplaced (fun _ => hw.mapped) fun _ k' hk' => ?_)
    (fun hm => by rw [hgraph hm]; exact hlinked hm hk)
    (fun hm => by rw [hgraph (by rw [hm]; decide)]; exact hexact hm hk)
    fun hm => (h.tidy hm).replace hw.toReplaced (fun _ k' hk' => ?_) fun _ h1 k' hk' => ?_
  · by_cases hkk : k' = k
    · rw [hkk, hek]
      exact hrange
    · rw [hother k' hkk]
      exact h.healthy.range _ hd k' hk'
  · rw [hw.size] at hk'
    rw [hother k' (by omega)]
    exact (h.tidy hm).tail _ hd k' (by omega)
  · by_cases hkk : k' = k
    · rw [hkk, hek] at hk' ⊢
      exact hown hm h1 hk'
    · rw [hother k' hkk] at hk' ⊢
      exact (h.tidy hm).own _ hd h1 k' hk'

end Xv6Shed.Fs
