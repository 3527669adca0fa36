import Xv6Shed.Image
import Xv6Shed.Transition
import Xv6Shed.Truncate

/-!
# Allocation and truncation, seen from the bitmap

`balloc` looks through whole blocks of the bitmap, so on a full disk it can return a block past
the end. `itrunc` gives back the direct blocks and what the indirect block lists, but not the
indirect block.
-/

namespace Xv6Shed
open Function Bytes

variable {NINODE : ℕ} {sb : Superblock} {disk disk' : Disk} {b x : ℕ} {d : Dinode}

namespace Fs

/-- What is asked of `balloc`: it panics if and only if all blocks of the disk are in use, and
otherwise returns the first that is not and sets its bit, which is all that changes. -/
structure Allocates (dev : ℕ) (s : Fs NINODE) : Prop where
  fault : ∀ e, s.balloc dev = .error e → e = outOfBlocks
  panics : (∃ e, s.balloc dev = .error e) ↔
    ∀ b < (readsb (s.disk dev)).size, marked (readsb (s.disk dev)) (s.disk dev) b = true
  returns : ∀ b s', s.balloc dev = .ok (b, s') →
    b < (readsb (s.disk dev)).size ∧ marked (readsb (s.disk dev)) (s.disk dev) b = false ∧
      ∀ c < b, marked (readsb (s.disk dev)) (s.disk dev) c = true
  memory : ∀ b s', s.balloc dev = .ok (b, s') → s'.icache = s.icache
  others : ∀ b s', s.balloc dev = .ok (b, s') → ∀ dev' x,
    (dev', x) ≠ (dev, BBLOCK b (readsb (s.disk dev)).ninodes) → s'.disk dev' x = s.disk dev' x
  bit : ∀ b s', s.balloc dev = .ok (b, s') → ∀ k,
    Bytes.bit (s'.disk dev (BBLOCK b (readsb (s.disk dev)).ninodes)) k =
      (decide (k = b % 4096) || Bytes.bit (s.disk dev (BBLOCK b (readsb (s.disk dev)).ninodes)) k)

theorem balloc_cases (s : Fs NINODE) (dev : ℕ) :
    (s.balloc dev = .error outOfBlocks ∧ ∀ b < (readsb (s.disk dev)).blocks,
      marked (readsb (s.disk dev)) (s.disk dev) b = true) ∨
    ∃ b, s.balloc dev = .ok (b, s.setDisk dev (mark (readsb (s.disk dev)) (s.disk dev) b)) ∧
      b < (readsb (s.disk dev)).blocks ∧ marked (readsb (s.disk dev)) (s.disk dev) b = false ∧
      ∀ c < b, marked (readsb (s.disk dev)) (s.disk dev) c = true := by
  unfold balloc
  cases hf : Bytes.first (fun b => !marked (readsb (s.disk dev)) (s.disk dev) b)
      (4096 * (((readsb (s.disk dev)).size + 4095) / 4096)) 0 with
  | none =>
    left
    simp only [hf]
    refine ⟨rfl, fun b hb => ?_⟩
    have := first_eq_none hf (Nat.zero_le b) (by rwa [Nat.zero_add])
    simpa using this
  | some b =>
    right
    simp only [hf]
    obtain ⟨-, hb, ht⟩ := first_eq_some hf
    refine ⟨b, rfl, ?_, ?_, fun c hc => ?_⟩
    · rwa [Nat.zero_add] at hb
    · simpa using ht
    · have := first_lt hf (Nat.zero_le c) hc
      simpa using this

/-- `balloc` stays on the disk if and only if a block is free, or the bits past the end are set up
to the end of their block of the bitmap. -/
theorem allocates_iff (s : Fs NINODE) (dev : ℕ) : s.Allocates dev ↔
    (∃ b < (readsb (s.disk dev)).size, marked (readsb (s.disk dev)) (s.disk dev) b = false) ∨
      ∀ b < (readsb (s.disk dev)).blocks, (readsb (s.disk dev)).size ≤ b →
        marked (readsb (s.disk dev)) (s.disk dev) b = true := by
  have hblocks : (readsb (s.disk dev)).size ≤ (readsb (s.disk dev)).blocks := by
    unfold Superblock.blocks
    omega
  rcases s.balloc_cases dev with ⟨he, hall⟩ | ⟨b, hok, hb, hfree, hleast⟩
  · refine ⟨fun _ => .inr fun b hb _ => hall b hb, fun _ => ?_⟩
    have hne : ∀ r, s.balloc dev ≠ .ok r := fun r hr => nomatch hr.symm.trans he
    exact
      { fault := fun e h => Except.error.inj (h.symm.trans he)
        panics := ⟨fun _ b hb => hall b (by omega), fun _ => ⟨_, he⟩⟩
        returns := fun b s' h => absurd h (hne _)
        memory := fun b s' h => absurd h (hne _)
        others := fun b s' h => absurd h (hne _)
        bit := fun b s' h => absurd h (hne _) }
  · have hne : ∀ e, s.balloc dev ≠ .error e := fun e h => nomatch h.symm.trans hok
    have hres : ∀ c s', s.balloc dev = .ok (c, s') →
        c = b ∧ s' = s.setDisk dev (mark (readsb (s.disk dev)) (s.disk dev) b) :=
      fun c s' h => Prod.mk.inj (Except.ok.inj (h.symm.trans hok))
    constructor
    · exact fun h => .inl ⟨b, (h.returns b _ hok).1, hfree⟩
    · intro hcond
      -- the first free block is on the disk: in the other case there is none past the end
      have hlt : b < (readsb (s.disk dev)).size := by
        rcases hcond with ⟨c, hc, hcf⟩ | hpast
        · by_contra hge
          rw [hleast c (by omega)] at hcf
          cases hcf
        · by_contra hge
          rw [hpast b hb (by omega)] at hfree
          cases hfree
      refine ⟨fun e h => absurd h (hne e), ⟨fun ⟨e, h⟩ => absurd h (hne e), fun hall => ?_⟩, ?_, ?_,
        ?_, ?_⟩
      · rw [hall b hlt] at hfree
        cases hfree
      · intro c s' h
        obtain ⟨rfl, -⟩ := hres c s' h
        exact ⟨hlt, hfree, hleast⟩
      · intro c s' h
        obtain ⟨-, rfl⟩ := hres c s' h
        rfl
      · intro c s' h dev' x hx
        obtain ⟨rfl, rfl⟩ := hres c s' h
        change update s.disk dev _ dev' x = _
        by_cases hdev : dev' = dev
        · subst hdev
          rw [update_self]
          exact Volume.mark_of_ne fun hc => hx (by rw [hc])
        · rw [update_of_ne hdev]
      · intro c s' h k
        obtain ⟨rfl, rfl⟩ := hres c s' h
        change Bytes.bit (update s.disk dev _ dev _) k = _
        rw [update_self, mark, update_self, bit_setBit]

/-- A disk of 64 blocks, all in use -/
def fullDisk : Disk := fun b =>
  if b = 1 then superBytes 64 7 else if b = 3 then fun k => if k < 8 then 255 else 0 else zeros

/-- On a full disk of 64 blocks `balloc` returns block 64. -/
theorem balloc_past_end : ∃ s : Fs 1, (readsb (s.disk 1)).size = 64 ∧
    (∀ b < 64, marked (readsb (s.disk 1)) (s.disk 1) b = true) ∧
    (∃ s', s.balloc 1 = .ok (64, s')) ∧ ¬s.Allocates 1 := by
  have hsize : (readsb fullDisk).size = 64 := by decide +kernel
  have hall : ∀ b < 64, marked (readsb fullDisk) fullDisk b = true := by decide +kernel
  let s : Fs 1 := ⟨fun _ => fullDisk, fun _ => ⟨1, 1, 0, false, false, .zero⟩⟩
  have h64 : marked (readsb (s.disk 1)) (s.disk 1) 64 = false := by decide +kernel
  have hblocks : (readsb (s.disk 1)).blocks = 4096 := by
    rw [Superblock.blocks, show (readsb (s.disk 1)).size = 64 from hsize]
  obtain ⟨b, hok, hb⟩ : ∃ b, (∃ s', s.balloc 1 = .ok (b, s')) ∧ b = 64 := by
    rcases s.balloc_cases 1 with ⟨-, hp⟩ | ⟨b, hok, -, hfree, hleast⟩
    · rw [hp 64 (by rw [hblocks]; decide)] at h64
      cases h64
    · refine ⟨b, ⟨_, hok⟩, Nat.le_antisymm ?_ ?_⟩
      · by_contra hlt
        rw [hleast 64 (by omega)] at h64
        cases h64
      · by_contra hlt
        have := hall b (by omega)
        exact nomatch hfree.symm.trans this
  subst hb
  refine ⟨s, hsize, hall, hok, fun h => ?_⟩
  obtain ⟨e, he⟩ := h.panics.mpr fun b hb => hall b (hb.trans_eq hsize)
  obtain ⟨s', hs'⟩ := hok
  exact nomatch he.symm.trans hs'

end Fs

/-- The blocks in `F` have been given back: their bits are clear, the other bits are as they were,
and so are the data blocks that are not in `F`. -/
structure Given (sb : Superblock) (disk : Disk) (F : ℕ → Prop) (disk' : Disk) : Prop where
  super : readsb disk' = readsb disk
  clear : ∀ b < sb.blocks, F b → marked sb disk' b = false
  kept : ∀ b < sb.blocks, ¬F b → marked sb disk' b = marked sb disk b
  data : ∀ b, sb.data ≤ b → ¬F b → disk' b = disk b

theorem Given.refl (sb : Superblock) (disk : Disk) : Given sb disk (fun _ => False) disk :=
  ⟨rfl, fun _ _ h => h.elim, fun _ _ _ => rfl, fun _ _ _ => rfl⟩

theorem Given.congr {F F' : ℕ → Prop} (h : Given sb disk F disk') (hF : ∀ b, F b ↔ F' b) :
    Given sb disk F' disk' := by
  obtain rfl : F = F' := funext fun b => propext (hF b)
  exact h

theorem Given.inUse {F : ℕ → Prop} (h : Given sb disk F disk') (hx : InUse sb disk x) (hF : ¬F x) :
    InUse sb disk' x :=
  ⟨hx.1, hx.2.1, (h.kept x hx.2.1 hF).trans hx.2.2⟩

theorem Given.add {F : ℕ → Prop} (h : Given sb disk F disk') (hx : InUse sb disk x) (hF : ¬F x) :
    Given sb disk (fun b => F b ∨ b = x) (freed sb disk' x) := by
  have hu := h.inUse hx hF
  refine ⟨(readsb_freed hu).trans h.super, fun b hb hFb => ?_, fun b hb hFb => ?_,
    fun b hb hFb => ?_⟩
  · rw [marked_freed hu hb]
    rcases hFb with hFb | rfl
    · rw [h.clear b hb hFb, Bool.and_false]
    · rw [decide_eq_true rfl]
      rfl
  · obtain ⟨hFb, hne⟩ := not_or.mp hFb
    rw [marked_freed hu hb, decide_eq_false hne, h.kept b hb hFb]
    rfl
  · obtain ⟨hFb, hne⟩ := not_or.mp hFb
    have := Superblock.BBLOCK_lt hx.2.1
    rw [freed_of_ne hne (by omega), h.data b hb hFb]

namespace Fs

variable {s : Fs NINODE} {ip : Fin NINODE}

/-- What the first loop has given back after `n` rounds -/
def DirectBlock (d : Dinode) (n b : ℕ) : Prop :=
  b ≠ 0 ∧ ∃ k : Fin 13, k.val < n ∧ (d.addrs k).toNat = b

/-- The inode after `n` rounds -/
def cutAddrs (d : Dinode) (n : ℕ) : Dinode :=
  { d with addrs := fun k => if k.val < n then 0 else d.addrs k }

/-- The blocks of an inode are marked in use and it has no block twice. -/
abbrev Owned (sb : Superblock) (d : Dinode) (disk : Disk) : Prop :=
  Allocated (d.ref disk) (InUse sb disk)

theorem truncDirect_gives (hs : readsb disk = sb) (h : Owned sb d disk) (s : Fs NINODE)
    (ip : Fin NINODE) {n : ℕ} (hn : n < 12) (hg : Given sb disk (DirectBlock d n) disk') :
    Meets (fun _ => False) (truncDirect ip (s.put ip (cutAddrs d n) disk') n) fun s' =>
      ∃ disk'', s' = s.put ip (cutAddrs d (n + 1)) disk'' ∧
        Given sb disk (DirectBlock d (n + 1)) disk'' := by
  obtain ⟨k, hk⟩ : ∃ k : Fin 13, k = Fin.ofNat 13 n := ⟨_, rfl⟩
  have hkn : k.val = n := by rw [hk, Fin.val_ofNat, Nat.mod_eq_of_lt (by omega)]
  have hcut : (cutAddrs d n).addrs k = d.addrs k := if_neg (by omega)
  have hset : (cutAddrs d n).setAddr k 0 = cutAddrs d (n + 1) := by
    unfold Dinode.setAddr cutAddrs
    congr 1
    funext j
    by_cases hj : j = k
    · rw [hj, update_self, if_pos (by omega)]
    · have : j.val ≠ k.val := fun he => hj (Fin.ext he)
      rw [update_of_ne hj]
      exact if_congr (by omega) rfl rfl
  have hnext : ∀ b, DirectBlock d (n + 1) b ↔
      DirectBlock d n b ∨ b ≠ 0 ∧ b = (d.addrs k).toNat := by
    intro b
    constructor
    · rintro ⟨h0, j, hj, rfl⟩
      by_cases hjk : j = k
      · exact .inr ⟨h0, by rw [hjk]⟩
      · have : j.val ≠ k.val := fun he => hjk (Fin.ext he)
        exact .inl ⟨h0, j, by omega, rfl⟩
    · rintro (⟨h0, j, hj, rfl⟩ | ⟨h0, rfl⟩)
      · exact ⟨h0, j, by omega, rfl⟩
      · exact ⟨h0, k, by omega, rfl⟩
  unfold truncDirect
  rw [put_icache, ← hk]
  dsimp only
  rw [hcut]
  by_cases h0 : d.addrs k = 0
  · have hd : cutAddrs d (n + 1) = cutAddrs d n := by
      rw [← hset, Dinode.setAddr, ← h0, ← hcut, update_eq_self]
    rw [if_pos h0, hd]
    refine Meets.pure ⟨disk', rfl, hg.congr fun b => ?_⟩
    rw [hnext, h0]
    exact ⟨.inl, fun hb => hb.resolve_right fun hb => hb.1 hb.2⟩
  · have h0' : (d.addrs k).toNat ≠ 0 := fun hz => h0 (UInt32.toNat_inj.mp hz)
    have hx : InUse sb disk (d.addrs k).toNat := h.valid (.addr k) h0'
    have hnew : ¬DirectBlock d n (d.addrs k).toNat := by
      rintro ⟨-, j, hj, he⟩
      have := h.inj (.addr k) (.addr j) h0' he.symm
      rw [← Place.addr.inj this] at hj
      omega
    rw [if_neg h0, put_bfree (hg.super.trans hs) (hg.inUse hx hnew), ok_bind, put_setAddr, hset]
    refine Meets.pure ⟨_, rfl, (hg.add hx hnew).congr fun b => ?_⟩
    rw [hnext]
    exact or_congr_right ⟨fun hb => ⟨hb ▸ h0', hb⟩, fun hb => hb.2⟩

/-- What `itrunc` gives back: all blocks but the indirect block, those in the list only up to `n` -/
def GivenBack (d : Dinode) (disk : Disk) (n b : ℕ) : Prop :=
  DirectBlock d 12 b ∨ b ≠ 0 ∧ ∃ k : Fin 128, k.val < n ∧ d.ref disk (.entry k) = b

theorem truncEntries_gives (hs : readsb disk = sb) (h : Owned sb d disk) (h12 : d.addrs 12 ≠ 0)
    {d' : Dinode} (s : Fs NINODE) (ip : Fin NINODE) (hg : Given sb disk (DirectBlock d 12) disk') :
    Meets (fun _ => False) ((List.range 128).foldlM
      (truncEntry (s.icache ip).dev (disk' (d.addrs 12).toNat)) (s.put ip d' disk')) fun s' =>
      ∃ disk'', s' = s.put ip d' disk'' ∧ Given sb disk (GivenBack d disk 128) disk'' := by
  have h12' : (d.addrs 12).toNat ≠ 0 := fun hz => h12 (UInt32.toNat_inj.mp hz)
  have hy : disk' (d.addrs 12).toNat = disk (d.addrs 12).toNat := by
    refine hg.data _ (h.valid (.addr 12) h12').1 ?_
    rintro ⟨-, j, hj, he⟩
    have := Place.addr.inj (h.inj (.addr 12) (.addr j) h12' he.symm)
    rw [← this] at hj
    exact absurd hj (by decide)
  have href : ∀ k : Fin 128, d.ref disk (.entry k) =
      (entry (disk (d.addrs 12).toNat) k.val).toNat :=
    fun k => Dinode.ref_entry h12
  rw [hy]
  refine Meets.foldlM_range 128 (I := fun n s' => ∃ disk'', s' = s.put ip d' disk'' ∧
    Given sb disk (GivenBack d disk n) disk'') ⟨disk', rfl, hg.congr fun b => ?_⟩ ?_
  · exact ⟨.inl, fun hb => hb.resolve_right fun ⟨_, k, hk, _⟩ => absurd hk (Nat.not_lt_zero _)⟩
  · rintro n hn _ ⟨disk₁, rfl, hg₁⟩
    have hnext : ∀ b, GivenBack d disk (n + 1) b ↔
        GivenBack d disk n b ∨ b ≠ 0 ∧ b = d.ref disk (.entry ⟨n, hn⟩) := by
      intro b
      constructor
      · rintro (hb | ⟨h0, k, hk, rfl⟩)
        · exact .inl (.inl hb)
        · by_cases hkn : k = ⟨n, hn⟩
          · exact .inr ⟨h0, by rw [hkn]⟩
          · have : k.val ≠ n := fun he => hkn (Fin.ext he)
            exact .inl (.inr ⟨h0, k, by omega, rfl⟩)
      · rintro ((hb | ⟨h0, k, hk, rfl⟩) | ⟨h0, rfl⟩)
        · exact .inl hb
        · exact .inr ⟨h0, k, by omega, rfl⟩
        · exact .inr ⟨h0, ⟨n, hn⟩, Nat.lt_succ_self n, rfl⟩
    unfold truncEntry
    by_cases h0 : entry (disk (d.addrs 12).toNat) n = 0
    · rw [if_pos h0]
      refine Meets.pure ⟨disk₁, rfl, hg₁.congr fun b => ?_⟩
      rw [hnext, href, h0]
      exact ⟨.inl, fun hb => hb.resolve_right fun hb => hb.1 hb.2⟩
    · have h0' : d.ref disk (.entry ⟨n, hn⟩) ≠ 0 := by
        rw [href]
        exact fun hz => h0 (UInt32.toNat_inj.mp hz)
      have hx := h.valid (.entry ⟨n, hn⟩) h0'
      have hnew : ¬GivenBack d disk n (d.ref disk (.entry ⟨n, hn⟩)) := by
        rintro (⟨-, j, -, he⟩ | ⟨-, k, hk, he⟩)
        · exact nomatch h.inj (.entry ⟨n, hn⟩) (.addr j) h0' he.symm
        · have := Place.entry.inj (h.inj (.entry ⟨n, hn⟩) (.entry k) h0' he.symm)
          rw [← this] at hk
          exact Nat.lt_irrefl n hk
      have hadd := (hg₁.add hx hnew).congr fun b => (by
        rw [hnext]
        exact or_congr_right ⟨fun hb => ⟨hb ▸ h0', hb⟩, fun hb => hb.2⟩ :
          _ ↔ GivenBack d disk (n + 1) b)
      rw [if_neg h0]
      have hfree := put_bfree (d := d') (hg₁.super.trans hs) (hg₁.inUse hx hnew) s ip
      rw [href] at hfree hadd
      rw [hfree]
      exact Meets.pure ⟨_, rfl, hadd⟩

theorem itrunc_gives (hs : readsb disk = sb) (h : Owned sb d disk) (s : Fs NINODE)
    (ip : Fin NINODE) : ∃ disk', itrunc ip (s.put ip d disk) =
      .ok (s.put ip (emptied d) (setDinode disk' (s.icache ip).inum (emptied d))) ∧
      Given sb disk (GivenBack d disk 128) disk' := by
  have hmeets : Meets (fun _ => False) (itrunc ip (s.put ip d disk)) fun s' => ∃ disk',
      s' = s.put ip (emptied d) (setDinode disk' (s.icache ip).inum (emptied d)) ∧
        Given sb disk (GivenBack d disk 128) disk' := by
    have hstart : Given sb disk (DirectBlock d 0) disk := (Given.refl sb disk).congr fun b =>
      ⟨False.elim, fun ⟨_, k, hk, _⟩ => Nat.not_lt_zero _ hk⟩
    have hd : cutAddrs d 0 = d := by
      unfold cutAddrs
      simp
    unfold itrunc
    refine (Meets.foldlM_range 12 (I := fun n s' => ∃ disk', s' = s.put ip (cutAddrs d n) disk' ∧
      Given sb disk (DirectBlock d n) disk') ⟨disk, by rw [hd], hstart⟩ ?_).bind ?_
    · rintro n hn _ ⟨disk₁, rfl, hg₁⟩
      exact truncDirect_gives hs h s ip hn hg₁
    · rintro _ ⟨disk₁, rfl, hg₁⟩
      have h12 : (cutAddrs d 12).addrs 12 = d.addrs 12 := rfl
      have hempty : ({ (cutAddrs d 12).setAddr 12 0 with size := 0 } : Dinode) = emptied d := by
        refine Dinode.ext rfl rfl rfl rfl rfl (funext fun k => ?_)
        change update (cutAddrs d 12).addrs 12 0 k = 0
        by_cases hk : k = 12
        · rw [hk, update_self]
        · have : k.val ≠ 12 := fun he => hk (Fin.ext he)
          rw [update_of_ne hk]
          exact if_pos (by omega)
      rw [put_icache]
      dsimp only
      rw [put_disk, h12]
      by_cases h0 : d.addrs 12 = 0
      · have hcut : (cutAddrs d 12).setAddr 12 0 = cutAddrs d 12 := by
          rw [Dinode.setAddr, ← h0, ← h12, update_eq_self]
        rw [hcut] at hempty
        rw [if_pos h0]
        refine Meets.pure ⟨disk₁, ?_, hg₁.congr fun b => ?_⟩
        · simp only [put_icache, put_setCopy, put_iupdate, hempty]
        · refine ⟨.inl, fun hb => hb.resolve_right ?_⟩
          rintro ⟨hb0, k, -, hk⟩
          rw [Dinode.ref_entry_none h0] at hk
          exact hb0 hk.symm
      · rw [if_neg h0]
        refine (truncEntries_gives hs h h0 s ip hg₁).bind ?_
        rintro _ ⟨disk₂, rfl, hg₂⟩
        refine Meets.pure ⟨disk₂, ?_, hg₂⟩
        simp only [put_icache, put_setAddr, put_setCopy, put_iupdate, hempty]
  rcases hmeets.ok_or_error with ⟨_, _, hfalse⟩ | ⟨_, hok, disk', rfl, hg⟩
  · exact hfalse.elim
  · exact ⟨disk', hok, hg⟩

/-- What is asked of `itrunc`: the blocks that were reachable are free, no other bit has changed,
and the inode is empty in memory and on the disk. -/
structure Truncated (s : Fs NINODE) (ip : Fin NINODE) (s' : Fs NINODE) : Prop where
  freed : ∀ a, (s.icache ip).d.ref (s.disk (s.icache ip).dev) a ≠ 0 →
    marked (readsb (s.disk (s.icache ip).dev)) (s'.disk (s.icache ip).dev)
      ((s.icache ip).d.ref (s.disk (s.icache ip).dev) a) = false
  kept : ∀ b < (readsb (s.disk (s.icache ip).dev)).blocks,
    (∀ a, (s.icache ip).d.ref (s.disk (s.icache ip).dev) a ≠ 0 →
      (s.icache ip).d.ref (s.disk (s.icache ip).dev) a ≠ b) →
    marked (readsb (s.disk (s.icache ip).dev)) (s'.disk (s.icache ip).dev) b =
      marked (readsb (s.disk (s.icache ip).dev)) (s.disk (s.icache ip).dev) b
  memory : (s'.icache ip).d.size = 0 ∧ ∀ j, (s'.icache ip).d.addrs j = 0
  inode : (dinode (s'.disk (s.icache ip).dev) (s.icache ip).inum).size = 0 ∧
    ∀ j, (dinode (s'.disk (s.icache ip).dev) (s.icache ip).inum).addrs j = 0

/-- `itrunc` returns every block if and only if the inode has no indirect block. -/
theorem itrunc_frees_iff (hi : (s.icache ip).inum < (readsb (s.disk (s.icache ip).dev)).ninodes)
    (h : Owned (readsb (s.disk (s.icache ip).dev)) (s.icache ip).d (s.disk (s.icache ip).dev)) :
    ∃ s', s.itrunc ip = .ok s' ∧ (s.Truncated ip s' ↔ (s.icache ip).d.addrs 12 = 0) := by
  obtain ⟨disk', hok, hg⟩ := itrunc_gives rfl h s ip
  rw [put_self] at hok
  refine ⟨_, hok, ?_⟩
  have hdisk : (s.put ip (emptied (s.icache ip).d) (setDinode disk' (s.icache ip).inum
      (emptied (s.icache ip).d))).disk (s.icache ip).dev =
      setDinode disk' (s.icache ip).inum (emptied (s.icache ip).d) := put_disk ip _ _ s
  have hmarked : ∀ b, marked (readsb (s.disk (s.icache ip).dev)) (setDinode disk' (s.icache ip).inum
      (emptied (s.icache ip).d)) b = marked (readsb (s.disk (s.icache ip).dev)) disk' b :=
    marked_setDinode hi disk' _
  -- the indirect block is the only one that is not given back
  have hback : ∀ a, (s.icache ip).d.ref (s.disk (s.icache ip).dev) a ≠ 0 → a ≠ .addr 12 →
      GivenBack (s.icache ip).d (s.disk (s.icache ip).dev) 128
        ((s.icache ip).d.ref (s.disk (s.icache ip).dev) a) := by
    intro a h0 ha
    cases a with
    | addr j =>
      have : j.val ≠ 12 := fun he => ha (congrArg Place.addr (Fin.ext he))
      exact .inl ⟨h0, j, by omega, rfl⟩
    | entry j => exact .inr ⟨h0, j, j.isLt, rfl⟩
  constructor
  · intro ht
    by_contra h12
    have h12' : (s.icache ip).d.ref (s.disk (s.icache ip).dev) (.addr 12) ≠ 0 :=
      fun hz => h12 (UInt32.toNat_inj.mp hz)
    have hx := h.valid _ h12'
    have hnot : ¬GivenBack (s.icache ip).d (s.disk (s.icache ip).dev) 128
        ((s.icache ip).d.ref (s.disk (s.icache ip).dev) (.addr 12)) := by
      rintro (⟨-, j, hj, he⟩ | ⟨-, k, -, he⟩)
      · have := Place.addr.inj (h.inj (.addr 12) (.addr j) h12' he.symm)
        rw [← this] at hj
        exact absurd hj (by decide)
      · exact nomatch h.inj (.addr 12) (.entry k) h12' he.symm
    have hfree := ht.freed (.addr 12) h12'
    rw [hdisk, hmarked, hg.kept _ hx.2.1 hnot, hx.2.2] at hfree
    cases hfree
  · intro h12
    have hne : ∀ a, (s.icache ip).d.ref (s.disk (s.icache ip).dev) a ≠ 0 → a ≠ .addr 12 := by
      rintro _ h0 rfl
      exact h0 (by rw [Dinode.ref, h12]; rfl)
    refine ⟨fun a h0 => ?_, fun b hb hno => ?_, ⟨?_, fun j => ?_⟩, ⟨?_, fun j => ?_⟩⟩
    · rw [hdisk, hmarked]
      exact hg.clear _ (h.valid a h0).2.1 (hback a h0 (hne a h0))
    · rw [hdisk, hmarked]
      refine hg.kept b hb ?_
      rintro (⟨h0, j, -, rfl⟩ | ⟨h0, k, -, rfl⟩)
      · exact hno (.addr j) h0 rfl
      · exact hno (.entry k) h0 rfl
    · rw [put_icache]
      rfl
    · rw [put_icache]
      rfl
    · rw [hdisk, dinode_setDinode]
      rfl
    · rw [hdisk, dinode_setDinode]
      rfl

/-- A file with block 4, whose indirect block is `a` -/
def twoBlocks (a : UInt32) : Dinode :=
  ⟨T_FILE, 0, 0, 1, 512, update (update (fun _ => 0) 0 4) 12 a⟩

/-- The file as inode 1 of a small disk, with blocks 4 and 5 in use -/
def twoBlocksFs (a : UInt32) : Fs 1 :=
  ⟨fun _ => mark smallSuper (mark smallSuper (smallDisk (twoBlocks a)) 4) 5,
    fun _ => ⟨1, 1, 1, true, true, twoBlocks a⟩⟩

theorem owned_twoBlocks {a : UInt32} (ha : a = 0 ∨ a = 5) :
    readsb ((twoBlocksFs a).disk 1) = smallSuper ∧
      Owned smallSuper (twoBlocks a) ((twoBlocksFs a).disk 1) := by
  have hentry : ∀ k : Fin 128, (twoBlocks a).ref ((twoBlocksFs a).disk 1) (.entry k) = 0 := by
    rcases ha with rfl | rfl <;> decide +kernel
  have haddr : ∀ j : Fin 13, ((twoBlocks a).addrs j).toNat ≠ 0 → smallSuper.data ≤
      ((twoBlocks a).addrs j).toNat ∧ ((twoBlocks a).addrs j).toNat < smallSuper.blocks ∧
      marked smallSuper ((twoBlocksFs a).disk 1) ((twoBlocks a).addrs j).toNat = true := by
    rcases ha with rfl | rfl <;> decide +kernel
  have hinj : ∀ j k : Fin 13, ((twoBlocks a).addrs j).toNat ≠ 0 →
      ((twoBlocks a).addrs j).toNat = ((twoBlocks a).addrs k).toNat → j = k := by
    rcases ha with rfl | rfl <;> decide +kernel
  refine ⟨by rcases ha with rfl | rfl <;> decide +kernel, fun c hc => ?_, fun c e hc he => ?_⟩
  · cases c with
    | addr j => exact haddr j hc
    | entry k => exact absurd (hentry k) hc
  · cases c with
    | entry k => exact absurd (hentry k) hc
    | addr j =>
      cases e with
      | entry k => exact absurd (he.trans (hentry k)) hc
      | addr k => exact congrArg Place.addr (hinj j k hc he)

theorem itrunc_frees_direct : ∃ s', (twoBlocksFs 0).itrunc 0 = .ok s' ∧
    (twoBlocksFs 0).Truncated 0 s' := by
  obtain ⟨hs, h⟩ := owned_twoBlocks (.inl rfl)
  have hi : ((twoBlocksFs 0).icache 0).inum <
      (readsb ((twoBlocksFs 0).disk ((twoBlocksFs 0).icache 0).dev)).ninodes := by
    change 1 < (readsb ((twoBlocksFs 0).disk 1)).ninodes
    rw [hs]
    decide
  obtain ⟨s', hok, hiff⟩ := itrunc_frees_iff hi (hs.symm ▸ h)
  exact ⟨s', hok, hiff.mpr rfl⟩

/-- The indirect block 5 stays marked, and nobody holds it. -/
theorem itrunc_leaks_indirect : ∃ s : Fs 1, (s.icache 0).inum < (readsb (s.disk 1)).ninodes ∧
    Owned (readsb (s.disk 1)) (s.icache 0).d (s.disk 1) ∧
    (s.icache 0).d.ref (s.disk 1) (.addr 12) = 5 ∧ ∃ s', s.itrunc 0 = .ok s' ∧
      marked (readsb (s.disk 1)) (s'.disk 1) 5 = true ∧ ¬s.Truncated 0 s' := by
  obtain ⟨hs, h⟩ := owned_twoBlocks (.inr rfl)
  have hmarked : ∃ s', (twoBlocksFs 5).itrunc 0 = .ok s' ∧
      marked smallSuper (s'.disk 1) 5 = true := by
    apply Transition.exists_ok_of_any
    decide +kernel
  obtain ⟨s', hok, hm⟩ := hmarked
  refine ⟨twoBlocksFs 5, ?_, hs.symm ▸ h, rfl, s', hok, hs.symm ▸ hm, fun ht => ?_⟩
  · rw [hs]
    decide
  · have := ht.freed (.addr 12) (by decide)
    change marked (readsb ((twoBlocksFs 5).disk 1)) (s'.disk 1) 5 = false at this
    rw [hs, hm] at this
    cases this

end Fs

end Xv6Shed
