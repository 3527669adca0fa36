import Xv6Shed.Contents
import Xv6Shed.Mkfs

/-!
# The blocks that mkfs gives to files

`iappend` gives a file the blocks that `writei` would give it, if the bitmap marked the blocks
before `freeblock`. So its loop is the loop of `writei` on such a disk. The blocks it takes are the
next ones, and every block that it takes becomes a block of the file.
-/

namespace Xv6Shed
open Function Bytes

namespace Mkfs

variable {m m' m'' : Mkfs} {d d' d'' : Dinode} {NINODE i x b bn fuel off n off' : ℕ}
  {V : ℕ → Dinode} {indirect p : Buffer}

/-- The super block of the image -/
def super : Superblock := ⟨1024, 200⟩

/-- The image with the blocks before `freeblock` marked -/
def marks (m : Mkfs) : Disk := update m.disk 28 (bitmap m.freeblock)

theorem bit_bitmap (n b : ℕ) : bit (bitmap n) b = decide (b < n) := by
  induction n with
  | zero =>
    unfold bitmap bit zeros
    simp
  | succ n ih =>
    rw [bitmap, bit_setBit, ih, ← Bool.decide_or, decide_eq_decide]
    omega

theorem BBLOCK_super (hb : b < 4096) : BBLOCK b super.ninodes = 28 := by
  change b / 4096 + 200 / 8 + 3 = 28
  omega

theorem marked_marks (hb : b < 4096) : marked super m.marks b = decide (b < m.freeblock) := by
  rw [marked, BBLOCK_super hb, marks, update_self, bit_bitmap, Nat.mod_eq_of_lt hb]

theorem mark_marks (h : m.freeblock < 4096) :
    mark super m.marks m.freeblock = m.takeBlock.marks := by
  rw [mark, BBLOCK_super h, marks, update_self, update_idem, Nat.mod_eq_of_lt h]
  rfl

theorem marks_of_ne (h : x ≠ 28) : m.marks x = m.disk x := update_of_ne h ..

theorem marks_wsect (h : x ≠ 28) (buf : Buffer) : (m.wsect x buf).marks = update m.marks x buf := by
  rw [marks, wsect, marks, update_comm h]

theorem first_marks (h : m.freeblock < 4096) :
    Bytes.first (fun b => !marked super m.marks b) 4096 0 = some m.freeblock := by
  apply first_of_least (Nat.zero_le _) (by omega)
  · intro b _ hb
    rw [marked_marks (by omega), decide_eq_true hb]
    rfl
  · rw [marked_marks h, decide_eq_false (Nat.lt_irrefl _)]
    rfl

theorem balloc_marks (s : Fs NINODE) (ip : Fin NINODE) (hs : readsb m.marks = super)
    (h : m.freeblock < 4096) : (s.put ip d m.marks).balloc (s.icache ip).dev =
      .ok (m.freeblock, s.put ip d m.takeBlock.marks) := by
  unfold Fs.balloc
  rw [Fs.put_disk, hs]
  dsimp only
  rw [show 4096 * ((super.size + 4095) / 4096) = 4096 by decide, first_marks h]
  dsimp only
  rw [mark_marks h, Fs.put_setDisk]
  rfl

theorem le_freeblock (h : Volume super V m.marks) : 29 ≤ m.freeblock := by
  have h28 := h.reserved 28 (by decide)
  rw [marked_marks (by decide)] at h28
  have := of_decide_eq_true h28
  omega

theorem toNat_freeblock (h : m.freeblock < 4096) :
    (UInt32.ofNat m.freeblock).toNat = m.freeblock := by
  rw [UInt32.toNat_ofNat', Nat.mod_eq_of_lt (by omega)]

theorem readsb_takeBlock (h : readsb m.marks = super) : readsb m.takeBlock.marks = super := by
  unfold readsb at h ⊢
  rw [marks_of_ne (by decide)] at h ⊢
  exact h

theorem indirect_marks (s : Fs NINODE) (ip : Fin NINODE) (hs : readsb m.marks = super)
    (h12 : (d.addrs 12).toNat ≠ 28) {j : ℕ} (hr : m.rsect (d.addrs 12).toNat = some indirect)
    {r : ℕ × Dinode × Mkfs} (hm : (if entry indirect j = 0 then
        some ((UInt32.ofNat m.freeblock).toNat, d, m.takeBlock.wsect (d.addrs 12).toNat
          (put32 indirect (4 * j) (UInt32.ofNat m.freeblock)))
      else some ((entry indirect j).toNat, d, m)) = some r) (hf : r.2.2.freeblock ≤ 4096) :
    (if entry (m.marks (d.addrs 12).toNat) j ≠ 0 then
        pure ((entry (m.marks (d.addrs 12).toNat) j).toNat, s.put ip d m.marks)
      else do
        let (b, s') ← (s.put ip d m.marks).balloc (s.icache ip).dev
        pure ((UInt32.ofNat b).toNat, s'.bwrite (s.icache ip).dev (d.addrs 12).toNat
          (put32 (m.marks (d.addrs 12).toNat) (4 * j) (UInt32.ofNat b)))) =
      Except.ok (r.1, s.put ip r.2.1 r.2.2.marks) := by
  have hread : m.marks (d.addrs 12).toNat = indirect := by
    rw [marks_of_ne h12]
    unfold rsect at hr
    split at hr <;> cases hr
    rfl
  rw [hread]
  by_cases h0 : entry indirect j = 0
  · rw [if_pos h0] at hm
    cases hm
    change m.freeblock + 1 ≤ 4096 at hf
    rw [if_neg (not_not.mpr h0), balloc_marks s ip hs (by omega), ok_bind, marks_wsect h12]
    dsimp only
    rw [Fs.put_bwrite]
    rfl
  · rw [if_neg h0] at hm
    cases hm
    rw [if_pos h0]
    rfl

theorem bmap_marks (s : Fs NINODE) (ip : Fin NINODE) (h : Volume super (update V i d) m.marks)
    (hi : i < 200) (ht : d.type ≠ 0) (hbn : bn < 140) (hm : m.block bn d = some (x, d', m'))
    (hf : m'.freeblock ≤ 4096) :
    (s.put ip d m.marks).bmap true ip bn = .ok (x, s.put ip d' m'.marks) := by
  have hlive : Live super (update V i d) i := ⟨hi, by rwa [update_self]⟩
  unfold block at hm
  unfold Fs.bmap
  rw [Fs.put_icache]
  dsimp only
  by_cases hdir : bn < 12
  · rw [if_pos hdir] at hm ⊢
    by_cases h0 : d.addrs (Fin.ofNat 13 bn) = 0
    · rw [if_pos h0] at hm
      cases hm
      change m.freeblock + 1 ≤ 4096 at hf
      rw [if_neg (not_not.mpr h0), if_neg (by simp), balloc_marks s ip h.super (by omega), ok_bind]
      dsimp only
      rw [Fs.put_setAddr]
      simp [pure, Except.pure]
    · rw [if_neg h0] at hm
      cases hm
      rw [if_pos h0]
      rfl
  · rw [if_neg hdir] at hm ⊢
    rw [if_pos (by omega), if_neg (by simp)]
    unfold Fs.loadIndirect
    rw [Fs.put_icache]
    dsimp only
    by_cases h12 : d.addrs 12 = 0
    · simp only [if_pos h12, Option.bind_eq_bind, Option.bind_eq_some_iff] at hm
      obtain ⟨indirect, hr, hm⟩ := hm
      have hlt : m.freeblock < 4096 := by
        by_cases h0 : entry indirect (bn - 12) = 0
        · rw [if_pos h0] at hm
          cases hm
          exact Nat.lt_of_succ_lt hf
        · rw [if_neg h0] at hm
          cases hm
          exact hf
      have haddr : ((d.setAddr 12 (UInt32.ofNat m.freeblock)).addrs 12).toNat ≠ 28 := by
        have := le_freeblock h
        rw [Dinode.setAddr_addrs, update_self, toNat_freeblock hlt]
        omega
      rw [if_pos h12, balloc_marks s ip h.super hlt, ok_bind]
      dsimp only
      rw [Fs.put_setAddr, pure_bind, Fs.put_icache]
      dsimp only
      rw [Fs.put_disk]
      exact indirect_marks s ip (readsb_takeBlock h.super) haddr hr hm hf
    · simp only [if_neg h12, Option.bind_eq_bind, Option.bind_eq_some_iff] at hm
      obtain ⟨indirect, hr, hm⟩ := hm
      have haddr : (d.addrs 12).toNat ≠ 28 := by
        have := (h.indirect_inUse hlive (by rwa [update_self])).1
        rw [update_self] at this
        change 29 ≤ _ at this
        omega
      rw [if_neg h12, pure_bind, Fs.put_icache]
      dsimp only
      rw [Fs.put_disk]
      exact indirect_marks s ip h.super haddr hr hm hf

/-- The counters after some blocks were taken -/
structure Grows (m m' : Mkfs) : Prop where
  le : m.freeblock ≤ m'.freeblock
  inodes : m'.freeinode = m.freeinode
  used : m.usedblocks = m.freeblock → m'.usedblocks = m'.freeblock

theorem Grows.refl (m : Mkfs) : Grows m m := ⟨Nat.le_refl _, rfl, id⟩

theorem Grows.trans (h : Grows m m') (h' : Grows m' m'') : Grows m m'' :=
  ⟨h.le.trans h'.le, h'.inodes.trans h.inodes, fun hu => h'.used (h.used hu)⟩

theorem Grows.wsect (h : Grows m m') (x : ℕ) (buf : Buffer) : Grows m (m'.wsect x buf) :=
  ⟨h.le, h.inodes, h.used⟩

theorem grows_takeBlock (m : Mkfs) : Grows m m.takeBlock :=
  ⟨Nat.le_succ _, rfl, fun hu => congrArg (· + 1) hu⟩

theorem block_grows (h : m.block bn d = some (x, d', m')) : Grows m m' := by
  unfold block at h
  split at h
  · split at h <;> cases h
    · exact grows_takeBlock m
    · exact .refl _
  · by_cases h12 : d.addrs 12 = 0
    · simp only [if_pos h12, Option.bind_eq_bind, Option.bind_eq_some_iff] at h
      obtain ⟨indirect, -, h⟩ := h
      split at h <;> cases h
      · exact ((grows_takeBlock m).trans (grows_takeBlock _)).wsect _ _
      · exact grows_takeBlock m
    · simp only [if_neg h12, Option.bind_eq_bind, Option.bind_eq_some_iff] at h
      obtain ⟨indirect, -, h⟩ := h
      split at h <;> cases h
      · exact (grows_takeBlock m).wsect _ _
      · exact .refl _

theorem iappendLoop_grows (h : iappendLoop fuel p off n d m = some (off', d', m')) :
    Grows m m' := by
  induction fuel generalizing p off n d m with
  | zero => cases h
  | succ fuel ih =>
    unfold iappendLoop at h
    split at h
    · cases h
      exact .refl _
    · split at h
      · simp only [Option.bind_eq_bind, Option.bind_eq_some_iff] at h
        obtain ⟨⟨x, d₁, m₁⟩, hblock, buf, -, h⟩ := h
        exact ((block_grows hblock).wsect _ _).trans (ih h)
      · cases h

theorem put_inj {s : Fs NINODE} {ip : Fin NINODE} {disk disk' : Disk}
    (h : s.put ip d disk = s.put ip d' disk') : d = d' ∧ disk = disk' := by
  constructor
  · have := congrArg (fun s : Fs NINODE => (s.icache ip).d) h
    simpa using this
  · have := congrArg (fun s' : Fs NINODE => s'.disk (s.icache ip).dev) h
    simpa using this

theorem round_marks (h : Volume super (update V i d) m.marks) (hi : i < 200) (ht : d.type ≠ 0)
    (hbn : off / 512 < 140) (hblock : m.block (off / 512) d = some (x, d', m')) {buf : Buffer}
    (hbuf : m'.rsect x = some buf) (hf : m'.freeblock ≤ 4096) (n : ℕ) (p : Buffer) :
    d'.type ≠ 0 ∧ x ≠ 28 ∧ m'.marks x = buf ∧ Volume super (update V i d') (m'.wsect x
      (patch buf (off % 512) (min n (512 - off % 512)) p)).marks ∧
      ∀ a, d'.ref (m'.wsect x (patch buf (off % 512) (min n (512 - off % 512)) p)).marks a =
        d'.ref m'.marks a := by
  let s : Fs 1 := ⟨fun _ => m.marks, fun _ => ⟨1, i, 1, true, true, d⟩⟩
  have hbmap := bmap_marks s 0 h hi ht hbn hblock hf
  obtain ⟨d₂, disk₂, hput, he, -, hx, hx0, -⟩ := (Fs.bmap_meets h hi ht s 0 hbn).of_ok hbmap
  obtain ⟨rfl, rfl⟩ := put_inj hput
  have ht' : d'.type ≠ 0 := by rwa [he.type_eq]
  have hlive : Live super (update V i d') i := ⟨hi, by rwa [update_self]⟩
  have hne : x ≠ 28 := by
    have hin := blockOf_inUse he.volume hlive (k := off / 512)
    rw [update_self, ← hx] at hin
    have h29 : 29 ≤ x := (hin hx0).1
    omega
  have hread : m'.marks x = buf := by
    rw [marks_of_ne hne]
    unfold rsect at hbuf
    split at hbuf <;> cases hbuf
    rfl
  have hmod := Nat.mod_lt off (y := 512) (by omega)
  obtain ⟨⟨he₂, -⟩, -⟩ := evolves_write he.volume hi ht' (o := off % 512)
    (m := min n (512 - off % 512)) (hx ▸ hx0) (by omega) p
  rw [← hx, hread, ← marks_wsect hne] at he₂
  refine ⟨ht', hne, hread, he₂.volume, fun a => Dinode.ref_congr fun _ => ?_⟩
  -- a block of the file is not the indirect block
  rw [marks_wsect hne]
  refine update_of_ne (fun h12 => ?_) _ _
  have h140 := lt_of_blockOf (hx ▸ hx0)
  have := he.volume.ref_inj (a := place (off / 512)) (c := .addr 12) hlive hlive
  rw [update_self, ← blockOf_eq h140, ← hx] at this
  exact place_ne_indirect _ h140 (this hx0 h12.symm).2

theorem iappendLoop_marks (s : Fs NINODE) (ip : Fin NINODE) (hi : i < 200)
    (h : Volume super (update V i d) m.marks) (ht : d.type ≠ 0)
    (hm : iappendLoop fuel p off n d m = some (off', d', m')) (hf : m'.freeblock ≤ 4096) :
    Fs.writeLoop ip fuel p off n (s.put ip d m.marks) = .ok (off', s.put ip d' m'.marks) := by
  induction fuel generalizing p off n d m with
  | zero => cases hm
  | succ fuel ih =>
    unfold iappendLoop at hm
    unfold Fs.writeLoop
    by_cases h0 : n = 0
    · rw [if_pos h0] at hm ⊢
      cases hm
      rfl
    · rw [if_neg h0] at hm ⊢
      by_cases hbn : off / 512 < 140
      · rw [if_pos hbn] at hm
        simp only [Option.bind_eq_bind, Option.bind_eq_some_iff] at hm
        obtain ⟨⟨x, d₁, m₁⟩, hblock, buf, hbuf, hm⟩ := hm
        have hle := (iappendLoop_grows hm).le
        have hbmap := bmap_marks s ip h hi ht hbn hblock (hle.trans hf)
        obtain ⟨ht₁, hne, hread, hvol, -⟩ := round_marks h hi ht hbn hblock hbuf (hle.trans hf) n p
        rw [hbmap, ok_bind]
        dsimp only
        rw [Fs.put_icache]
        dsimp only
        rw [Fs.put_disk, Fs.put_bwrite, hread, ← marks_wsect hne]
        exact ih hvol ht₁ hm
      · rw [if_neg hbn] at hm
        cases hm

theorem iappendLoop_size (h : iappendLoop fuel p off n d m = some (off', d', m')) :
    n = 0 ∨ off + n ≤ 140 * 512 := by
  induction fuel generalizing p off n d m with
  | zero => cases h
  | succ fuel ih =>
    unfold iappendLoop at h
    by_cases h0 : n = 0
    · exact .inl h0
    · rw [if_neg h0] at h
      by_cases hbn : off / 512 < 140
      · rw [if_pos hbn] at h
        simp only [Option.bind_eq_bind, Option.bind_eq_some_iff] at h
        obtain ⟨_, -, _, -, h⟩ := h
        have := ih h
        omega
      · rw [if_neg hbn] at h
        cases h

/-- The file keeps its blocks, has all blocks that were taken, and gets no blocks but those in
`K`. -/
structure Filled (K : ℕ → Prop) (m : Mkfs) (d : Dinode) (m' : Mkfs) (d' : Dinode) : Prop where
  keep : ∀ a, d.ref m.marks a ≠ 0 → d'.ref m'.marks a = d.ref m.marks a
  new : ∀ b, m.freeblock ≤ b → b < m'.freeblock → ∃ a, d'.ref m'.marks a = b
  only : ∀ k, blockOf d' m'.marks k ≠ 0 → blockOf d m.marks k ≠ 0 ∨ K k

variable {K K' : ℕ → Prop}

theorem Filled.refl (K : ℕ → Prop) (m : Mkfs) (d : Dinode) : Filled K m d m d :=
  ⟨fun _ _ => rfl, fun _ h h' => absurd h' (Nat.not_lt.mpr h), fun _ => .inl⟩

theorem Filled.trans (h0 : 0 < m.freeblock) (h : Filled K m d m' d') (h' : Filled K m' d' m'' d'') :
    Filled K m d m'' d'' where
  keep a ha := by
    have := h.keep a ha
    rw [h'.keep a (by rwa [this]), this]
  new b hb hb' := by
    by_cases hlt : b < m'.freeblock
    · obtain ⟨a, ha⟩ := h.new b hb hlt
      exact ⟨a, by rw [h'.keep a (by omega), ha]⟩
    · exact h'.new b (by omega) hb'
  only k hk := by
    rcases h'.only k hk with hk' | hk'
    · exact h.only k hk'
    · exact .inr hk'

theorem Filled.mono (h : Filled K m d m' d') (hK : ∀ k, K k → K' k) : Filled K' m d m' d' :=
  { h with only := fun k hk => (h.only k hk).imp_right (hK k) }

theorem Filled.congr (h : Filled K m d m' d') (hb : m''.freeblock = m'.freeblock)
    (hr : ∀ a, d''.ref m''.marks a = d'.ref m'.marks a) : Filled K m d m'' d'' where
  keep a ha := (hr a).trans (h.keep a ha)
  new b hb₁ hb₂ := by
    obtain ⟨a, ha⟩ := h.new b hb₁ (hb ▸ hb₂)
    exact ⟨a, (hr a).trans ha⟩
  only k hk := by
    rw [blockOf_congr hr] at hk
    exact h.only k hk

theorem Filled.take {a : Place} (h0 : d.ref m.marks a = 0) (hb : m'.freeblock = m.freeblock + 1)
    (hr : d'.ref m'.marks = update (d.ref m.marks) a m.freeblock)
    (ha : ∀ k < 140, place k = a → K k) : Filled K m d m' d' where
  keep c hc := by
    rw [hr, update_of_ne]
    exact fun h => hc (h ▸ h0)
  new b hb₁ hb₂ := ⟨a, by rw [hr, update_self]; omega⟩
  only k hk := by
    have h140 := lt_of_blockOf hk
    rw [blockOf_eq h140, hr] at hk
    rw [blockOf_eq h140]
    by_cases hp : place k = a
    · exact .inr (ha k h140 hp)
    · rw [update_of_ne hp] at hk
      exact .inl hk

theorem ref_takeBlock (h : d.addrs 12 ≠ 0 → (d.addrs 12).toNat ≠ 28) (a : Place) :
    d.ref m.takeBlock.marks a = d.ref m.marks a := by
  refine Dinode.ref_congr fun h12 => ?_
  rw [marks_of_ne (h h12), marks_of_ne (h h12)]
  rfl

theorem filled_addr (h : Volume super V m.marks) (hlt : m.freeblock < 4096)
    (h12 : d.addrs 12 ≠ 0 → (d.addrs 12).toNat ≠ 28) {j : Fin 13} (h0 : d.addrs j = 0)
    (ha : ∀ k < 140, place k = .addr j → K k) :
    Filled K m d m.takeBlock (d.setAddr j (UInt32.ofNat m.freeblock)) := by
  have h29 := le_freeblock h
  have hzero : ∀ k < 512, m.takeBlock.marks (UInt32.ofNat m.freeblock).toNat k = 0 := by
    intro k hk
    rw [toNat_freeblock hlt, marks_of_ne (by omega)]
    have := h.free m.freeblock hlt (by rw [marked_marks hlt]; simp) k hk
    rwa [marks_of_ne (by omega)] at this
  refine Filled.take (a := .addr j) (by rw [Dinode.ref, h0]; rfl) rfl ?_ ha
  rw [Dinode.ref_setAddr h0 fun _ => hzero, toNat_freeblock hlt, funext (ref_takeBlock h12)]

theorem filled_entry (hlt : m.freeblock < 4096 ∨ m'.freeblock = m.freeblock) (h12 : d.addrs 12 ≠ 0)
    (h28 : (d.addrs 12).toNat ≠ 28) (hbn : bn < 140) (h12le : 12 ≤ bn)
    (hr : m.rsect (d.addrs 12).toNat = some indirect) (hm : (if entry indirect (bn - 12) = 0 then
        some ((UInt32.ofNat m.freeblock).toNat, d, m.takeBlock.wsect (d.addrs 12).toNat
          (put32 indirect (4 * (bn - 12)) (UInt32.ofNat m.freeblock)))
      else some ((entry indirect (bn - 12)).toNat, d, m)) = some (x, d', m')) :
    Filled (· = bn) m d m' d' := by
  have hread : m.disk (d.addrs 12).toNat = indirect := by
    unfold rsect at hr
    split at hr <;> cases hr
    rfl
  by_cases h0 : entry indirect (bn - 12) = 0
  · rw [if_pos h0] at hm
    cases hm
    have hlt : m.freeblock < 4096 := hlt.resolve_right (Nat.succ_ne_self _)
    have hmarks : m.takeBlock.marks (d.addrs 12).toNat = indirect := (marks_of_ne h28).trans hread
    refine Filled.take (a := .entry ⟨bn - 12, by omega⟩) ?_ rfl ?_ ?_
    · rw [Dinode.ref_entry h12, marks_of_ne h28, hread, h0]
      rfl
    · let j : Fin 128 := ⟨bn - 12, by omega⟩
      have hset : d.ref (update m.takeBlock.marks (d.addrs 12).toNat
          (put32 (m.takeBlock.marks (d.addrs 12).toNat) (4 * j.val) (UInt32.ofNat m.freeblock))) =
          update (d.ref m.takeBlock.marks) (.entry j) (UInt32.ofNat m.freeblock).toNat :=
        Dinode.ref_setEntry h12
      rw [hmarks, toNat_freeblock hlt, funext (ref_takeBlock fun _ => h28)] at hset
      rw [marks_wsect h28]
      exact hset
    · intro k hk hp
      have : k = bn - 12 + 12 := place_entry hp hk
      omega
  · rw [if_neg h0] at hm
    cases hm
    exact .refl _ _ _

theorem block_filled (h : Volume super (update V i d) m.marks) (hi : i < 200) (ht : d.type ≠ 0)
    (hbn : bn < 140) (hm : m.block bn d = some (x, d', m')) (hf : m'.freeblock ≤ 4096) :
    Filled (· = bn) m d m' d' := by
  have hlive : Live super (update V i d) i := ⟨hi, by rwa [update_self]⟩
  have h28 : d.addrs 12 ≠ 0 → (d.addrs 12).toNat ≠ 28 := by
    intro h12
    have := (h.indirect_inUse hlive (by rwa [update_self])).1
    rw [update_self] at this
    change 29 ≤ _ at this
    omega
  have h29 := le_freeblock h
  have hle := (block_grows hm).le
  unfold block at hm
  by_cases hdir : bn < 12
  · rw [if_pos hdir] at hm
    by_cases h0 : d.addrs (Fin.ofNat 13 bn) = 0
    · rw [if_pos h0] at hm
      cases hm
      refine filled_addr h hf h28 h0 fun k hk hp => ?_
      exact place_inj hk hbn (hp.trans (if_pos hdir).symm)
    · rw [if_neg h0] at hm
      cases hm
      exact .refl _ _ _
  · rw [if_neg hdir] at hm
    by_cases h12 : d.addrs 12 = 0
    · simp only [if_pos h12, Option.bind_eq_bind, Option.bind_eq_some_iff] at hm
      obtain ⟨indirect, hr, hm⟩ := hm
      have hlt : m.takeBlock.freeblock < 4096 ∨ m'.freeblock = m.takeBlock.freeblock := by
        split at hm <;> cases hm
        · exact .inl hf
        · exact .inr rfl
      have hfb : m.freeblock < 4096 := by
        rcases hlt with hlt | heq
        · exact Nat.lt_of_succ_lt hlt
        · exact Nat.lt_of_succ_le (heq.symm.trans_le hf)
      have haddr : ((d.setAddr 12 (UInt32.ofNat m.freeblock)).addrs 12).toNat = m.freeblock := by
        rw [Dinode.setAddr_addrs, update_self, toNat_freeblock hfb]
      have hfirst : Filled (· = bn) m d m.takeBlock (d.setAddr 12 (UInt32.ofNat m.freeblock)) :=
        filled_addr h hfb h28 h12 fun k hk hp => absurd hp (place_ne_indirect k hk)
      refine hfirst.trans (by omega) (filled_entry hlt ?_ (by omega) hbn (by omega) hr hm)
      intro hz
      rw [hz] at haddr
      have : (0 : UInt32).toNat = 0 := rfl
      omega
    · simp only [if_neg h12, Option.bind_eq_bind, Option.bind_eq_some_iff] at hm
      obtain ⟨indirect, hr, hm⟩ := hm
      refine filled_entry ?_ h12 (h28 h12) hbn (by omega) hr hm
      split at hm <;> cases hm
      · exact .inl hf
      · exact .inr rfl

theorem iappendLoop_filled (hi : i < 200) (h : Volume super (update V i d) m.marks)
    (ht : d.type ≠ 0) (hm : iappendLoop fuel p off n d m = some (off', d', m'))
    (hf : m'.freeblock ≤ 4096) :
    Filled (Fs.Spans off n) m d m' d' ∧ d'.type ≠ 0 ∧ Volume super (update V i d') m'.marks := by
  induction fuel generalizing p off n d m with
  | zero => cases hm
  | succ fuel ih =>
    unfold iappendLoop at hm
    by_cases h0 : n = 0
    · rw [if_pos h0] at hm
      cases hm
      exact ⟨.refl _ _ _, ht, h⟩
    · rw [if_neg h0] at hm
      by_cases hbn : off / 512 < 140
      · rw [if_pos hbn] at hm
        simp only [Option.bind_eq_bind, Option.bind_eq_some_iff] at hm
        obtain ⟨⟨x, d₁, m₁⟩, hblock, buf, hbuf, hm⟩ := hm
        have hle := (iappendLoop_grows hm).le
        obtain ⟨ht₁, -, -, hvol, href⟩ := round_marks h hi ht hbn hblock hbuf (hle.trans hf) n p
        have hspan : ∀ k, k = off / 512 → Fs.Spans off n k :=
          fun k hk => ⟨off, Nat.le_refl _, by omega, hk.symm⟩
        have hblock' := (block_filled h hi ht hbn hblock (hle.trans hf)).mono hspan
        have h29 := le_freeblock h
        have hround : Filled (Fs.Spans off n) m d
            (m₁.wsect x (patch buf (off % 512) (min n (512 - off % 512)) p)) d₁ :=
          hblock'.congr rfl href
        obtain ⟨hrest, ht', hvol'⟩ := ih hvol ht₁ hm
        refine ⟨hround.trans (by omega) (hrest.mono ?_), ht', hvol'⟩
        rintro k ⟨q, hq₁, hq₂, hq⟩
        exact ⟨q, by omega, by omega, hq⟩
      · rw [if_neg hbn] at hm
        cases hm

end Mkfs

end Xv6Shed
