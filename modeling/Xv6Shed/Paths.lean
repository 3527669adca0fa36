import Xv6Shed.Writes

/-!
# Directories and paths in the code

`dirlookup`, `dirlink` and `namei`. They keep the invariant: what an entry names is in use, so
it can be locked, and a new entry uses up a credit of the inode that it names.
-/

namespace Xv6Shed.Fs
open Function Bytes

variable {NINODE : ℕ} {sb : Superblock} {m : Mode} {c c' : ℕ → ℕ} {B : ℕ}
  {H : Multiset (Fin NINODE)} {L : Finset (Fin NINODE)} {dp ip : Fin NINODE} {s : Fs NINODE}

section

variable (h : Inv m sb s H L c B) (hdp : dp ∈ H) (hv : (s.icache dp).valid = true)
include h hdp hv

theorem Inv.block_eq (k : ℕ) : blockOf (s.icache dp).d (s.disk (s.icache dp).dev) k =
      blockOf (s.onDisk dp) (s.disk 1) k := by
  rw [h.dev dp hdp]
  refine blockOf_congr (fun _ => Dinode.ref_congr_addrs ?_) k
  rw [h.copy dp hdp hv]

theorem Inv.bytes_eq :
    bytes (s.icache dp).d (s.disk (s.icache dp).dev) = bytes (s.onDisk dp) (s.disk 1) := by
  rw [h.dev dp hdp]
  refine bytes_congr_addrs ?_
  rw [h.copy dp hdp hv]

theorem Inv.mapped_of_valid : Mapped (s.onDisk dp) (s.disk 1) :=
  h.healthy.mapped _ ⟨h.range dp hdp, h.live dp hdp hv⟩

theorem Inv.mapped_cached : Mapped (s.icache dp).d (s.disk (s.icache dp).dev) := by
  intro j hj
  rw [h.block_eq hdp hv]
  rw [h.copy dp hdp hv] at hj
  exact h.mapped_of_valid hdp hv j hj

theorem Inv.type_eq :
    (s.icache dp).d.type = (s.onDisk dp).type ∧ (s.icache dp).d.size = (s.onDisk dp).size := by
  rw [h.copy dp hdp hv]
  exact ⟨rfl, rfl⟩

end

theorem entryOf_eq {k b : ℕ} (hb : blockOf (s.onDisk dp) (s.disk 1) (k / 32) = b) (h0 : b ≠ 0) :
    s.entryOf dp k = .load (s.disk 1 b) (16 * (k % 32)) := by
  refine Dirent.load_congr fun i hi => ?_
  have hdiv : (16 * k + i) / 512 = k / 32 := by omega
  rw [bytes, hdiv, hb, if_neg h0]
  congr 1
  omega

theorem bmap_false_meets (s : Fs NINODE) (ip : Fin NINODE) (bn : ℕ) :
    Meets (Allowed m) (s.bmap false ip bn) fun r => r.2 = s := by
  unfold bmap
  dsimp only
  by_cases hdirect : bn < 12
  · rw [if_pos hdirect]
    by_cases ha : (s.icache ip).d.addrs (Fin.ofNat 13 bn) ≠ 0
    · rw [if_pos ha]
      exact Meets.pure rfl
    · rw [if_neg ha, if_pos rfl]
      exact Meets.pure rfl
  rw [if_neg hdirect]
  by_cases hind : bn - 12 < 128
  · rw [if_pos hind]
    by_cases h12 : (s.icache ip).d.addrs 12 = 0
    · rw [if_pos ⟨h12, rfl⟩]
      exact Meets.pure rfl
    · rw [if_neg fun h => h12 h.1, loadIndirect, if_neg h12]
      refine Meets.bind (Q := (· = s)) (Meets.pure rfl) ?_
      rintro _ rfl
      split
      · exact Meets.pure rfl
      · rw [if_pos rfl]
        exact Meets.pure rfl
  · rw [if_neg hind]
    exact Meets.error (.panic (by decide))

theorem readLoop_meets (s : Fs NINODE) (ip : Fin NINODE) (fuel off n : ℕ) :
    Meets (Allowed m) (s.readLoop ip fuel off n) fun _ => True := by
  induction fuel generalizing off n with
  | zero => exact Meets.error .hang
  | succ fuel ih =>
    unfold readLoop
    by_cases hn : n = 0
    · rw [if_pos hn]
      exact Meets.pure trivial
    · rw [if_neg hn]
      refine (bmap_false_meets s ip _).bind fun r _ => ?_
      exact (ih _ _).bind fun _ _ => Meets.pure trivial

theorem readi_meets (s : Fs NINODE) (driver : ℤ) (ip : Fin NINODE) (off n : ℕ) :
    Meets (Allowed m) (s.readi driver ip off n) fun r => (s.icache ip).d.type ≠ T_DEV →
      0 < r.1 → off + r.1.toNat ≤ (s.icache ip).d.size.toNat := by
  unfold readi
  dsimp only
  by_cases hdev : (s.icache ip).d.type = T_DEV
  · rw [if_pos hdev]
    exact Meets.pure fun hne => absurd hdev hne
  rw [if_neg hdev]
  by_cases hoff : (s.icache ip).d.size.toNat < off ∨ (off + n) % 2 ^ 32 < off
  · rw [if_pos hoff]
    exact Meets.pure fun _ hr => absurd (show (0 : ℤ) < -1 from hr) (by decide)
  · rw [if_neg hoff]
    refine (readLoop_meets s ip _ off _).bind fun dst _ => Meets.pure fun _ _ => ?_
    dsimp only
    rw [Int.toNat_natCast]
    split <;> omega

theorem dirScan_meets (h : Inv m sb s H L c B) (hdp : dp ∈ H) (hv : (s.icache dp).valid = true)
    (name : List UInt8) (n j : ℕ) (hsize : 512 * (j + n) < (s.onDisk dp).size.toNat + 512) :
    Meets (Allowed m) (s.dirScan dp name n (512 * j)) fun r => ∀ off i, r = some (off, i) →
      ∃ k, off = 16 * k ∧ 512 * (off / 512) < (s.onDisk dp).size.toNat ∧
        (s.entryOf dp k).inum.toNat = i ∧ i ≠ 0 := by
  induction n generalizing j with
  | zero => exact Meets.pure fun _ _ hr => nomatch hr
  | succ n ih =>
    have hmap := h.mapped_of_valid hdp hv j (by omega)
    generalize hb : blockOf (s.onDisk dp) (s.disk 1) j = b at hmap
    have hblock : blockOf (s.icache dp).d (s.disk (s.icache dp).dev) (512 * j / 512) = b := by
      rw [h.block_eq hdp hv, Nat.mul_div_cancel_left j (by decide), hb]
    unfold dirScan
    rw [bmap_read (by rwa [hblock]), ok_bind, hblock, h.dev dp hdp]
    dsimp only
    split
    · rename_i k hf
      obtain ⟨-, hk, hp⟩ := first_eq_some hf
      refine Meets.pure ?_
      rintro off i hr
      cases hr
      refine ⟨32 * j + k, by omega, by omega, ?_, ?_⟩
      · rw [entryOf_eq (b := b) (by rw [← hb]; congr 1; omega) hmap]
        congr 3
        omega
      · rw [Bool.and_eq_true, bne_iff_ne] at hp
        exact fun h0 => hp.1 (UInt16.toNat_inj.mp h0)
    · rw [← Nat.mul_succ]
      exact ih (j + 1) (by omega)

section Named

variable {i k : ℕ} (h : Inv m sb s H L c B) (hdp : dp ∈ H) (hdir : (s.onDisk dp).type = T_DIR)
  (hk : k < maxEntries) (he : (s.entryOf dp k).inum.toNat = i) (hi : i ≠ 0)

include h hdp hdir hk he

theorem Inv.graph_entry_of :
    (graph sb (s.disk 1)).entry (s.icache dp).inum k = i := by
  rw [graph_entry ⟨h.range dp hdp, hdir⟩ hk]
  exact he

include hi

theorem Inv.named_live (hm : m ≠ .blocks) : Live sb (dinode (s.disk 1)) i := by
  have hentry := h.graph_entry_of hdp hdir hk he
  have := (h.linked hm).named _ (h.range dp hdp) k hk (by rwa [hentry])
  rw [hentry] at this
  exact graph_live.mp this

theorem Inv.named_links (hm : m ≠ .blocks) (hne : (s.icache dp).inum ≠ i) :
    (dinode (s.disk 1) i).nlink ≠ 0 := by
  have hlive := h.named_live hdp hdir hk he hi hm
  have hnames := names_pos (h.range dp hdp) hk (h.graph_entry_of hdp hdir hk he) hne
  have hcount := (h.linked hm).counted i (graph_live.mpr hlive)
  intro h0
  rw [graph_links hlive, h0] at hcount
  have : (0 : UInt16).toNat = 0 := rfl
  omega

end Named

theorem dirlookup_meets (h : Inv m sb s H L c B) (hdp : dp ∈ H) (hv : (s.icache dp).valid = true)
    (name : List UInt8) :
    Meets (Allowed m) (s.dirlookup dp name) fun r => (s.onDisk dp).type = T_DIR ∧
      (r.1 = none → r.2 = s) ∧
      ∀ ip off, r.1 = some (ip, off) → Inv m sb r.2 (ip ::ₘ H) L c B ∧ Keep H s r.2 ∧
        r.2.disk = s.disk ∧ ∃ k, off = 16 * k ∧ k < maxEntries ∧
          512 * (off / 512) < (s.onDisk dp).size.toNat ∧
          (s.entryOf dp k).inum.toNat = (r.2.icache ip).inum ∧ (r.2.icache ip).inum ≠ 0 := by
  obtain ⟨ht, hsz⟩ := h.type_eq hdp hv
  unfold dirlookup
  dsimp only
  rw [ht, hsz]
  by_cases hdir : (s.onDisk dp).type = T_DIR
  · rw [if_neg (not_not.mpr hdir)]
    refine (dirScan_meets h hdp hv name _ 0 (by omega)).bind ?_
    rintro (_ | ⟨off, i⟩) hr
    · exact Meets.pure ⟨hdir, fun _ => rfl, fun _ _ hr => nomatch hr⟩
    · obtain ⟨k, hoff, hlt, he, hi⟩ := hr off i rfl
      have hk : k < maxEntries := by
        have := (h.mapped_of_valid hdp hv).size_le
        unfold maxEntries
        omega
      have hd : IsDir sb (s.disk 1) (s.icache dp).inum := ⟨h.range dp hdp, hdir⟩
      have hrange := h.healthy.range _ hd k hk
      dsimp only
      rw [h.dev dp hdp]
      refine (iget_meets h (he ▸ hrange) (h.named_live hdp hdir hk he hi) fun hm hnew => ?_).bind ?_
      · exact h.named_links hdp hdir hk he hi (by rw [hm]; decide) fun hj => hnew ⟨dp, hdp, hj⟩
      rintro ⟨ip, s'⟩ ⟨hinv, hkeep, hdisk, hinum⟩
      refine Meets.pure ⟨hdir, fun hn => (nomatch hn), ?_⟩
      intro ip' off' hr'
      cases hr'
      refine ⟨hinv, hkeep, hdisk, k, hoff, hk, hlt, ?_, ?_⟩
      · rw [hinum, he]
      · rwa [hinum]
  · rw [if_pos hdir]
    exact Meets.error (.panic (by decide))

theorem dirEmpty_meets (h : Inv m sb s H L c B) (hdp : dp ∈ H) (hv : (s.icache dp).valid = true)
    (hdir : (s.onDisk dp).type = T_DIR) (n k : ℕ) (hk : 16 * k ≤ (s.onDisk dp).size.toNat)
    (hn : (s.onDisk dp).size.toNat ≤ 16 * (k + n)) :
    Meets (Allowed m) (s.dirEmpty dp n (16 * k)) fun off => ∃ k', off = 16 * k' ∧
      off ≤ (s.onDisk dp).size.toNat ∧
      ((s.entryOf dp k').inum = 0 ∨ off = (s.onDisk dp).size.toNat) := by
  induction n generalizing k with
  | zero => exact Meets.pure ⟨k, rfl, hk, .inr (by omega)⟩
  | succ n ih =>
    obtain ⟨ht, hsz⟩ := h.type_eq hdp hv
    have hmapped := h.mapped_cached hdp hv
    have hsize := hmapped.size_le
    rw [← hsz] at hk hn
    obtain ⟨dst, hread, hdst⟩ := readi_ok (by rw [ht, hdir]; decide) hmapped (-1) hk
      (show 16 * k + 16 < 2 ^ 32 by omega)
    unfold dirEmpty
    rw [hread, ok_bind]
    dsimp only
    by_cases h16 : min 16 ((s.icache dp).d.size.toNat - 16 * k) = 16
    · rw [h16] at hdst ⊢
      rw [if_neg (fun hne => hne rfl)]
      have hent : Dirent.load dst 0 = s.entryOf dp k := by
        refine Dirent.load_congr fun p hp => ?_
        rw [Nat.zero_add, hdst p hp, h.bytes_eq hdp hv]
      rw [hent]
      by_cases h0 : (s.entryOf dp k).inum = 0
      · rw [if_pos h0]
        exact Meets.pure ⟨k, rfl, hsz ▸ hk, .inl h0⟩
      · rw [if_neg h0, ← Nat.mul_succ]
        exact ih (k + 1) (by rw [← hsz]; omega) (by rw [← hsz]; omega)
    · rw [if_pos (fun he => h16 (by exact_mod_cast he))]
      exact Meets.error (.panic (by decide))

theorem load_bytes_inum (de : Dirent) : (Dirent.load de.bytes 0).inum = de.inum := by
  refine get16_of_putLE fun i hi => ?_
  rw [Nat.zero_add, Dirent.bytes, if_pos hi]

theorem dirlink_meets {ino : ℕ} (h : Inv m sb s H L c B) (hdp : dp ∈ H)
    (hv : (s.icache dp).valid = true) (name : List UInt8) (hino : ino < sb.ninodes)
    (hlive : m ≠ .blocks → Live sb (dinode (s.disk 1)) ino)
    (hc : m ≠ .blocks → (s.onDisk dp).type = T_DIR → ino = (s.icache dp).inum ∧ c' = c ∨
      ino ≠ (s.icache dp).inum ∧ 0 < c ino ∧ c' = update c ino (c ino - 1))
    (hown : m = .exact → (s.onDisk dp).type = T_DIR → ino = (s.icache dp).inum → name = dot) :
    Meets (Allowed m) (s.dirlink dp name ino) fun r => (s.onDisk dp).type = T_DIR ∧
      (r.1 < 0 → Inv m sb r.2 H L c B ∧ Keep H s r.2) ∧
      (¬r.1 < 0 → Inv m sb r.2 H L c' B ∧ Grow H s r.2) := by
  unfold dirlink
  refine (dirlookup_meets h hdp hv name).bind ?_
  rintro ⟨_ | ⟨ip, off⟩, s'⟩ ⟨hdir, hnone, hsome⟩
  · obtain rfl : s' = s := hnone rfl
    dsimp only
    rw [(h.type_eq hdp hv).2]
    refine (dirEmpty_meets h hdp hv hdir _ 0 (Nat.zero_le _) (by omega)).bind ?_
    rintro _ ⟨k, rfl, hle, hempty⟩
    have hd : IsDir sb (s'.disk 1) (s'.icache dp).inum := ⟨h.range dp hdp, hdir⟩
    generalize hde : Dirent.load (Dirent.bytes ⟨UInt16.ofNat ino, name⟩) 0 = de
    have hinum : de.inum.toNat = ino % 65536 := by
      rw [← hde, load_bytes_inum, UInt16.toNat_ofNat']
    have hinum' : m ≠ .blocks → de.inum.toNat = ino := by
      intro hm
      have := h.small hm
      rw [hinum, Nat.mod_eq_of_lt (by omega)]
    have hfree : m = .exact → k < maxEntries →
        (graph sb (s'.disk 1)).entry (s'.icache dp).inum k = 0 := by
      intro hm hk
      rw [graph_entry hd hk]
      refine congrArg UInt16.toNat (hempty.elim id fun hend => ?_)
      exact (h.tidy hm).tail _ hd k (Nat.le_of_eq hend.symm)
    refine Meets.bind (Q := fun r => r.1 = 16 → Inv m sb r.2 H L c' B ∧ Grow H s' r.2)
      (writei_entry_meets h hdp hv hdir hde (.inl hle) ?_ ?_ ?_ ?_) ?_
    · rw [hinum]
      omega
    · intro hm hk
      rw [hinum' hm]
      rcases hc hm hdir with ⟨rfl, rfl⟩ | ⟨hne, hpos, rfl⟩
      · exact (h.linked hm).enterSelf hd.1 hk (graph_live.mpr hd.live)
      · exact (h.linked hm).enter hd.1 hk (graph_live.mpr (hlive hm)) hne.symm hpos
    · intro hm hk
      have hm' : m ≠ .blocks := by
        rw [hm]
        decide
      rw [hinum' hm']
      rcases hc hm' hdir with ⟨rfl, rfl⟩ | ⟨hne, hpos, rfl⟩
      · exact (h.exact hm).enterSelf (h.linked hm') hd.1 hk (hfree hm hk)
      · exact (h.exact hm).enter (h.linked hm') hd.1 hk (hfree hm hk) hne.symm hpos
    · intro hm _ he
      rw [hinum' (by rw [hm]; decide)] at he
      rw [← hde, hown hm hdir he]
      rfl
    · rintro ⟨r, s₁⟩ hr
      dsimp only
      by_cases h16 : r = 16
      · rw [if_neg (not_not.mpr h16)]
        exact Meets.pure ⟨hdir, fun h0 => absurd h0 (Int.lt_irrefl 0), fun _ => hr h16⟩
      · rw [if_pos h16]
        exact Meets.error (.panic (by decide))
  · obtain ⟨hinv, hkeep, -⟩ := hsome ip off rfl
    refine (iput_meets hinv (h.sub ip)).bind ?_
    rintro s₁ ⟨hinv₁, hkeep₁⟩
    exact Meets.pure ⟨hdir, fun _ => ⟨hinv₁, hkeep.trans hkeep₁⟩,
      fun hn => absurd (show (-1 : ℤ) < 0 by decide) hn⟩

theorem nameiLoop_meets (parent : Bool) (fuel : ℕ) (path : List UInt8)
    (h : Inv m sb s (ip ::ₘ H) ∅ c B) :
    Meets (Allowed m) (nameiLoop parent fuel ip path s) fun r => Keep H s r.2 ∧
      (r.1 = none → Inv m sb r.2 H ∅ c B) ∧
      ∀ jp name, r.1 = some (jp, name) → Inv m sb r.2 (jp ::ₘ H) ∅ c B := by
  induction fuel generalizing ip path s with
  | zero => exact Meets.error .hang
  | succ fuel ih =>
    have hself := Multiset.mem_cons_self ip H
    have hup : ∀ jp ∈ H, jp ∈ ip ::ₘ H := fun _ hj => Multiset.mem_cons_of_mem hj
    unfold nameiLoop
    cases skipelem path with
    | none =>
      dsimp only
      by_cases hp : parent = true
      · rw [if_pos hp]
        refine (iput_meets h (by simp)).bind ?_
        rintro s₁ ⟨h₁, hk₁⟩
        exact Meets.pure ⟨hk₁, fun _ => h₁, fun _ _ hr => nomatch hr⟩
      · rw [if_neg hp]
        refine Meets.pure ⟨.refl H s, fun hn => (nomatch hn), ?_⟩
        intro jp name hr
        cases hr
        exact h
    | some pn =>
      obtain ⟨rest, name⟩ := pn
      dsimp only
      refine (ilock_meets h hself).bind ?_
      rintro s₁ ⟨h₁, hk₁, -, -, hv₁⟩
      have hlocked : (insert ip ∅ : Finset (Fin NINODE)).erase ip = ∅ := by simp
      have hput : ∀ {s₂ : Fs NINODE} {K : Multiset (Fin NINODE)},
          Inv m sb s₂ (ip ::ₘ K) (insert ip ∅) c B →
          Meets (Allowed m) (s₂.iunlockput ip) fun s' => Inv m sb s' K ∅ c B ∧ Keep K s₂ s' := by
        intro s₂ K h₂
        have := iunlockput_meets h₂
        rwa [hlocked] at this
      by_cases hd : (s₁.icache ip).d.type ≠ T_DIR
      · rw [if_pos hd]
        refine (hput h₁).bind ?_
        rintro s₂ ⟨h₂, hk₂⟩
        exact Meets.pure ⟨(hk₁.mono hup).trans hk₂, fun _ => h₂, fun _ _ hr => nomatch hr⟩
      rw [if_neg hd]
      by_cases hp : parent = true ∧ atEnd rest = true
      · rw [if_pos hp]
        refine (iunlock_meets h₁ hself).bind ?_
        rintro s₂ ⟨h₂, hk₂, -⟩
        rw [hlocked] at h₂
        refine Meets.pure ⟨(hk₁.trans hk₂).mono hup, fun hn => (nomatch hn), ?_⟩
        intro jp nm hr
        cases hr
        exact h₂
      rw [if_neg hp]
      refine (dirlookup_meets h₁ hself hv₁ name).bind ?_
      rintro ⟨_ | ⟨next, off⟩, s₂⟩ ⟨-, hnone, hsome⟩
      · obtain rfl : s₂ = s₁ := hnone rfl
        refine (hput h₁).bind ?_
        rintro s₃ ⟨h₃, hk₃⟩
        exact Meets.pure ⟨(hk₁.mono hup).trans hk₃, fun _ => h₃, fun _ _ hr => nomatch hr⟩
      · obtain ⟨h₂, hk₂, -⟩ := hsome next off rfl
        rw [Multiset.cons_swap] at h₂
        refine (hput h₂).bind ?_
        rintro s₃ ⟨h₃, hk₃⟩
        refine (ih rest h₃).imp ?_
        rintro r ⟨hk₄, hr⟩
        exact ⟨(((hk₁.trans hk₂).mono hup).trans (hk₃.mono fun _ hj =>
          Multiset.mem_cons_of_mem hj)).trans hk₄, hr⟩

theorem nameiFrom_meets (h : Inv m sb s H ∅ c B) (parent : Bool) {cwd : Option (Fin NINODE)}
    (hcwd : ∀ ip, cwd = some ip → ip ∈ H) (path : List UInt8) :
    Meets (Allowed m) (s.nameiFrom parent cwd path) fun r => Keep H s r.2 ∧
      (r.1 = none → Inv m sb r.2 H ∅ c B) ∧
      ∀ jp name, r.1 = some (jp, name) → Inv m sb r.2 (jp ::ₘ H) ∅ c B := by
  unfold nameiFrom
  by_cases hs : path.headD 0 = slash
  · rw [if_pos hs]
    have hroot : m ≠ .blocks → Live sb (dinode (s.disk 1)) 1 :=
      fun hm => graph_live.mp (h.linked hm).root
    refine (iget_meets h h.root hroot fun hm _ h0 => ?_).bind ?_
    · have hm' : m ≠ .blocks := by
        rw [hm]
        decide
      have := (h.linked hm').counted 1 (h.linked hm').root
      rw [graph_links (hroot hm'), h0, if_pos rfl] at this
      exact absurd this (by change ¬_ ≤ 0; omega)
    · rintro ⟨ip, s₁⟩ ⟨h₁, hk₁, -⟩
      refine (nameiLoop_meets parent _ path h₁).imp ?_
      rintro r ⟨hk, hr⟩
      exact ⟨hk₁.trans hk, hr⟩
  · rw [if_neg hs]
    cases cwd with
    | none => exact Meets.error .null
    | some ip =>
      obtain ⟨h₁, hk₁⟩ := h.another (hcwd ip rfl)
      refine (nameiLoop_meets parent _ path h₁).imp ?_
      rintro r ⟨hk, hr⟩
      exact ⟨(hk₁.mono fun _ hj => Multiset.mem_cons_of_mem hj).trans hk, hr⟩

theorem namei_meets (h : Inv m sb s H ∅ c B) {cwd : Option (Fin NINODE)}
    (hcwd : ∀ ip, cwd = some ip → ip ∈ H) (path : List UInt8) :
    Meets (Allowed m) (s.namei cwd path) fun r => Keep H s r.2 ∧
      (r.1 = none → Inv m sb r.2 H ∅ c B) ∧
      ∀ jp, r.1 = some jp → Inv m sb r.2 (jp ::ₘ H) ∅ c B := by
  unfold namei
  refine (nameiFrom_meets h false hcwd path).bind ?_
  rintro ⟨_ | ⟨jp, name⟩, s₁⟩ ⟨hk, hnone, hsome⟩
  · exact Meets.pure ⟨hk, fun _ => hnone rfl, fun _ hr => nomatch hr⟩
  · refine Meets.pure ⟨hk, fun hn => (nomatch hn), ?_⟩
    intro jp' hr
    cases hr
    exact hsome jp name rfl

end Xv6Shed.Fs
