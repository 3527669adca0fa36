import Xv6Shed.CreateCalls
import Xv6Shed.OpenFiles
import Xv6Shed.Transition

/-!
# Runs of file-system calls

The invariant of the inode layer is a discipline that its functions keep, so it holds in every
run of calls. Between calls no link count is above 32767; a call raises it at most by one.
-/

namespace Xv6Shed
open Function Bytes Transition

variable {NINODE NFILE NOFILE : ℕ} {P : Type} {sb : Superblock} {m : Mode} {disk : ℕ → Disk}

/-- The most links that an inode has between calls -/
abbrev maxLinks : ℕ := 32767

namespace Fs

variable {s s' : Fs NINODE} {x : File NINODE} {H : Multiset (Fin NINODE)} {c : ℕ → ℕ} {B : ℕ}

/-- What holds of an open file: it has been locked once, is no directory if it is writable, and
its offset is not behind the end. -/
def FileOk (s : Fs NINODE) (x : File NINODE) : Prop :=
  ∀ ip, x.pointer = some ip → (s.icache ip).valid = true ∧
    (x.writable = true → (s.onDisk ip).type ≠ T_DIR) ∧
    ((s.onDisk ip).type ≠ T_DEV → x.off ≤ (s.onDisk ip).size.toNat) ∧ x.off < 2 ^ 32

theorem FileOk.moved {r : ℤ} (h : s.FileOk x) (hgrow : ∀ ip, x.pointer = some ip → Grow {ip} s s')
    (hr : ∀ ip, x.pointer = some ip → (s.onDisk ip).type ≠ T_DEV → 0 < r →
      x.off + r.toNat ≤ (s'.onDisk ip).size.toNat) : s'.FileOk (x.moved r) := by
  intro ip hip
  have hp : x.pointer = some ip := (Discipline.moved_pointer x r).1.symm.trans hip
  obtain ⟨hv, hw, hoff, hlt⟩ := h ip hp
  obtain ⟨-, hkept⟩ := hgrow ip hp ip (Multiset.mem_singleton_self ip)
  obtain ⟨hv', ht, hsize⟩ := hkept hv
  unfold File.moved
  rw [ht]
  by_cases hpos : 0 < r
  · rw [if_pos hpos]
    refine ⟨hv', hw, fun hdev => ?_, Nat.mod_lt _ (by decide)⟩
    exact (Nat.mod_le _ _).trans (hr ip hp hdev hpos)
  · rw [if_neg hpos]
    exact ⟨hv', hw, fun hdev => (hoff hdev).trans hsize, hlt⟩

theorem FileOk.grow (h : s.FileOk x) (hg : Grow H s s') (hH : ∀ ip, x.pointer = some ip → ip ∈ H) :
    s'.FileOk x := by
  intro ip hip
  obtain ⟨hv, hw, hoff, hlt⟩ := h ip hip
  obtain ⟨-, hkept⟩ := hg ip (hH ip hip)
  obtain ⟨hv', ht, hsize⟩ := hkept hv
  rw [ht]
  exact ⟨hv', hw, fun hdev => (hoff hdev).trans hsize, hlt⟩

/-- The invariant as a discipline -/
def links (NINODE : ℕ) (m : Mode) (sb : Superblock) : Discipline NINODE where
  before s H := Inv m sb s H ∅ noCredit maxLinks
  holds s H L := Inv m sb s H L noCredit (maxLinks + 1)
  frame := Grow
  fault := Allowed m
  file := FileOk
  unlinks cwd path s := m = .exact → ¬s.UnlinksDir cwd path

theorem chdir_null_meets (h : Inv m sb s H ∅ c B) (path : List UInt8) :
    Meets (Allowed m) (s.sysChdir none path) fun r => Keep H s r.2 ∧ r.1 = none ∧
      Inv m sb r.2 H ∅ c B := by
  have hcwd : ∀ jp, (none : Option (Fin NINODE)) = some jp → jp ∈ H := by simp
  unfold sysChdir
  refine (namei_meets h hcwd path).bind ?_
  rintro ⟨_ | ip, s₁⟩ ⟨hk₁, hnone, hsome⟩
  · exact Meets.pure ⟨hk₁, rfl, hnone rfl⟩
  have hself := Multiset.mem_cons_self ip H
  have hsub := mem_cons_sub ip H
  refine (ilock_meets (hsome ip rfl) hself).bind ?_
  rintro s₂ ⟨h₂, hk₂, -⟩
  by_cases hdir : (s₂.icache ip).d.type ≠ T_DIR
  · rw [if_pos hdir]
    refine (release_meets h₂).bind ?_
    rintro s₃ ⟨h₃, hk₃⟩
    exact Meets.pure ⟨(hk₁.trans (hk₂.mono hsub)).trans hk₃, rfl, h₃⟩
  · rw [if_neg hdir]
    refine (iunlock_meets h₂ hself).bind ?_
    rintro s₃ -
    exact Meets.error .null

theorem links_sound : (links NINODE m sb).Sound where
  weaken h := h.weaken (Nat.le_succ _)
  frame_trans := Grow.trans
  frame_file hg hH h := h.grow hg hH
  file_ref _ h := h
  null := .null
  panic hmsg := .panic fun he => absurd (he ▸ hmsg) (by decide)
  idup h hip := by
    obtain ⟨hi, hk⟩ := h.another hip
    exact ⟨hi, (hk.mono (mem_cons_sub _ _)).grow⟩
  ilock h hip := (ilock_meets h hip).imp fun s' hs' => by
    obtain ⟨hi, hk, -⟩ := hs'
    exact ⟨hi, hk.grow⟩
  iunlock h hip := (iunlock_meets h hip).imp fun s' hs' => by
    obtain ⟨hi, hk, -⟩ := hs'
    rw [Finset.erase_singleton] at hi
    exact ⟨hi, hk.grow⟩
  iput h := (iput_meets h (by simp)).imp fun s' hs' => ⟨hs'.1, hs'.2.grow⟩
  iunlockput h := (iunlockput_meets h).imp fun s' hs' => by
    obtain ⟨hi, hk⟩ := hs'
    rw [Finset.erase_singleton] at hi
    exact ⟨hi, hk.grow⟩
  readi {s H ip x n} driver h hip hp hf := by
    obtain ⟨hv, -⟩ := hf ip hp
    obtain ⟨ht, hsz⟩ := h.type_eq hip hv
    refine (readi_meets s driver ip x.off n).imp fun r hr =>
      hf.moved (fun _ _ => (Keep.refl _ s).grow) ?_
    intro jp hj hdev hpos
    obtain rfl : jp = ip := Option.some.inj (hj.symm.trans hp)
    rw [← hsz]
    exact hr (by rwa [ht]) hpos
  writei {s H ip x n} driver src h hip hp hw hn hf := by
    obtain ⟨hv, hdir, hoff, hlt⟩ := hf ip hp
    refine (writei_file_meets h hip hv (hdir hw) driver src hoff hlt hn).imp fun r hr => ?_
    obtain ⟨hi, hg, hgrown⟩ := hr
    refine ⟨hi, hg, hf.moved (fun jp hj => hg.mono fun kp hk => ?_) ?_⟩
    · obtain rfl : jp = ip := Option.some.inj (hj.symm.trans hp)
      rw [Multiset.mem_singleton.mp hk]
      exact hip
    · intro jp hj hdev hpos
      obtain rfl : jp = ip := Option.some.inj (hj.symm.trans hp)
      exact hgrown hdev hpos
  sysLink old new h hcwd := sysLink_meets h (fun _ => by decide) hcwd old new
  sysUnlink path h hcwd hu := (sysUnlink_meets h hcwd path hu).imp fun r hr =>
    ⟨hr.1.weaken (Nat.le_succ _), hr.2⟩
  sysMake path _ major minor h hcwd ht :=
    sysMake_meets h (fun _ => by decide) hcwd path ht major minor
  execFile path r h hcwd := (execFile_meets h hcwd path r).imp fun r hr =>
    ⟨hr.1.weaken (Nat.le_succ _), hr.2⟩
  openInode path omode h hcwd :=
    (openInode_meets h (fun _ => by decide) hcwd path omode).imp fun r hr => by
      refine ⟨hr.grow, hr.fail, fun ip hip => ?_⟩
      obtain ⟨hi, hv, ht⟩ := hr.inode ip hip
      refine ⟨hi, fun ref jp hj => ?_⟩
      obtain rfl : ip = jp := Option.some.inj hj
      refine ⟨hv, fun hw => ht ?_, fun _ => Nat.zero_le _, Nat.two_pow_pos 32⟩
      simpa only [openedFile, Writes, decide_eq_true_eq] using hw
  sysChdir path h := (sysChdir_meets h path).imp fun r hr => by
    obtain ⟨hg, hfail, hok⟩ := hr
    exact ⟨hg, fun hn => (hfail hn).weaken (Nat.le_succ _),
      fun ip hip => (hok ip hip).weaken (Nat.le_succ _)⟩
  chdir_null path h := (chdir_null_meets h path).imp fun r hr =>
    ⟨hr.1.grow, hr.2.1, hr.2.2.weaken (Nat.le_succ _)⟩
  namei path h := (namei_meets h (by simp) path).imp fun r hr => by
    obtain ⟨hk, hfail, hok⟩ := hr
    exact ⟨hk.grow, fun hn => (hfail hn).weaken (Nat.le_succ _),
      fun ip hip => (hok ip hip).weaken (Nat.le_succ _)⟩

theorem Inv.few {L : Finset (Fin NINODE)} {B' : ℕ} (h : Inv m sb s H L c B)
    (hfew : m ≠ .blocks → ∀ i, Live sb (dinode (s.disk 1)) i →
      (dinode (s.disk 1) i).nlink.toNat ≤ B') : Inv m sb s H L c B' :=
  { h with
    linked := fun hm =>
      { h.linked hm with
        few := fun i hi => by
          have hl := graph_live.mp hi
          rw [graph_links hl]
          exact hfew hm i hl } }

end Fs

namespace Files

variable {k k' : Files NINODE NFILE NOFILE P}

section Runs

variable [DecidableEq P]

/-- A process makes a call that returns. -/
def Step (k : Files NINODE NFILE NOFILE P) (a : P × FileCall P)
    (k' : Files NINODE NFILE NOFILE P) : Prop :=
  ∃ r, k.exec a.1 a.2 = .ok (r, k')

/-- Every inode in use has fewer than 32768 links. -/
def FewLinks (sb : Superblock) (k : Files NINODE NFILE NOFILE P) : Prop :=
  ∀ i, Live sb (dinode (k.fs.disk 1)) i → (dinode (k.fs.disk 1) i).nlink.toNat < 32768

/-- The call is an `unlink` that removes a directory. -/
def RemovesDir (k : Files NINODE NFILE NOFILE P) (a : P × FileCall P) : Prop :=
  ∃ t path, k.task a.1 = some t ∧ a.2 = .unlink path ∧ k.fs.UnlinksDir t.cwd path

variable [Fintype P] {a : P × FileCall P}

/-- What holds between the calls of a run -/
structure Sound (m : Mode) (sb : Superblock) (k : Files NINODE NFILE NOFILE P) : Prop where
  inv : Fs.Inv m sb k.fs k.pointers ∅ Fs.noCredit 65535
  file : ∀ f, (k.file f).type = .inode → k.fs.FileOk (k.file f)

section

variable (h : k.Sound m sb) (hfew : m ≠ .blocks → k.FewLinks sb)
include h hfew

omit [DecidableEq P] in
theorem Sound.before : (Fs.links NINODE m sb).Before k :=
  ⟨h.inv.few fun hm i hi => Nat.le_of_lt_succ (hfew hm i hi), h.file⟩

theorem Sound.exec_meets (hdir : m = .exact → ¬k.RemovesDir a) :
    Meets (Allowed m) (k.exec a.1 a.2) fun r => r.2.Sound m sb := by
  refine (Fs.links_sound.exec_meets (h.before hfew) a.1 a.2 ?_).imp fun r hr => ?_
  · intro t path ht hc hm hu
    exact hdir hm ⟨t, path, ht, hc, hu⟩
  · exact ⟨hr.fs.weaken (by decide), hr.file⟩

theorem Sound.step (hdir : m = .exact → ¬k.RemovesDir a) (hs : k.Step a k') : k'.Sound m sb := by
  obtain ⟨r, hr⟩ := hs
  exact (h.exec_meets hfew hdir).of_ok hr

end

end Runs

end Files

end Xv6Shed
