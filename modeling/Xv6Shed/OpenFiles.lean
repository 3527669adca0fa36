import Mathlib.Algebra.BigOperators.Group.Finset.Piecewise
import Mathlib.Algebra.Order.Group.Multiset
import Mathlib.Data.Fintype.Basic
import Mathlib.Tactic.Abel
import Xv6Shed.SysFile
import Xv6Shed.Triple

/-!
# Open files and processes over a file system

The calls on open files, and what processes do with their current directories, are checked
against the specifications of the inode layer and not against its code. A `Discipline` is what
is to hold of the file system and of each open file; it is `Sound` if the inode layer keeps it.
Then every call keeps it, with the pointers to inodes that open files and processes have.
-/

namespace Xv6Shed
open Function Bytes

section Gather

variable {α ι : Type} [DecidableEq α] [Fintype ι]

/-- The pointer in one place -/
def pick (o : Option α) : Multiset α := o.elim 0 fun a => {a}

/-- The pointers in a table -/
def gather (g : ι → Option α) : Multiset α := ∑ i, pick (g i)

omit [DecidableEq α] in
theorem gather_update [DecidableEq ι] (g : ι → Option α) (i : ι) (o : Option α) :
    gather (update g i o) + pick (g i) = gather g + pick o := by
  have hrest : ∑ j ∈ Finset.univ.erase i, pick (update g i o j) =
      ∑ j ∈ Finset.univ.erase i, pick (g j) :=
    Finset.sum_congr rfl fun j hj => by rw [update_of_ne (Finset.ne_of_mem_erase hj)]
  unfold gather
  rw [← Finset.add_sum_erase _ _ (Finset.mem_univ i),
    ← Finset.add_sum_erase _ _ (Finset.mem_univ i),
    hrest, update_self]
  abel

omit [DecidableEq α] in
theorem mem_gather {g : ι → Option α} {a : α} : a ∈ gather g ↔ ∃ i, g i = some a := by
  unfold gather
  rw [Multiset.mem_sum]
  refine exists_congr fun i => ?_
  cases h : g i with
  | none => simp [pick]
  | some b => simp [pick, eq_comm]

theorem count_gather (g : ι → Option α) (a : α) :
    (gather g).count a = (Finset.univ.filter fun i => g i = some a).card := by
  unfold gather
  rw [Multiset.count_sum', Finset.card_filter]
  refine Finset.sum_congr rfl fun i _ => ?_
  cases h : g i with
  | none => simp [pick]
  | some b => simp [pick, Multiset.count_singleton, eq_comm]

end Gather

variable {NINODE NFILE NOFILE : ℕ} {P : Type} [Fintype P]

/-- The inode that an open file is on -/
def File.pointer (x : File NINODE) : Option (Fin NINODE) := if x.type = .inode then x.ip else none

/-- All pointers to inodes: those of open files and of current directories -/
def Files.pointers (k : Files NINODE NFILE NOFILE P) : Multiset (Fin NINODE) :=
  gather (fun f => (k.file f).pointer) + gather fun p => (k.task p).bind Task.cwd

namespace Files

variable {k : Files NINODE NFILE NOFILE P} {f : Fin NFILE} {ip : Fin NINODE} {p : P}

theorem mem_of_file (h : (k.file f).pointer = some ip) :
    ip ∈ k.pointers :=
  Multiset.mem_add.mpr (.inl (mem_gather.mpr ⟨f, h⟩))

theorem mem_of_cwd {t : Task NINODE NFILE NOFILE} (ht : k.task p = some t) (h : t.cwd = some ip) :
    ip ∈ k.pointers :=
  Multiset.mem_add.mpr (.inr (mem_gather.mpr ⟨p, by rw [ht]; exact h⟩))

theorem pointers_boot (disk : ℕ → Disk) :
    (boot disk : Files NINODE NFILE NOFILE P).pointers = 0 := by
  refine Multiset.eq_zero_of_forall_notMem fun ip hip => ?_
  rcases Multiset.mem_add.mp hip with h | h
  · obtain ⟨f, hf⟩ := mem_gather.mp h
    cases hf
  · obtain ⟨p, hp⟩ := mem_gather.mp h
    cases hp

theorem pointers_setFile (f : Fin NFILE) (x : File NINODE) :
    (k.setFile f x).pointers + pick (k.file f).pointer = k.pointers + pick x.pointer := by
  have := gather_update (fun f => (k.file f).pointer) f x.pointer
  have hcomp : (fun f' => ((k.setFile f x).file f').pointer) =
      update (fun f => (k.file f).pointer) f x.pointer := by
    funext f'
    by_cases hf : f' = f
    · simp [hf]
    · simp [hf]
  unfold pointers
  rw [hcomp, add_right_comm, this]
  exact add_right_comm _ _ _

theorem pointers_setFile_same {x : File NINODE} (h : x.pointer = (k.file f).pointer) :
    (k.setFile f x).pointers = k.pointers := by
  have := k.pointers_setFile f x
  rw [h] at this
  exact add_right_cancel this

theorem pointers_setTask [DecidableEq P] (p : P) (t : Option (Task NINODE NFILE NOFILE)) :
    (k.setTask p t).pointers + pick ((k.task p).bind Task.cwd) =
      k.pointers + pick (t.bind Task.cwd) := by
  have := gather_update (fun p => (k.task p).bind Task.cwd) p (t.bind Task.cwd)
  have hcomp : (fun p' => ((k.setTask p t).task p').bind Task.cwd) =
      update (fun p => (k.task p).bind Task.cwd) p (t.bind Task.cwd) := by
    funext p'
    by_cases hp : p' = p
    · simp [hp]
    · simp [hp]
  unfold pointers
  rw [hcomp, add_assoc, this, add_assoc]
  rfl

theorem pointers_setTask_same [DecidableEq P] {t : Option (Task NINODE NFILE NOFILE)}
    (h : t.bind Task.cwd = (k.task p).bind Task.cwd) : (k.setTask p t).pointers = k.pointers := by
  have := k.pointers_setTask p t
  rw [h] at this
  exact add_right_cancel this

end Files

/-- What is to hold: of the file system between calls (`before`) and between the steps of one
(`holds`, with the inodes that are locked), of what a step leaves alone (`frame`), of a fault
that ends a call, of an open file, and of the path that a call unlinks. -/
structure Discipline (NINODE : ℕ) where
  before : Fs NINODE → Multiset (Fin NINODE) → Prop
  holds : Fs NINODE → Multiset (Fin NINODE) → Finset (Fin NINODE) → Prop
  frame : Multiset (Fin NINODE) → Fs NINODE → Fs NINODE → Prop
  fault : Fault → Prop
  file : Fs NINODE → File NINODE → Prop
  unlinks : Option (Fin NINODE) → List UInt8 → Fs NINODE → Prop

/-- `f->off` after a transfer that returned `r` -/
def File.moved (x : File NINODE) (r : ℤ) : File NINODE :=
  if 0 < r then { x with off := (x.off + r.toNat) % 2 ^ 32 } else x

/-- The file that `sys_open` makes -/
def openedFile (ref : ℤ) (omode : UInt32) (ip : Fin NINODE) : File NINODE :=
  ⟨.inode, ref, decide (omode &&& 1 = 0), decide (omode &&& 1 ≠ 0 ∨ omode &&& 2 ≠ 0), some ip, 0⟩

/-- The functions of the inode layer keep the discipline. -/
structure Discipline.Sound (D : Discipline NINODE) : Prop where
  weaken {s H} : D.before s H → D.holds s H ∅
  frame_trans {H s s' s''} : D.frame H s s' → D.frame H s' s'' → D.frame H s s''
  frame_file {H s s'} {x : File NINODE} : D.frame H s s' → (∀ ip, x.pointer = some ip → ip ∈ H) →
    D.file s x → D.file s' x
  file_ref {s} {x : File NINODE} (ref : ℤ) : D.file s x → D.file s { x with ref := ref }
  null : D.fault .null
  panic {msg : String} : msg ∈ ["filedup", "fileclose", "fileread", "filewrite"] →
    D.fault (.panic msg)
  idup {s H ip} : D.holds s H ∅ → ip ∈ H →
    D.holds (s.idup ip) (ip ::ₘ H) ∅ ∧ D.frame H s (s.idup ip)
  ilock {s H ip} : D.holds s H ∅ → ip ∈ H →
    Meets D.fault (s.ilock ip) fun s' => D.holds s' H {ip} ∧ D.frame H s s'
  iunlock {s H ip} : D.holds s H {ip} → ip ∈ H →
    Meets D.fault (s.iunlock ip) fun s' => D.holds s' H ∅ ∧ D.frame H s s'
  iput {s H ip} : D.holds s (ip ::ₘ H) ∅ →
    Meets D.fault (s.iput ip) fun s' => D.holds s' H ∅ ∧ D.frame H s s'
  iunlockput {s H ip} : D.holds s (ip ::ₘ H) {ip} →
    Meets D.fault (s.iunlockput ip) fun s' => D.holds s' H ∅ ∧ D.frame H s s'
  readi {s H ip} {x : File NINODE} {n : ℕ} (driver : ℤ) : D.holds s H {ip} → ip ∈ H →
    x.pointer = some ip → D.file s x →
    Meets D.fault (s.readi driver ip x.off n) fun r => D.file s (x.moved r.1)
  writei {s H ip} {x : File NINODE} {n : ℕ} (driver : ℤ) (src : Buffer) : D.holds s H {ip} →
    ip ∈ H → x.pointer = some ip → x.writable = true → n < 2 ^ 32 → D.file s x →
    Meets D.fault (s.writei driver ip src x.off n) fun r => D.holds r.2 H {ip} ∧
      D.frame H s r.2 ∧ D.file r.2 (x.moved r.1)
  sysLink {s H cwd} (old new : List UInt8) : D.before s H → (∀ ip, cwd = some ip → ip ∈ H) →
    Meets D.fault (s.sysLink cwd old new) fun r => D.holds r.2 H ∅ ∧ D.frame H s r.2
  sysUnlink {s H cwd} (path : List UInt8) : D.before s H → (∀ ip, cwd = some ip → ip ∈ H) →
    D.unlinks cwd path s →
    Meets D.fault (s.sysUnlink cwd path) fun r => D.holds r.2 H ∅ ∧ D.frame H s r.2
  sysMake {s H cwd} (path : List UInt8) {type : UInt16} (major minor : UInt16) : D.before s H →
    (∀ ip, cwd = some ip → ip ∈ H) → type ≠ 0 →
    Meets D.fault (s.sysMake cwd path type major minor) fun r => D.holds r.2 H ∅ ∧ D.frame H s r.2
  execFile {s H cwd} (path : List UInt8) (r : ℤ) : D.before s H → (∀ ip, cwd = some ip → ip ∈ H) →
    Meets D.fault (s.execFile cwd path r) fun r => D.holds r.2 H ∅ ∧ D.frame H s r.2
  openInode {s H cwd} (path : List UInt8) (omode : UInt32) : D.before s H →
    (∀ ip, cwd = some ip → ip ∈ H) →
    Meets D.fault (s.openInode cwd path omode) fun r => D.frame H s r.2 ∧
      (r.1 = none → D.holds r.2 H ∅) ∧
      ∀ ip, r.1 = some ip → D.holds r.2 (ip ::ₘ H) {ip} ∧
        ∀ ref, D.file r.2 (openedFile ref omode ip)
  sysChdir {s H} {old : Fin NINODE} (path : List UInt8) : D.before s (old ::ₘ H) →
    Meets D.fault (s.sysChdir (some old) path) fun r => D.frame H s r.2 ∧
      (r.1 = none → D.holds r.2 (old ::ₘ H) ∅) ∧ ∀ ip, r.1 = some ip → D.holds r.2 (ip ::ₘ H) ∅
  chdir_null {s H} (path : List UInt8) : D.before s H →
    Meets D.fault (s.sysChdir none path) fun r => D.frame H s r.2 ∧ r.1 = none ∧ D.holds r.2 H ∅
  namei {s H} (path : List UInt8) : D.before s H →
    Meets D.fault (s.namei none path) fun r => D.frame H s r.2 ∧
      (r.1 = none → D.holds r.2 H ∅) ∧ ∀ ip, r.1 = some ip → D.holds r.2 (ip ::ₘ H) ∅

variable {D : Discipline NINODE} {k : Files NINODE NFILE NOFILE P} {s : Fs NINODE} {f : Fin NFILE}

/-- The discipline holds between the calls of processes. -/
structure Discipline.Before (D : Discipline NINODE) (k : Files NINODE NFILE NOFILE P) : Prop where
  fs : D.before k.fs k.pointers
  file : ∀ f, (k.file f).type = .inode → D.file k.fs (k.file f)

/-- The discipline holds while no inode is locked. -/
structure Discipline.Holds (D : Discipline NINODE) (k : Files NINODE NFILE NOFILE P) : Prop where
  fs : D.holds k.fs k.pointers ∅
  file : ∀ f, (k.file f).type = .inode → D.file k.fs (k.file f)

namespace Discipline

variable {x : File NINODE} {ip : Fin NINODE} {t' : Task NINODE NFILE NOFILE} {q : P}

theorem Sound.holds (hD : D.Sound) (h : D.Before k) : D.Holds k := ⟨hD.weaken h.fs, h.file⟩

theorem Sound.setFs (hD : D.Sound) (hs : D.holds s k.pointers ∅)
    (hframe : D.frame k.pointers k.fs s)
    (hfile : ∀ f, (k.file f).type = .inode → D.file k.fs (k.file f)) : D.Holds (k.setFs s) :=
  ⟨hs, fun f hf => hD.frame_file hframe (fun _ => Files.mem_of_file) (hfile f hf)⟩

theorem Holds.setFile (h : D.Holds k) (hx : x.pointer = (k.file f).pointer)
    (hfile : x.type = .inode → D.file k.fs x) : D.Holds (k.setFile f x) := by
  refine ⟨?_, fun f' hf' => ?_⟩
  · rw [Files.pointers_setFile_same hx]
    exact h.fs
  · rw [Files.setFile_file] at hf' ⊢
    by_cases hff : f' = f
    · subst hff
      rw [update_self] at hf' ⊢
      exact hfile hf'
    · rw [update_of_ne hff] at hf' ⊢
      exact h.file f' hf'

theorem Holds.setTask [DecidableEq P] (h : D.Holds k) {p : P}
    {t : Option (Task NINODE NFILE NOFILE)} (ht : t.bind Task.cwd = (k.task p).bind Task.cwd) :
    D.Holds (k.setTask p t) := by
  refine ⟨?_, h.file⟩
  rw [Files.pointers_setTask_same ht]
  exact h.fs

theorem Holds.record (h : D.Holds k) (e : FileEvent NINODE NFILE) : D.Holds (k.record e) :=
  ⟨h.fs, h.file⟩

theorem Sound.filedup_meets (hD : D.Sound) (h : D.Holds k) (f : Fin NFILE) :
    Meets D.fault (k.filedup f) fun k' => D.Holds k' ∧ k'.pointers = k.pointers ∧
      k'.task = k.task := by
  unfold Files.filedup
  dsimp only
  by_cases hbad : (k.file f).ref < 1 ∨ (k.file f).type = .closed
  · rw [if_pos hbad]
    exact Meets.error (hD.panic (by decide))
  · rw [if_neg hbad]
    exact Meets.pure ⟨h.setFile rfl fun hf => hD.file_ref _ (h.file f hf),
      Files.pointers_setFile_same rfl, rfl⟩

theorem Sound.fileclose_meets (hD : D.Sound) (h : D.Holds k) (f : Fin NFILE) :
    Meets D.fault (k.fileclose f) fun k' => D.Holds k' ∧ k'.task = k.task := by
  unfold Files.fileclose
  dsimp only
  by_cases hbad : (k.file f).ref < 1 ∨ (k.file f).type = .closed
  · rw [if_pos hbad]
    exact Meets.error (hD.panic (by decide))
  rw [if_neg hbad]
  by_cases hmore : 0 < (k.file f).ref - 1
  · rw [if_pos hmore]
    exact Meets.pure ⟨h.setFile rfl fun hf => hD.file_ref _ (h.file f hf), rfl⟩
  rw [if_neg hmore]
  generalize hk' : k.setFile f { k.file f with ref := 0, type := .closed } = k'
  have hpointers : k'.pointers + pick (k.file f).pointer = k.pointers := by
    rw [← hk', Files.pointers_setFile]
    exact add_zero _
  have hfile : ∀ f', (k'.file f').type = .inode → (k.file f').type = .inode ∧
      k'.file f' = k.file f' := by
    intro f' hf'
    rw [← hk', Files.setFile_file] at hf' ⊢
    by_cases hff : f' = f
    · rw [hff, update_self] at hf'
      cases hf'
    · rw [update_of_ne hff] at hf' ⊢
      exact ⟨hf', rfl⟩
  have hfs : k'.fs = k.fs := by rw [← hk']; rfl
  have htask : k'.task = k.task := by rw [← hk']; rfl
  have hfiles : ∀ f', (k'.file f').type = .inode → D.file k'.fs (k'.file f') := by
    intro f' hf'
    obtain ⟨hi, he⟩ := hfile f' hf'
    rw [he, hfs]
    exact h.file f' hi
  cases htype : (k.file f).type with
  | closed => exact Meets.error (hD.panic (by decide))
  | none => exact Meets.error (hD.panic (by decide))
  | pipe =>
    have hp : (k.file f).pointer = none := by
      unfold File.pointer
      rw [htype]
      rfl
    rw [hp] at hpointers
    have hk : D.Holds k' := by
      refine ⟨?_, hfiles⟩
      rw [hfs, show k'.pointers = k.pointers from (add_zero _).symm.trans hpointers]
      exact h.fs
    exact Meets.pure ⟨hk.record _, htask⟩
  | inode =>
    cases hip : (k.file f).ip with
    | none => exact Meets.error hD.null
    | some ip =>
      have hp : (k.file f).pointer = some ip := by
        unfold File.pointer
        rw [htype, hip]
        rfl
      rw [hp] at hpointers
      have hcons : ip ::ₘ k'.pointers = k.pointers := by
        rw [← hpointers, ← Multiset.singleton_add, add_comm]
        rfl
      have hput : D.holds k'.fs (ip ::ₘ k'.pointers) ∅ := by
        rw [hfs, hcons]
        exact h.fs
      refine (hD.iput hput).bind ?_
      rintro s ⟨hs, hframe⟩
      exact Meets.pure ⟨(hD.setFs hs hframe hfiles).record _, htask⟩

theorem moved_pointer (x : File NINODE) (r : ℤ) : (x.moved r).pointer = x.pointer ∧
    (x.moved r).type = x.type := by
  unfold File.moved
  split <;> exact ⟨rfl, rfl⟩

omit [Fintype P] in
theorem advance_eq (k : Files NINODE NFILE NOFILE P) (f : Fin NFILE) (r : ℤ) :
    k.advance f r = k.setFile f ((k.file f).moved r) := by
  unfold Files.advance File.moved
  by_cases hr : 0 < r
  · rw [if_pos hr, if_pos hr]
  · rw [if_neg hr, if_neg hr]
    unfold Files.setFile
    rw [update_eq_self]

theorem pointer_of_inode (ht : x.type = .inode) (hip : x.ip = some ip) : x.pointer = some ip := by
  unfold File.pointer
  rw [ht, hip]
  rfl

theorem Sound.finish_meets (hD : D.Sound) (r : ℤ) (hp : (k.file f).pointer = some ip)
    (hs : D.holds s k.pointers {ip}) (hframe : D.frame k.pointers k.fs s)
    (hmoved : D.file s ((k.file f).moved r))
    (hfile : ∀ f, (k.file f).type = .inode → D.file k.fs (k.file f)) :
    Meets D.fault (s.iunlock ip) fun s' => D.Holds ((k.setFs s').advance f r) := by
  refine (hD.iunlock hs (Files.mem_of_file hp)).imp ?_
  rintro s' ⟨hs', hframe'⟩
  rw [advance_eq]
  refine (hD.setFs hs' (hD.frame_trans hframe hframe') hfile).setFile
    (moved_pointer _ r).1 fun _ => ?_
  refine hD.frame_file hframe' (fun jp hj => ?_) hmoved
  rw [(moved_pointer _ r).1] at hj
  exact Files.mem_of_file hj

theorem Sound.fileread_meets (hD : D.Sound) (h : D.Holds k) (driver : ℤ) (f : Fin NFILE) (n : ℕ) :
    Meets D.fault (k.fileread driver f n) fun r => D.Holds r.2 := by
  unfold Files.fileread
  dsimp only
  by_cases hr : (k.file f).readable = false
  · rw [if_pos hr]
    exact Meets.pure h
  rw [if_neg hr]
  cases ht : (k.file f).type with
  | closed => exact Meets.error (hD.panic (by decide))
  | none => exact Meets.error (hD.panic (by decide))
  | pipe => exact Meets.pure h
  | inode =>
    cases hip : (k.file f).ip with
    | none => exact Meets.error hD.null
    | some ip =>
      have hp := pointer_of_inode ht hip
      refine (hD.ilock h.fs (Files.mem_of_file hp)).bind ?_
      rintro s ⟨hs, hframe⟩
      have hf := hD.frame_file hframe (fun _ => Files.mem_of_file) (h.file f ht)
      refine (hD.readi driver hs (Files.mem_of_file hp) hp hf).bind ?_
      rintro ⟨r, dst⟩ hmoved
      exact (hD.finish_meets r hp hs hframe hmoved h.file).bind fun s' hs' => Meets.pure hs'

theorem Sound.filewrite_meets (hD : D.Sound) (h : D.Holds k) (driver : ℤ) (f : Fin NFILE)
    (src : Buffer) {n : ℕ} (hn : n < 2 ^ 32) :
    Meets D.fault (k.filewrite driver f src n) fun r => D.Holds r.2 := by
  unfold Files.filewrite
  dsimp only
  by_cases hw : (k.file f).writable = false
  · rw [if_pos hw]
    exact Meets.pure h
  rw [if_neg hw]
  cases ht : (k.file f).type with
  | closed => exact Meets.error (hD.panic (by decide))
  | none => exact Meets.error (hD.panic (by decide))
  | pipe => exact Meets.pure h
  | inode =>
    cases hip : (k.file f).ip with
    | none => exact Meets.error hD.null
    | some ip =>
      have hp := pointer_of_inode ht hip
      refine (hD.ilock h.fs (Files.mem_of_file hp)).bind ?_
      rintro s ⟨hs, hframe⟩
      have hf := hD.frame_file hframe (fun _ => Files.mem_of_file) (h.file f ht)
      refine (hD.writei driver src hs (Files.mem_of_file hp) hp (Bool.eq_true_of_not_eq_false hw) hn
        hf).bind ?_
      rintro ⟨r, s₁⟩ ⟨hs₁, hframe₁, hmoved⟩
      exact (hD.finish_meets r hp hs₁ (hD.frame_trans hframe hframe₁) hmoved h.file).bind
        fun s' hs' => Meets.pure hs'

theorem Sound.filestat_meets (hD : D.Sound) (h : D.Holds k) (f : Fin NFILE) :
    Meets D.fault (k.filestat f) fun r => D.Holds r.2 := by
  unfold Files.filestat
  by_cases ht : (k.file f).type = .inode
  · rw [if_pos ht]
    cases hip : (k.file f).ip with
    | none => exact Meets.error hD.null
    | some ip =>
      have hmem := Files.mem_of_file (pointer_of_inode ht hip)
      refine (hD.ilock h.fs hmem).bind ?_
      rintro s ⟨hs, hframe⟩
      refine (hD.iunlock hs hmem).bind ?_
      rintro s' ⟨hs', hframe'⟩
      exact Meets.pure (hD.setFs hs' (hD.frame_trans hframe hframe') h.file)
  · rw [if_neg ht]
    exact Meets.pure h

theorem Holds.filealloc (h : D.Holds k) {k' : Files NINODE NFILE NOFILE P}
    (ha : k.filealloc = some (f, k')) : D.Holds k' ∧ k'.pointers = k.pointers := by
  obtain ⟨hclosed, rfl⟩ := Files.filealloc_eq ha
  have hx : ({ k.file f with type := .none, ref := 1 } : File NINODE).pointer =
      (k.file f).pointer := by
    unfold File.pointer
    rw [hclosed]
    rfl
  exact ⟨(h.setFile hx fun hf => (nomatch hf)).record _, Files.pointers_setFile_same hx⟩

omit [Fintype P] in
theorem Sound.fileclose_none (hD : D.Sound) {Q : Files NINODE NFILE NOFILE P → Prop}
    (ht : (k.file f).type = .none) (hr : (k.file f).ref = 1) :
    Meets D.fault (k.fileclose f) Q := by
  rw [Files.fileclose_allocated ht hr]
  exact Meets.error (hD.panic (by decide))

theorem fdalloc_cwd {t : Task NINODE NFILE NOFILE} {fd : Fin NOFILE}
    (h : t.fdalloc f = some (fd, t')) : t'.cwd = t.cwd := by
  rw [(Task.fdalloc_eq h).2]
  rfl

variable [DecidableEq P] {p : P} {t : Task NINODE NFILE NOFILE}

theorem Sound.sysDup_meets (hD : D.Sound) (h : D.Holds k) (ht : k.task p = some t) (fd : ℤ) :
    Meets D.fault (k.sysDup p t fd) fun r => D.Holds r.2 := by
  unfold Files.sysDup
  cases t.argfd fd with
  | none => exact Meets.pure h
  | some a =>
    obtain ⟨i, f⟩ := a
    dsimp only
    cases hf : t.fdalloc f with
    | none => exact Meets.pure h
    | some b =>
      obtain ⟨fd', t'⟩ := b
      have hcwd : (some t').bind Task.cwd = (k.task p).bind Task.cwd := by
        rw [ht]
        exact fdalloc_cwd hf
      exact (hD.filedup_meets (h.setTask hcwd) f).bind fun k' hk' => Meets.pure hk'.1

theorem Sound.sysClose_meets (hD : D.Sound) (h : D.Holds k) (ht : k.task p = some t) (fd : ℤ) :
    Meets D.fault (k.sysClose p t fd) fun r => D.Holds r.2 := by
  unfold Files.sysClose
  cases t.argfd fd with
  | none => exact Meets.pure h
  | some a =>
    obtain ⟨i, f⟩ := a
    have hcwd : (some (t.setFd i none)).bind Task.cwd = (k.task p).bind Task.cwd := by
      rw [ht]
      rfl
    exact (hD.fileclose_meets (h.setTask hcwd) f).bind fun k' hk' => Meets.pure hk'.1

omit [DecidableEq P] in
theorem Sound.pipealloc_meets (hD : D.Sound) (h : D.Holds k) (page : Bool) :
    Meets D.fault (k.pipealloc page) fun r => D.Holds r.2 ∧ r.2.task = k.task := by
  unfold Files.pipealloc
  cases h₀ : k.filealloc with
  | none => exact Meets.pure ⟨h, rfl⟩
  | some a₀ =>
    obtain ⟨f₀, k₀⟩ := a₀
    obtain ⟨hk₀, -⟩ := h.filealloc h₀
    obtain ⟨-, rfl⟩ := Files.filealloc_eq h₀
    generalize hx₀ :
      (k.setFile f₀ { k.file f₀ with type := .none, ref := 1 }).record (.alloc f₀) = k₀
      at hk₀ ⊢
    have hf₀ : (k₀.file f₀).type = .none ∧ (k₀.file f₀).ref = 1 := by
      rw [← hx₀, Files.record_file, Files.setFile_file, update_self]
      exact ⟨rfl, rfl⟩
    have htask₀ : k₀.task = k.task := by rw [← hx₀]; rfl
    -- the label `bad` closes a file of no type
    have hclose : ∀ {k' : Files NINODE NFILE NOFILE P} {Q : Files NINODE NFILE NOFILE P → Prop},
        k'.file f₀ = k₀.file f₀ →
        Meets D.fault ((k'.setFile f₀ { k'.file f₀ with type := .none }).fileclose f₀) Q := by
      intro k' Q hk'
      refine hD.fileclose_none ?_ ?_
      · rw [Files.setFile_file, update_self]
      · rw [Files.setFile_file, update_self, hk']
        exact hf₀.2
    dsimp only
    cases h₁ : k₀.filealloc with
    | none => exact (hclose rfl).bind (Q := fun _ => False) fun _ hf => hf.elim
    | some a₁ =>
      obtain ⟨f₁, k₁⟩ := a₁
      obtain ⟨hk₁, -⟩ := hk₀.filealloc h₁
      obtain ⟨hclosed, rfl⟩ := Files.filealloc_eq h₁
      have hne : f₀ ≠ f₁ := by
        rintro rfl
        rw [hf₀.1] at hclosed
        cases hclosed
      have hsame : ((k₀.setFile f₁ { k₀.file f₁ with type := .none, ref := 1 }).record
          (.alloc f₁)).file f₀ = k₀.file f₀ := by
        rw [Files.record_file, Files.setFile_file, update_of_ne hne]
      have hnone : ∀ {x : File NINODE}, x.type ≠ .inode → x.pointer = none := fun hx => if_neg hx
      dsimp only
      by_cases hpage : page = true
      · rw [if_pos hpage]
        refine Meets.pure ⟨(hk₁.setFile ?_ ?_).setFile ?_ ?_, htask₀⟩
        · rw [hsame, hnone (x := k₀.file f₀) (by rw [hf₀.1]; decide)]
          rfl
        · exact fun hf => (nomatch hf)
        · rw [Files.setFile_file, update_of_ne hne.symm, Files.record_file, Files.setFile_file,
            update_self]
          rfl
        · exact fun hf => (nomatch hf)
      · rw [if_neg hpage]
        exact (hclose hsame).bind (Q := fun _ => False) fun _ hf => hf.elim

theorem Sound.sysPipe_meets (hD : D.Sound) (h : D.Holds k) (ht : k.task p = some t) (page : Bool) :
    Meets D.fault (k.sysPipe p t page) fun r => D.Holds r.2 := by
  unfold Files.sysPipe
  refine (hD.pipealloc_meets h page).bind ?_
  rintro ⟨_ | ⟨rf, wf⟩, k₁⟩ ⟨h₁, htask⟩
  · exact Meets.pure h₁
  dsimp only
  dsimp only at htask
  have hclose : ∀ {k₂ : Files NINODE NFILE NOFILE P}, D.Holds k₂ →
      Meets D.fault (do let k₃ ← k₂.fileclose rf; pure ((-1 : ℤ), ← k₃.fileclose wf)) fun r =>
        D.Holds r.2 := by
    intro k₂ h₂
    refine (hD.fileclose_meets h₂ rf).bind fun k₃ h₃ => ?_
    exact (hD.fileclose_meets h₃.1 wf).bind fun k₄ h₄ => Meets.pure h₄.1
  cases h₀ : t.fdalloc rf with
  | none => exact hclose h₁
  | some a =>
    obtain ⟨fd₀, t₀⟩ := a
    have hc₀ : t₀.cwd = t.cwd := fdalloc_cwd h₀
    dsimp only
    cases hf : t₀.fdalloc wf with
    | none =>
      refine hclose (h₁.setTask ?_)
      rw [htask, ht]
      exact hc₀
    | some b =>
      obtain ⟨fd₁, t₁⟩ := b
      refine Meets.pure (h₁.setTask ?_)
      rw [htask, ht]
      exact (fdalloc_cwd hf).trans hc₀

omit [DecidableEq P] in
theorem cwd_mem (ht : k.task q = some t) : ∀ ip, t.cwd = some ip → ip ∈ k.pointers :=
  fun _ => Files.mem_of_cwd ht

theorem Sound.sysOpen_meets (hD : D.Sound) (h : D.Before k) (ht : k.task p = some t)
    (path : List UInt8) (omode : UInt32) :
    Meets D.fault (k.sysOpen p t path omode) fun r => D.Holds r.2 := by
  unfold Files.sysOpen
  refine (hD.openInode path omode h.fs (cwd_mem ht)).bind ?_
  rintro ⟨_ | ip, s⟩ ⟨hframe, hfail, hopen⟩
  · exact Meets.pure (hD.setFs (hfail rfl) hframe h.file)
  obtain ⟨hs, hf⟩ := hopen ip rfl
  dsimp only at hframe hs hf ⊢
  cases ha : (k.setFs s).filealloc with
  | none =>
    refine (hD.iunlockput hs).bind ?_
    rintro s' ⟨hs', hframe'⟩
    exact Meets.pure (hD.setFs hs' (hD.frame_trans hframe hframe') h.file)
  | some a =>
    obtain ⟨f, k'⟩ := a
    obtain ⟨hclosed, rfl⟩ := Files.filealloc_eq ha
    generalize hk' : ((k.setFs s).setFile f { (k.setFs s).file f with
      type := .none, ref := 1 }).record (.alloc f) = k'
    have hff : (k'.file f).type = .none ∧ (k'.file f).ref = 1 := by
      rw [← hk', Files.record_file, Files.setFile_file, update_self]
      exact ⟨rfl, rfl⟩
    dsimp only
    cases hfd : t.fdalloc f with
    | none => exact (hD.fileclose_none hff.1 hff.2).bind (Q := fun _ => False) fun _ hf => hf.elim
    | some b =>
      obtain ⟨fd, t'⟩ := b
      have hfs : k'.fs = s := by rw [← hk']; rfl
      have hpointers : k'.pointers = k.pointers := by
        rw [← hk']
        refine Files.pointers_setFile_same (k := k.setFs s) ?_
        unfold File.pointer
        rw [hclosed]
        rfl
      have hother : ∀ f', (k'.file f').type = .inode → f' ≠ f ∧ k'.file f' = k.file f' := by
        intro f' hf'
        have hne : f' ≠ f := by
          rintro rfl
          rw [hff.1] at hf'
          cases hf'
        refine ⟨hne, ?_⟩
        rw [← hk', Files.record_file, Files.setFile_file, update_of_ne hne]
        rfl
      have hmem := Multiset.mem_cons_self ip k.pointers
      dsimp only
      rw [hfs]
      refine (hD.iunlock hs hmem).bind ?_
      rintro s' ⟨hs', hframe'⟩
      refine Meets.pure ⟨?_, fun f' hf' => ?_⟩
      · have hcons : (((k'.setFs s').setTask p (some t')).setFile f
            (openedFile (k'.file f).ref omode ip)).pointers = ip ::ₘ k.pointers := by
          have h₁ := ((k'.setFs s').setTask p (some t')).pointers_setFile f
            (openedFile (k'.file f).ref omode ip)
          have h₂ : ((k'.setFs s').setTask p (some t')).pointers = k.pointers := by
            rw [← hpointers]
            refine Files.pointers_setTask_same ?_
            have htask : (k'.setFs s').task p = some t := by rw [← hk']; exact ht
            rw [htask]
            exact fdalloc_cwd hfd
          have h₃ : (((k'.setFs s').setTask p (some t')).file f).pointer = none := by
            unfold File.pointer
            rw [show ((k'.setFs s').setTask p (some t')).file f = k'.file f from rfl, hff.1]
            rfl
          rw [h₂, h₃] at h₁
          rw [← Multiset.singleton_add, add_comm]
          exact (add_zero _).symm.trans h₁
        have : D.holds s' (((k'.setFs s').setTask p (some t')).setFile f
            (openedFile (k'.file f).ref omode ip)).pointers ∅ := by
          rw [hcons]
          exact hs'
        exact this
      · rw [Files.setFile_file] at hf' ⊢
        by_cases hne : f' = f
        · subst hne
          rw [update_self]
          refine hD.frame_file hframe' (fun jp hj => ?_) (hf (k'.file f').ref)
          cases hj
          exact hmem
        · rw [update_of_ne hne] at hf' ⊢
          obtain ⟨-, he⟩ := hother f' hf'
          have hin : (k.file f').type = .inode := he ▸ hf'
          change D.file s' (k'.file f')
          rw [he]
          refine hD.frame_file hframe'
            (fun jp hj => Multiset.mem_cons_of_mem (Files.mem_of_file hj)) ?_
          exact hD.frame_file hframe (fun _ => Files.mem_of_file) (h.file f' hin)

theorem pointers_enter (hnone : (k.task q).bind Task.cwd = none) (hcwd : t'.cwd = some ip) :
    (k.setTask q (some t')).pointers = ip ::ₘ k.pointers := by
  have := k.pointers_setTask q (some t')
  rw [hnone, show (some t').bind Task.cwd = some ip from hcwd] at this
  rw [← Multiset.singleton_add, add_comm]
  exact (add_zero _).symm.trans this

theorem pointers_leave {t' : Option (Task NINODE NFILE NOFILE)}
    (hcwd : (k.task q).bind Task.cwd = some ip) (hnone : t'.bind Task.cwd = none) :
    ip ::ₘ (k.setTask q t').pointers = k.pointers := by
  have := k.pointers_setTask q t'
  rw [hcwd, hnone] at this
  rw [← Multiset.singleton_add, add_comm]
  exact this.trans (add_zero _)

theorem Sound.start_meets (hD : D.Sound) (h : D.Before k) (p : P) :
    Meets D.fault (k.start p) fun r => D.Holds r.2 := by
  unfold Files.start
  by_cases hp : (k.task p).isSome = true
  · rw [if_pos hp]
    exact Meets.pure (hD.holds h)
  rw [if_neg hp]
  have hnone : k.task p = none := Option.not_isSome_iff_eq_none.mp hp
  refine (hD.namei [Fs.slash] h.fs).bind ?_
  rintro ⟨_ | ip, s⟩ ⟨hframe, hfail, hfound⟩
  · refine Meets.pure ((hD.setFs (hfail rfl) hframe h.file).setTask ?_)
    change none = (k.task p).bind Task.cwd
    rw [hnone]
    rfl
  · have hcwd : ((k.setFs s).task p).bind Task.cwd = none := by
      change (k.task p).bind Task.cwd = none
      rw [hnone]
      rfl
    have hpointers : ((k.setFs s).setTask p (some ⟨fun _ => none, some ip⟩)).pointers =
        ip ::ₘ k.pointers := pointers_enter hcwd rfl
    refine Meets.pure ⟨?_, fun f hf => ?_⟩
    · change D.holds s ((k.setFs s).setTask p _).pointers ∅
      rw [hpointers]
      exact hfound ip rfl
    · exact hD.frame_file hframe (fun _ hj => Files.mem_of_file (k := k) hj) (h.file f hf)

theorem Sound.sysChdir_meets (hD : D.Sound) (h : D.Before k) (ht : k.task p = some t)
    (path : List UInt8) :
    Meets D.fault (k.call p t (.chdir path)) fun r => D.Holds r.2 := by
  unfold Files.call
  dsimp only
  cases hc : t.cwd with
  | none =>
    refine (hD.chdir_null path h.fs).bind ?_
    rintro ⟨r, s⟩ ⟨hframe, hr, hs⟩
    dsimp only at hr
    rw [hr]
    exact Meets.pure (hD.setFs hs hframe h.file)
  | some old =>
    have hcwd : (k.task p).bind Task.cwd = some old := by
      rw [ht]
      exact hc
    -- the pointers of all others
    generalize hH : (k.setTask p none).pointers = H
    have hcons : old ::ₘ H = k.pointers := by
      rw [← hH]
      exact pointers_leave hcwd rfl
    have hfiles : ∀ f ip, (k.file f).pointer = some ip → ip ∈ H := by
      intro f ip hf
      rw [← hH]
      exact Files.mem_of_file (k := k.setTask p none) hf
    have hs := h.fs
    rw [← hcons] at hs
    refine (hD.sysChdir path hs).bind ?_
    rintro ⟨_ | ip, s⟩ ⟨hframe, hfail, hok⟩
    · refine Meets.pure ⟨?_, fun f hf => hD.frame_file hframe (hfiles f) (h.file f hf)⟩
      have := hfail rfl
      rw [hcons] at this
      exact this
    · refine Meets.pure ⟨?_, fun f hf => hD.frame_file hframe (hfiles f) (h.file f hf)⟩
      have hpointers : ((k.setFs s).setTask p (some { t with cwd := some ip })).pointers =
          ip ::ₘ H := by
        have henter : (((k.setFs s).setTask p none).setTask p
            (some { t with cwd := some ip })).pointers =
              ip ::ₘ ((k.setFs s).setTask p none).pointers := pointers_enter (by simp) rfl
        have hstate : ((k.setFs s).setTask p none).setTask p (some { t with cwd := some ip }) =
            (k.setFs s).setTask p (some { t with cwd := some ip }) := by
          simp [Files.setTask, update_idem]
        rw [hstate] at henter
        rw [henter, ← hH]
        rfl
      change D.holds s ((k.setFs s).setTask p _).pointers ∅
      rw [hpointers]
      exact hok ip rfl

theorem Sound.fork_meets (hD : D.Sound) (h : D.Holds k) (ht : k.task p = some t) (q : P) (pid : ℤ) :
    Meets D.fault (k.fork q pid t) fun r => D.Holds r.2 := by
  unfold Files.fork
  by_cases hq : (k.task q).isSome = true
  · rw [if_pos hq]
    exact Meets.pure h
  rw [if_neg hq]
  have hnone : k.task q = none := Option.not_isSome_iff_eq_none.mp hq
  have h₀ : D.Holds (k.setTask q (some ⟨fun _ => none, none⟩)) := by
    refine h.setTask ?_
    rw [hnone]
    rfl
  -- the child has no directory while its files are copied
  refine (Meets.foldlM (I := fun k' : Files NINODE NFILE NOFILE P => D.Holds k' ∧
    k'.pointers = k.pointers ∧ ∃ np, k'.task q = some np ∧ np.cwd = none) ⟨h₀, ?_, ?_⟩ ?_).bind ?_
  · refine Files.pointers_setTask_same ?_
    rw [hnone]
    rfl
  · exact ⟨_, by rw [Files.setTask_task, update_self], rfl⟩
  · rintro k' fd - ⟨hk', hpointers, np, hnp, hcwd⟩
    unfold Files.forkFd
    cases t.ofile fd with
    | none => exact Meets.pure ⟨hk', hpointers, np, hnp, hcwd⟩
    | some f =>
      dsimp only
      rw [hnp, deref_some, ok_bind]
      have hsame : (some (np.setFd fd (some f))).bind Task.cwd = (k'.task q).bind Task.cwd := by
        rw [hnp]
        rfl
      refine (hD.filedup_meets (hk'.setTask hsame) f).imp ?_
      rintro k'' ⟨hk'', hp'', htask⟩
      refine ⟨hk'', ?_, np.setFd fd (some f), ?_, hcwd⟩
      · rw [hp'', Files.pointers_setTask_same hsame, hpointers]
      · rw [htask, Files.setTask_task, update_self]
  · rintro k' ⟨hk', hpointers, np, hnp, hcwd⟩
    rw [hnp, deref_some, ok_bind]
    cases hc : t.cwd with
    | none => exact Meets.error hD.null
    | some cwd =>
      rw [deref_some, ok_bind]
      have hmem : cwd ∈ k'.pointers := by
        rw [hpointers]
        exact Files.mem_of_cwd ht hc
      obtain ⟨hdup, hframe⟩ := hD.idup hk'.fs hmem
      have hchild : ((k'.setFs (k'.fs.idup cwd)).task q).bind Task.cwd = none := by
        change (k'.task q).bind Task.cwd = none
        rw [hnp]
        exact hcwd
      have henter : ((k'.setFs (k'.fs.idup cwd)).setTask q
          (some { np with cwd := some cwd })).pointers = cwd ::ₘ k'.pointers :=
        pointers_enter hchild rfl
      refine Meets.pure ⟨?_, fun f hf => ?_⟩
      · change D.holds (k'.fs.idup cwd) ((k'.setFs (k'.fs.idup cwd)).setTask q _).pointers ∅
        rw [henter]
        exact hdup
      · exact hD.frame_file hframe (fun _ hj => Files.mem_of_file (k := k') hj) (hk'.file f hf)

theorem Sound.exit_meets (hD : D.Sound) (h : D.Holds k) (ht : k.task p = some t) :
    Meets D.fault (k.exit p) fun r => D.Holds r.2 := by
  unfold Files.exit
  refine (Meets.foldlM (I := fun k' : Files NINODE NFILE NOFILE P => D.Holds k' ∧
    ∃ t', k'.task p = some t') ⟨h, t, ht⟩ ?_).bind ?_
  · rintro k' fd - ⟨hk', t', ht'⟩
    unfold Files.exitFd
    rw [ht', deref_some, ok_bind]
    cases t'.ofile fd with
    | none => exact Meets.pure ⟨hk', t', ht'⟩
    | some f =>
      refine (hD.fileclose_meets hk' f).bind ?_
      rintro k'' ⟨hk'', htask⟩
      refine Meets.pure ⟨hk''.setTask ?_, t'.setFd fd none, by rw [Files.setTask_task, update_self]⟩
      rw [htask, ht']
      rfl
  · rintro k' ⟨hk', t', ht'⟩
    rw [ht', deref_some, ok_bind]
    cases hc : t'.cwd with
    | none => exact Meets.error hD.null
    | some cwd =>
      rw [deref_some, ok_bind]
      have hcwd : (k'.task p).bind Task.cwd = some cwd := by
        rw [ht']
        exact hc
      have hcons : cwd ::ₘ (k'.setTask p none).pointers = k'.pointers := pointers_leave hcwd rfl
      have hs := hk'.fs
      rw [← hcons] at hs
      refine (hD.iput hs).bind ?_
      rintro s ⟨hs', hframe⟩
      refine Meets.pure ⟨hs', fun f hf => ?_⟩
      refine hD.frame_file hframe (fun _ hj => ?_) (hk'.file f hf)
      exact Files.mem_of_file (k := k'.setTask p none) hj

theorem Sound.exec_meets (hD : D.Sound) (h : D.Before k) (p : P) (c : FileCall P)
    (hu : ∀ t path, k.task p = some t → c = .unlink path → D.unlinks t.cwd path k.fs) :
    Meets D.fault (k.exec p c) fun r => D.Holds r.2 := by
  have hk := hD.holds h
  unfold Files.exec
  cases ht : k.task p with
  | none =>
    cases c with
    | start => exact hD.start_meets h p
    | _ => exact Meets.error hD.null
  | some t =>
    have hcwd := cwd_mem ht
    have hlift : ∀ {x : Except Fault (ℤ × Fs NINODE)},
        Meets D.fault x (fun r => D.holds r.2 k.pointers ∅ ∧ D.frame k.pointers k.fs r.2) →
        Meets D.fault (do let r ← x; pure (r.1, k.setFs r.2)) fun r => D.Holds r.2 := by
      intro x hx
      refine hx.bind ?_
      rintro ⟨r, s⟩ ⟨hs, hframe⟩
      exact Meets.pure (hD.setFs hs hframe h.file)
    cases c with
    | start => exact Meets.pure hk
    | openFile path omode => exact hD.sysOpen_meets h ht path omode
    | read fd n driver =>
      dsimp only [Files.call]
      cases t.argfd fd with
      | none => exact Meets.pure hk
      | some a => exact (hD.fileread_meets hk driver a.2 n.toNat).bind fun r hr => Meets.pure hr
    | write fd src n driver =>
      dsimp only [Files.call]
      cases t.argfd fd with
      | none => exact Meets.pure hk
      | some a => exact hD.filewrite_meets hk driver a.2 src n.toNat_lt
    | dup fd => exact hD.sysDup_meets hk ht fd
    | close fd => exact hD.sysClose_meets hk ht fd
    | fstat fd =>
      dsimp only [Files.call]
      cases t.argfd fd with
      | none => exact Meets.pure hk
      | some a => exact (hD.filestat_meets hk a.2).bind fun r hr => Meets.pure hr
    | link old new => exact hlift (hD.sysLink old new h.fs hcwd)
    | unlink path => exact hlift (hD.sysUnlink path h.fs hcwd (hu t path ht rfl))
    | mkdir path => exact hlift (hD.sysMake path 0 0 h.fs hcwd (by decide))
    | mknod path major minor => exact hlift (hD.sysMake path major minor h.fs hcwd (by decide))
    | chdir path => exact hD.sysChdir_meets h ht path
    | exec path r => exact hlift (hD.execFile path r h.fs hcwd)
    | pipe page => exact hD.sysPipe_meets hk ht page
    | fork q pid => exact hD.fork_meets hk ht q pid
    | exit => exact hD.exit_meets hk ht

end Discipline

end Xv6Shed
