import Mathlib.Data.List.GetD
import Xv6Shed.ByteArrays
import Xv6Shed.SysFile

/-!
# Writing through a shared offset

Any number of processes call `filewrite` for one `struct file` of a regular file. The offset is
a field of the file, and what protects it is the lock of the inode: a process holds it from
`ilock` to `iunlock`, over the write and the store to the offset. The calls are numbered in the
order in which they are made, and `order` records the order in which they get the lock.
-/

namespace Xv6Shed
open Function Bytes Transition

variable {T : Type} {NINODE : ℕ}

/-- Where a process is in `filewrite(f, addr, n)`, for the call with number `k` -/
inductive WritePc where
  | idle
  /-- at `ilock` -/
  | called (k : ℕ) (src : Buffer) (n : ℕ)
  /-- at `writei` -/
  | locked (k : ℕ) (src : Buffer) (n : ℕ)
  /-- at `f->off += r`, with what `writei` returned -/
  | wrote (r : ℤ)
  /-- at `iunlock` -/
  | moved (r : ℤ)

/-- The process has got the lock and not given it up. -/
def WritePc.Holds : WritePc → Prop
  | .idle => False
  | .called _ _ _ => False
  | .locked _ _ _ => True
  | .wrote _ => True
  | .moved _ => True

/-- The file system, `f->off` and the processes; the bytes that each call was to write, and the
order in which the lock was obtained. -/
structure Writers (T : Type) (NINODE : ℕ) where
  fs : Fs NINODE
  off : ℕ
  pc : T → WritePc
  calls : List (List UInt8)
  order : List ℕ

/-- What happens: process `t` calls `filewrite`, or it goes on. -/
inductive WriteOp (T : Type) where
  | call (t : T) (src : Buffer) (n : ℕ)
  | run (t : T)

namespace Writers

/-- `f->off += r` if `r > 0` -/
def bump (off : ℕ) (r : ℤ) : ℕ := if 0 < r then (off + r.toNat) % 2 ^ 32 else off

variable [DecidableEq T]

/-- A call by `t` -/
def call (t : T) (src : Buffer) (n : ℕ) (s : Writers T NINODE) : Writers T NINODE :=
  { s with
    pc := update s.pc t (.called s.calls.length src n)
    calls := s.calls ++ [(List.range n).map src] }

/-- The next step of `t` in `filewrite` for a file of inode `ip`; to wait for the lock is to
hang. -/
def run (ip : Fin NINODE) (t : T) (s : Writers T NINODE) : Except Fault (Writers T NINODE) :=
  match s.pc t with
  | .idle => pure s
  | .called k src n => do
    let fs ← s.fs.ilock ip
    pure { s with fs := fs, pc := update s.pc t (.locked k src n), order := s.order ++ [k] }
  | .locked _ src n => do
    let (r, fs) ← s.fs.writei (-1) ip src s.off n
    pure { s with fs := fs, pc := update s.pc t (.wrote r) }
  | .wrote r => pure { s with off := bump s.off r, pc := update s.pc t (.moved r) }
  | .moved _ => do
    let fs ← s.fs.iunlock ip
    pure { s with fs := fs, pc := update s.pc t .idle }

/-- The length of a call is an `int` that is not negative. -/
def Step (ip : Fin NINODE) (s : Writers T NINODE) (a : WriteOp T) (s' : Writers T NINODE) : Prop :=
  match a with
  | .call t src n => s.pc t = .idle ∧ n < 2 ^ 31 ∧ s' = s.call t src n
  | .run t => s.pc t ≠ .idle ∧ s.run ip t = .ok s'

/-- The bytes of the calls with numbers `ks` -/
def text (s : Writers T NINODE) (ks : List ℕ) : List UInt8 := ks.flatMap fun k => s.calls.getD k []

/-- A call has got the lock, once, or its process is waiting for it. -/
structure Numbered (s : Writers T NINODE) : Prop where
  nodup : s.order.Nodup
  lt : ∀ k ∈ s.order, k < s.calls.length
  waits : ∀ t k src n, s.pc t = .called k src n → k < s.calls.length ∧ k ∉ s.order ∧ n < 2 ^ 31 ∧
    s.calls.getD k [] = (List.range n).map src
  one : ∀ t t' k src n src' n', s.pc t = .called k src n → s.pc t' = .called k src' n' → t = t'
  all : ∀ k < s.calls.length, k ∉ s.order → ∃ t src n, s.pc t = .called k src n

section Steps

variable {s s' : Writers T NINODE} {ip : Fin NINODE} {t : T} {src : Buffer} {n : ℕ}

theorem run_cases (hidle : s.pc t ≠ .idle) (h : s.run ip t = .ok s') :
    (∃ k src n fs, s.pc t = .called k src n ∧ s.fs.ilock ip = .ok fs ∧
      s' = { s with fs := fs, pc := update s.pc t (.locked k src n), order := s.order ++ [k] }) ∨
    (∃ k src n r fs, s.pc t = .locked k src n ∧ s.fs.writei (-1) ip src s.off n = .ok (r, fs) ∧
      s' = { s with fs := fs, pc := update s.pc t (.wrote r) }) ∨
    (∃ r, s.pc t = .wrote r ∧
      s' = { s with off := bump s.off r, pc := update s.pc t (.moved r) }) ∨
    (∃ r fs, s.pc t = .moved r ∧ s.fs.iunlock ip = .ok fs ∧
      s' = { s with fs := fs, pc := update s.pc t .idle }) := by
  unfold run at h
  cases hpc : s.pc t with
  | idle => exact absurd hpc hidle
  | called k src n =>
    rw [hpc] at h
    obtain ⟨fs, hfs, h⟩ := bind_eq_ok.mp h
    cases h
    exact .inl ⟨k, src, n, fs, rfl, hfs, rfl⟩
  | locked k src n =>
    rw [hpc] at h
    obtain ⟨⟨r, fs⟩, hfs, h⟩ := bind_eq_ok.mp h
    cases h
    exact .inr (.inl ⟨k, src, n, r, fs, rfl, hfs, rfl⟩)
  | wrote r =>
    rw [hpc] at h
    cases h
    exact .inr (.inr (.inl ⟨r, rfl, rfl⟩))
  | moved r =>
    rw [hpc] at h
    obtain ⟨fs, hfs, h⟩ := bind_eq_ok.mp h
    cases h
    exact .inr (.inr (.inr ⟨r, fs, rfl, hfs, rfl⟩))

omit [DecidableEq T] in
theorem Numbered.congr (h : s.Numbered) (hcalls : s'.calls = s.calls) (horder : s'.order = s.order)
    (hpc : ∀ t k src n, s'.pc t = .called k src n ↔ s.pc t = .called k src n) : s'.Numbered where
  nodup := by
    rw [horder]
    exact h.nodup
  lt := by
    rw [horder, hcalls]
    exact h.lt
  waits t k src n ht := by
    rw [horder, hcalls]
    exact h.waits t k src n ((hpc t k src n).mp ht)
  one t t' k src n src' n' ht ht' :=
    h.one t t' k src n src' n' ((hpc t k src n).mp ht) ((hpc t' k src' n').mp ht')
  all k hk hko := by
    rw [hcalls] at hk
    rw [horder] at hko
    obtain ⟨t, src, n, ht⟩ := h.all k hk hko
    exact ⟨t, src, n, (hpc t k src n).mpr ht⟩

theorem Numbered.go (h : s.Numbered) (ht : (s.pc t).Holds) {x : WritePc} (hx : x.Holds ∨ x = .idle)
    (fs : Fs NINODE) (off : ℕ) :
    ({ s with fs := fs, off := off, pc := update s.pc t x } : Writers T NINODE).Numbered := by
  refine h.congr rfl rfl ?_
  intro r k src n
  dsimp only
  by_cases hr : r = t
  · subst hr
    rw [update_self]
    apply iff_of_false
    · rintro rfl
      rcases hx with hx | hx
      · exact hx
      · cases hx
    · intro hc
      rw [hc] at ht
      exact ht
  · rw [update_of_ne hr]

theorem Numbered.call (h : s.Numbered) (hidle : s.pc t = .idle) (hn : n < 2 ^ 31) :
    (s.call t src n).Numbered where
  nodup := h.nodup
  lt k hk := by
    have := h.lt k hk
    simp only [Writers.call, List.length_append, List.length_singleton]
    omega
  waits r k src' n' hr := by
    simp only [Writers.call, List.length_append, List.length_singleton] at hr ⊢
    by_cases hrt : r = t
    · subst hrt
      rw [update_self] at hr
      cases hr
      refine ⟨by omega, fun hk => ?_, hn, ?_⟩
      · have := h.lt _ hk
        omega
      · simp
    · rw [update_of_ne hrt] at hr
      obtain ⟨hk, hko, hn', hc⟩ := h.waits r k src' n' hr
      refine ⟨by omega, hko, hn', ?_⟩
      rw [List.getD_append _ _ _ _ hk, hc]
  one r r' k src' n' src'' n'' hr hr' := by
    -- the number of the new call is new
    have hold : ∀ r k src' n', r ≠ t → (s.call t src n).pc r = .called k src' n' →
        s.pc r = .called k src' n' ∧ k < s.calls.length := by
      intro r k src' n' hrt hr
      simp only [Writers.call, update_of_ne hrt] at hr
      exact ⟨hr, (h.waits r k src' n' hr).1⟩
    have hnew : ∀ k src' n', (s.call t src n).pc t = .called k src' n' → k = s.calls.length := by
      intro k src' n' hr
      simp only [Writers.call, update_self] at hr
      cases hr
      rfl
    by_cases hrt : r = t
    · by_cases hrt' : r' = t
      · rw [hrt, hrt']
      · rw [hrt] at hr
        have hk := hnew _ _ _ hr
        have hlt := (hold r' _ _ _ hrt' hr').2
        omega
    · by_cases hrt' : r' = t
      · rw [hrt'] at hr'
        have hk := hnew _ _ _ hr'
        have hlt := (hold r _ _ _ hrt hr).2
        omega
      · exact h.one r r' k src' n' src'' n'' (hold r _ _ _ hrt hr).1 (hold r' _ _ _ hrt' hr').1
  all k hk hko := by
    simp only [Writers.call, List.length_append, List.length_singleton] at hk hko ⊢
    by_cases hk' : k = s.calls.length
    · exact ⟨t, src, n, by rw [update_self, hk']⟩
    · obtain ⟨r, src', n', hr⟩ := h.all k (by omega) hko
      refine ⟨r, src', n', ?_⟩
      rw [update_of_ne]
      · exact hr
      · rintro rfl
        rw [hidle] at hr
        cases hr

theorem Numbered.lock {k : ℕ} {fs : Fs NINODE} (h : s.Numbered) (ht : s.pc t = .called k src n) :
    ({ s with fs := fs, pc := update s.pc t (.locked k src n), order := s.order ++ [k] } :
      Writers T NINODE).Numbered := by
  obtain ⟨hk, hko, hn, hc⟩ := h.waits t k src n ht
  have hold : ∀ r k' src' n', update s.pc t (.locked k src n) r = .called k' src' n' →
      r ≠ t ∧ s.pc r = .called k' src' n' := by
    intro r k' src' n' hr
    by_cases hrt : r = t
    · subst hrt
      rw [update_self] at hr
      cases hr
    · rw [update_of_ne hrt] at hr
      exact ⟨hrt, hr⟩
  refine ⟨?_, ?_, ?_, ?_, ?_⟩
  · exact List.nodup_append.mpr ⟨h.nodup, List.nodup_singleton k, by
      intro a ha b hb
      rw [List.mem_singleton.mp hb]
      rintro rfl
      exact hko ha⟩
  · intro k' hk'
    rcases List.mem_append.mp hk' with hk' | hk'
    · exact h.lt k' hk'
    · rw [List.mem_singleton.mp hk']
      exact hk
  · intro r k' src' n' hr
    obtain ⟨hrt, hr₀⟩ := hold r k' src' n' hr
    obtain ⟨hk', hko', hn', hc'⟩ := h.waits r k' src' n' hr₀
    refine ⟨hk', ?_, hn', hc'⟩
    rw [List.mem_append, List.mem_singleton, not_or]
    refine ⟨hko', ?_⟩
    rintro rfl
    exact hrt (h.one r t _ _ _ _ _ hr₀ ht)
  · intro r r' k' src' n' src'' n'' hr hr'
    exact h.one r r' k' src' n' src'' n'' (hold r _ _ _ hr).2 (hold r' _ _ _ hr').2
  · intro k' hk' hko'
    rw [List.mem_append, List.mem_singleton, not_or] at hko'
    obtain ⟨r, src', n', hr⟩ := h.all k' hk' hko'.1
    refine ⟨r, src', n', ?_⟩
    dsimp only
    rw [update_of_ne]
    · exact hr
    · rintro rfl
      rw [ht] at hr
      cases hr
      exact hko'.2 rfl

end Steps

/-- The disk holds a regular file as inode `i`, among the inodes `V`. -/
structure Regular (sb : Superblock) (V : ℕ → Dinode) (i : ℕ) (disk : Disk) : Prop where
  range : i < sb.ninodes
  volume : Volume sb (update V i (dinode disk i)) disk
  type : (dinode disk i).type = T_FILE
  mapped : Mapped (dinode disk i) disk

/-- How far the process in its locked part has come; `ks` are the calls whose bytes are in the
file and `len` is its length. -/
def Stage (s : Writers T NINODE) (ks : List ℕ) (len : ℕ) : Option T → Prop
  | none => s.order = ks ∧ s.off = len
  | some t =>
    match s.pc t with
    | .idle => False
    | .called _ _ _ => False
    | .locked k src n => s.order = ks ++ [k] ∧ n < 2 ^ 31 ∧
        s.calls.getD k [] = (List.range n).map src ∧ s.off = len
    | .wrote r => s.order = ks ∧ 0 ≤ r ∧ s.off + r.toNat = len
    | .moved _ => s.order = ks ∧ s.off = len

/-- The file holds what it held at first and the bytes of the calls `ks`, and process `o` has the
lock. -/
structure Appended (sb : Superblock) (V : ℕ → Dinode) (dev i : ℕ) (init : List UInt8)
    (ip : Fin NINODE) (s : Writers T NINODE) (ks : List ℕ) (o : Option T) : Prop where
  device : (s.fs.icache ip).dev = dev
  number : (s.fs.icache ip).inum = i
  ref : 1 ≤ (s.fs.icache ip).ref
  busy : (s.fs.icache ip).busy = o.isSome
  valid : o ≠ none → (s.fs.icache ip).valid = true
  synced : (s.fs.icache ip).valid = true → (s.fs.icache ip).d = dinode (s.fs.disk dev) i
  owner : ∀ t, (s.pc t).Holds ↔ o = some t
  file : Regular sb V i (s.fs.disk dev)
  bytes : content (dinode (s.fs.disk dev) i) (s.fs.disk dev) =
    (init ++ s.text ks).take (140 * 512)
  stage : s.Stage ks (dinode (s.fs.disk dev) i).size.toNat o
  numbered : s.Numbered

section File

variable {s s' : Writers T NINODE} {ip : Fin NINODE} {t : T} {src : Buffer} {n dev i k : ℕ}
  {sb : Superblock} {V : ℕ → Dinode} {init : List UInt8} {ks : List ℕ} {o : Option T}
  {fs : Fs NINODE} {r : ℤ}

omit [DecidableEq T] in
theorem Appended.subset (h : Appended sb V dev i init ip s ks o) : ∀ k ∈ ks, k ∈ s.order := by
  intro k hk
  have hstage := h.stage
  cases o with
  | none =>
    rw [hstage.1]
    exact hk
  | some t =>
    unfold Stage at hstage
    dsimp only at hstage
    split at hstage
    · exact hstage.elim
    · exact hstage.elim
    · rw [hstage.1]
      exact List.mem_append_left _ hk
    · rw [hstage.1]
      exact hk
    · rw [hstage.1]
      exact hk

theorem Appended.call (h : Appended sb V dev i init ip s ks o) (hidle : s.pc t = .idle)
    (hn : n < 2 ^ 31) : Appended sb V dev i init ip (s.call t src n) ks o := by
  have hother : ∀ r, r ≠ t → (s.call t src n).pc r = s.pc r := fun r hr => update_of_ne hr _ _
  have hcalls : ∀ k ∈ s.order, (s.call t src n).calls.getD k [] = s.calls.getD k [] := by
    intro k hk
    exact List.getD_append _ _ _ _ (h.numbered.lt k hk)
  have hne : o ≠ some t := by
    intro ho
    have := (h.owner t).mpr ho
    rw [hidle] at this
    exact this
  refine ⟨h.device, h.number, h.ref, h.busy, h.valid, h.synced, ?_, h.file, ?_, ?_,
    h.numbered.call hidle hn⟩
  · intro r
    by_cases hr : r = t
    · subst hr
      have hpc : (s.call r src n).pc r = .called s.calls.length src n := update_self _ _ _
      rw [hpc]
      exact iff_of_false id hne
    · rw [hother r hr]
      exact h.owner r
  · have htext : (s.call t src n).text ks = s.text ks :=
      List.flatMap_congr fun k hk => hcalls k (h.subset k hk)
    rw [htext]
    exact h.bytes
  · have hstage := h.stage
    cases o with
    | none => exact hstage
    | some r =>
      have hr : r ≠ t := fun he => hne (congrArg some he)
      unfold Stage at hstage ⊢
      dsimp only at hstage ⊢
      rw [hother r hr]
      cases hpc : s.pc r with
      | idle =>
        rw [hpc] at hstage
        exact hstage
      | called k src' n' =>
        rw [hpc] at hstage
        exact hstage
      | locked k src' n' =>
        rw [hpc] at hstage
        obtain ⟨horder, hn', hc, hoff⟩ := hstage
        refine ⟨horder, hn', ?_, hoff⟩
        rw [hcalls k (by rw [horder]; simp)]
        exact hc
      | wrote r' =>
        rw [hpc] at hstage
        exact hstage
      | moved r' =>
        rw [hpc] at hstage
        exact hstage

theorem ilock_eq {fs' : Fs NINODE} (h : fs.ilock ip = .ok fs') :
    1 ≤ (fs.icache ip).ref ∧ (fs.icache ip).busy = false ∧ ∃ d,
      ((fs.icache ip).valid = true → d = (fs.icache ip).d) ∧
      ((fs.icache ip).valid = false → d = dinode (fs.disk (fs.icache ip).dev) (fs.icache ip).inum) ∧
      fs' = fs.setInode ip { fs.icache ip with busy := true, valid := true, d := d } := by
  unfold Fs.ilock at h
  dsimp only at h
  split_ifs at h with href hbusy hvalid htype
  · cases h
    refine ⟨by omega, Bool.eq_false_iff.mpr hbusy, (fs.icache ip).d, fun _ => rfl, ?_, ?_⟩
    · intro hv
      rw [hvalid] at hv
      cases hv
    · rw [← hvalid]
  · cases h
    refine ⟨by omega, Bool.eq_false_iff.mpr hbusy, _, ?_, fun _ => rfl, rfl⟩
    intro hv
    exact absurd hv hvalid

theorem holds_update {pc : T → WritePc} (h : ∀ r, (pc r).Holds ↔ o = some r)
    (ho : o = none ∨ o = some t) {x : WritePc} (hx : x.Holds) (r : T) :
    (update pc t x r).Holds ↔ some t = some r := by
  by_cases hr : r = t
  · subst hr
    rw [update_self]
    exact iff_of_true hx rfl
  · rw [update_of_ne hr, h r]
    have hne : some t ≠ some r := fun he => hr (Option.some.inj he).symm
    apply iff_of_false _ hne
    rcases ho with rfl | rfl
    · intro he
      cases he
    · exact hne

theorem Appended.lock (h : Appended sb V dev i init ip s ks o) (ht : s.pc t = .called k src n)
    (hl : s.fs.ilock ip = .ok fs) :
    Appended sb V dev i init ip
      { s with fs := fs, pc := update s.pc t (.locked k src n), order := s.order ++ [k] } ks
      (some t) := by
  obtain ⟨href, hbusy, d, hd, hd', rfl⟩ := ilock_eq hl
  obtain rfl : o = none := by
    rw [h.busy] at hbusy
    cases o with
    | none => rfl
    | some r => cases hbusy
  obtain ⟨horder, hoff⟩ := h.stage
  obtain ⟨-, -, hn, hc⟩ := h.numbered.waits t k src n ht
  refine ⟨?_, ?_, ?_, ?_, ?_, ?_, holds_update h.owner (.inl rfl) trivial, h.file, h.bytes, ?_,
    h.numbered.lock ht⟩
  · simpa using h.device
  · simpa using h.number
  · simpa using href
  · simp
  · intro _
    simp
  · intro _
    have hcopy : d = dinode (s.fs.disk dev) i := by
      cases hv : (s.fs.icache ip).valid with
      | true => rw [hd hv, h.synced hv]
      | false => rw [hd' hv, h.device, h.number]
    simp only [Fs.setInode_icache, update_self]
    exact hcopy
  · simp only [Stage, update_self]
    exact ⟨by rw [horder], hn, hc, hoff⟩

theorem Appended.bump (h : Appended sb V dev i init ip s ks o) (ht : s.pc t = .wrote r) :
    Appended sb V dev i init ip
      { s with off := bump s.off r, pc := update s.pc t (.moved r) } ks o := by
  have hholds : (s.pc t).Holds := by
    rw [ht]
    trivial
  obtain rfl : o = some t := (h.owner t).mp hholds
  have hstage := h.stage
  simp only [Stage, ht] at hstage
  obtain ⟨horder, hr, hoff⟩ := hstage
  have hsize := h.file.mapped.size_le
  refine ⟨h.device, h.number, h.ref, h.busy, h.valid, h.synced,
    holds_update h.owner (.inr rfl) trivial, h.file, h.bytes, ?_, ?_⟩
  · simp only [Stage, update_self]
    refine ⟨horder, ?_⟩
    unfold Writers.bump
    split_ifs with hpos
    · rw [hoff, Nat.mod_eq_of_lt (by omega)]
    · omega
  · exact h.numbered.go hholds (x := .moved r) (.inl trivial) _ _

theorem Appended.unlock (h : Appended sb V dev i init ip s ks o) (ht : s.pc t = .moved r)
    (hu : s.fs.iunlock ip = .ok fs) :
    Appended sb V dev i init ip { s with fs := fs, pc := update s.pc t .idle } ks none := by
  have hholds : (s.pc t).Holds := by
    rw [ht]
    trivial
  obtain rfl : o = some t := (h.owner t).mp hholds
  have hstage := h.stage
  simp only [Stage, ht] at hstage
  obtain rfl : fs = s.fs.setInode ip { s.fs.icache ip with busy := false } := by
    unfold Fs.iunlock at hu
    dsimp only at hu
    split_ifs at hu
    cases hu
    rfl
  refine ⟨?_, ?_, ?_, ?_, fun hne => absurd rfl hne, ?_, ?_, h.file, h.bytes, hstage, ?_⟩
  · simpa using h.device
  · simpa using h.number
  · simpa using h.ref
  · simp
  · simp only [Fs.setInode_icache, update_self]
    exact h.synced
  · intro q
    dsimp only
    by_cases hq : q = t
    · subst hq
      rw [update_self]
      exact iff_of_false id (by simp)
    · rw [update_of_ne hq, h.owner q]
      exact iff_of_false (fun he => hq (Option.some.inj he).symm) (by simp)
  · exact h.numbered.go hholds (.inr rfl) _ _

theorem take_append_take {α : Type*} (x y : List α) (m : ℕ) :
    (x.take m ++ y).take m = (x ++ y).take m := by
  rw [List.take_append, List.take_append, List.take_take, Nat.min_self, List.length_take]
  by_cases hm : x.length ≤ m
  · rw [Nat.min_eq_right hm]
  · have h₁ : m - min m x.length = 0 := by omega
    have h₂ : m - x.length = 0 := by omega
    rw [h₁, h₂]

theorem map_range_take (f : ℕ → UInt8) (m n : ℕ) :
    (List.range (min n m)).map f = ((List.range n).map f).take m := by
  rw [← List.map_take, List.take_range, Nat.min_comm]

theorem length_content (d : Dinode) (disk : Disk) : (content d disk).length = d.size.toNat := by
  simp [content]

theorem writei_append (hdev : (fs.icache ip).dev = dev) (hinum : (fs.icache ip).inum = i)
    (hd : (fs.icache ip).d = dinode (fs.disk dev) i) (h : Regular sb V i (fs.disk dev)) {off : ℕ}
    (hoff : off = (dinode (fs.disk dev) i).size.toNat) (hn : n < 2 ^ 31) :
    fs.writei (-1) ip src off n = .error outOfBlocks ∨
      ∃ m d' disk', fs.writei (-1) ip src off n = .ok ((m : ℕ), fs.put ip d' disk') ∧
        dinode disk' i = d' ∧ Regular sb V i disk' ∧ d'.size.toNat = off + m ∧
        content d' disk' = (content (dinode (fs.disk dev) i) (fs.disk dev) ++
          (List.range n).map src).take (140 * 512) := by
  subst hdev
  generalize hdisk : fs.disk (fs.icache ip).dev = disk at hd h hoff ⊢
  have hsize := h.mapped.size_le
  have hself : update V i (dinode disk i) i = dinode disk i := update_self _ _ _
  have htype : (dinode disk i).type ≠ T_DEV ∧ (dinode disk i).type ≠ 0 := by
    rw [h.type]
    decide
  have hvol : Volume sb (update V i (dinode disk i)) (fs.disk (fs.icache ip).dev) := by
    rw [hdisk]
    exact h.volume
  have hoff' : off ≤ (update V i (dinode disk i) i).size.toNat := by
    rw [hself, hoff]
  have hw := Fs.writei_meets hvol (by rw [hself, hd]) hinum (live_self h.range htype.2)
    (by rw [hself]; exact htype.1) (by rw [hself, hdisk]; exact h.mapped) (-1) src
    (.inl hoff') (show off + n < 2 ^ 32 by omega)
  rcases hw.ok_or_error with ⟨e, he, rfl⟩ | ⟨_, hw, d', disk', rfl, w⟩
  · exact .inl he
  have hfields := w.fields
  have hsize' := w.size
  have hbytes := w.bytes
  have hvol' := w.volume
  have hsync : dinode disk' i = d' := w.synced (by rw [hself, hdisk])
  rw [hself] at hfields hsize' hbytes
  rw [update_idem, ← hsync] at hvol'
  rw [hdisk] at hbytes
  refine .inr ⟨_, d', disk', hw, hsync, ⟨h.range, hvol', ?_, ?_⟩, ?_, ?_⟩
  · rw [hsync, hfields]
    exact h.type
  · rw [hsync]
    exact w.mapped
  · omega
  · have hpatch := map_range_patch (bytes (dinode disk i) disk) src
      (show off ≤ (dinode disk i).size.toNat by omega) (m := min n (140 * 512 - off))
    have hend : (content (dinode disk i) disk).take off = content (dinode disk i) disk := by
      rw [List.take_of_length_le]
      rw [length_content]
      omega
    have hnone : (content (dinode disk i) disk).drop (off + min n (140 * 512 - off)) = [] := by
      apply List.drop_eq_nil_of_le
      rw [length_content]
      omega
    have hold : (List.range (dinode disk i).size.toNat).map (bytes (dinode disk i) disk) =
        content (dinode disk i) disk := rfl
    unfold content
    rw [hsize', hbytes, hpatch, hold, hend, hnone, List.append_nil, map_range_take,
      List.take_append, length_content, ← hoff]
    congr 1
    rw [List.take_of_length_le]
    rw [length_content]
    exact hsize

theorem Appended.write (h : Appended sb V dev i init ip s ks o) (ht : s.pc t = .locked k src n) :
    s.fs.writei (-1) ip src s.off n = .error outOfBlocks ∨
      ∃ r fs, s.fs.writei (-1) ip src s.off n = .ok (r, fs) ∧
        Appended sb V dev i init ip { s with fs := fs, pc := update s.pc t (.wrote r) }
          (ks ++ [k]) o := by
  have hholds : (s.pc t).Holds := by
    rw [ht]
    trivial
  obtain rfl : o = some t := (h.owner t).mp hholds
  have hstage := h.stage
  simp only [Stage, ht] at hstage
  obtain ⟨horder, hn, hc, hoff⟩ := hstage
  have hv := h.valid (by simp)
  rcases writei_append h.device h.number (h.synced hv) h.file hoff hn with
    he | ⟨m, d', disk', hw, hsync, hfile, hsize, hbytes⟩
  · exact .inl he
  refine .inr ⟨_, _, hw, ?_⟩
  have hdisk : (s.fs.put ip d' disk').disk dev = disk' := by
    rw [← h.device]
    exact Fs.put_disk ip d' disk' s.fs
  refine ⟨?_, ?_, ?_, ?_, ?_, ?_, holds_update h.owner (.inr rfl) trivial, ?_, ?_, ?_, ?_⟩
  · simpa using h.device
  · simpa using h.number
  · simpa using h.ref
  · simpa using h.busy
  · intro _
    simpa using hv
  · intro _
    dsimp only
    rw [hdisk, hsync, Fs.put_icache]
  · dsimp only
    rw [hdisk]
    exact hfile
  · dsimp only
    have htext : s.text (ks ++ [k]) = s.text ks ++ (List.range n).map src := by
      unfold text
      rw [List.flatMap_append, List.flatMap_singleton, hc]
    rw [hdisk, hsync, hbytes, h.bytes, take_append_take, List.append_assoc, ← htext]
    rfl
  · simp only [Stage, update_self]
    rw [hdisk, hsync, hsize]
    refine ⟨horder, Int.natCast_nonneg m, ?_⟩
    rw [Int.toNat_natCast]
  · exact h.numbered.go hholds (x := .wrote m) (.inl trivial) _ _

theorem Appended.step {a : WriteOp T} (h : Appended sb V dev i init ip s ks o)
    (hs : s.Step ip a s') : ∃ ks' o', Appended sb V dev i init ip s' ks' o' := by
  cases a with
  | call t src n =>
    obtain ⟨hidle, hn, rfl⟩ := hs
    exact ⟨ks, o, h.call hidle hn⟩
  | run t =>
    obtain ⟨hidle, hs⟩ := hs
    rcases run_cases hidle hs with ⟨k, src, n, fs, ht, hl, rfl⟩ | ⟨k, src, n, r, fs, ht, hw, rfl⟩ |
      ⟨r, ht, rfl⟩ | ⟨r, fs, ht, hu, rfl⟩
    · exact ⟨ks, some t, h.lock ht hl⟩
    · rcases h.write ht with he | ⟨r', fs', hw', h'⟩
      · rw [he] at hw
        cases hw
      · rw [hw'] at hw
        cases hw
        exact ⟨ks ++ [k], o, h'⟩
    · exact ⟨ks, o, h.bump ht⟩
    · exact ⟨ks, none, h.unlock ht hu⟩

/-- A process inside `filewrite` goes on, unless it has to wait for another one that has the lock
or the disk is full. -/
theorem Appended.progress (h : Appended sb V dev i init ip s ks o) (hidle : s.pc t ≠ .idle) :
    (∃ s', s.run ip t = .ok s') ∨ (s.run ip t = .error .hang ∧ ∃ r, r ≠ t ∧ (s.pc r).Holds) ∨
      s.run ip t = .error outOfBlocks := by
  unfold run
  cases hpc : s.pc t with
  | idle => exact absurd hpc hidle
  | called k src n =>
    have href := h.ref
    cases o with
    | some r =>
      have hr := (h.owner r).mpr rfl
      refine .inr (.inl ⟨?_, r, ?_, hr⟩)
      · unfold Fs.ilock
        dsimp only
        rw [if_neg (by omega), if_pos (by rw [h.busy]; rfl)]
        rfl
      · rintro rfl
        rw [hpc] at hr
        exact hr
    | none =>
      have hfree : ¬ (s.fs.icache ip).busy = true := by
        rw [h.busy]
        simp
      left
      unfold Fs.ilock
      dsimp only
      rw [if_neg (by omega), if_neg hfree]
      split_ifs with hvalid htype
      · exact ⟨_, rfl⟩
      · rw [h.device, h.number, h.file.type] at htype
        cases htype
      · exact ⟨_, rfl⟩
  | locked k src n =>
    rcases h.write hpc with he | ⟨r, fs, hw, -⟩
    · dsimp only
      rw [he]
      exact .inr (.inr rfl)
    · dsimp only
      rw [hw]
      exact .inl ⟨_, rfl⟩
  | wrote r => exact .inl ⟨_, rfl⟩
  | moved r =>
    have hholds : (s.pc t).Holds := by
      rw [hpc]
      trivial
    have href := h.ref
    have hbusy := h.busy
    rw [(h.owner t).mp hholds] at hbusy
    left
    unfold Fs.iunlock
    dsimp only
    rw [if_neg (by rw [hbusy]; simp; omega)]
    exact ⟨_, rfl⟩

end File

/-- Nobody is in `filewrite`. -/
def start (fs : Fs NINODE) (off : ℕ) : Writers T NINODE := ⟨fs, off, fun _ => .idle, [], []⟩

section Runs

variable {s s' : Writers T NINODE} {ip : Fin NINODE} {t : T} {src : Buffer} {n dev i off : ℕ}
  {sb : Superblock} {V : ℕ → Dinode} {fs : Fs NINODE} {r : ℤ}

theorem reach_alone {k : ℕ} {s₁ s₂ s₃ : Fs NINODE} (hpc : s.pc t = .called k src n)
    (h₁ : s.fs.ilock ip = .ok s₁) (h₂ : s₁.writei (-1) ip src s.off n = .ok (r, s₂))
    (h₃ : s₂.iunlock ip = .ok s₃) :
    Reach (Step ip) s ⟨s₃, bump s.off r, update s.pc t .idle, s.calls, s.order ++ [k]⟩ := by
  have e₁ : s.run ip t =
      .ok ⟨s₁, s.off, update s.pc t (.locked k src n), s.calls, s.order ++ [k]⟩ := by
    simp only [run, hpc, h₁, ok_bind]
    rfl
  have e₂ : run ip t ⟨s₁, s.off, update s.pc t (.locked k src n), s.calls, s.order ++ [k]⟩ =
      .ok ⟨s₂, s.off, update s.pc t (.wrote r), s.calls, s.order ++ [k]⟩ := by
    simp only [run, update_self, h₂, ok_bind, update_idem]
    rfl
  have e₃ : run ip t ⟨s₂, s.off, update s.pc t (.wrote r), s.calls, s.order ++ [k]⟩ =
      .ok ⟨s₂, bump s.off r, update s.pc t (.moved r), s.calls, s.order ++ [k]⟩ := by
    simp only [run, update_self, update_idem]
    rfl
  have e₄ : run ip t ⟨s₂, bump s.off r, update s.pc t (.moved r), s.calls, s.order ++ [k]⟩ =
      .ok ⟨s₃, bump s.off r, update s.pc t .idle, s.calls, s.order ++ [k]⟩ := by
    simp only [run, update_self, h₃, ok_bind, update_idem]
    rfl
  have hrun : ∀ {u u' : Writers T NINODE}, u.pc t ≠ .idle → u.run ip t = .ok u' →
      Reach (Step ip) s u → Reach (Step ip) s u' :=
    fun hne hu hr => hr.next (a := .run t) ⟨hne, hu⟩
  refine hrun ?_ e₄ (hrun ?_ e₃ (hrun ?_ e₂ (hrun ?_ e₁ .start)))
  · simp
  · simp
  · simp
  · simp [hpc]

/-- A call that is alone is `filewrite`. -/
theorem filewrite_reach {NFILE NOFILE : ℕ} {P : Type} {k k' : Files NINODE NFILE NOFILE P}
    {f : Fin NFILE} (hw : (k.file f).writable = true) (ht : (k.file f).type = .inode)
    (hip : (k.file f).ip = some ip) (hfs : s.fs = k.fs) (hoff : s.off = (k.file f).off)
    (hidle : s.pc t = .idle) (hn : n < 2 ^ 31) (h : k.filewrite (-1) f src n = .ok (r, k')) :
    ∃ s', Reach (Step ip) s s' ∧ s'.fs = k'.fs ∧ s'.off = (k'.file f).off ∧ s'.pc = s.pc := by
  unfold Files.filewrite at h
  dsimp only at h
  rw [if_neg (by rw [hw]; simp), ht] at h
  dsimp only at h
  rw [hip, deref_some, ok_bind] at h
  obtain ⟨s₁, h₁, h⟩ := bind_eq_ok.mp h
  obtain ⟨⟨r', s₂⟩, h₂, h⟩ := bind_eq_ok.mp h
  obtain ⟨s₃, h₃, h⟩ := bind_eq_ok.mp h
  cases h
  rw [← hfs] at h₁
  rw [← hoff] at h₂
  have hcall : Reach (Step ip) s (s.call t src n) :=
    Reach.start.next (a := .call t src n) ⟨hidle, hn, rfl⟩
  refine ⟨_, hcall.trans (reach_alone (update_self _ _ _) h₁ h₂ h₃), ?_, ?_, ?_⟩
  · unfold Files.advance
    split_ifs <;> rfl
  · unfold bump Files.advance
    split_ifs
    · simp [call, hoff]
    · exact hoff
  · simp only [call, update_idem]
    rw [← hidle, update_eq_self]

omit [DecidableEq T] in
theorem appended_start (hdev : (fs.icache ip).dev = dev) (hinum : (fs.icache ip).inum = i)
    (href : 1 ≤ (fs.icache ip).ref) (hbusy : (fs.icache ip).busy = false)
    (hsync : (fs.icache ip).valid = true → (fs.icache ip).d = dinode (fs.disk dev) i)
    (hfile : Regular sb V i (fs.disk dev)) (hoff : off = (dinode (fs.disk dev) i).size.toNat) :
    Appended sb V dev i (content (dinode (fs.disk dev) i) (fs.disk dev)) ip
      (start fs off : Writers T NINODE) [] none where
  device := hdev
  number := hinum
  ref := href
  busy := hbusy
  valid h := absurd rfl h
  synced := hsync
  owner t := iff_of_false id (by simp)
  file := hfile
  bytes := by
    have hsize := hfile.mapped.size_le
    have hnil : (start fs off : Writers T NINODE).text [] = [] := rfl
    rw [hnil, List.append_nil, List.take_of_length_le]
    · rfl
    · rwa [length_content]
  stage := ⟨rfl, hoff⟩
  numbered := by
    refine ⟨List.nodup_nil, ?_, ?_, ?_, ?_⟩
    · intro k hk
      cases hk
    · intro t k src n ht
      cases ht
    · intro t t' k src n src' n' ht
      cases ht
    · intro k hk
      cases hk

omit [DecidableEq T] in
theorem Numbered.perm (h : s.Numbered) (hidle : ∀ t, s.pc t = .idle) :
    s.order.Perm (List.range s.calls.length) := by
  refine (List.perm_ext_iff_of_nodup h.nodup List.nodup_range).mpr fun k => ?_
  rw [List.mem_range]
  refine ⟨h.lt k, fun hk => ?_⟩
  by_contra hko
  obtain ⟨t, src, n, ht⟩ := h.all k hk hko
  rw [hidle t] at ht
  cases ht

omit [DecidableEq T] in
theorem length_text (hp : s.order.Perm (List.range s.calls.length)) :
    (s.text s.order).length = (s.calls.map List.length).sum := by
  have hlen : (s.text s.order).length = (s.order.map fun k => (s.calls.getD k []).length).sum := by
    unfold text
    rw [List.length_flatMap]
  have hrange : (List.range s.calls.length).map (fun k => (s.calls.getD k []).length) =
      s.calls.map List.length := by
    apply List.ext_getElem
    · simp
    · intro k h₁ h₂
      simp only [List.length_map, List.length_range] at h₁
      simp [h₁]
  rw [hlen, (hp.map _).sum_nat, hrange]

/-- Whenever nobody has the lock, the file holds what it held at first and then the bytes of the
calls in the order in which they got the lock, as far as a file can be long. When all calls have
returned, each of them has got it once. A call goes on unless it waits for another one that has
the lock, or the disk is full. -/
theorem shared_offset_appends (hdev : (fs.icache ip).dev = dev) (hinum : (fs.icache ip).inum = i)
    (href : 1 ≤ (fs.icache ip).ref) (hbusy : (fs.icache ip).busy = false)
    (hsync : (fs.icache ip).valid = true → (fs.icache ip).d = dinode (fs.disk dev) i)
    (hfile : Regular sb V i (fs.disk dev)) (hoff : off = (dinode (fs.disk dev) i).size.toNat)
    (hr : Reach (Step ip) (start fs off) s) :
    ((s.fs.icache ip).busy = false →
      content (dinode (s.fs.disk dev) i) (s.fs.disk dev) =
        (content (dinode (fs.disk dev) i) (fs.disk dev) ++ s.text s.order).take (140 * 512)) ∧
    ((∀ t, s.pc t = .idle) → s.order.Perm (List.range s.calls.length) ∧
      ((dinode (fs.disk dev) i).size.toNat + (s.calls.map List.length).sum ≤ 140 * 512 →
        content (dinode (s.fs.disk dev) i) (s.fs.disk dev) =
          content (dinode (fs.disk dev) i) (fs.disk dev) ++ s.text s.order)) ∧
    ∀ t, s.pc t ≠ .idle → (∃ s', s.run ip t = .ok s') ∨
      (s.run ip t = .error .hang ∧ ∃ r, r ≠ t ∧ (s.pc r).Holds) ∨
      s.run ip t = .error outOfBlocks := by
  have hinv : ∃ ks o, Appended sb V dev i (content (dinode (fs.disk dev) i) (fs.disk dev)) ip s
      ks o := by
    refine hr.invariant (P := fun s => ∃ ks o, Appended sb V dev i _ ip s ks o)
      ⟨[], none, appended_start hdev hinum href hbusy hsync hfile hoff⟩ ?_
    rintro s a s' ⟨ks, o, h⟩ hs
    exact h.step hs
  obtain ⟨ks, o, h⟩ := hinv
  have hbytes : o = none → content (dinode (s.fs.disk dev) i) (s.fs.disk dev) =
      (content (dinode (fs.disk dev) i) (fs.disk dev) ++ s.text s.order).take (140 * 512) := by
    rintro rfl
    rw [h.stage.1]
    exact h.bytes
  refine ⟨fun hfree => ?_, fun hidle => ?_, fun t ht => h.progress ht⟩
  · apply hbytes
    rw [h.busy] at hfree
    cases o with
    | none => rfl
    | some r => cases hfree
  · have hperm := h.numbered.perm hidle
    refine ⟨hperm, fun htotal => ?_⟩
    have ho : o = none := by
      cases o with
      | none => rfl
      | some r =>
        have hr := (h.owner r).mpr rfl
        rw [hidle r] at hr
        exact hr.elim
    rw [hbytes ho, List.take_of_length_le]
    rw [List.length_append, length_content, length_text hperm]
    exact htotal

end Runs

/-- An empty file that is not locked -/
def emptyUnlocked : Fs 1 := ⟨emptyFile.disk, fun ip => { emptyFile.icache ip with busy := false }⟩

def isIdle : WritePc → Bool
  | .idle => true
  | _ => false

def perform (ip : Fin NINODE) (s : Writers T NINODE) : WriteOp T → Option (Writers T NINODE)
  | .call t src n => if isIdle (s.pc t) = true ∧ n < 2 ^ 31 then some (s.call t src n) else none
  | .run t => if isIdle (s.pc t) = true then none else (s.run ip t).toOption

theorem isIdle_iff {x : WritePc} : isIdle x = true ↔ x = .idle := by
  cases x <;> simp [isIdle]

theorem reach_of_perform {ip : Fin NINODE} (s : Writers T NINODE) (a : WriteOp T)
    (s' : Writers T NINODE) (h : s.perform ip a = some s') : Reach (Step ip) s s' := by
  refine Reach.start.next (a := a) ?_
  cases a with
  | call t src n =>
    simp only [perform] at h
    split_ifs at h with hc
    cases h
    exact ⟨isIdle_iff.mp hc.1, hc.2, rfl⟩
  | run t =>
    simp only [perform] at h
    split_ifs at h with hc
    refine ⟨fun he => hc (isIdle_iff.mpr he), ?_⟩
    cases hrun : s.run ip t with
    | error e =>
      rw [hrun] at h
      cases h
    | ok u =>
      rw [hrun] at h
      cases h
      rfl

/-- Two processes; the second to call is the first to get the lock. -/
theorem shared_offset_appends_two : ∃ s : Writers Bool 1,
    Reach (Step ⟨0, by decide⟩) (start emptyUnlocked 0) s ∧ s.calls = [[1, 2, 3], [7, 8]] ∧
      content (dinode (s.fs.disk 1) 1) (s.fs.disk 1) = [7, 8, 1, 2, 3] := by
  have hd : dinode (emptyUnlocked.disk 1) 1 = (emptyUnlocked.icache ⟨0, by decide⟩).d :=
    dinode_setDinode _ _ _
  have hfile : Regular smallSuper (dinode (emptyUnlocked.disk 1)) 1 (emptyUnlocked.disk 1) := by
    refine ⟨by decide, ?_, ?_, ?_⟩
    · rw [update_eq_self]
      exact volume_smallDisk fun _ => rfl
    · rw [hd]
      rfl
    · rw [hd]
      decide
  have hrun : (([.call false (fun i => UInt8.ofNat (i + 1)) 3,
      .call true (fun i => UInt8.ofNat (i + 7)) 2,
      .run true, .run true, .run true, .run true, .run false, .run false, .run false, .run false] :
      List (WriteOp Bool)).foldlM (perform ⟨0, by decide⟩) (start emptyUnlocked 0)).any (fun s =>
        s.order == [1, 0] && s.calls == [[1, 2, 3], [7, 8]] && isIdle (s.pc true) &&
          isIdle (s.pc false)) = true := by
    decide +kernel
  obtain ⟨s, hs, htest⟩ := exists_reach_of_any reach_of_perform hrun
  simp only [Bool.and_eq_true, beq_iff_eq, isIdle_iff] at htest
  obtain ⟨⟨⟨horder, hcalls⟩, ht⟩, hf⟩ := htest
  have hsize : (dinode (emptyUnlocked.disk 1) 1).size.toNat = 0 := by
    rw [hd]
    rfl
  have hbytes : content (dinode (emptyUnlocked.disk 1) 1) (emptyUnlocked.disk 1) = [] := by
    unfold content
    rw [hsize]
    rfl
  have hdev : (emptyUnlocked.icache ⟨0, by decide⟩).dev = 1 := rfl
  have hinum : (emptyUnlocked.icache ⟨0, by decide⟩).inum = 1 := rfl
  have h := (shared_offset_appends hdev hinum (by decide) rfl (fun _ => hd.symm) hfile hsize.symm
    hs).2.1 (Bool.forall_bool.mpr ⟨hf, ht⟩)
  refine ⟨s, hs, hcalls, ?_⟩
  rw [h.2 (by rw [hsize, hcalls]; decide), hbytes]
  unfold text
  rw [horder, hcalls]
  rfl

end Writers

end Xv6Shed
