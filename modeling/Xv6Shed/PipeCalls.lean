import Xv6Shed.Kalloc
import Xv6Shed.Pipe
import Xv6Shed.SysFile

/-!
# Making a pipe

`sys_pipe` with the page of the pipe: `pipealloc` of `pipe.c`, `pipeclose` and `fileclose`, over
the file table and the descriptors of `Files`. The `wakeup` of `pipeclose` is left out.
-/

namespace Xv6Shed
open Function Xv6Shed.Interval

variable {NINODE NFILE NOFILE : ℕ} {P : Type}

/-- The files and the processes, the field `pipe` of every file, the `struct pipe` at an address
and the free list of the page allocator. -/
structure PipeTable (NINODE NFILE NOFILE : ℕ) (P : Type) where
  files : Files NINODE NFILE NOFILE P
  pipe : Fin NFILE → Option ℕ
  page : ℕ → Pipe
  free : List Interval

namespace PipeTable

def pipeclose (p : ℕ) (writable : Bool) (k : PipeTable NINODE NFILE NOFILE P) :
    Except Fault (PipeTable NINODE NFILE NOFILE P) := do
  let x := (k.page p).shut writable
  let k := { k with page := update k.page p x }
  if x.readopen = false ∧ x.writeopen = false then
    pure { k with free := ← kfree p PAGE k.free }
  else pure k

def fileclose (f : Fin NFILE) (k : PipeTable NINODE NFILE NOFILE P) :
    Except Fault (PipeTable NINODE NFILE NOFILE P) := do
  let ff := k.files.file f
  let k := { k with files := ← k.files.fileclose f }
  -- the last close of a pipe's end
  if ¬ 0 < ff.ref - 1 ∧ ff.type = .pipe then k.pipeclose (← deref (k.pipe f)) ff.writable
  else pure k

/-- `f->type = FD_NONE; fileclose(f)` at the label `bad` of `pipealloc` -/
def undo (f : Fin NFILE) (k : PipeTable NINODE NFILE NOFILE P) :
    Except Fault (PipeTable NINODE NFILE NOFILE P) :=
  { k with files := k.files.setFile f { k.files.file f with type := .none } }.fileclose f

/-- `pipealloc`: the files of the read end and the write end -/
def pipealloc (k : PipeTable NINODE NFILE NOFILE P) :
    Except Fault (Option (Fin NFILE × Fin NFILE) × PipeTable NINODE NFILE NOFILE P) :=
  match k.files.filealloc with
  | none => pure (none, k)
  | some (f0, files) =>
    match files.filealloc with
    | none => do pure (none, ← { k with files := files }.undo f0)
    | some (f1, files) => do
      let (p, fl) ← kalloc PAGE k.free
      let k := { k with files := files, free := fl }
      match p with
      | none => do
        let k ← k.undo f0
        pure (none, ← k.undo f1)
      | some p =>
        let files := files.setFile f0
          { files.file f0 with type := .pipe, readable := true, writable := false }
        let files := files.setFile f1
          { files.file f1 with type := .pipe, readable := false, writable := true }
        pure (some (f0, f1), { k with
          files := files
          pipe := update (update k.pipe f0 (some p)) f1 (some p)
          page := update k.page p (.alloc (k.page p).data) })

variable [DecidableEq P]

/-- Stores to the open files of process `p` -/
def setTask (p : P) (t : Task NINODE NFILE NOFILE) (k : PipeTable NINODE NFILE NOFILE P) :
    PipeTable NINODE NFILE NOFILE P :=
  { k with files := k.files.setTask p (some t) }

/-- `sys_pipe`: the two descriptors it stores through the user's pointer; `ptr` says whether
`argptr` accepts that. -/
def sysPipe (p : P) (t : Task NINODE NFILE NOFILE) (ptr : Bool)
    (k : PipeTable NINODE NFILE NOFILE P) :
    Except Fault (Option (Fin NOFILE × Fin NOFILE) × PipeTable NINODE NFILE NOFILE P) :=
  if ptr = false then pure (none, k)
  else do
    match ← k.pipealloc with
    | (none, k) => pure (none, k)
    | (some (rf, wf), k) =>
      match t.fdalloc rf with
      | none => do
        let k ← k.fileclose rf
        pure (none, ← k.fileclose wf)
      | some (fd0, t) =>
        match t.fdalloc wf with
        | none => do
          let k ← (k.setTask p (t.setFd fd0 none)).fileclose rf
          pure (none, ← k.fileclose wf)
        | some (fd1, t) => pure (some (fd0, fd1), k.setTask p t)

section Erase

variable {k k' : PipeTable NINODE NFILE NOFILE P} {f : Fin NFILE}

omit [DecidableEq P] in
theorem pipeclose_files {p : ℕ} {writable : Bool} (h : k.pipeclose p writable = .ok k') :
    k'.files = k.files := by
  unfold pipeclose at h
  dsimp only at h
  split_ifs at h
  · obtain ⟨fl, -, h⟩ := bind_eq_ok.mp h
    cases h
    rfl
  · cases h
    rfl

omit [DecidableEq P] in
theorem fileclose_files (h : k.fileclose f = .ok k') : k.files.fileclose f = .ok k'.files := by
  unfold fileclose at h
  dsimp only at h
  obtain ⟨files, hf, h⟩ := bind_eq_ok.mp h
  rw [hf]
  split_ifs at h
  · obtain ⟨p, -, h⟩ := bind_eq_ok.mp h
    rw [pipeclose_files h]
  · cases h
    rfl

omit [DecidableEq P] in
theorem pipealloc_files {r : Option (Fin NFILE × Fin NFILE)} (h : k.pipealloc = .ok (r, k')) :
    ∃ page, k.files.pipealloc page = .ok (r, k'.files) := by
  unfold pipealloc at h
  unfold Files.pipealloc
  cases h₀ : k.files.filealloc with
  | none =>
    simp only [h₀] at h ⊢
    cases h
    exact ⟨true, rfl⟩
  | some a =>
    simp only [h₀] at h ⊢
    cases h₁ : a.2.filealloc with
    | none =>
      simp only [h₁] at h ⊢
      obtain ⟨k₁, hu, h⟩ := bind_eq_ok.mp h
      cases h
      refine ⟨true, ?_⟩
      rw [fileclose_files hu]
      rfl
    | some b =>
      simp only [h₁] at h ⊢
      obtain ⟨⟨v, fl⟩, -, h⟩ := bind_eq_ok.mp h
      cases v with
      | none =>
        obtain ⟨k₁, hu₁, h⟩ := bind_eq_ok.mp h
        obtain ⟨k₂, hu₂, h⟩ := bind_eq_ok.mp h
        cases h
        refine ⟨false, ?_⟩
        rw [if_neg (by decide), fileclose_files hu₁, ok_bind, fileclose_files hu₂]
        rfl
      | some v =>
        cases h
        exact ⟨true, rfl⟩

theorem sysPipe_files {p : P} {t : Task NINODE NFILE NOFILE} {r : Option (Fin NOFILE × Fin NOFILE)}
    (h : k.sysPipe p t true = .ok (r, k')) :
    ∃ page, k.files.sysPipe p t page = .ok (if r.isSome then 0 else -1, k'.files) := by
  unfold sysPipe at h
  rw [if_neg (by decide)] at h
  obtain ⟨⟨ends, k₁⟩, ha, h⟩ := bind_eq_ok.mp h
  obtain ⟨page, hp⟩ := pipealloc_files ha
  refine ⟨page, ?_⟩
  unfold Files.sysPipe
  rw [hp, ok_bind]
  cases ends with
  | none =>
    cases h
    rfl
  | some e =>
    cases h₀ : t.fdalloc e.1 with
    | none =>
      simp only [h₀] at h ⊢
      obtain ⟨k₂, hc₁, h⟩ := bind_eq_ok.mp h
      obtain ⟨k₃, hc₂, h⟩ := bind_eq_ok.mp h
      cases h
      rw [fileclose_files hc₁, ok_bind, fileclose_files hc₂]
      rfl
    | some a =>
      simp only [h₀] at h ⊢
      cases h₁ : a.2.fdalloc e.2 with
      | none =>
        simp only [h₁] at h ⊢
        obtain ⟨k₂, hc₁, h⟩ := bind_eq_ok.mp h
        obtain ⟨k₃, hc₂, h⟩ := bind_eq_ok.mp h
        cases h
        have hc := fileclose_files hc₁
        simp only [setTask] at hc
        rw [hc, ok_bind, fileclose_files hc₂]
        rfl
      | some b =>
        simp only [h₁] at h ⊢
        cases h
        rfl

end Erase

/-- What an entry in use holds -/
def entry (k : PipeTable NINODE NFILE NOFILE P) (f : Fin NFILE) : Option (File NINODE × Option ℕ) :=
  if (k.files.file f).type = .closed then none else some (k.files.file f, k.pipe f)

/-- Nothing has happened but in entries that are closed and in pages that are free. -/
structure Unchanged (k k' : PipeTable NINODE NFILE NOFILE P) : Prop where
  task : k'.files.task = k.files.task
  fs : k'.files.fs = k.files.fs
  entry : k'.entry = k.entry
  ref : (∀ f, (k.files.file f).type = .closed → (k.files.file f).ref = 0) →
    ∀ f, (k'.files.file f).ref = (k.files.file f).ref
  free : k'.free = k.free
  page : ∀ a, ¬ Covers k.free a → k'.page a = k.page a

/-- `rf` and `wf` are the ends of a new pipe in page `v`, and process `p` has them open under the
descriptors `fd`. -/
structure Made (p : P) (t : Task NINODE NFILE NOFILE) (fd : Fin NOFILE × Fin NOFILE)
    (rf wf : Fin NFILE) (v : ℕ) (k k' : PipeTable NINODE NFILE NOFILE P) : Prop where
  fd_ne : fd.1 ≠ fd.2
  fresh : t.ofile fd.1 = none ∧ t.ofile fd.2 = none
  task : k'.files.task =
    update k.files.task p (some ((t.setFd fd.1 (some rf)).setFd fd.2 (some wf)))
  file_ne : rf ≠ wf
  closed : (k.files.file rf).type = .closed ∧ (k.files.file wf).type = .closed
  readEnd : k'.files.file rf =
    { k.files.file rf with type := .pipe, ref := 1, readable := true, writable := false }
  writeEnd : k'.files.file wf =
    { k.files.file wf with type := .pipe, ref := 1, readable := false, writable := true }
  pipe : k'.pipe rf = some v ∧ k'.pipe wf = some v
  others : ∀ f, f ≠ rf → f ≠ wf → k'.files.file f = k.files.file f ∧ k'.pipe f = k.pipe f
  fs : k'.files.fs = k.files.fs
  page : k'.page = update k.page v (.alloc (k.page v).data)
  free : kalloc PAGE k.free = .ok (some v, k'.free)

/-- The call returns, with a new pipe or with nothing changed. -/
def Clean (p : P) (t : Task NINODE NFILE NOFILE) (ptr : Bool)
    (k : PipeTable NINODE NFILE NOFILE P) : Prop :=
  ∃ r k', k.sysPipe p t ptr = .ok (r, k') ∧
    ((r = none ∧ k.Unchanged k') ∨ ∃ fd rf wf v, r = some fd ∧ k.Made p t fd rf wf v k')

section Alloc

omit [DecidableEq P]
variable {k : PipeTable NINODE NFILE NOFILE P} {f f0 f1 : Fin NFILE}
  {files files' : Files NINODE NFILE NOFILE P}

theorem undo_panics (hr : (k.files.file f).ref = 1) : k.undo f = .error (.panic "fileclose") := by
  unfold undo fileclose
  rw [Files.fileclose_allocated]
  · rfl
  · simp
  · simpa using hr

/-- There are two closed entries and there is a page. -/
def Room (k : PipeTable NINODE NFILE NOFILE P) : Prop :=
  (∃ f g, f ≠ g ∧ (k.files.file f).type = .closed ∧ (k.files.file g).type = .closed) ∧
    ∃ r ∈ k.free, PAGE ≤ r.len

theorem kalloc_page (fl : List Interval) : kalloc PAGE fl = .ok (kallocLoop PAGE fl) :=
  kalloc_eq (by decide) (Nat.dvd_refl PAGE) fl

theorem filealloc_twice (h₀ : k.files.filealloc = some (f0, files))
    (h₁ : files.filealloc = some (f1, files')) :
    f0 ≠ f1 ∧ (k.files.file f0).type = .closed ∧ (k.files.file f1).type = .closed ∧
      files' = (((k.files.setFile f0 { k.files.file f0 with type := .none, ref := 1 }).setFile f1
        { k.files.file f1 with type := .none, ref := 1 }).record (.alloc f0)).record
          (.alloc f1) := by
  obtain ⟨hc₀, rfl⟩ := Files.filealloc_eq h₀
  obtain ⟨hc₁, rfl⟩ := Files.filealloc_eq h₁
  have hne : f0 ≠ f1 := by
    rintro rfl
    simp at hc₁
  rw [Files.record_file, Files.setFile_file, update_of_ne hne.symm] at hc₁
  refine ⟨hne, hc₀, hc₁, ?_⟩
  rw [Files.record_file, Files.setFile_file, update_of_ne hne.symm]
  rfl

/-- What `pipealloc` leaves when it succeeds, with what `kalloc` returned -/
def allocated (f0 f1 : Fin NFILE) (v : ℕ) (fl : List Interval)
    (k : PipeTable NINODE NFILE NOFILE P) : PipeTable NINODE NFILE NOFILE P where
  files := (((k.files.setFile f0
      { k.files.file f0 with type := .pipe, ref := 1, readable := true, writable := false }).setFile
    f1 { k.files.file f1 with type := .pipe, ref := 1, readable := false, writable := true }).record
      (.alloc f0)).record (.alloc f1)
  pipe := update (update k.pipe f0 (some v)) f1 (some v)
  page := update k.page v (.alloc (k.page v).data)
  free := fl

theorem pipealloc_allocated {v : ℕ} {fl : List Interval} (h₀ : k.files.filealloc = some (f0, files))
    (h₁ : files.filealloc = some (f1, files')) (hk : kalloc PAGE k.free = .ok (some v, fl)) :
    k.pipealloc = .ok (some (f0, f1), k.allocated f0 f1 v fl) := by
  obtain ⟨hne, -, -, rfl⟩ := filealloc_twice h₀ h₁
  unfold pipealloc
  simp only [h₀, h₁, hk, ok_bind]
  have hfiles : ∀ x₀ y₀ x₁ y₁ : File NINODE,
      (((((k.files.setFile f0 x₀).setFile f1 x₁).record (.alloc f0)).record (.alloc f1)).setFile f0
        y₀).setFile f1 y₁ =
        (((k.files.setFile f0 y₀).setFile f1 y₁).record (.alloc f0)).record (.alloc f1) := by
    intro x₀ y₀ x₁ y₁
    simp only [Files.setFile, Files.record, update_comm hne, update_idem]
  simp only [hfiles, allocated, Files.record_file, Files.setFile_file, update_self,
    update_of_ne hne, update_of_ne hne.symm]
  rfl

theorem pipealloc_cases (k : PipeTable NINODE NFILE NOFILE P) :
    (∀ f, (k.files.file f).type ≠ .closed) ∧ k.pipealloc = .ok (none, k) ∨
    (k.Room ∧ ∃ f0 f1 v fl, f0 ≠ f1 ∧ (k.files.file f0).type = .closed ∧
      (k.files.file f1).type = .closed ∧ kalloc PAGE k.free = .ok (some v, fl) ∧
      k.pipealloc = .ok (some (f0, f1), k.allocated f0 f1 v fl)) ∨
    ((∃ f, (k.files.file f).type = .closed) ∧ ¬ k.Room ∧
      k.pipealloc = .error (.panic "fileclose")) := by
  cases h₀ : k.files.filealloc with
  | none =>
    refine .inl ⟨Files.filealloc_none.mp h₀, ?_⟩
    unfold pipealloc
    rw [h₀]
    rfl
  | some a =>
    obtain ⟨f0, files⟩ := a
    obtain ⟨hc₀, hfiles⟩ := Files.filealloc_eq h₀
    cases h₁ : files.filealloc with
    | none =>
      -- the one closed entry is `f0`
      have hall : ∀ f, f ≠ f0 → (k.files.file f).type ≠ .closed := by
        intro f hf
        have := Files.filealloc_none.mp h₁ f
        rwa [hfiles, Files.record_file, Files.setFile_file, update_of_ne hf] at this
      refine .inr (.inr ⟨⟨f0, hc₀⟩, ?_, ?_⟩)
      · rintro ⟨⟨f, g, hfg, hf, hg⟩, -⟩
        by_cases he : f = f0
        · exact hall g (fun hg' => hfg (he.trans hg'.symm)) hg
        · exact hall f he hf
      · unfold pipealloc
        simp only [h₀, h₁]
        rw [undo_panics]
        · rfl
        · simp [hfiles]
    | some b =>
      obtain ⟨f1, files'⟩ := b
      obtain ⟨hne, hc₀, hc₁, hfiles'⟩ := filealloc_twice h₀ h₁
      cases hk : kallocLoop PAGE k.free with
      | mk v fl =>
      have hk' : kalloc PAGE k.free = .ok (v, fl) := by rw [kalloc_page, hk]
      cases v with
      | none =>
        have hfull := kallocLoop_none.mp (congrArg Prod.fst hk)
        refine .inr (.inr ⟨⟨f0, hc₀⟩, ?_, ?_⟩)
        · rintro ⟨-, r, hr, hlen⟩
          exact Nat.not_lt.mpr hlen (hfull r hr)
        · unfold pipealloc
          simp only [h₀, h₁, hk', ok_bind]
          rw [undo_panics]
          · rfl
          · simp [hfiles', update_of_ne hne]
      | some v =>
        refine .inr (.inl ⟨⟨⟨f0, f1, hne, hc₀, hc₁⟩, ?_⟩, f0, f1, v, fl, hne, hc₀, hc₁, hk',
          pipealloc_allocated h₀ h₁ hk'⟩)
        by_contra hroom
        push Not at hroom
        have := kallocLoop_none.mpr hroom
        rw [hk] at this
        cases this

end Alloc

section Close

omit [DecidableEq P]
variable {k : PipeTable NINODE NFILE NOFILE P} {f f0 f1 : Fin NFILE} {v : ℕ} {fl : List Interval}

theorem fileclose_end (ht : (k.files.file f).type = .pipe) (hr : (k.files.file f).ref = 1)
    (hp : k.pipe f = some v) :
    k.fileclose f = { k with
      files := (k.files.setFile f { k.files.file f with ref := 0, type := .closed }).record
        (.pipeclose f) }.pipeclose v (k.files.file f).writable := by
  have hfiles : k.files.fileclose f = .ok ((k.files.setFile f
      { k.files.file f with ref := 0, type := .closed }).record (.pipeclose f)) := by
    unfold Files.fileclose
    dsimp only
    rw [if_neg (by rw [hr, ht]; simp), if_neg (by rw [hr]; decide), ht]
    rfl
  unfold fileclose
  simp only [hfiles, ok_bind, hp]
  rw [if_pos ⟨by rw [hr]; decide, ht⟩]
  rfl

/-- The state after both ends of a new pipe are closed again -/
def closedAgain (f0 f1 : Fin NFILE) (v : ℕ) (k : PipeTable NINODE NFILE NOFILE P) :
    PipeTable NINODE NFILE NOFILE P where
  files :=
    { (k.files.setFile f0 { k.files.file f0 with
        type := .closed, ref := 0, readable := true, writable := false }).setFile f1
        { k.files.file f1 with type := .closed, ref := 0, readable := false, writable := true }
      with
      log := [.pipeclose f1, .pipeclose f0, .alloc f1, .alloc f0] ++ k.files.log }
  pipe := update (update k.pipe f0 (some v)) f1 (some v)
  page := update k.page v (((Pipe.alloc (k.page v).data).shut false).shut true)
  free := k.free

theorem close_allocated (hne : f0 ≠ f1) (hfree : kfree v PAGE fl = .ok k.free) :
    (do let k ← (k.allocated f0 f1 v fl).fileclose f0; k.fileclose f1) =
      .ok (k.closedAgain f0 f1 v) := by
  -- the read end: the page stays, since the write end is open
  have h₀ : (k.allocated f0 f1 v fl).fileclose f0 = .ok
      { k.allocated f0 f1 v fl with
        files := ((k.allocated f0 f1 v fl).files.setFile f0
          { (k.allocated f0 f1 v fl).files.file f0 with ref := 0, type := .closed }).record
            (.pipeclose f0)
        page := update k.page v ((Pipe.alloc (k.page v).data).shut false) } := by
    rw [fileclose_end (v := v)]
    · simp only [allocated, pipeclose, update_self, update_idem, Files.record_file,
        Files.setFile_file, update_of_ne hne]
      rw [if_neg (by simp [Pipe.shut, Pipe.alloc])]
      rfl
    all_goals simp [allocated, update_of_ne hne]
  rw [h₀, ok_bind, fileclose_end (v := v)]
  · simp only [allocated, pipeclose, update_self, update_idem, Files.record_file,
      Files.setFile_file, update_of_ne hne, update_of_ne hne.symm]
    rw [if_pos ⟨rfl, rfl⟩, hfree]
    simp only [closedAgain, Files.setFile, Files.record, update_comm hne, update_idem]
    rfl
  all_goals simp [allocated, update_of_ne hne.symm]

theorem entry_of_type {k' : PipeTable NINODE NFILE NOFILE P}
    (hfile : k'.files.file f = k.files.file f) (hpipe : k'.pipe f = k.pipe f) :
    k'.entry f = k.entry f := by
  unfold entry
  rw [hfile, hpipe]

theorem entry_closed (h : (k.files.file f).type = .closed) : k.entry f = none := if_pos h

theorem unchanged_closedAgain (hc₀ : (k.files.file f0).type = .closed)
    (hc₁ : (k.files.file f1).type = .closed) (hv : Covers k.free v) :
    k.Unchanged (k.closedAgain f0 f1 v) where
  task := rfl
  fs := rfl
  entry := by
    funext f
    by_cases hf : (k.files.file f).type = .closed
    · rw [entry_closed hf, entry_closed]
      simp only [closedAgain, Files.setFile_file, update_apply]
      split_ifs
      · rfl
      · rfl
      · exact hf
    · have h₀ : f ≠ f0 := fun he => hf (he ▸ hc₀)
      have h₁ : f ≠ f1 := fun he => hf (he ▸ hc₁)
      apply entry_of_type
      · simp [closedAgain, update_of_ne h₀, update_of_ne h₁]
      · simp [closedAgain, update_of_ne h₀, update_of_ne h₁]
  ref hzero f := by
    simp only [closedAgain, Files.setFile_file, update_apply]
    split_ifs with h₁ h₀
    · rw [h₁]
      exact (hzero f1 hc₁).symm
    · rw [h₀]
      exact (hzero f0 hc₀).symm
    · rfl
  free := rfl
  page a ha := by
    apply update_of_ne
    rintro rfl
    exact ha hv

end Close

variable {k : PipeTable NINODE NFILE NOFILE P} {p : P} {t : Task NINODE NFILE NOFILE}
  {live : List Interval} {start size : ℕ}

omit [DecidableEq P] in
theorem unchanged_refl (k : PipeTable NINODE NFILE NOFILE P) : k.Unchanged k :=
  ⟨rfl, rfl, rfl, fun _ _ => rfl, rfl, fun _ _ => rfl⟩

theorem clean_of_allocated (hs : (⟨k.free, live⟩ : Heap).Sound start size)
    (ht : k.files.task p = some t) {f0 f1 : Fin NFILE} {v : ℕ} {fl : List Interval} (hne : f0 ≠ f1)
    (hc₀ : (k.files.file f0).type = .closed) (hc₁ : (k.files.file f1).type = .closed)
    (hk : kalloc PAGE k.free = .ok (some v, fl))
    (ha : k.pipealloc = .ok (some (f0, f1), k.allocated f0 f1 v fl)) : k.Clean p t true := by
  have hfree : kfree v PAGE fl = .ok k.free :=
    hs.kfree_kalloc (by decide) (Nat.dvd_refl PAGE) hk
  have hclose := close_allocated (k := k) hne hfree
  have hv : Covers k.free v := by
    rw [kalloc_page] at hk
    have hc := kallocLoop_some hs.sorted hs.pos (Except.ok.inj hk)
    refine (hc.covers v).mpr (.inr ?_)
    have hpage : 0 < PAGE := by decide
    exact ⟨Nat.le_refl v, Nat.lt_add_of_pos_right hpage⟩
  have hun := unchanged_closedAgain hc₀ hc₁ hv
  unfold Clean sysPipe
  rw [if_neg (by decide), ha, ok_bind]
  dsimp only
  cases h₀ : t.fdalloc f0 with
  | none =>
    dsimp only
    rw [← bind_assoc, hclose]
    exact ⟨none, _, rfl, .inl ⟨rfl, hun⟩⟩
  | some a =>
    obtain ⟨fd0, t₀⟩ := a
    obtain ⟨hn₀, rfl⟩ := Task.fdalloc_eq h₀
    dsimp only
    cases h₁ : (t.setFd fd0 (some f0)).fdalloc f1 with
    | none =>
      -- the first descriptor is cleared again
      have hback : (k.allocated f0 f1 v fl).setTask p ((t.setFd fd0 (some f0)).setFd fd0 none) =
          k.allocated f0 f1 v fl := by
        have ht' : (t.setFd fd0 (some f0)).setFd fd0 none = t := by
          simp only [Task.setFd, update_idem, ← hn₀, update_eq_self]
        simp only [setTask, ht', allocated, Files.setTask, Files.setFile, Files.record]
        rw [← ht, update_eq_self]
      dsimp only
      rw [hback, ← bind_assoc, hclose]
      exact ⟨none, _, rfl, .inl ⟨rfl, hun⟩⟩
    | some b =>
      obtain ⟨fd1, t₁⟩ := b
      obtain ⟨hn₁, rfl⟩ := Task.fdalloc_eq h₁
      have hfd : fd0 ≠ fd1 := by
        rintro rfl
        simp at hn₁
      rw [Task.setFd_ofile, update_of_ne hfd.symm] at hn₁
      refine ⟨some (fd0, fd1), _, rfl, .inr ⟨(fd0, fd1), f0, f1, v, rfl, ?_⟩⟩
      refine ⟨hfd, ⟨hn₀, hn₁⟩, rfl, hne, ⟨hc₀, hc₁⟩, ?_, ?_, ?_, ?_, rfl, rfl, hk⟩
      · simp [setTask, allocated, update_of_ne hne]
      · simp [setTask, allocated]
      · simp [setTask, allocated, update_of_ne hne]
      · intro f hf₀ hf₁
        simp [setTask, allocated, update_of_ne hf₀, update_of_ne hf₁]

/-- A call whose pointer is accepted is clean if the file table is full, or if it has two closed
entries and there is a page. Otherwise it panics. -/
theorem sys_pipe_clean_iff (hs : (⟨k.free, live⟩ : Heap).Sound start size)
    (ht : k.files.task p = some t) (ptr : Bool) :
    k.Clean p t ptr ↔ ptr = false ∨ (∀ f, (k.files.file f).type ≠ .closed) ∨
      (∃ f g, f ≠ g ∧ (k.files.file f).type = .closed ∧ (k.files.file g).type = .closed) ∧
        ∃ r ∈ k.free, PAGE ≤ r.len := by
  cases ptr with
  | false => exact iff_of_true ⟨none, k, rfl, .inl ⟨rfl, unchanged_refl k⟩⟩ (.inl rfl)
  | true =>
    rcases pipealloc_cases k with ⟨hfull, ha⟩ | ⟨hroom, f0, f1, v, fl, hne, hc₀, hc₁, hk, ha⟩ |
      ⟨⟨f, hf⟩, hroom, ha⟩
    · refine iff_of_true ⟨none, k, ?_, .inl ⟨rfl, unchanged_refl k⟩⟩ (.inr (.inl hfull))
      unfold sysPipe
      rw [if_neg (by decide), ha]
      rfl
    · exact iff_of_true (clean_of_allocated hs ht hne hc₀ hc₁ hk ha) (.inr (.inr hroom))
    · apply iff_of_false
      · rintro ⟨r, k', hr, -⟩
        unfold sysPipe at hr
        rw [if_neg (by decide), ha] at hr
        cases hr
      · rintro (h | h | h)
        · cases h
        · exact h f hf
        · exact hroom h

/-- The open files of eight processes that share the first `n` files -/
def holder (n : ℕ) (p : Fin 8) : Task 50 100 16 where
  ofile fd :=
    if h : 16 * p.val + fd.val < min n 100 then some ⟨16 * p.val + fd.val, by omega⟩ else none
  cwd := none

/-- The first `n` files are open, for the same inode. -/
def used (n : ℕ) : PipeTable 50 100 16 (Fin 8) where
  files :=
    { fs := ⟨fun _ _ _ => 0, fun i => if i.val = 0 then ⟨1, 1, n, false, true, .zero⟩
        else Files.unusedInode⟩
      file := fun f => if f.val < n then ⟨.inode, 1, true, false, some ⟨0, by decide⟩, 0⟩
        else ⟨.closed, 0, false, false, none, 0⟩
      task := fun p => some (holder n p)
      log := [] }
  pipe _ := none
  page _ := .alloc fun _ => 0
  free := [⟨PAGE, 256 * PAGE⟩]

theorem sound_used (n : ℕ) : (⟨(used n).free, []⟩ : Heap).Sound PAGE (256 * PAGE) :=
  sound_kinit 0

/-- With two closed files left the last process makes a pipe. -/
theorem sys_pipe_clean_used : (used 98).Clean ⟨7, by decide⟩ (holder 98 ⟨7, by decide⟩) true :=
  (sys_pipe_clean_iff (sound_used 98) rfl true).mpr
    (.inr (.inr ⟨⟨⟨98, by decide⟩, ⟨99, by decide⟩, by decide, rfl, rfl⟩, _, List.mem_cons_self,
      by decide⟩))

/-- With one closed file left it panics. -/
theorem sys_pipe_last_file : (⟨(used 99).free, []⟩ : Heap).Sound PAGE (256 * PAGE) ∧
    (used 99).sysPipe ⟨7, by decide⟩ (holder 99 ⟨7, by decide⟩) true =
      .error (.panic "fileclose") ∧
    ¬ (used 99).Clean ⟨7, by decide⟩ (holder 99 ⟨7, by decide⟩) true := by
  have hpanic : (used 99).sysPipe ⟨7, by decide⟩ (holder 99 ⟨7, by decide⟩) true =
      .error (.panic "fileclose") := rfl
  refine ⟨sound_used 99, hpanic, ?_⟩
  rintro ⟨r, k', hr, -⟩
  rw [hpanic] at hr
  cases hr

end PipeTable

end Xv6Shed
