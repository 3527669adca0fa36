import Mathlib.Data.Fintype.Prod
import Xv6Shed.Scripts

/-!
# Reference counts of open files

Between calls `ref` counts the descriptors of all processes that hold an entry. In the record of
what `filealloc` returns and of the calls that `fileclose` makes for an entry, every allocation is
followed by one call of `pipeclose` or `iput`, made by the call that clears the last of them.
-/

namespace Xv6Shed
open Function Bytes Transition

variable {NINODE NFILE NOFILE : ℕ} {P : Type}

namespace FileEvent

/-- The entry was returned by `filealloc` and not released since; the last event comes first. -/
def Alive (f : Fin NFILE) : List (FileEvent NINODE NFILE) → Prop
  | [] => False
  | .alloc g :: l => g = f ∨ Alive f l
  | .pipeclose g :: l | .iput g _ :: l => g ≠ f ∧ Alive f l

/-- `filealloc` never returns an entry that is alive, and only entries that are alive are
released. -/
def Orderly : List (FileEvent NINODE NFILE) → Prop
  | [] => True
  | .alloc f :: l => ¬ Alive f l ∧ Orderly l
  | .pipeclose f :: l | .iput f _ :: l => Alive f l ∧ Orderly l

def isAlloc (f : Fin NFILE) : FileEvent NINODE NFILE → Bool
  | .alloc g => g = f
  | .pipeclose _ | .iput _ _ => false

def isRelease (f : Fin NFILE) : FileEvent NINODE NFILE → Bool
  | .alloc _ => false
  | .pipeclose g | .iput g _ => g = f

/-- In an orderly record an entry has been released as often as it was returned, except for the last
time if it is alive. -/
theorem Orderly.countP {l : List (FileEvent NINODE NFILE)} (h : Orderly l) (f : Fin NFILE) :
    (Alive f l → l.countP (isAlloc f) = l.countP (isRelease f) + 1) ∧
      (¬ Alive f l → l.countP (isAlloc f) = l.countP (isRelease f)) := by
  induction l with
  | nil => exact ⟨False.elim, fun _ => rfl⟩
  | cons e l ih =>
    cases e with
    | alloc g =>
      obtain ⟨hdead, hl⟩ := h
      unfold Alive
      by_cases hg : g = f
      · subst hg
        simp [isAlloc, isRelease, (ih hl).2 hdead]
      · simpa [isAlloc, isRelease, hg] using ih hl
    | pipeclose g | iput g =>
      obtain ⟨halive, hl⟩ := h
      unfold Alive
      by_cases hg : g = f
      · subst hg
        simp [isAlloc, isRelease, (ih hl).1 halive]
      · simpa [isAlloc, isRelease, hg] using ih hl

end FileEvent

namespace Files

section Descriptors

variable [DecidableEq P] [Fintype P] {task task' : P → Option (Task NINODE NFILE NOFILE)} {p : P}
  {t : Task NINODE NFILE NOFILE} {fd : Fin NOFILE} {f : Fin NFILE}

/-- The entries that the descriptors of all processes hold, with repetitions -/
def descriptors (task : P → Option (Task NINODE NFILE NOFILE)) : Multiset (Fin NFILE) :=
  gather fun i : P × Fin NOFILE => (task i.1).bind fun t => t.ofile i.2

omit [DecidableEq P] in
theorem descriptors_congr
    (h : ∀ p fd, ((task' p).bind fun t => t.ofile fd) = (task p).bind fun t => t.ofile fd) :
    descriptors task' = descriptors task := by
  unfold descriptors
  congr 1
  funext i
  exact h i.1 i.2

theorem descriptors_setFd (ht : task p = some t) (fd : Fin NOFILE) (o : Option (Fin NFILE)) :
    descriptors (update task p (some (t.setFd fd o))) + pick (t.ofile fd) =
      descriptors task + pick o := by
  have h := gather_update (fun i : P × Fin NOFILE => (task i.1).bind fun t => t.ofile i.2) (p, fd) o
  have hu : (fun i : P × Fin NOFILE =>
        (update task p (some (t.setFd fd o)) i.1).bind fun t => t.ofile i.2) =
      update (fun i : P × Fin NOFILE => (task i.1).bind fun t => t.ofile i.2) (p, fd) o := by
    funext i
    obtain ⟨q, fd'⟩ := i
    by_cases hq : q = p
    · subst hq
      by_cases hfd : fd' = fd
      · simp [hfd]
      · simp [hfd, ht]
    · simp [hq]
  unfold descriptors
  rw [hu]
  dsimp only at h
  rw [ht] at h
  exact h

theorem descriptors_clear (ht : task p = some t) (hf : t.ofile fd = some f) :
    descriptors task = f ::ₘ descriptors (update task p (some (t.setFd fd none))) := by
  have h := descriptors_setFd ht fd none
  rw [hf] at h
  simp only [pick, Option.elim_some, Option.elim_none, add_zero] at h
  rw [← h, add_comm, Multiset.singleton_add]

theorem descriptors_fill (ht : task p = some t) (hf : t.ofile fd = none) (f : Fin NFILE) :
    descriptors (update task p (some (t.setFd fd (some f)))) = f ::ₘ descriptors task := by
  have h := descriptors_setFd ht fd (some f)
  rw [hf] at h
  simp only [pick, Option.elim_some, Option.elim_none, add_zero] at h
  rw [h, add_comm, Multiset.singleton_add]

theorem argfd_eq {fd : ℤ} {fd' : Fin NOFILE} (h : t.argfd fd = some (fd', f)) :
    t.ofile fd' = some f := by
  unfold Task.argfd at h
  split_ifs at h with hfd
  obtain ⟨g, hg, he⟩ := Option.map_eq_some_iff.mp h
  cases he
  exact hg

end Descriptors

/-- `H` are the references to entries of the table, with repetitions. -/
structure Counted (k : Files NINODE NFILE NOFILE P) (H : Multiset (Fin NFILE)) : Prop where
  ref : ∀ f, (k.file f).ref = H.count f
  closed : ∀ f, (k.file f).type = .closed ↔ f ∉ H
  alive : ∀ f, FileEvent.Alive f k.log ↔ f ∈ H
  orderly : FileEvent.Orderly k.log

namespace Counted

variable {k k' : Files NINODE NFILE NOFILE P} {H : Multiset (Fin NFILE)} {f : Fin NFILE}
  {x : File NINODE}

section

variable (h : Counted k H)
include h

/-- Stores that change no count and open or close no entry -/
theorem store (hlog : k'.log = k.log) (hf : ∀ f, (k'.file f).ref = (k.file f).ref ∧
      ((k'.file f).type = .closed ↔ (k.file f).type = .closed)) : Counted k' H where
  ref f := (hf f).1.trans (h.ref f)
  closed f := (hf f).2.trans (h.closed f)
  alive f := by
    rw [hlog]
    exact h.alive f
  orderly := by
    rw [hlog]
    exact h.orderly

theorem setFile (hr : x.ref = (k.file f).ref) (hx : x.type ≠ .closed)
    (ho : (k.file f).type ≠ .closed) : Counted (k.setFile f x) H := by
  refine h.store rfl fun g => ?_
  by_cases hg : g = f
  · subst hg
    simp [hr, hx, ho]
  · simp [hg]

theorem setTask [DecidableEq P] (p : P) (t : Option (Task NINODE NFILE NOFILE)) :
    Counted (k.setTask p t) H := h.store rfl fun _ => ⟨rfl, Iff.rfl⟩

/-- Entry `f` is stored to, and only the references to `f` and its events change. -/
theorem setEntry {H' : Multiset (Fin NFILE)} (hH : ∀ g, g ≠ f → H'.count g = H.count g)
    (hfile : k'.file = update k.file f x) (href : x.ref = H'.count f)
    (hclosed : x.type = .closed ↔ f ∉ H') (halive : FileEvent.Alive f k'.log ↔ f ∈ H')
    (hlog : ∀ g, g ≠ f → (FileEvent.Alive g k'.log ↔ FileEvent.Alive g k.log))
    (horderly : FileEvent.Orderly k'.log) : Counted k' H' := by
  have hmem : ∀ g, g ≠ f → (g ∈ H' ↔ g ∈ H) := by
    intro g hg
    rw [← Multiset.count_pos, hH g hg, Multiset.count_pos]
  refine ⟨fun g => ?_, fun g => ?_, fun g => ?_, horderly⟩ <;> by_cases hg : g = f
  · simpa [hfile, hg] using href
  · simpa [hfile, hg, hH g hg] using h.ref g
  · simpa [hfile, hg] using hclosed
  · simpa [hfile, hg, hmem g hg] using h.closed g
  · exact hg ▸ halive
  · rw [hlog g hg, hmem g hg]
    exact h.alive g

theorem filealloc (ha : k.filealloc = some (f, k')) :
    Counted k' (f ::ₘ H) ∧ (k'.file f).type = .none ∧ k'.task = k.task := by
  obtain ⟨hclosed, rfl⟩ := Files.filealloc_eq ha
  have hf : f ∉ H := (h.closed f).mp hclosed
  refine ⟨h.setEntry (fun g hg => Multiset.count_cons_of_ne hg H) rfl ?_ (by simp)
    (by simp [FileEvent.Alive]) (fun g hg => ?_) ⟨fun ha => hf ((h.alive f).mp ha), h.orderly⟩,
    by simp, rfl⟩
  · simp [Multiset.count_eq_zero_of_notMem hf]
  · exact or_iff_right (Ne.symm hg)

theorem ne_closed (hf : f ∈ H) : (k.file f).type ≠ .closed :=
  fun hc => (h.closed f).mp hc hf

theorem filedup (hd : k.filedup f = .ok k') : Counted k' (f ::ₘ H) ∧ k'.task = k.task := by
  unfold Files.filedup at hd
  dsimp only at hd
  split_ifs at hd with hbad
  cases hd
  have hopen : (k.file f).type ≠ .closed := (not_or.mp hbad).2
  have hf : f ∈ H := by
    by_contra hf
    exact hopen ((h.closed f).mpr hf)
  refine ⟨h.setEntry (fun g hg => Multiset.count_cons_of_ne hg H) rfl ?_ (by simp [hopen])
    (by simp [h.alive, hf]) (fun _ _ => Iff.rfl) h.orderly, rfl⟩
  simp [h.ref f]

end

/-- `fileclose` drops a reference; with the last one it calls `pipeclose` or `iput`. -/
theorem fileclose (h : Counted k (f ::ₘ H)) (hc : k.fileclose f = .ok k') :
    Counted k' H ∧ k'.task = k.task := by
  have hcount := h.ref f
  rw [Multiset.count_cons_self] at hcount
  have hH : ∀ g, g ≠ f → H.count g = (f ::ₘ H).count g := fun g hg =>
    (Multiset.count_cons_of_ne hg H).symm
  unfold Files.fileclose at hc
  dsimp only at hc
  split_ifs at hc with hbad hlast
  · -- other references remain
    cases hc
    have hf : f ∈ H := Multiset.count_pos.mp (by omega)
    refine ⟨h.setEntry hH rfl ?_ (by simp [hf, (not_or.mp hbad).2]) (by simp [h.alive, hf])
      (fun _ _ => Iff.rfl) h.orderly, rfl⟩
    simp [hcount]
  · -- the last reference: the entry is closed, and what was in it is released
    have hf : f ∉ H := Multiset.count_eq_zero.mp (by omega)
    have hrelease : ∀ {k' : Files NINODE NFILE NOFILE P} {e : FileEvent NINODE NFILE},
        e = .pipeclose f ∨ (∃ ip, e = .iput f ip) → k'.log = e :: k.log →
        k'.file = update k.file f { k.file f with ref := 0, type := .closed } → Counted k' H := by
      rintro k' e he hlog hfile
      refine h.setEntry hH hfile ?_ (by simp [hf]) ?_ (fun g hg => ?_) ?_
      · simp [Multiset.count_eq_zero_of_notMem hf]
      · rw [hlog]
        obtain rfl | ⟨ip, rfl⟩ := he <;> simp [FileEvent.Alive, hf]
      · rw [hlog]
        obtain rfl | ⟨ip, rfl⟩ := he <;> exact and_iff_right (Ne.symm hg)
      · rw [hlog]
        have halive := (h.alive f).mpr (Multiset.mem_cons_self f H)
        obtain rfl | ⟨ip, rfl⟩ := he <;> exact ⟨halive, h.orderly⟩
    split at hc
    · cases hc
      exact ⟨hrelease (.inl rfl) rfl rfl, rfl⟩
    · obtain ⟨ip, -, hc⟩ := bind_eq_ok.mp hc
      obtain ⟨fs, -, hc⟩ := bind_eq_ok.mp hc
      cases hc
      exact ⟨hrelease (.inr ⟨ip, rfl⟩) rfl rfl, rfl⟩
    · cases hc

end Counted

/-- No descriptor changes, and no count or type of an entry. -/
structure Quiet (k k' : Files NINODE NFILE NOFILE P) : Prop where
  file : ∀ f, (k'.file f).ref = (k.file f).ref ∧ (k'.file f).type = (k.file f).type
  slot : ∀ p fd, ((k'.task p).bind fun t => t.ofile fd) = (k.task p).bind fun t => t.ofile fd
  log : k'.log = k.log

namespace Quiet

variable {Q : Type} {k files : Files NINODE NFILE NOFILE Q} {r driver : ℤ} {f : Fin NFILE} {n : ℕ}

theorem refl (k : Files NINODE NFILE NOFILE Q) : Quiet k k :=
  ⟨fun _ => ⟨rfl, rfl⟩, fun _ _ => rfl, rfl⟩

theorem trans {k₁ : Files NINODE NFILE NOFILE Q} (h : Quiet k k₁) (h₁ : Quiet k₁ files) :
    Quiet k files where
  file f := ⟨(h₁.file f).1.trans (h.file f).1, (h₁.file f).2.trans (h.file f).2⟩
  slot p fd := (h₁.slot p fd).trans (h.slot p fd)
  log := h₁.log.trans h.log

theorem setFs (fs : Fs NINODE) (k : Files NINODE NFILE NOFILE Q) : Quiet k (k.setFs fs) :=
  ⟨fun _ => ⟨rfl, rfl⟩, fun _ _ => rfl, rfl⟩

theorem setTask [DecidableEq Q] {p : Q} {o : Option (Task NINODE NFILE NOFILE)}
    (h : ∀ fd, (o.bind fun t => t.ofile fd) = (k.task p).bind fun t => t.ofile fd) :
    Quiet k (k.setTask p o) := by
  refine ⟨fun _ => ⟨rfl, rfl⟩, fun q fd => ?_, rfl⟩
  by_cases hq : q = p
  · subst hq
    simpa using h fd
  · simp [hq]

theorem advance (f : Fin NFILE) (n : ℤ) (k : Files NINODE NFILE NOFILE Q) :
    Quiet k (k.advance f n) := by
  unfold Files.advance
  split_ifs
  · refine ⟨fun g => ?_, fun _ _ => rfl, rfl⟩
    by_cases hg : g = f
    · simp [hg]
    · simp [hg]
  · exact refl k

theorem fileread {x : ℤ × Buffer} (h : k.fileread driver f n = .ok (x, files)) : Quiet k files := by
  unfold Files.fileread at h
  dsimp only at h
  split_ifs at h
  · cases h
    exact refl k
  split at h
  · cases h
    exact refl k
  · obtain ⟨ip, -, h⟩ := bind_eq_ok.mp h
    obtain ⟨s, -, h⟩ := bind_eq_ok.mp h
    obtain ⟨⟨n', dst⟩, -, h⟩ := bind_eq_ok.mp h
    obtain ⟨s', -, h⟩ := bind_eq_ok.mp h
    cases h
    exact (setFs s' k).trans (advance f _ _)
  · cases h

theorem filewrite {src : Buffer} (h : k.filewrite driver f src n = .ok (r, files)) :
    Quiet k files := by
  unfold Files.filewrite at h
  dsimp only at h
  split_ifs at h
  · cases h
    exact refl k
  split at h
  · cases h
    exact refl k
  · obtain ⟨ip, -, h⟩ := bind_eq_ok.mp h
    obtain ⟨s, -, h⟩ := bind_eq_ok.mp h
    obtain ⟨⟨n', s₁⟩, -, h⟩ := bind_eq_ok.mp h
    obtain ⟨s', -, h⟩ := bind_eq_ok.mp h
    cases h
    exact (setFs s' k).trans (advance f _ _)
  · cases h

theorem filestat {x : ℤ × Option Stat} (h : k.filestat f = .ok (x, files)) : Quiet k files := by
  unfold Files.filestat at h
  split_ifs at h
  · obtain ⟨ip, -, h⟩ := bind_eq_ok.mp h
    obtain ⟨s, -, h⟩ := bind_eq_ok.mp h
    obtain ⟨s', -, h⟩ := bind_eq_ok.mp h
    cases h
    exact setFs s' k
  · cases h
    exact refl k

end Quiet

variable [DecidableEq P] [Fintype P] {k k' : Files NINODE NFILE NOFILE P} {p q : P}
  {t : Task NINODE NFILE NOFILE}
  {r fd : ℤ} {files : Files NINODE NFILE NOFILE P} {page : Bool} {c : FileCall P}

def Balanced (k : Files NINODE NFILE NOFILE P) : Prop := Counted k (descriptors k.task)

omit [DecidableEq P] in
theorem Balanced.quiet (h : k.Balanced) (hq : Quiet k files) : files.Balanced := by
  unfold Balanced
  rw [descriptors_congr hq.slot]
  apply Counted.store h hq.log
  intro f
  rw [(hq.file f).1, (hq.file f).2]
  exact ⟨rfl, Iff.rfl⟩

theorem Balanced.sysClose (h : k.Balanced) (ht : k.task p = some t)
    (hc : k.sysClose p t fd = .ok (r, k')) : k'.Balanced := by
  unfold Files.sysClose at hc
  rcases hfd : t.argfd fd with _ | ⟨fd', f⟩
  · rw [hfd] at hc
    cases hc
    exact h
  rw [hfd] at hc
  obtain ⟨k₁, h₁, hk⟩ := bind_eq_ok.mp hc
  cases hk
  have hcount : Counted (k.setTask p (some (t.setFd fd' none)))
      (f ::ₘ descriptors (update k.task p (some (t.setFd fd' none)))) := by
    rw [← descriptors_clear ht (argfd_eq hfd)]
    exact Counted.setTask h p _
  obtain ⟨hk', htask⟩ := hcount.fileclose h₁
  unfold Balanced
  rw [htask]
  exact hk'

theorem Balanced.sysDup (h : k.Balanced) (ht : k.task p = some t)
    (hd : k.sysDup p t fd = .ok (r, files)) : files.Balanced := by
  unfold Files.sysDup at hd
  rcases hfd : t.argfd fd with _ | ⟨fd', f⟩
  · rw [hfd] at hd
    cases hd
    exact h
  rw [hfd] at hd
  dsimp only at hd
  rcases ha : t.fdalloc f with _ | ⟨fd₁, t₁⟩
  · rw [ha] at hd
    cases hd
    exact h
  rw [ha] at hd
  obtain ⟨files₁, h₁, hd⟩ := bind_eq_ok.mp hd
  cases hd
  obtain ⟨hnone, rfl⟩ := Task.fdalloc_eq ha
  have hcount := Counted.setTask h p (some (t.setFd fd₁ (some f)))
  obtain ⟨hk', htask⟩ := hcount.filedup h₁
  unfold Balanced
  rw [htask]
  change Counted _ (descriptors (update k.task p (some (t.setFd fd₁ (some f)))))
  rw [descriptors_fill ht hnone]
  exact hk'

theorem Balanced.sysOpen (h : k.Balanced) (ht : k.task p = some t) {path : List UInt8}
    {omode : UInt32} (ho : k.sysOpen p t path omode = .ok (r, k')) : k'.Balanced := by
  obtain ⟨⟨o, s⟩, -, ho⟩ := bind_eq_ok.mp ho
  cases o with
  | none =>
    cases ho
    exact h.quiet (.setFs s _)
  | some ip =>
    dsimp only at ho
    have h₀ : (k.setFs s).Balanced := h.quiet (.setFs s _)
    rcases ha : (k.setFs s).filealloc with _ | ⟨f, k₁⟩
    · rw [ha] at ho
      obtain ⟨s₁, -, ho⟩ := bind_eq_ok.mp ho
      cases ho
      exact h.quiet (.setFs s₁ _)
    rw [ha] at ho
    dsimp only at ho
    obtain ⟨h₁, htype, htask⟩ := Counted.filealloc h₀ ha
    rcases hfd : t.fdalloc f with _ | ⟨fd, t₁⟩
    · -- `fileclose` does not return here, but nothing depends on it
      rw [hfd] at ho
      obtain ⟨k₂, h₂, ho⟩ := bind_eq_ok.mp ho
      obtain ⟨s₂, -, ho⟩ := bind_eq_ok.mp ho
      cases ho
      obtain ⟨hk₂, htask₂⟩ := h₁.fileclose h₂
      have hb : k₂.Balanced := by
        unfold Balanced
        rw [htask₂, htask]
        exact hk₂
      exact hb.quiet (.setFs s₂ _)
    · rw [hfd] at ho
      obtain ⟨s₂, -, ho⟩ := bind_eq_ok.mp ho
      cases ho
      obtain ⟨hnone, rfl⟩ := Task.fdalloc_eq hfd
      have hd : descriptors (update k₁.task p (some (t.setFd fd (some f)))) =
          f ::ₘ descriptors k.task := by
        rw [htask]
        exact descriptors_fill ht hnone f
      unfold Balanced
      change Counted _ (descriptors (update k₁.task p (some (t.setFd fd (some f)))))
      rw [hd]
      refine Counted.store h₁ rfl fun g => ?_
      by_cases hg : g = f
      · subst hg
        simp [htype]
      · simp [hg]

omit [Fintype P] [DecidableEq P] in
theorem Counted.pipealloc {H : Multiset (Fin NFILE)} (h : Counted k H)
    {o : Option (Fin NFILE × Fin NFILE)} (hp : k.pipealloc page = .ok (o, k')) :
    k'.task = k.task ∧ (o = none → Counted k' H) ∧
      ∀ f0 f1, o = some (f0, f1) → Counted k' (f0 ::ₘ f1 ::ₘ H) := by
  unfold Files.pipealloc at hp
  rcases h₀ : k.filealloc with _ | ⟨f0, k₀⟩
  · rw [h₀] at hp
    cases hp
    exact ⟨rfl, fun _ => h, fun _ _ he => by cases he⟩
  rw [h₀] at hp
  dsimp only at hp
  obtain ⟨hk₀, -, ht₀⟩ := h.filealloc h₀
  rcases h₁ : k₀.filealloc with _ | ⟨f1, k₁⟩
  · rw [h₁] at hp
    obtain ⟨k₂, h₂, hp⟩ := bind_eq_ok.mp hp
    cases hp
    obtain ⟨hk₂, ht₂⟩ := (hk₀.setFile (f := f0) (x := { k₀.file f0 with type := .none }) rfl
      (by simp) (hk₀.ne_closed (Multiset.mem_cons_self f0 H))).fileclose h₂
    exact ⟨ht₂.trans ht₀, fun _ => hk₂, fun _ _ he => by cases he⟩
  rw [h₁] at hp
  dsimp only at hp
  obtain ⟨hk₁, -, ht₁⟩ := hk₀.filealloc h₁
  rw [Multiset.cons_swap] at hk₁
  have hf0 : f0 ∈ f0 ::ₘ f1 ::ₘ H := Multiset.mem_cons_self _ _
  have hf1 : f1 ∈ f0 ::ₘ f1 ::ₘ H := Multiset.mem_cons_of_mem (Multiset.mem_cons_self _ _)
  split_ifs at hp
  · cases hp
    have hk₂ := hk₁.setFile (f := f0) (x := { k₁.file f0 with
      type := .pipe, readable := true, writable := false }) rfl (by simp) (hk₁.ne_closed hf0)
    refine ⟨ht₁.trans ht₀, (fun he => by cases he), fun g0 g1 he => ?_⟩
    cases he
    exact hk₂.setFile rfl (by simp) (hk₂.ne_closed hf1)
  · obtain ⟨k₂, h₂, hp⟩ := bind_eq_ok.mp hp
    obtain ⟨k₃, h₃, hp⟩ := bind_eq_ok.mp hp
    cases hp
    obtain ⟨hk₂, ht₂⟩ := (hk₁.setFile (f := f0) (x := { k₁.file f0 with type := .none }) rfl
      (by simp) (hk₁.ne_closed hf0)).fileclose h₂
    obtain ⟨hk₃, ht₃⟩ := (hk₂.setFile (f := f1) (x := { k₂.file f1 with type := .none }) rfl
      (by simp) (hk₂.ne_closed (Multiset.mem_cons_self f1 H))).fileclose h₃
    exact ⟨((ht₃.trans ht₂).trans ht₁).trans ht₀, fun _ => hk₃, fun _ _ he => by cases he⟩

theorem Balanced.sysPipe (h : k.Balanced) (ht : k.task p = some t)
    (hp : k.sysPipe p t page = .ok (r, k')) : k'.Balanced := by
  obtain ⟨⟨o, k₁⟩, h₁, hp⟩ := bind_eq_ok.mp hp
  obtain ⟨ht₁, hnone, hsome⟩ := Counted.pipealloc h h₁
  rcases o with _ | ⟨rf, wf⟩
  · cases hp
    unfold Balanced
    rw [ht₁]
    exact hnone rfl
  have hk₁ := hsome rf wf rfl
  dsimp only at hp
  rcases hrf : t.fdalloc rf with _ | ⟨fd0, t₀⟩
  · rw [hrf] at hp
    obtain ⟨k₂, h₂, hp⟩ := bind_eq_ok.mp hp
    obtain ⟨k₃, h₃, hp⟩ := bind_eq_ok.mp hp
    cases hp
    obtain ⟨hk₂, ht₂⟩ := hk₁.fileclose h₂
    obtain ⟨hk₃, ht₃⟩ := hk₂.fileclose h₃
    unfold Balanced
    rw [ht₃, ht₂, ht₁]
    exact hk₃
  rw [hrf] at hp
  dsimp only at hp
  obtain ⟨hnone₀, rfl⟩ := Task.fdalloc_eq hrf
  rcases hwf : (t.setFd fd0 (some rf)).fdalloc wf with _ | ⟨fd1, t₁⟩
  · -- the descriptor of the read end is cleared again
    rw [hwf] at hp
    obtain ⟨k₂, h₂, hp⟩ := bind_eq_ok.mp hp
    obtain ⟨k₃, h₃, hp⟩ := bind_eq_ok.mp hp
    cases hp
    have hback : (t.setFd fd0 (some rf)).setFd fd0 none = t := by
      unfold Task.setFd
      rw [update_idem, ← hnone₀, update_eq_self]
    have hstore : k₁.setTask p (some ((t.setFd fd0 (some rf)).setFd fd0 none)) = k₁ := by
      rw [hback, ← ht, ← ht₁]
      simp [Files.setTask]
    rw [hstore] at h₂
    obtain ⟨hk₂, ht₂⟩ := hk₁.fileclose h₂
    obtain ⟨hk₃, ht₃⟩ := hk₂.fileclose h₃
    unfold Balanced
    rw [ht₃, ht₂, ht₁]
    exact hk₃
  · rw [hwf] at hp
    cases hp
    obtain ⟨hnone₁, rfl⟩ := Task.fdalloc_eq hwf
    have hfill : descriptors (update k.task p
        (some ((t.setFd fd0 (some rf)).setFd fd1 (some wf)))) =
        rf ::ₘ wf ::ₘ descriptors k.task := by
      have h₁ := descriptors_fill ht hnone₀ rf
      have hp : update k.task p (some (t.setFd fd0 (some rf))) p =
        some (t.setFd fd0 (some rf)) := update_self ..
      have h₂ := descriptors_fill hp hnone₁ wf
      rw [update_idem, h₁, Multiset.cons_swap] at h₂
      exact h₂
    unfold Balanced
    change Counted _ (descriptors (update k₁.task p _))
    rw [ht₁, hfill]
    exact hk₁.setTask p _

theorem Balanced.exitFd (h : k.Balanced) (ht : k.task p = some t) {fd : Fin NOFILE}
    (he : Files.exitFd p k fd = .ok k') :
    k'.Balanced ∧ ∃ t', k'.task p = some t' ∧ t'.ofile fd = none ∧
      ∀ fd', t.ofile fd' = none → t'.ofile fd' = none := by
  unfold Files.exitFd at he
  rw [ht] at he
  rcases hf : t.ofile fd with _ | f
  · simp only [deref, ok_bind, hf] at he
    cases he
    exact ⟨h, t, ht, hf, fun _ => id⟩
  simp only [deref, ok_bind, hf] at he
  obtain ⟨k₁, h₁, hk⟩ := bind_eq_ok.mp he
  cases hk
  unfold Balanced at h
  rw [descriptors_clear ht hf] at h
  obtain ⟨hk₁, ht₁⟩ := h.fileclose h₁
  refine ⟨?_, t.setFd fd none, update_self .., update_self .., fun fd' hfd' => ?_⟩
  · unfold Balanced
    change Counted _ (descriptors (update k₁.task p _))
    rw [ht₁]
    exact hk₁.setTask p _
  · by_cases hne : fd' = fd
    · simp [hne]
    · simp [hne, hfd']

theorem Balanced.exitLoop (l : List (Fin NOFILE)) (h : k.Balanced) (ht : k.task p = some t)
    (he : l.foldlM (Files.exitFd p) k = .ok k') :
    k'.Balanced ∧ ∃ t', k'.task p = some t' ∧
      ∀ fd, fd ∈ l ∨ t.ofile fd = none → t'.ofile fd = none := by
  induction l generalizing k t with
  | nil =>
    cases he
    exact ⟨h, t, ht, fun fd hfd => hfd.resolve_left List.not_mem_nil⟩
  | cons fd l ih =>
    rw [List.foldlM_cons] at he
    obtain ⟨k₁, h₁, he⟩ := bind_eq_ok.mp he
    obtain ⟨hk₁, t₁, ht₁, hfd, hkeep⟩ := h.exitFd ht h₁
    obtain ⟨hk', t', ht', hnone⟩ := ih hk₁ ht₁ he
    refine ⟨hk', t', ht', fun fd' hor => hnone fd' ?_⟩
    rcases hor with hmem | hempty
    · rcases List.mem_cons.mp hmem with rfl | hl
      · exact .inr hfd
      · exact .inl hl
    · exact .inr (hkeep fd' hempty)

theorem Balanced.exit (h : k.Balanced) (ht : k.task p = some t)
    (he : k.exit p = .ok (r, k')) : k'.Balanced := by
  obtain ⟨k₁, h₁, he⟩ := bind_eq_ok.mp he
  obtain ⟨hk₁, t₁, ht₁, hnone⟩ := Balanced.exitLoop _ h ht h₁
  obtain ⟨t', -, he⟩ := bind_eq_ok.mp he
  obtain ⟨cwd, -, he⟩ := bind_eq_ok.mp he
  obtain ⟨fs, -, he⟩ := bind_eq_ok.mp he
  cases he
  refine hk₁.quiet ((Quiet.setFs fs _).trans (.setTask fun fd => ?_))
  simp [ht₁, hnone fd (.inl (List.mem_finRange fd))]

theorem Balanced.forkLoop (l : List (Fin NOFILE)) (hl : l.Nodup) (h : k.Balanced)
    {np : Task NINODE NFILE NOFILE} (hq : k.task q = some np)
    (hnp : ∀ fd ∈ l, np.ofile fd = none) (hf : l.foldlM (Files.forkFd q t) k = .ok files) :
    files.Balanced := by
  induction l generalizing k np with
  | nil =>
    cases hf
    exact h
  | cons fd l ih =>
    rw [List.foldlM_cons] at hf
    obtain ⟨files₁, h₁, hf⟩ := bind_eq_ok.mp hf
    obtain ⟨hfd, hl⟩ := List.nodup_cons.mp hl
    have hnp' := fun fd' hfd' => hnp fd' (List.mem_cons_of_mem fd hfd')
    unfold Files.forkFd at h₁
    rcases hslot : t.ofile fd with _ | f
    · rw [hslot] at h₁
      cases h₁
      exact ih hl h hq hnp' hf
    rw [hslot, hq] at h₁
    simp only [deref, ok_bind] at h₁
    -- the slot is set before the count is raised
    have hk₀ := Counted.setTask h q (some (np.setFd fd (some f)))
    obtain ⟨hk₁, ht₁⟩ := hk₀.filedup h₁
    have hbal : (files₁).Balanced := by
      unfold Balanced
      rw [ht₁]
      change Counted _ (descriptors (update k.task q _))
      rw [descriptors_fill hq (hnp fd List.mem_cons_self)]
      exact hk₁
    have hq₁ : files₁.task q = some (np.setFd fd (some f)) := by
      rw [ht₁]
      exact update_self ..
    refine ih (k := files₁) hl hbal hq₁ (fun fd' hfd' => ?_) hf
    have hne : fd' ≠ fd := fun he => hfd (he ▸ hfd')
    simp [hne, hnp' fd' hfd']

theorem Balanced.fork (h : k.Balanced) {pid : ℤ} (hf : k.fork q pid t = .ok (r, files)) :
    files.Balanced := by
  unfold Files.fork at hf
  split_ifs at hf with hused
  · cases hf
    exact h
  have hnone : k.task q = none := by simpa using hused
  obtain ⟨files₁, h₁, hf⟩ := bind_eq_ok.mp hf
  obtain ⟨np, hnp, hf⟩ := bind_eq_ok.mp hf
  obtain ⟨cwd, -, hf⟩ := bind_eq_ok.mp hf
  cases hf
  have hstart : (k.setTask q (some ⟨fun _ => none, none⟩)).Balanced :=
    h.quiet (.setTask fun fd => by simp [hnone])
  have hloop := Balanced.forkLoop _ (List.nodup_finRange NOFILE) hstart (update_self ..)
    (fun _ _ => rfl) h₁
  refine hloop.quiet ((Quiet.setFs _ _).trans (.setTask fun fd => ?_))
  simp [deref_eq_ok.mp hnp]

omit [Fintype P] in
theorem Quiet.start {k : Files NINODE NFILE NOFILE P} (h : k.start p = .ok (r, files)) :
    Quiet k files := by
  unfold Files.start at h
  split_ifs at h with hused
  · cases h
    exact .refl _
  obtain ⟨⟨ip, s⟩, -, h⟩ := bind_eq_ok.mp h
  cases h
  have hnone : k.task p = none := by simpa using hused
  exact (setFs s k).trans (.setTask fun fd => by simp [hnone])

/-- A call keeps the counts. -/
theorem Balanced.exec (h : k.Balanced) (he : k.exec p c = .ok (r, files)) : files.Balanced := by
  unfold Files.exec at he
  rcases ht : k.task p with _ | t
  · rw [ht] at he
    dsimp only at he
    split at he
    · exact h.quiet (.start he)
    · cases he
  rw [ht] at he
  -- a call that touches inodes only
  have hlift : ∀ {x : Except Fault (ℤ × Fs NINODE)},
      (x >>= fun y => pure (y.1, k.setFs y.2)) = .ok (r, files) →
      files.Balanced := by
    intro x hx
    obtain ⟨y, -, hx⟩ := bind_eq_ok.mp hx
    cases hx
    exact h.quiet (.setFs y.2 k)
  unfold Files.call at he
  cases c with
  | start =>
    cases he
    exact h
  | openFile path omode => exact h.sysOpen ht he
  | read fd n driver =>
    dsimp only at he
    split at he
    · cases he
      exact h
    · obtain ⟨⟨⟨r₁, dst⟩, files₁⟩, h₁, he⟩ := bind_eq_ok.mp he
      cases he
      exact h.quiet (.fileread h₁)
  | write fd src n driver =>
    dsimp only at he
    split at he
    · cases he
      exact h
    · exact h.quiet (.filewrite he)
  | dup fd => exact h.sysDup ht he
  | close fd => exact h.sysClose ht he
  | fstat fd =>
    dsimp only at he
    split at he
    · cases he
      exact h
    · obtain ⟨⟨⟨r₁, st⟩, files₁⟩, h₁, he⟩ := bind_eq_ok.mp he
      cases he
      exact h.quiet (.filestat h₁)
  | link old new => exact hlift he
  | unlink path => exact hlift he
  | mkdir path => exact hlift he
  | mknod path major minor => exact hlift he
  | chdir path =>
    obtain ⟨⟨o, s⟩, -, he⟩ := bind_eq_ok.mp he
    cases o with
    | none =>
      cases he
      exact h.quiet (.setFs s k)
    | some ip =>
      cases he
      exact h.quiet ((Quiet.setFs s _).trans (.setTask fun fd => by simp [ht]))
  | exec path n => exact hlift he
  | pipe page => exact h.sysPipe ht he
  | fork q pid => exact h.fork he
  | exit => exact h.exit ht he

/-- The descriptors of all processes that hold an entry -/
def slots (k : Files NINODE NFILE NOFILE P) (f : Fin NFILE) : Finset (P × Fin NOFILE) :=
  Finset.univ.filter fun i => ((k.task i.1).bind fun t => t.ofile i.2) = some f

omit [DecidableEq P] in
theorem balanced_boot (disk : ℕ → Disk) : (boot disk : Files NINODE NFILE NOFILE P).Balanced := by
  have hnone : ∀ f, f ∉ descriptors (boot disk : Files NINODE NFILE NOFILE P).task := by
    intro f hf
    obtain ⟨i, hi⟩ := mem_gather.mp hf
    cases hi
  refine ⟨fun f => ?_, fun f => ⟨fun _ => hnone f, fun _ => rfl⟩, fun f => ?_, trivial⟩
  · rw [Multiset.count_eq_zero_of_notMem (hnone f)]
    rfl
  · exact ⟨False.elim, fun hf => absurd hf (hnone f)⟩

omit [DecidableEq P] in
theorem card_slots (k : Files NINODE NFILE NOFILE P) (f : Fin NFILE) :
    (k.slots f).card = (descriptors k.task).count f := (count_gather _ f).symm

/-- At the end of every call `ref` counts the descriptors that hold the entry, and it is closed
if there is none. Only then may `filealloc` return it again, and for each time it was returned
`fileclose` has called `pipeclose` or `iput` once, except for the last time while a descriptor holds
it. -/
theorem file_refs_of_reach {disk : ℕ → Disk} {k : Files NINODE NFILE NOFILE P}
    (h : Reach Step (boot disk) k) :
    FileEvent.Orderly k.log ∧ ∀ f,
      (k.file f).ref = (k.slots f).card ∧
      ((k.file f).type = .closed ↔ (k.slots f).card = 0) ∧
      (FileEvent.Alive f k.log ↔ (k.slots f).card ≠ 0) ∧
      k.log.countP (FileEvent.isAlloc f) =
        k.log.countP (FileEvent.isRelease f) + if (k.slots f).card = 0 then 0 else 1 := by
  have hk : k.Balanced := h.invariant (balanced_boot disk) fun _ _ _ hs he => hs.exec he.choose_spec
  refine ⟨hk.orderly, fun f => ?_⟩
  have hmem : f ∈ descriptors k.task ↔ (k.slots f).card ≠ 0 := by
    rw [card_slots, Multiset.count_ne_zero]
  have halive := (hk.alive f).trans hmem
  refine ⟨?_, (hk.closed f).trans (by rw [hmem, not_not]), halive, ?_⟩
  · rw [card_slots]
    exact hk.ref f
  · split_ifs with hcard
    · exact (hk.orderly.countP f).2 fun ha => halive.mp ha hcard
    · exact (hk.orderly.countP f).1 (halive.mpr hcard)

/-- Process `false` opens and closes the root, makes a pipe, duplicates its read end, forks `true`
and exits. -/
def pipeline : List (Bool × FileCall Bool) :=
  [(false, .start), (false, .openFile [47] 0), (false, .close 0), (false, .pipe true),
    (false, .dup 0), (false, .fork true 2), (true, .close 1), (false, .exit)]

/-- Two descriptors are left on the read end; the root and the write end were released. -/
theorem file_refs_of_reach_pipeline : ∃ k : Files 1 2 3 Bool,
    Reach Step (boot fun _ => smallDisk rootDir) k ∧ (k.slots 0).card = 2 ∧ (k.file 0).ref = 2 ∧
      k.log = [.pipeclose 1, .alloc 1, .alloc 0, .iput 0 0, .alloc 0] ∧
      (k.file 1).type = .closed := by
  obtain ⟨k, hr, h₀, h₁, hlog⟩ : ∃ k : Files 1 2 3 Bool,
      Reach Step (boot fun _ => smallDisk rootDir) k ∧
      (k.slots 0).card = 2 ∧ (k.slots 1).card = 0 ∧
      k.log = [.pipeclose 1, .alloc 1, .alloc 0, .iput 0 0, .alloc 0] :=
    exists_reach_of_script (fun _ _ => true) (fun _ _ _ _ hs => hs) [] pipeline (by decide +kernel)
  obtain ⟨-, hrefs⟩ := file_refs_of_reach hr
  exact ⟨k, hr, h₀, (hrefs 0).1.trans (by rw [h₀]; rfl), hlog, (hrefs 1).2.1.mpr h₁⟩

end Files

end Xv6Shed
