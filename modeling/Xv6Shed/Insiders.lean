import Xv6Shed.Coherence

/-!
# Who is inside an inode

A process is inside an inode from the section of `ilock` that sets `I_BUSY` to its `iunlock`, and
in `iput` while that frees the inode; `inside` says so and is not in the kernel. The calls are
those of the inode cache, but any process with a reference may make them: it may unlock what
another one has locked, and put what it has locked itself.
-/

namespace Xv6Shed
open Function Transition

variable {T : Type} {NINODE : ℕ}

/-- `iput` panics: the inode is to be freed and is busy. -/
def Icache.IputBusy (s : Icache T NINODE) (ip : Fin NINODE) : Prop :=
  (s.fs.icache ip).ref = 1 ∧ (s.fs.icache ip).valid = true ∧ (s.fs.icache ip).d.nlink = 0 ∧
    (s.fs.icache ip).busy = true

instance (s : Icache T NINODE) (ip : Fin NINODE) : Decidable (s.IputBusy ip) :=
  inferInstanceAs (Decidable (_ ∧ _))

structure Insiders (T : Type) (NINODE : ℕ) where
  cache : Icache T NINODE
  inside : T → Fin NINODE → Bool

namespace Insiders

def start (disk : ℕ → Disk) : Insiders T NINODE := ⟨.start disk, fun _ _ => false⟩

variable [DecidableEq T]

/-- One step, by a process with a reference to the inode -/
def call (s : Icache T NINODE) : ILabel T NINODE → Option (Icache T NINODE)
  | .iunlock t ip =>
    if s.pc t = .idle ∧ t ∈ s.refs ip ∧ (s.fs.icache ip).busy = true then some (s.clearBusy ip)
    else none
  | .iput t ip => if s.pc t = .idle ∧ t ∈ s.refs ip then s.iput t ip else none
  | a => s.step a

/-- Who comes to be inside an inode, or is so no longer -/
def passes (s : Icache T NINODE) : ILabel T NINODE → Option (T × Fin NINODE × Bool)
  | .iunlock t ip => some (t, ip, false)
  | .iput t ip =>
    let x := s.fs.icache ip
    if x.ref = 1 ∧ x.valid = true ∧ x.d.nlink = 0 then some (t, ip, true) else none
  | .run t =>
    match s.pc t with
    | .lock ip _ => some (t, ip, true)
    | .put ip => some (t, ip, false)
    | _ => none
  | _ => none

def mark (inside : T → Fin NINODE → Bool) : Option (T × Fin NINODE × Bool) → T → Fin NINODE → Bool
  | none => inside
  | some (t, ip, b) => update inside t (update (inside t) ip b)

def step (u : Insiders T NINODE) (a : ILabel T NINODE) : Option (Insiders T NINODE) :=
  (call u.cache a).map fun s => ⟨s, mark u.inside (passes u.cache a)⟩

/-- `iunlock` is called from inside, and a process that is inside keeps a reference. -/
def Own (u : Insiders T NINODE) : ILabel T NINODE → Prop
  | .iunlock t ip => u.inside t ip = true
  | .iput t ip => u.inside t ip = true → 2 ≤ (u.cache.refs ip).count t
  | _ => True

variable {u u' : Insiders T NINODE} {s : Icache T NINODE} {t : T} {ip : Fin NINODE} {y : IPc NINODE}
  {x : Inode} {r : List T} {fs : Fs NINODE}

/-- The references to an inode are counted, and `I_BUSY` says that a process is inside, which is
alone there and has a reference. -/
structure Entry (u : Insiders T NINODE) (ip : Fin NINODE) : Prop where
  count : (u.cache.fs.icache ip).ref = (u.cache.refs ip).length
  busy : (u.cache.fs.icache ip).busy = true ↔ ∃ t, u.inside t ip = true
  alone : ∀ t t', u.inside t ip = true → u.inside t' ip = true → t = t'
  holds : ∀ t, u.inside t ip = true → t ∈ u.cache.refs ip

/-- What process `t` relies on -/
def PcOk (u : Insiders T NINODE) (t : T) : IPc NINODE → Prop
  | .lock ip _ => t ∈ u.cache.refs ip
  | .trunc ip | .free ip | .put ip => u.inside t ip = true
  | _ => True

structure Inv (u : Insiders T NINODE) : Prop where
  entry : ∀ ip, u.Entry ip
  unique : ∀ ip jp, u.cache.refs ip ≠ [] → u.cache.refs jp ≠ [] →
    u.cache.key ip = u.cache.key jp → ip = jp
  proc : ∀ t, u.PcOk t (u.cache.pc t)

/-- The invariant still holds, and an entry that was in use is for the same inode. -/
structure Next (u u' : Insiders T NINODE) : Prop where
  inv : u'.Inv
  key : ∀ ip, u.cache.refs ip ≠ [] → u'.cache.key ip = u.cache.key ip

/-- An entry without its copy of the inode -/
def entryOf (x : Inode) : (ℕ × ℕ) × ℤ × Bool := ((x.dev, x.inum), x.ref, x.busy)

section
omit [DecidableEq T]

theorem inv_start (disk : ℕ → Disk) : (start disk : Insiders T NINODE).Inv where
  entry _ := ⟨rfl, ⟨nofun, fun ⟨_, h⟩ => nomatch h⟩, nofun, nofun⟩
  unique _ _ h := absurd rfl h
  proc _ := trivial

theorem Inv.refs_ne_nil (h : u.Inv) :
    0 < (u.cache.fs.icache ip).ref ↔ u.cache.refs ip ≠ [] := by
  rw [(h.entry ip).count, Int.natCast_pos, List.length_pos_iff]

theorem Inv.outside (h : u.Inv) (hin : u.inside t ip = true) (t' : T) (hne : t' ≠ t) :
    u.inside t' ip = false := by
  by_contra ht'
  exact hne ((h.entry ip).alone t' t (by simpa using ht') hin)

theorem Entry.congr (h : u.Entry ip)
    (he : entryOf (u'.cache.fs.icache ip) = entryOf (u.cache.fs.icache ip))
    (hrefs : u'.cache.refs ip = u.cache.refs ip) (hin : ∀ t, u'.inside t ip = u.inside t ip) :
    u'.Entry ip := by
  obtain ⟨-, href, hbusy⟩ : _ ∧ (u'.cache.fs.icache ip).ref = _ ∧ _ := by
    simpa only [entryOf, Prod.mk.injEq] using he
  refine ⟨by rw [href, hrefs, h.count], ?_, fun t t' ht ht' => ?_, fun t ht => ?_⟩
  · simp only [hbusy, h.busy, hin]
  · rw [hin] at ht ht'
    exact h.alone t t' ht ht'
  · rw [hin] at ht
    rw [hrefs]
    exact h.holds t ht

theorem PcOk.mono (h : u.PcOk t y) (hrefs : ∀ ip, t ∈ u.cache.refs ip → t ∈ u'.cache.refs ip)
    (hin : ∀ ip, u.inside t ip = true → u'.inside t ip = true) : u'.PcOk t y := by
  cases y with
  | lock ip want => exact hrefs ip h
  | trunc ip | free ip | put ip => exact hin ip h
  | idle | scan | found | load | locked | update => trivial

theorem Inv.keep (h : u.Inv) (hrefs : s.refs = u.cache.refs)
    (hfs : ∀ ip, entryOf (s.fs.icache ip) = entryOf (u.cache.fs.icache ip))
    (hpc : ∀ t, s.pc t = u.cache.pc t ∨ u.PcOk t (s.pc t)) : Next u ⟨s, u.inside⟩ := by
  have hkey : ∀ ip, s.key ip = u.cache.key ip := fun ip => congrArg Prod.fst (hfs ip)
  refine ⟨⟨fun ip => (h.entry ip).congr (hfs ip) (congrFun hrefs ip) fun _ => rfl,
    fun ip jp hip hjp he => ?_, fun t => ?_⟩, fun ip _ => hkey ip⟩
  · rw [hkey, hkey] at he
    rw [hrefs] at hip hjp
    exact h.unique ip jp hip hjp he
  · have hp : u.PcOk t (s.pc t) := (hpc t).elim (fun he => he ▸ h.proc t) id
    exact hp.mono (fun ip hm => by rwa [hrefs]) fun _ => id

end

theorem Inv.slot (h : u.Inv) (ip : Fin NINODE) {o : Option T} {b : Bool} (hcount : x.ref = r.length)
    (hbusy : x.busy = true ↔ b = true ∨ ∃ t', t' ≠ t ∧ u.inside t' ip = true)
    (hin : b = true → t ∈ r ∧ ∀ t', t' ≠ t → u.inside t' ip = false)
    (hothers : ∀ t', t' ≠ t → t' ∈ u.cache.refs ip → t' ∈ r)
    (hused : u.cache.refs ip ≠ [] → (x.dev, x.inum) = u.cache.key ip)
    (hfresh : u.cache.refs ip = [] → u.cache.Uncached x.dev x.inum)
    (hy : y = .idle ∨ (∃ want, y = .load ip want) ∨ (∃ want, y = .lock ip want) ∧ t ∈ r ∨
      y = .trunc ip ∧ b = true) :
    Next u ⟨(u.cache.setSlot ip x r o).setPc t y, mark u.inside (some (t, ip, b))⟩ := by
  generalize hu : (⟨(u.cache.setSlot ip x r o).setPc t y, mark u.inside (some (t, ip, b))⟩ :
    Insiders T NINODE) = u'
  have hself : u'.cache.fs.icache ip = x ∧ u'.cache.refs ip = r ∧ u'.cache.pc t = y := by
    rw [← hu]
    exact ⟨update_self .., update_self .., update_self ..⟩
  have hother : ∀ {jp}, jp ≠ ip → u'.cache.fs.icache jp = u.cache.fs.icache jp ∧
      u'.cache.refs jp = u.cache.refs jp := by
    intro jp hj
    rw [← hu]
    exact ⟨update_of_ne hj .., update_of_ne hj ..⟩
  have hpc : ∀ {t'}, t' ≠ t → u'.cache.pc t' = u.cache.pc t' := by
    intro t' ht
    rw [← hu]
    exact update_of_ne ht ..
  have hme : u'.inside t ip = b := by simp [← hu, mark]
  have hnot : ∀ {t' jp}, t' ≠ t ∨ jp ≠ ip → u'.inside t' jp = u.inside t' jp := by
    intro t' jp hne
    by_cases ht : t' = t
    · simp [← hu, mark, ht, hne.resolve_left (absurd ht)]
    · simp [← hu, mark, ht]
  have hkeys : ∀ {jp}, jp ≠ ip → u'.cache.key jp = u.cache.key jp := by
    intro jp hj
    rw [Icache.key, (hother hj).1]
    rfl
  have hkey : u'.cache.key ip = (x.dev, x.inum) := by rw [Icache.key, hself.1]
  -- no other entry in use is for the inode of `ip`
  have hne : ∀ jp, jp ≠ ip → u.cache.refs jp ≠ [] → u.cache.key jp ≠ u'.cache.key ip := by
    intro jp hj hjp
    rw [hkey]
    by_cases hr : u.cache.refs ip = []
    · exact hfresh hr jp hjp
    · rw [hused hr]
      exact fun he => hj (h.unique jp ip hjp hr he)
  refine ⟨⟨fun jp => ?_, fun jp kp hjp hkp he => ?_, fun t' => ?_⟩, fun jp hjp => ?_⟩
  · by_cases hj : jp = ip
    · have := h.entry jp
      refine ⟨?_, ?_, fun t₁ t₂ h₁ h₂ => ?_, fun t' ht' => ?_⟩
      · grind
      · grind
      · grind [Entry]
      · grind [Entry]
    · exact (h.entry jp).congr (by rw [(hother hj).1]) (hother hj).2 fun _ => hnot (.inr hj)
  · have := h.unique jp kp
    grind
  · by_cases ht : t' = t
    · grind [PcOk]
    · rw [hpc ht]
      refine (h.proc t').mono (fun jp hm => ?_) fun jp hi => (hnot (.inl ht)).trans hi
      grind
  · grind

theorem Inv.stay (h : u.Inv) (ip : Fin NINODE) (hcount : x.ref = r.length)
    (hbusy : x.busy = true ↔ ∃ t', u.inside t' ip = true) (hmem : u.inside t ip = true → t ∈ r)
    (hothers : ∀ t', t' ≠ t → t' ∈ u.cache.refs ip → t' ∈ r)
    (hused : u.cache.refs ip ≠ [] → (x.dev, x.inum) = u.cache.key ip)
    (hfresh : u.cache.refs ip = [] → u.cache.Uncached x.dev x.inum)
    (hy : y = .idle ∨ (∃ want, y = .lock ip want) ∧ t ∈ r) :
    Next u ⟨(u.cache.setSlot ip x r (u.cache.owner ip)).setPc t y, u.inside⟩ := by
  have hb : x.busy = true ↔ u.inside t ip = true ∨ ∃ t', t' ≠ t ∧ u.inside t' ip = true := by
    rw [hbusy]
    grind
  have hn := h.slot ip (o := u.cache.owner ip) hcount hb (fun ht => ⟨hmem ht, h.outside ht⟩)
    hothers hused hfresh (hy.imp_right fun hy => .inr (.inl hy))
  rwa [show mark u.inside (some (t, ip, u.inside t ip)) = u.inside by simp [mark]] at hn

theorem Inv.addRef (h : u.Inv) (hne : u.cache.refs ip ≠ [])
    (hy : y = .idle ∨ ∃ want, y = .lock ip want) :
    Next u ⟨(u.cache.addRef t ip).setPc t y, u.inside⟩ :=
  h.stay ip (by simp [(h.entry ip).count]) (h.entry ip).busy (fun _ => List.mem_cons_self)
    (fun t' _ => List.mem_cons_of_mem t) (fun _ => rfl) (absurd · hne)
    (hy.imp_right fun hy => ⟨hy, List.mem_cons_self⟩)

theorem Inv.iget (h : u.Inv) {dev inum : ℕ} (hs : u.cache.iget t dev inum = some (ip, s))
    (hy : y = .idle ∨ ∃ want, y = .lock ip want) : Next u ⟨s.setPc t y, u.inside⟩ := by
  rcases Icache.iget_cases (fun jp => (h.entry jp).count) hs with
    ⟨hne, -, rfl⟩ | ⟨hnil, hunc, rfl⟩
  · exact h.addRef hne hy
  · have hout : ∀ t', u.inside t' ip ≠ true := by
      intro t' ht'
      have := (h.entry ip).holds t' ht'
      rw [hnil] at this
      cases this
    exact h.stay ip rfl ⟨nofun, fun ⟨t', ht'⟩ => absurd ht' (hout t')⟩
      (fun ht => absurd ht (hout t)) (by simp [hnil]) (absurd hnil) (fun _ => hunc)
      (hy.imp_right fun hy => ⟨hy, List.mem_singleton_self t⟩)

theorem Inv.drop (h : u.Inv) (hmem : t ∈ u.cache.refs ip)
    (hkeep : u.inside t ip = true → 2 ≤ (u.cache.refs ip).count t) :
    Next u ⟨(u.cache.drop t ip).setPc t .idle, u.inside⟩ := by
  have hpos := List.length_pos_of_mem hmem
  have hn := h.stay ip (t := t) (y := .idle) (r := (u.cache.refs ip).erase t)
    (x := { u.cache.fs.icache ip with ref := (u.cache.fs.icache ip).ref - 1 }) ?_
    (h.entry ip).busy (fun ht => ?_) (fun t' hne => (List.mem_erase_of_ne hne).mpr) (fun _ => rfl)
    (absurd · (List.ne_nil_of_mem hmem)) (.inl rfl)
  · simpa only [Icache.setSlot, Icache.drop, update_eq_self] using hn
  · dsimp only
    rw [(h.entry ip).count, List.length_erase_of_mem hmem]
    omega
  · rw [← List.count_pos_iff, List.count_erase_self]
    have := hkeep ht
    omega

theorem Inv.setBusy (h : u.Inv) (hmem : t ∈ u.cache.refs ip)
    (hbusy : (u.cache.fs.icache ip).busy = false)
    (hy : (∃ want, y = .load ip want) ∨ y = .trunc ip) :
    Next u ⟨(u.cache.setBusy t ip).setPc t y, mark u.inside (some (t, ip, true))⟩ := by
  have hnone : ∀ t', t' ≠ t → u.inside t' ip = false := by
    intro t' _
    by_contra hin
    rw [(h.entry ip).busy.mpr ⟨t', by simpa using hin⟩] at hbusy
    cases hbusy
  have hn := h.slot ip (t := t) (x := { u.cache.fs.icache ip with busy := true })
    (r := u.cache.refs ip) (o := some t) (y := y) (b := true) (h.entry ip).count
    ⟨fun _ => .inl rfl, fun _ => rfl⟩ (fun _ => ⟨hmem, hnone⟩) (fun _ _ => id) (fun _ => rfl)
    (absurd · (List.ne_nil_of_mem hmem)) (.inr (hy.imp_right fun hy => .inr ⟨hy, rfl⟩))
  simpa only [Icache.setSlot, Icache.setBusy, update_eq_self] using hn

theorem Inv.clearBusy (h : u.Inv) (hin : u.inside t ip = true) {n : ℤ} (hcount : n = r.length)
    (hothers : ∀ t', t' ≠ t → t' ∈ u.cache.refs ip → t' ∈ r) :
    Next u ⟨(u.cache.setSlot ip { u.cache.fs.icache ip with busy := false, ref := n } r none).setPc
      t .idle, mark u.inside (some (t, ip, false))⟩ := by
  refine h.slot ip hcount ⟨nofun, ?_⟩ nofun hothers (fun _ => rfl)
    (absurd · (List.ne_nil_of_mem ((h.entry ip).holds t hin))) (.inl rfl)
  rintro (hb | ⟨t', hne, ht'⟩)
  · cases hb
  · exact absurd ((h.entry ip).alone t' t ht' hin) hne

theorem Inv.goto (h : u.Inv) {w : Fin NINODE → Bool}
    (hfs : ∀ ip, entryOf (fs.icache ip) = entryOf (u.cache.fs.icache ip)) (hy : u.PcOk t y) :
    Next u ⟨Icache.setPc t y { u.cache with fs := fs, unwritten := w }, u.inside⟩ := by
  refine h.keep rfl hfs fun t' => ?_
  by_cases ht : t' = t
  · subst ht
    refine .inr ?_
    simpa [Icache.setPc] using hy
  · exact .inl (update_of_ne ht ..)

omit [DecidableEq T] in
theorem entryOf_setInode (h : entryOf x = entryOf (fs.icache ip)) (jp : Fin NINODE) :
    entryOf ((fs.setInode ip x).icache jp) = entryOf (fs.icache jp) := by
  by_cases hj : jp = ip
  · simpa [hj] using h
  · simp [hj]

theorem Inv.run (h : u.Inv) (hs : u.cache.run t = some s) :
    Next u ⟨s, mark u.inside (passes u.cache (.run t))⟩ := by
  have hp := h.proc t
  unfold Icache.run at hs
  cases hpc : u.cache.pc t with
  | idle =>
    simp only [hpc] at hs
    cases hs
  | scan dev type n inum =>
    simp only [hpc, Option.ite_none_right_eq_some] at hs
    obtain ⟨-, hs⟩ := hs
    simp only [passes, hpc]
    split at hs <;> cases hs
    · exact h.goto (fun _ => rfl) trivial
    · exact h.goto (fun _ => rfl) trivial
  | found dev type inum =>
    simp only [hpc, Option.bind_eq_bind, Option.bind_eq_some_iff, Option.some_inj] at hs
    obtain ⟨⟨ip, s₁⟩, hget, rfl⟩ := hs
    simp only [passes, hpc]
    exact h.iget hget (.inr ⟨_, rfl⟩)
  | lock ip want =>
    simp only [hpc, Option.ite_none_left_eq_some, Option.some_inj, Bool.not_eq_true] at hs
    obtain ⟨hbusy, rfl⟩ := hs
    rw [hpc] at hp
    simp only [passes, hpc]
    exact h.setBusy hp hbusy (.inl ⟨_, rfl⟩)
  | load ip want =>
    have hnext : u.PcOk t (want.elim .idle (.locked ip)) := by cases want <;> trivial
    simp only [hpc] at hs
    simp only [passes, hpc]
    split at hs
    · cases hs
      exact h.goto (fun _ => rfl) hnext
    · rw [Option.ite_none_left_eq_some, Option.some_inj] at hs
      obtain ⟨-, rfl⟩ := hs
      exact h.goto (entryOf_setInode rfl) hnext
  | locked ip type | update ip =>
    simp only [hpc, Option.some_inj] at hs
    subst hs
    simp only [passes, hpc]
    exact h.goto (fun _ => rfl) trivial
  | trunc ip | free ip =>
    simp only [hpc, Option.some_inj] at hs
    subst hs
    rw [hpc] at hp
    simp only [passes, hpc]
    exact h.goto (entryOf_setInode rfl) hp
  | put ip =>
    simp only [hpc, Option.some_inj] at hs
    subst hs
    rw [hpc] at hp
    simp only [passes, hpc]
    have hmem := (h.entry ip).holds t hp
    have hpos := List.length_pos_of_mem hmem
    have hn := h.clearBusy hp (n := (u.cache.fs.icache ip).ref - 1) (r := (u.cache.refs ip).erase t)
      (by rw [(h.entry ip).count, List.length_erase_of_mem hmem]; omega)
      fun t' hne => (List.mem_erase_of_ne hne).mpr
    simpa [Icache.setSlot, Icache.clearBusy, Icache.drop, Fs.setInode] using hn

theorem setPc_self (h : s.pc t = y) : s.setPc t y = s := by
  rw [← h]
  simp only [Icache.setPc, update_eq_self]

theorem Inv.step (h : u.Inv) {a : ILabel T NINODE} (hown : u.Own a) (hs : u.step a = some u') :
    Next u u' := by
  obtain ⟨s, hcall, rfl⟩ := Option.map_eq_some_iff.mp hs
  cases a with
  | other dev disk =>
    cases hcall
    exact h.keep rfl (fun _ => rfl) fun _ => .inl rfl
  | iget t dev inum =>
    simp only [call, Icache.step, Option.ite_none_right_eq_some, Option.map_eq_some_iff] at hcall
    obtain ⟨hidle, ⟨ip, s₁⟩, hget, rfl⟩ := hcall
    have hn := h.iget hget (.inl rfl)
    rwa [setPc_self (by rw [Icache.iget_pc hget, hidle])] at hn
  | idup t ip =>
    simp only [call, Icache.step, Option.ite_none_right_eq_some, Option.some_inj] at hcall
    obtain ⟨⟨hidle, hmem⟩, rfl⟩ := hcall
    have hn := h.addRef (t := t) (List.ne_nil_of_mem hmem) (.inl rfl)
    rw [setPc_self (s := u.cache.addRef t ip) hidle] at hn
    rwa [Icache.idup_eq_addRef]
  | ialloc t dev type =>
    simp only [call, Icache.step, Option.ite_none_right_eq_some, Option.some_inj] at hcall
    obtain ⟨-, rfl⟩ := hcall
    exact h.goto (fun _ => rfl) trivial
  | ilock t ip =>
    simp only [call, Icache.step, Option.ite_none_right_eq_some, Option.some_inj] at hcall
    obtain ⟨⟨-, hmem⟩, rfl⟩ := hcall
    exact h.goto (y := .lock ip none) (fun _ => rfl) hmem
  | change t ip d =>
    simp only [call, Icache.step, Option.ite_none_right_eq_some, Option.some_inj] at hcall
    obtain ⟨-, rfl⟩ := hcall
    exact h.goto (entryOf_setInode rfl) trivial
  | assign t ip d =>
    simp only [call, Icache.step, Option.ite_none_right_eq_some, Option.some_inj] at hcall
    obtain ⟨-, rfl⟩ := hcall
    exact h.keep rfl (entryOf_setInode rfl) fun _ => .inl rfl
  | iunlock t ip =>
    simp only [call, Option.ite_none_right_eq_some, Option.some_inj] at hcall
    obtain ⟨⟨hidle, -⟩, rfl⟩ := hcall
    have hn := h.clearBusy hown (h.entry ip).count fun _ _ => id
    rw [setPc_self] at hn
    · simpa only [passes, Icache.setSlot, Icache.clearBusy, update_eq_self] using hn
    · exact hidle
  | iput t ip =>
    simp only [call, Option.ite_none_right_eq_some] at hcall
    obtain ⟨⟨hidle, hmem⟩, hput⟩ := hcall
    unfold Icache.iput at hput
    unfold passes
    dsimp only at hput ⊢
    split at hput
    · next hfree =>
      simp only [Option.ite_none_left_eq_some, Option.some_inj, Bool.not_eq_true] at hput
      obtain ⟨hbusy, rfl⟩ := hput
      rw [if_pos hfree]
      exact h.setBusy hmem hbusy (.inr rfl)
    · next hfree =>
      obtain rfl := Option.some_inj.mp hput
      rw [if_neg hfree]
      have hn := h.drop hmem hown
      rw [setPc_self] at hn
      · exact hn
      · exact hidle
  | run t => exact h.run hcall

/-- In a run in which `iunlock` is called from inside, and no process puts its last reference to
an inode that it is inside of: an inode has at most one entry, at most one process is inside it, no
step makes an entry in use one of another inode, and `iput` does not panic. -/
theorem exclusive_of_reach {disk : ℕ → Disk}
    (hr : Reach (fun u a u' => u.Own a ∧ u.step a = some u') (start disk) u) :
    (∀ ip jp, 0 < (u.cache.fs.icache ip).ref → 0 < (u.cache.fs.icache jp).ref →
      u.cache.key ip = u.cache.key jp → ip = jp) ∧
    (∀ ip t t', u.inside t ip = true → u.inside t' ip = true → t = t') ∧
    (∀ a u', u.Own a → u.step a = some u' → ∀ ip, 0 < (u.cache.fs.icache ip).ref →
      u'.cache.key ip = u.cache.key ip) ∧
    ∀ t ip, t ∈ u.cache.refs ip → u.Own (.iput t ip) → ¬u.cache.IputBusy ip := by
  have h : u.Inv :=
    hr.invariant (P := Inv) (inv_start disk) fun _ _ _ h hs => (h.step hs.1 hs.2).inv
  refine ⟨fun ip jp hip hjp => h.unique ip jp (h.refs_ne_nil.mp hip) (h.refs_ne_nil.mp hjp),
    fun ip => (h.entry ip).alone,
    fun a u' ho hs ip hip => (h.step ho hs).key ip (h.refs_ne_nil.mp hip),
    fun t ip hmem hown hbusy => ?_⟩
  -- the one reference is that of `t`, which then is the process inside
  obtain ⟨href, -, -, hbusy⟩ := hbusy
  obtain ⟨t', ht'⟩ := (h.entry ip).busy.mp hbusy
  have hlen : (u.cache.refs ip).length = 1 := by
    have := (h.entry ip).count
    omega
  obtain ⟨x, hx⟩ := List.length_eq_one_iff.mp hlen
  have hmem' := (h.entry ip).holds t' ht'
  rw [hx, List.mem_singleton] at hmem hmem'
  have htwo := hown (hmem.trans hmem'.symm ▸ ht')
  have hle := List.count_le_length (a := t) (l := u.cache.refs ip)
  omega

instance (u : Insiders T NINODE) : DecidablePred u.Own
  | .iunlock t ip => inferInstanceAs (Decidable (u.inside t ip = true))
  | .iput _ _ => inferInstanceAs (Decidable (_ → _))
  | .other _ _ | .iget _ _ _ | .idup _ _ | .ialloc _ _ _ | .ilock _ _ | .change _ _ _
  | .assign _ _ _ | .run _ => isTrue trivial

/-- Two processes get the root; the second one waits in `ilock` until the first has unlocked. -/
theorem exclusive_in_turn : ∃ u : Insiders Bool 1,
    Reach (fun u a u' => u.Own a ∧ u.step a = some u') (start Icache.rootOnly) u ∧
    (u.cache.fs.icache 0).ref = 2 ∧ ∀ t, u.inside t 0 = true ↔ t = true := by
  have hk : (([.iget false 1 1, .iget true 1 1, .ilock false 0, .run false, .ilock true 0,
      .run false, .iunlock false 0, .run true] : List (ILabel Bool 1)).foldlM
      (fun (u : Insiders Bool 1) a => if u.Own a then u.step a else none)
      (start Icache.rootOnly)).any
        (fun u => (u.cache.fs.icache 0).ref = 2 ∧ u.inside true 0 = true) = true := by
    decide +kernel
  have hstep : ∀ (u : Insiders Bool 1) a u', (if u.Own a then u.step a else none) = some u' →
      Reach (fun u a u' => u.Own a ∧ u.step a = some u') u u' :=
    fun _ _ _ h => .next .start (Option.ite_none_right_eq_some.mp h)
  obtain ⟨u, hr, hu⟩ := exists_reach_of_any hstep hk
  obtain ⟨href, hin⟩ := of_decide_eq_true hu
  exact ⟨u, hr, href, fun t => ⟨fun ht => (exclusive_of_reach hr).2.1 0 t true ht hin,
    fun ht => ht ▸ hin⟩⟩

/-- A process with a reference unlocks an inode that another one has locked, and both are inside.
A process calls `iput` for a new inode that it has locked. -/
theorem shared_inside : (∃ u : Insiders Bool 1,
      Reach (fun u a u' => u.step a = some u') (start Icache.rootOnly) u ∧
      u.inside false 0 = true ∧ u.inside true 0 = true) ∧
    ∃ u : Insiders Bool 1, Reach (fun u a u' => u.step a = some u') (start Icache.rootOnly) u ∧
      u.cache.pc false = .idle ∧ false ∈ u.cache.refs 0 ∧ u.cache.IputBusy 0 := by
  have hboth : (([.iget false 1 1, .iget true 1 1, .ilock false 0, .run false, .iunlock true 0,
      .ilock true 0, .run true] : List (ILabel Bool 1)).foldlM step (start Icache.rootOnly)).any
        (fun u : Insiders Bool 1 => u.inside false 0 = true ∧ u.inside true 0 = true) = true := by
    decide +kernel
  have hput : (([.ialloc false 1 T_FILE, .run false, .run false, .run false, .run false, .run false,
      .run false] : List (ILabel Bool 1)).foldlM step (start Icache.rootOnly)).any
        (fun u : Insiders Bool 1 => u.cache.pc false = .idle ∧ false ∈ u.cache.refs 0 ∧
          u.cache.IputBusy 0) = true := by
    decide +kernel
  have hstep : ∀ (u : Insiders Bool 1) a u', u.step a = some u' →
      Reach (fun u a u' => u.step a = some u') u u' := fun _ _ _ h => .next .start h
  obtain ⟨u, hr, hu⟩ := exists_reach_of_any hstep hboth
  obtain ⟨u', hr', hu'⟩ := exists_reach_of_any hstep hput
  exact ⟨⟨u, hr, of_decide_eq_true hu⟩, u', hr', of_decide_eq_true hu'⟩

end Insiders

end Xv6Shed
