import Xv6Shed.BufferCache

/-!
# The cache against a plain array of sectors

Clients that write what they change see the buffer cache as an array of sectors: a `bread`
gets what was last passed to `bwrite` for its sector. This needs sectors that a command can
name: `ide_start_request` sends one bit of `dev` and 28 bits of `sector`.
-/

namespace Xv6Shed
open Function Linked Transition

variable {NBUF : ℕ} {P D : Type} [DecidableEq P] {s s' : Cache NBUF P D} {a : BufOp NBUF P D}

def store (A : ℕ → ℕ → D) (dev sector : ℕ) (data : D) : ℕ → ℕ → D :=
  update A dev (update (A dev) sector data)

@[simp] theorem store_self (A : ℕ → ℕ → D) (dev sector : ℕ) (data : D) :
    store A dev sector data dev sector = data := by
  simp [store]

theorem store_of_ne (A : ℕ → ℕ → D) {dev sector dev' sector' : ℕ} (data : D)
    (h : ¬ (dev' = dev ∧ sector' = sector)) :
    store A dev sector data dev' sector' = A dev' sector' := by
  unfold store
  by_cases hd : dev' = dev
  · subst hd
    rw [update_self, update_of_ne]
    exact fun hs => h ⟨rfl, hs⟩
  · rw [update_of_ne hd]

/-- The array after the events of a trace, the latest of them first. -/
def plainArray (disk : ℕ → ℕ → D) : List (IoEvent D) → ℕ → ℕ → D
  | [] => disk
  | .read _ _ _ :: trace => plainArray disk trace
  | .wrote dev sector data :: trace => store (plainArray disk trace) dev sector data

/-- Every `bread` returned what the array had. -/
def Consistent (disk : ℕ → ℕ → D) : List (IoEvent D) → Prop
  | [] => True
  | .read dev sector data :: trace =>
    data = plainArray disk trace dev sector ∧ Consistent disk trace
  | .wrote _ _ _ :: trace => Consistent disk trace

/-- A client does not release a buffer it has changed and not written. -/
def Cache.Session (s : Cache NBUF P D) : BufOp NBUF P D → Prop
  | .brelse _ b => s.changed b = false
  | _ => True

instance (s : Cache NBUF P D) (a : BufOp NBUF P D) : Decidable (s.Session a) :=
  match a with
  | .brelse _ b => inferInstanceAs (Decidable (s.changed b = false))
  | .bread .. | .bget _ | .check _ | .modify .. | .bwrite .. | .wait _ | .wake _ | .ideIntr =>
    inferInstanceAs (Decidable True)

/-- A drive and a sector that fit in the registers of the controller. -/
def Addressable (dev sector : ℕ) : Prop := dev < 2 ∧ sector < 2 ^ 28

/-- Only addressable sectors are read. -/
def BufOp.Addressed : BufOp NBUF P D → Prop
  | .bread _ dev sector => Addressable dev sector
  | _ => True

instance (a : BufOp NBUF P D) : Decidable a.Addressed :=
  match a with
  | .bread _ dev sector => inferInstanceAs (Decidable (dev < 2 ∧ sector < 2 ^ 28))
  | .bget _ | .check _ | .modify .. | .bwrite .. | .wait _ | .brelse .. | .wake _ | .ideIntr =>
    inferInstanceAs (Decidable True)

/-- A step of clients that keep to sessions. -/
def SessionStep (s : Cache NBUF P D) (a : BufOp NBUF P D) (s' : Cache NBUF P D) : Prop :=
  CacheStep s a s' ∧ s.Session a

theorem ideAddr_eq {x : Buf D} (h : Addressable x.dev x.sector) :
    Bio.ideAddr x = (x.dev, x.sector) := by
  unfold Bio.ideAddr
  rw [Nat.mod_eq_of_lt h.1, Nat.mod_eq_of_lt h.2]

namespace Cache

/-- How the buffers, the disk and the array `A` relate, when `qs` is the request queue. A
buffer that is valid and unchanged has what `A` has; so has the disk, but for the sectors
that are being written, where it has the buffer's data once the write is done. -/
structure Mirrors (s : Cache NBUF P D) (qs : List (Fin NBUF)) (A : ℕ → ℕ → D) : Prop where
  cmd : s.bio.cmd = qs.head?.map fun b => Bio.request (s.bio.buf b)
  wanted : ∀ p dev sector, s.pc p = .bget dev sector ∨ s.pc p = .asleep dev sector →
    Addressable dev sector
  range : ∀ b, s.bio.inUse b → Addressable (s.bio.buf b).dev (s.bio.buf b).sector
  changed : ∀ b, s.changed b = true → ∃ p, b ∈ s.held p
  dirty : ∀ b, (s.bio.buf b).dirty = true → ∃ p, s.pc p = .writing b
  valid : ∀ p, ∀ b ∈ s.held p, (s.bio.buf b).valid = true
  clean : ∀ b, (s.bio.buf b).valid = true → s.changed b = false →
    (s.bio.buf b).data = A (s.bio.buf b).dev (s.bio.buf b).sector
  settled : ∀ dev sector, (∀ p b, s.pc p = .writing b →
    ¬ (dev = (s.bio.buf b).dev ∧ sector = (s.bio.buf b).sector)) →
    s.bio.disk dev sector = A dev sector
  written : ∀ p b, s.pc p = .writing b → (s.bio.buf b).dirty = false →
    s.bio.disk (s.bio.buf b).dev (s.bio.buf b).sector = (s.bio.buf b).data

variable {s s' : Cache NBUF P D} {a : BufOp NBUF P D} {order qs qs' : List (Fin NBUF)} {p : P}
  {b : Fin NBUF} {A disk : ℕ → ℕ → D} {x : BufPc NBUF} {bio : Bio NBUF D}

omit [DecidableEq P] in
theorem Inv.ne_sector (hi : s.Inv order qs) {p' : P} {b' : Fin NBUF} (hb : b ∈ s.owned p)
    (hb' : b' ∈ s.owned p') (hne : b ≠ b') :
    ¬ ((s.bio.buf b).dev = (s.bio.buf b').dev ∧ (s.bio.buf b).sector = (s.bio.buf b').sector) := by
  rintro ⟨hd, hs⟩
  exact hne (hi.unique b b' (.inl (hi.owners.busy p b hb)) (.inl (hi.owners.busy p' b' hb')) hd hs)

omit [DecidableEq P] in
theorem Mirrors.unchanged (h : s.Mirrors qs A) (hi : s.Inv order qs)
    (ht : (s.pc p).takes = some b) : s.changed b = false := by
  by_contra hc
  obtain ⟨p', hp'⟩ := h.changed b (by simpa using hc)
  have hpp : p' = p :=
    hi.owners.unique p' p b (mem_owned_of_held hp') (mem_owned_of_takes ht)
  have hnd := hi.owners.nodup p
  unfold owned at hnd
  rw [ht] at hnd
  exact (List.nodup_cons.mp hnd).1 (hpp ▸ hp')

omit [DecidableEq P] in
theorem Inv.not_writing (hi : s.Inv order qs) (hb : b ∈ s.owned p) (hp : s.pc p ≠ .writing b)
    (p' : P) : s.pc p' ≠ .writing b := by
  intro hp'
  rw [hi.owners.unique p' p b (mem_owned_of_held (hi.writer p' b hp')) hb] at hp'
  exact hp hp'

omit [DecidableEq P] in
theorem Mirrors.perform (h : s.Mirrors (b :: qs') A) (hb : s.bio.inUse b) : s.bio.perform =
      if (s.bio.buf b).dirty = true then
        (none, store s.bio.disk (s.bio.buf b).dev (s.bio.buf b).sector (s.bio.buf b).data)
      else (some (s.bio.disk (s.bio.buf b).dev (s.bio.buf b).sector), s.bio.disk) := by
  have hcmd : s.bio.cmd = some (Bio.request (s.bio.buf b)) := h.cmd
  unfold Bio.perform Bio.request at *
  rw [ideAddr_eq (h.range b hb)] at hcmd
  by_cases hd : (s.bio.buf b).dirty = true
  · rw [if_pos hd] at hcmd ⊢
    rw [hcmd]
    rfl
  · rw [if_neg hd] at hcmd ⊢
    rw [hcmd]

theorem writing_update (hp : ∀ b, s.pc p ≠ .writing b) (hx : ∀ b, x ≠ .writing b) (q : P)
    (b : Fin NBUF) : update s.pc p x q = .writing b ↔ s.pc q = .writing b := by
  by_cases hq : q = p
  · rw [hq, update_self]
    exact ⟨fun h => absurd h (hx b), fun h => absurd h (hp b)⟩
  · rw [update_of_ne hq]

theorem Mirrors.wanted_update (h : s.Mirrors qs A)
    (hx : ∀ dev sector, x = .bget dev sector ∨ x = .asleep dev sector → Addressable dev sector)
    (q : P) (dev sector : ℕ)
    (hq : update s.pc p x q = .bget dev sector ∨ update s.pc p x q = .asleep dev sector) :
    Addressable dev sector := by
  by_cases hqp : q = p
  · rw [hqp, update_self] at hq
    exact hx dev sector hq
  · rw [update_of_ne hqp] at hq
    exact h.wanted q dev sector hq

section

variable (h : s.Mirrors qs A) (hp : ∀ b, s.pc p ≠ .writing b) (hx : ∀ b, x ≠ .writing b)
  (hw : ∀ dev sector, x = .bget dev sector ∨ x = .asleep dev sector → Addressable dev sector)
include h hp hx hw

theorem Mirrors.setPc {bs : List (Fin NBUF)} (hsub : s.held p ⊆ bs)
    (hv : ∀ b ∈ bs, (s.bio.buf b).valid = true) (trace : List (IoEvent D)) :
    Mirrors { s with
      pc := update s.pc p x
      held := update s.held p bs
      trace := trace } qs A where
  cmd := h.cmd
  wanted := h.wanted_update hw
  range := h.range
  changed := by
    intro b hb
    obtain ⟨q, hq⟩ := h.changed b hb
    refine ⟨q, ?_⟩
    by_cases hqp : q = p
    · subst hqp
      dsimp only
      rw [update_self]
      exact hsub hq
    · dsimp only
      rw [update_of_ne hqp]
      exact hq
  dirty := by
    intro b hb
    obtain ⟨q, hq⟩ := h.dirty b hb
    exact ⟨q, (writing_update hp hx q b).mpr hq⟩
  valid := by
    intro q b hq
    dsimp only at hq
    by_cases hqp : q = p
    · rw [hqp, update_self] at hq
      exact hv b hq
    · rw [update_of_ne hqp] at hq
      exact h.valid q b hq
  clean := h.clean
  settled := by
    intro dev sector hno
    apply h.settled dev sector
    intro q b hq
    exact hno q b ((writing_update hp hx q b).mpr hq)
  written := fun q b hq hd => h.written q b ((writing_update hp hx q b).mp hq) hd

theorem Mirrors.goto : Mirrors { s with pc := update s.pc p x } qs A := by
  have key := h.setPc hp hx hw (List.Subset.refl _) (h.valid p) s.trace
  rwa [update_eq_self] at key

end

omit [DecidableEq P] in
/-- A step that stores `x` to a buffer which no process writes and for which there is no
request. -/
theorem Mirrors.setBuf (h : s.Mirrors qs A) {x : Buf D} {ch : Bool} (hq : b ∉ qs)
    (hw : ∀ p, s.pc p ≠ .writing b) (hr : Addressable x.dev x.sector)
    (hch : ch = true → ∃ p, b ∈ s.held p) (hx : x.dirty = false)
    (hv : (∃ p, b ∈ s.held p) → x.valid = true)
    (hd : x.valid = true → ch = false → x.data = A x.dev x.sector) :
    Mirrors { s with bio := s.bio.setBuf b x, changed := update s.changed b ch } qs A where
  cmd := by
    refine h.cmd.trans ?_
    cases hh : qs.head? with
    | none => rfl
    | some b' =>
      have hne : b' ≠ b := fun hbb => hq (hbb ▸ List.mem_of_head? hh)
      simp [update_of_ne hne]
  wanted := h.wanted
  range := by
    intro b' hb'
    simp only [Bio.inUse, Bio.setBuf_buf] at hb' ⊢
    by_cases hbb : b' = b
    · rw [hbb, update_self]
      exact hr
    · rw [update_of_ne hbb] at hb' ⊢
      exact h.range b' hb'
  changed := by
    intro b' hb'
    dsimp only at hb'
    by_cases hbb : b' = b
    · rw [hbb, update_self] at hb'
      rw [hbb]
      exact hch hb'
    · rw [update_of_ne hbb] at hb'
      exact h.changed b' hb'
  dirty := by
    intro b' hb'
    simp only [Bio.setBuf_buf] at hb'
    by_cases hbb : b' = b
    · rw [hbb, update_self, hx] at hb'
      cases hb'
    · rw [update_of_ne hbb] at hb'
      exact h.dirty b' hb'
  valid := by
    intro p b' hb'
    simp only [Bio.setBuf_buf]
    by_cases hbb : b' = b
    · rw [hbb, update_self]
      exact hv ⟨p, hbb ▸ hb'⟩
    · rw [update_of_ne hbb]
      exact h.valid p b' hb'
  clean := by
    intro b' hb' hc
    simp only [Bio.setBuf_buf] at hb' ⊢
    dsimp only at hc
    by_cases hbb : b' = b
    · rw [hbb, update_self] at hb' hc ⊢
      exact hd hb' hc
    · rw [update_of_ne hbb] at hb' hc ⊢
      exact h.clean b' hb' hc
  settled := by
    intro dev sector hno
    apply h.settled dev sector
    intro p b' hp
    have hbb : b' ≠ b := fun hbb => hw p (hbb ▸ hp)
    have := hno p b' hp
    simp only [Bio.setBuf_buf, update_of_ne hbb] at this
    exact this
  written := by
    intro p b' hp hd'
    have hbb : b' ≠ b := fun hbb => hw p (hbb ▸ hp)
    simp only [Bio.setBuf_buf, update_of_ne hbb] at hd' ⊢
    exact h.written p b' hp hd'

omit [DecidableEq P] in
theorem Mirrors.enqueue (h : s.Mirrors qs A) (q : Option (Fin NBUF))
    (qnext : Fin NBUF → Option (Fin NBUF)) (b : Fin NBUF) :
    Mirrors { s with bio := { s.bio with
      ideQueue := q
      qnext := qnext
      cmd := if qs = [] then some (Bio.request (s.bio.buf b)) else s.bio.cmd
      started := if qs = [] then s.bio.started ++ [b] else s.bio.started } } (qs ++ [b]) A :=
  { h with
    cmd := by
      dsimp only
      cases qs with
      | nil => rfl
      | cons b' qs => exact h.cmd }

omit [DecidableEq P] in
theorem Inv.idle (hi : s.Inv order qs) (hb : (s.bio.buf b).busy = false) :
    b ∉ qs ∧ (∀ p, s.pc p ≠ .writing b) ∧ ∀ p, b ∉ s.held p := by
  have hno : ∀ p, b ∉ s.owned p := by
    intro p hp
    rw [hi.owners.busy p b hp] at hb
    cases hb
  refine ⟨?_, ?_, ?_⟩
  · intro hq
    obtain ⟨p, hp⟩ := hi.waits b hq
    exact hno p (hi.mem_owned_of_waits hp)
  · exact fun p hp => hno p (mem_owned_of_held (hi.writer p b hp))
  · exact fun p hp => hno p (mem_owned_of_held hp)

omit [DecidableEq P] in
theorem Mirrors.not_dirty (h : s.Mirrors qs A) (hw : ∀ p, s.pc p ≠ .writing b) :
    (s.bio.buf b).dirty = false := by
  by_contra hd
  obtain ⟨p, hp⟩ := h.dirty b (by simpa using hd)
  exact hw p hp

theorem Mirrors.got (h : s.Mirrors qs A) (hi : s.Inv order qs) {dev sector : ℕ}
    (hpc : s.pc p = .bget dev sector) (hg : Got s.bio order dev sector (some b) bio) :
    Mirrors { s with bio := bio, pc := update s.pc p (.got b) } qs A := by
  have hbio : Mirrors { s with bio := bio } qs A := by
    cases hg with
    | cached hc hb =>
      obtain ⟨hq, hw, hh⟩ := hi.idle hb
      have hnone : ¬ ∃ p, b ∈ s.held p := not_exists.mpr hh
      have hin : s.bio.inUse b := by
        simp only [Bio.caches, Bool.and_eq_true, Bool.or_eq_true] at hc
        exact hc.1.1
      have key := h.setBuf (x := { s.bio.buf b with busy := true }) hq hw (h.range b hin)
        (h.changed b) (h.not_dirty hw) (fun hb => absurd hb hnone) (h.clean b)
      rwa [update_eq_self] at key
    | fresh hno hb =>
      obtain ⟨hq, hw, hh⟩ := hi.idle hb
      have hnone : ¬ ∃ p, b ∈ s.held p := not_exists.mpr hh
      have key := h.setBuf (x := { s.bio.buf b with
          busy := true, valid := false, dirty := false, dev := dev, sector := sector }) hq hw
        (h.wanted p dev sector (.inl hpc)) (h.changed b) rfl (fun hb => absurd hb hnone)
        (fun hv => absurd hv Bool.false_ne_true)
      rwa [update_eq_self] at key
  refine hbio.goto ?_ ?_ ?_
  · intro b' hb'
    rw [hpc] at hb'
    cases hb'
  · intro b' hb'
    cases hb'
  · rintro dev' sector' (h' | h') <;> cases h'

theorem Mirrors.bwrite (h : s.Mirrors qs A) (hpc : s.pc p = .user) (hq : b ∉ qs) :
    Mirrors { s with
      bio := s.bio.setBuf b { s.bio.buf b with dirty := true }
      pc := update s.pc p (.writing b) } qs A := by
  -- what the other fields of the buffers are
  have hsame : ∀ b', ((s.bio.setBuf b { s.bio.buf b with dirty := true }).buf b') =
      { s.bio.buf b' with dirty := if b' = b then true else (s.bio.buf b').dirty } := by
    intro b'
    rw [Bio.setBuf_buf]
    by_cases hbb : b' = b
    · rw [hbb, update_self, if_pos rfl]
    · rw [update_of_ne hbb, if_neg hbb]
  have hold : ∀ q b', s.pc q = .writing b' → update s.pc p (.writing b) q = .writing b' := by
    intro q b' hq'
    rw [update_of_ne]
    · exact hq'
    · rintro rfl
      rw [hpc] at hq'
      cases hq'
  refine ⟨?_, ?_, ?_, h.changed, ?_, ?_, ?_, ?_, ?_⟩
  · refine h.cmd.trans ?_
    cases hh : qs.head? with
    | none => rfl
    | some b' =>
      have hne : b' ≠ b := fun hbb => hq (hbb ▸ List.mem_of_head? hh)
      simp [update_of_ne hne]
  · apply h.wanted_update
    rintro dev sector (h' | h') <;> cases h'
  · intro b' hb'
    simp only [Bio.inUse, hsame] at hb' ⊢
    exact h.range b' hb'
  · intro b' hb'
    by_cases hbb : b' = b
    · exact ⟨p, by rw [hbb]; exact update_self ..⟩
    · simp only [hsame, if_neg hbb] at hb'
      obtain ⟨q, hq'⟩ := h.dirty b' hb'
      exact ⟨q, hold q b' hq'⟩
  · intro q b' hb'
    simp only [hsame]
    exact h.valid q b' hb'
  · intro b' hb' hc
    simp only [hsame] at hb' ⊢
    exact h.clean b' hb' hc
  · intro dev sector hno
    apply h.settled dev sector
    intro q b' hq'
    have := hno q b' (hold q b' hq')
    simp only [hsame] at this
    exact this
  · intro q b' hq' hd
    simp only [hsame] at hd ⊢
    by_cases hbb : b' = b
    · simp [hbb] at hd
    · rw [if_neg hbb] at hd
      refine h.written q b' ?_ hd
      have hqp : q ≠ p := by
        rintro rfl
        dsimp only at hq'
        rw [update_self] at hq'
        exact hbb (BufPc.writing.inj hq').symm
      dsimp only at hq'
      rwa [update_of_ne hqp] at hq'

theorem Mirrors.wrote (h : s.Mirrors qs A) (hi : s.Inv order qs) (hpc : s.pc p = .writing b)
    (hd : (s.bio.buf b).dirty = false) :
    (s.bwriteReturn p b).Mirrors qs
      (store A (s.bio.buf b).dev (s.bio.buf b).sector (s.bio.buf b).data) := by
  have hown : b ∈ s.owned p := mem_owned_of_held (hi.writer p b hpc)
  have hbusy : s.bio.inUse b := .inl (hi.owners.busy p b hown)
  -- the other writers are the old ones
  have hw : ∀ q b', update s.pc p .user q = .writing b' → s.pc q = .writing b' ∧ b' ≠ b := by
    intro q b' hq
    have hqp : q ≠ p := by
      rintro rfl
      rw [update_self] at hq
      cases hq
    rw [update_of_ne hqp] at hq
    refine ⟨hq, ?_⟩
    rintro rfl
    exact hqp (hi.owners.unique q p b' (mem_owned_of_held (hi.writer q b' hq)) hown)
  refine ⟨h.cmd, ?_, h.range, ?_, ?_, h.valid, ?_, ?_, ?_⟩
  · apply h.wanted_update
    rintro dev sector (h' | h') <;> cases h'
  · intro b' hb'
    refine h.changed b' ?_
    by_cases hbb : b' = b
    · simp [bwriteReturn, hbb] at hb'
    · simpa [bwriteReturn, hbb] using hb'
  · intro b' hb'
    obtain ⟨q, hq⟩ := h.dirty b' hb'
    have hqp : q ≠ p := by
      rintro rfl
      rw [hpc] at hq
      rw [← BufPc.writing.inj hq] at hb'
      exact absurd (hb'.symm.trans hd) (Ne.symm Bool.false_ne_true)
    exact ⟨q, (update_of_ne hqp ..).trans hq⟩
  · intro b' hb' hc
    show (s.bio.buf b').data = _
    by_cases hbb : b' = b
    · rw [hbb]
      exact (store_self ..).symm
    · have hne : ¬ ((s.bio.buf b').dev = (s.bio.buf b).dev ∧
          (s.bio.buf b').sector = (s.bio.buf b).sector) := fun hk =>
        hbb (hi.unique b' b (.inr hb') hbusy hk.1 hk.2)
      rw [bwriteReturn, store_of_ne A _ hne]
      refine h.clean b' hb' ?_
      simpa [bwriteReturn, hbb] using hc
  · intro dev sector hno
    show s.bio.disk dev sector = _
    by_cases hk : dev = (s.bio.buf b).dev ∧ sector = (s.bio.buf b).sector
    · rw [hk.1, hk.2, store_self]
      exact h.written p b hpc hd
    · rw [store_of_ne A _ hk]
      apply h.settled dev sector
      intro q b' hq hkey
      by_cases hqp : q = p
      · rw [hqp, hpc] at hq
        rw [← BufPc.writing.inj hq] at hkey
        exact hk hkey
      · exact hno q b' ((update_of_ne hqp ..).trans hq) hkey
  · intro q b' hq hd'
    exact h.written q b' (hw q b' hq).1 hd'

theorem Mirrors.brelse (h : s.Mirrors qs A) (hi : s.Inv order qs) (hpc : s.pc p = .user)
    (hb : b ∈ s.held p) (hq : b ∉ qs) (hc : s.changed b = false)
    (next prev : BufRef NBUF → Option (BufRef NBUF)) (clock : ℕ) (released : Fin NBUF → ℕ) :
    Mirrors { s with
      bio := { s.bio with next := next, prev := prev }.setBuf b { s.bio.buf b with busy := false }
      pc := fun q => (s.pc q).woken
      held := update s.held p ((s.held p).erase b)
      clock := clock
      released := released } qs A := by
  have hown : b ∈ s.owned p := mem_owned_of_held hb
  have hwr : ∀ q, s.pc q ≠ .writing b := by
    apply hi.not_writing hown
    intro hp
    rw [hpc] at hp
    cases hp
  have hbuf := h.setBuf (x := { s.bio.buf b with busy := false }) hq hwr
    (h.range b (.inl (hi.owners.busy p b hown))) (h.changed b) (h.not_dirty hwr)
    (fun _ => h.valid p b hb) (h.clean b)
  rw [update_eq_self] at hbuf
  have hwoken : ∀ q b', (s.pc q).woken = .writing b' ↔ s.pc q = .writing b' := by
    intro q b'
    cases s.pc q <;> simp [BufPc.woken]
  refine ⟨hbuf.cmd, ?_, hbuf.range, ?_, ?_, ?_, hbuf.clean, ?_, ?_⟩
  · intro q dev sector hq'
    refine h.wanted q dev sector ?_
    cases hx : s.pc q <;> simp [hx, BufPc.woken] at hq' ⊢ <;> exact hq'
  · intro b' hb'
    have hbb : b' ≠ b := by
      rintro rfl
      exact absurd (hb'.symm.trans hc) (Ne.symm Bool.false_ne_true)
    obtain ⟨q, hq'⟩ := h.changed b' hb'
    refine ⟨q, ?_⟩
    by_cases hqp : q = p
    · subst hqp
      dsimp only
      rw [update_self]
      exact (List.mem_erase_of_ne hbb).mpr hq'
    · dsimp only
      rw [update_of_ne hqp]
      exact hq'
  · intro b' hb'
    obtain ⟨q, hq'⟩ := hbuf.dirty b' hb'
    exact ⟨q, (hwoken q b').mpr hq'⟩
  · intro q b' hb'
    refine hbuf.valid q b' ?_
    dsimp only at hb'
    by_cases hqp : q = p
    · subst hqp
      rw [update_self] at hb'
      exact List.mem_of_mem_erase hb'
    · rw [update_of_ne hqp] at hb'
      exact hb'
  · intro dev sector hno
    apply hbuf.settled dev sector
    intro q b' hq'
    exact hno q b' ((hwoken q b').mpr hq')
  · intro q b' hq' hd
    exact hbuf.written q b' ((hwoken q b').mp hq') hd

omit [DecidableEq P] in
/-- The disk has carried out the request for `b`: the parts of the invariant that are about
the flags. -/
theorem Mirrors.finish (h : s.Mirrors (b :: qs') A) (hi : s.Inv order (b :: qs')) {x : Buf D}
    (hv : x.valid = true) (hx : x.dirty = false) (hdev : x.dev = (s.bio.buf b).dev)
    (hsector : x.sector = (s.bio.buf b).sector)
    (hclean : s.changed b = false → x.data = A x.dev x.sector)
    (hsettled : ∀ dev sector, (∀ p b', s.pc p = .writing b' →
      ¬ (dev = (s.bio.buf b').dev ∧ sector = (s.bio.buf b').sector)) →
      disk dev sector = s.bio.disk dev sector)
    (hwritten : ∀ p, s.pc p = .writing b → disk x.dev x.sector = x.data)
    (hother : ∀ b' ≠ b, ∀ p, b' ∈ s.owned p →
      disk (s.bio.buf b').dev (s.bio.buf b').sector =
        s.bio.disk (s.bio.buf b').dev (s.bio.buf b').sector) :
    Mirrors { s with bio := { s.bio with
      buf := update s.bio.buf b x
      ideQueue := qs'.head?
      cmd := qs'.head?.map fun b' => Bio.request (s.bio.buf b')
      started := s.bio.started ++ qs'.head?.toList
      disk := disk } } qs' A := by
  obtain ⟨p, hp⟩ := hi.waits b List.mem_cons_self
  have hbusy := hi.owners.busy p b (hi.mem_owned_of_waits hp)
  refine ⟨?_, h.wanted, ?_, h.changed, ?_, ?_, ?_, ?_, ?_⟩
  · cases hh : qs'.head? with
    | none => rfl
    | some b' =>
      have hne : b' ≠ b := fun hbb =>
        (List.nodup_cons.mp hi.queued.nodup).1 (hbb ▸ List.mem_of_head? hh)
      simp [update_of_ne hne]
  · intro b' hb'
    simp only [Bio.inUse] at hb' ⊢
    by_cases hbb : b' = b
    · rw [hbb, update_self, hdev, hsector]
      exact h.range b (.inl hbusy)
    · rw [update_of_ne hbb] at hb' ⊢
      exact h.range b' hb'
  · intro b' hb'
    dsimp only at hb'
    by_cases hbb : b' = b
    · rw [hbb, update_self, hx] at hb'
      cases hb'
    · rw [update_of_ne hbb] at hb'
      exact h.dirty b' hb'
  · intro q b' hb'
    dsimp only
    by_cases hbb : b' = b
    · rw [hbb, update_self]
      exact hv
    · rw [update_of_ne hbb]
      exact h.valid q b' hb'
  · intro b' hb' hc
    dsimp only at hb' hc ⊢
    by_cases hbb : b' = b
    · rw [hbb] at hc ⊢
      rw [update_self]
      exact hclean hc
    · rw [update_of_ne hbb] at hb' ⊢
      exact h.clean b' hb' hc
  · intro dev sector hno
    have hno' : ∀ q b', s.pc q = .writing b' →
        ¬ (dev = (s.bio.buf b').dev ∧ sector = (s.bio.buf b').sector) := by
      intro q b' hq
      have hk := hno q b' hq
      dsimp only at hk
      by_cases hbb : b' = b
      · rw [hbb, update_self, hdev, hsector] at hk
        rw [hbb]
        exact hk
      · rw [update_of_ne hbb] at hk
        exact hk
    exact (hsettled dev sector hno').trans (h.settled dev sector hno')
  · intro q b' hq hd
    dsimp only at hd ⊢
    by_cases hbb : b' = b
    · rw [hbb] at hq ⊢
      rw [update_self]
      exact hwritten q hq
    · rw [update_of_ne hbb] at hd ⊢
      rw [hother b' hbb q (mem_owned_of_held (hi.writer q b' hq))]
      exact h.written q b' hq hd

omit [DecidableEq P] in
theorem Mirrors.ideIntr (h : s.Mirrors (b :: qs') A) (hi : s.Inv order (b :: qs')) :
    Mirrors { s with bio := { s.bio with
      buf := update s.bio.buf b (Queued.finished (s.bio.buf b) s.bio.perform.1)
      ideQueue := qs'.head?
      cmd := qs'.head?.map fun b' => Bio.request (s.bio.buf b')
      started := s.bio.started ++ qs'.head?.toList
      disk := s.bio.perform.2 } } qs' A := by
  obtain ⟨p, hp⟩ := hi.waits b List.mem_cons_self
  have hown := hi.mem_owned_of_waits hp
  rw [h.perform (.inl (hi.owners.busy p b hown))]
  by_cases hd : (s.bio.buf b).dirty = true
  · -- a write: the buffer keeps its data, the disk gets it
    obtain ⟨w, hw⟩ := h.dirty b hd
    rw [if_pos hd]
    have hdata : (Queued.finished (s.bio.buf b) none).data = (s.bio.buf b).data := by
      simp [Queued.finished, hd]
    refine h.finish hi rfl rfl rfl rfl ?_ ?_ ?_ ?_
    · intro hc
      rw [hdata]
      exact h.clean b (h.valid w b (hi.writer w b hw)) hc
    · intro dev sector hno
      exact store_of_ne s.bio.disk _ (hno w b hw)
    · intro _ _
      rw [hdata]
      exact store_self ..
    · intro b' hbb q hq
      exact store_of_ne s.bio.disk _ (hi.ne_sector hq hown hbb)
  · -- a read: its sector is not being written
    have hnw : ∀ q, s.pc q ≠ .writing b := by
      intro q hq
      exact hd (hi.unfinished b List.mem_cons_self (h.valid q b (hi.writer q b hq)))
    rw [if_neg hd]
    refine h.finish hi rfl rfl rfl rfl ?_ (fun _ _ _ => rfl) (fun q hq => absurd hq (hnw q))
      (fun _ _ _ _ => rfl)
    intro _
    simp only [Queued.finished, hd, Bool.false_eq_true, if_false, Option.getD_some]
    apply h.settled
    intro q b' hq
    have hbb : b ≠ b' := fun hbb => hnw q (hbb ▸ hq)
    exact hi.ne_sector hown (mem_owned_of_held (hi.writer q b' hq)) hbb

theorem not_wanted (hx : x = .user ∨ x = .got b ∨ x = .reading b) (dev sector : ℕ)
    (h : x = .bget dev sector ∨ x = .asleep dev sector) : Addressable dev sector := by
  rcases hx with rfl | rfl | rfl <;> rcases h with h | h <;> cases h

/-- What holds along the runs of sessions, when `disk` is what the disks have at the start. -/
structure Clear (disk : ℕ → ℕ → D) (s : Cache NBUF P D) (order qs : List (Fin NBUF)) : Prop where
  inv : s.Inv order qs
  mirrors : s.Mirrors qs (plainArray disk s.trace)
  consistent : Consistent disk s.trace

theorem Clear.breadReturn (h : Clear disk s order qs) (ht : (s.pc p).takes = some b)
    (hv : (s.bio.buf b).valid = true) (hi : (s.breadReturn p b).Inv order qs) :
    Clear disk (s.breadReturn p b) order qs := by
  have hp : ∀ b', s.pc p ≠ .writing b' := by
    intro b' hp
    rw [hp] at ht
    cases ht
  have hvalid : ∀ b' ∈ b :: s.held p, (s.bio.buf b').valid = true := by
    intro b' hb'
    rcases List.mem_cons.mp hb' with rfl | hb'
    · exact hv
    · exact h.mirrors.valid p b' hb'
  have hclean := h.mirrors.clean b hv (h.mirrors.unchanged h.inv ht)
  refine ⟨hi, ?_, hclean, h.consistent⟩
  exact h.mirrors.setPc hp (fun b' hb' => by cases hb') (not_wanted (.inl rfl) (b := b))
    (List.subset_cons_self ..) hvalid _

theorem Clear.step (h : Clear disk s order qs) (ha : a.Addressed) (hs : SessionStep s a s') :
    ∃ order' qs', Clear disk s' order' qs' := by
  obtain ⟨order', qs', hm⟩ := h.inv.moves hs.1
  have hinv := hm.inv h.inv
  refine ⟨order', qs', ?_⟩
  have hse := hs.2
  cases hm with
  | bread hpc =>
    refine ⟨hinv, h.mirrors.goto (by simp [hpc]) (by simp) ?_, h.consistent⟩
    rintro _ _ (h' | h') <;> cases h'
    exact ha
  | sleep hpc =>
    refine ⟨hinv, h.mirrors.goto (by simp [hpc]) (by simp) ?_, h.consistent⟩
    rintro _ _ (h' | h') <;> cases h'
    exact h.mirrors.wanted _ _ _ (.inl hpc)
  | wake hpc =>
    refine ⟨hinv, h.mirrors.goto (by simp [hpc]) (by simp) ?_, h.consistent⟩
    rintro _ _ (h' | h') <;> cases h'
    exact h.mirrors.wanted _ _ _ (.inr hpc)
  | got hpc hg => exact ⟨hinv, h.mirrors.got h.inv hpc hg, h.consistent⟩
  | hit hpc hv => exact h.breadReturn (by rw [hpc]; rfl) hv hinv
  | @miss p b q qnext hpc hv hq hqd =>
    have key := (h.mirrors.enqueue q qnext b).goto (p := p) (x := .reading b) (by simp [hpc])
      (by simp) (not_wanted (.inr (.inr rfl)))
    refine ⟨hinv, ?_, h.consistent⟩
    unfold requested
    rwa [update_eq_self]
  | @modify p b data hpc hb hq =>
    have hw : ∀ q, s.pc q ≠ .writing b :=
      h.inv.not_writing (mem_owned_of_held hb) (by simp [hpc])
    have hbusy := h.inv.owners.busy p b (mem_owned_of_held hb)
    exact ⟨hinv, h.mirrors.setBuf (x := { s.bio.buf b with data := data }) hq hw
      (h.mirrors.range b (.inl hbusy)) (fun _ => ⟨p, hb⟩) (h.mirrors.not_dirty hw)
      (fun _ => h.mirrors.valid p b hb) (fun _ hc => absurd hc.symm Bool.false_ne_true),
      h.consistent⟩
  | @bwrite p b q qnext hpc hb hq hqd =>
    have key := (h.mirrors.bwrite hpc hq).enqueue q qnext b
    refine ⟨hinv, ?_, h.consistent⟩
    unfold requested
    simp only [Bio.setBuf, update_self] at key
    exact key
  | read hpc hv hd => exact h.breadReturn (by rw [hpc]; rfl) hv hinv
  | wrote hpc hv hd => exact ⟨hinv, h.mirrors.wrote h.inv hpc hd, h.consistent⟩
  | brelse hpc hb hq hl =>
    exact ⟨hinv, h.mirrors.brelse h.inv hpc hb hq hse _ _ _ _, h.consistent⟩
  | spurious hq =>
    subst hq
    have hcmd : s.bio.cmd = none := h.mirrors.cmd
    have hdisk : s.bio.perform.2 = s.bio.disk := by
      unfold Bio.perform
      rw [hcmd]
    rw [hdisk] at hinv ⊢
    exact ⟨hinv, h.mirrors, h.consistent⟩
  | ideIntr hq =>
    subst hq
    exact ⟨hinv, h.mirrors.ideIntr h.inv, h.consistent⟩

omit [DecidableEq P] in
theorem clear_start {z : D} {disk1Present : Bool}
    (h : (Bio.zero z disk1Present disk).binit = .ok bio) :
    Clear disk (Cache.start P bio) (List.finRange NBUF).reverse [] := by
  refine ⟨inv_start h, ?_, trivial⟩
  obtain ⟨next, prev, hb, -⟩ := Bio.binit_ok (Bio.zero z disk1Present disk : Bio NBUF D)
  obtain rfl := Except.ok.inj (hb.symm.trans h)
  refine ⟨rfl, ?_, ?_, ?_, ?_, ?_, ?_, fun _ _ _ => rfl, ?_⟩
  · rintro p dev sector (hp | hp) <;> cases hp
  · rintro b (hb | hb) <;> cases hb
  · intro b hb
    cases hb
  · intro b hb
    cases hb
  · intro p b hb
    cases hb
  · intro b hb
    cases hb
  · intro p b hp
    cases hp

end Cache

/-- For any number of buffers and clients and any disks, in every run of sessions on
addressable sectors: each `bread` has returned what was last passed to `bwrite` for its
sector, or else what the disk had at the start; and when `bwrite` returns, the disk has the
data of the buffer. -/
theorem cache_transparent {z : D} {disk1Present : Bool} {disk : ℕ → ℕ → D} {bio : Bio NBUF D}
    (h₀ : (Bio.zero z disk1Present disk).binit = .ok bio) {s : Cache NBUF P D}
    (hr : Reach (fun s a s' => SessionStep s a s' ∧ BufOp.Addressed a) (Cache.start P bio) s) :
    Consistent disk s.trace ∧
    ∀ p b s', s.pc p = .writing b → CacheStep s (.wait p) s' →
      s'.bio.disk (s'.bio.buf b).dev (s'.bio.buf b).sector = (s'.bio.buf b).data := by
  obtain ⟨order, qs, h⟩ : ∃ order qs, Cache.Clear disk s order qs := by
    apply hr.invariant ⟨_, _, Cache.clear_start h₀⟩
    rintro s a s' ⟨order, qs, h⟩ hs
    exact h.step hs.2 hs.1
  refine ⟨h.consistent, ?_⟩
  intro p b s' hp hs
  obtain ⟨order', qs', hm⟩ := h.inv.moves hs
  cases hm with
  | read hpc =>
    rw [hp] at hpc
    cases hpc
  | wrote hpc hv hd =>
    obtain rfl := BufPc.writing.inj (hp.symm.trans hpc)
    exact h.mirrors.written p b hp hd

/-- The state after a step of a session. -/
def Cache.sessionNext? (s : Cache NBUF P D) (a : BufOp NBUF P D) : Option (Cache NBUF P D) :=
  if s.Session a then s.next? a else none

theorem Cache.sessionStep_of_next? (h : s.sessionNext? a = some s') : SessionStep s a s' := by
  unfold sessionNext? at h
  split_ifs at h with hs
  exact ⟨Cache.step_of_next? h, hs⟩

def Cache.addressedNext? (s : Cache NBUF P D) (a : BufOp NBUF P D) : Option (Cache NBUF P D) :=
  if a.Addressed then s.sessionNext? a else none

theorem Cache.reach_of_addressedNext? (h : s.addressedNext? a = some s') :
    Reach (fun s a s' => SessionStep s a s' ∧ BufOp.Addressed a) s s' := by
  unfold addressedNext? at h
  split_ifs at h with ha
  exact .next .start ⟨Cache.sessionStep_of_next? h, ha⟩

/-- A process reads a block, changes it, writes it and releases the buffer. -/
def writeAndRelease (p : P) (b : Fin NBUF) (dev sector : ℕ) (data : D) : List (BufOp NBUF P D) :=
  [.bread p dev sector, .bget p, .check p, .ideIntr, .wait p, .modify p b data, .bwrite p b,
    .ideIntr, .wait p, .brelse p b]

/-- With one buffer, a block that was written is evicted by another process and read again. -/
theorem cache_transparent_evicted :
    ∃ (bio : Bio 1 ℕ) (s : Cache 1 (Fin 2) ℕ),
      (Bio.zero 0 false fun _ sector => sector).binit = .ok bio ∧
      Reach (fun s a s' => SessionStep s a s' ∧ BufOp.Addressed a) (Cache.start (Fin 2) bio) s ∧
      s.trace = [.read 0 5 42, .read 0 6 6, .wrote 0 5 42, .read 0 5 5] ∧
      Consistent (fun _ sector => sector) s.trace := by
  obtain ⟨bio, h₀, hbio⟩ := exists_ok_of_any
    (x := (Bio.zero 0 false fun _ sector => sector : Bio 1 ℕ).binit)
    (P := fun bio => (List.foldlM Cache.addressedNext? (Cache.start (Fin 2) bio)
      (writeAndRelease 0 0 0 5 42 ++ readAndRelease 1 0 0 6 ++ readAndRelease 0 0 0 5)).any
        fun (s : Cache 1 (Fin 2) ℕ) =>
          decide (s.trace = [.read 0 5 42, .read 0 6 6, .wrote 0 5 42, .read 0 5 5]))
    (by decide +kernel)
  obtain ⟨s, hr, hs⟩ := exists_reach_of_any (fun _ _ _ => Cache.reach_of_addressedNext?) hbio
  exact ⟨bio, s, h₀, hr, of_decide_eq_true hs, (cache_transparent h₀ hr).1⟩

/-- Sector `2 ^ 28` is not addressable: the data `bread` returns for it is that of sector 0. -/
theorem far_sector_aliases :
    ∃ (bio : Bio 10 ℕ) (s : Cache 10 (Fin 1) ℕ),
      (Bio.zero 0 false fun _ sector => sector).binit = .ok bio ∧
      Reach SessionStep (Cache.start (Fin 1) bio) s ∧ s.trace = [.read 0 (2 ^ 28) 0] ∧
      ¬ Consistent (fun _ sector => sector) s.trace := by
  obtain ⟨bio, h₀, hbio⟩ := exists_ok_of_any
    (x := (Bio.zero 0 false fun _ sector => sector : Bio 10 ℕ).binit)
    (P := fun bio => (List.foldlM Cache.sessionNext? (Cache.start (Fin 1) bio)
      (readAndRelease 0 0 0 (2 ^ 28))).any fun (s : Cache 10 (Fin 1) ℕ) =>
        decide (s.trace = [.read 0 (2 ^ 28) 0])) (by decide +kernel)
  obtain ⟨s, hr, hs⟩ := exists_reach_of_any
    (fun _ _ _ h => .next .start (Cache.sessionStep_of_next? h)) hbio
  have htrace := of_decide_eq_true hs
  refine ⟨bio, s, h₀, hr, htrace, ?_⟩
  rw [htrace]
  intro hc
  exact absurd hc.1 (by decide)

end Xv6Shed
