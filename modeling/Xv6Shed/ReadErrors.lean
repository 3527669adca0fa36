import Xv6Shed.Transparency

/-!
# Read commands that fail

`ide_intr` leaves the data of the buffer alone if the controller reports an error, and marks the
buffer valid all the same. Clients call `bread`, `bwrite` with new data, and `brelse`; as long as
no read fails, what is valid and not dirty is on the disk.
-/

namespace Xv6Shed
open Function Linked Transition

variable {NBUF : ℕ} {P D : Type} [DecidableEq P]

/-- What happens to the cache -/
inductive DiskAct (NBUF : ℕ) (P D : Type) where
  /-- any step but a store to a buffer -/
  | call (a : BufOp NBUF P D)
  /-- the owner of a buffer stores its data and calls `bwrite` -/
  | bwrite (p : P) (b : Fin NBUF) (data : D)
  /-- the interrupt of a read command that failed -/
  | readError

def BufOp.isModify : BufOp NBUF P D → Bool
  | .modify _ _ _ => true
  | _ => false

def DiskCmd.isRead : DiskCmd D → Bool
  | .read _ _ => true
  | .write _ _ _ => false

namespace Cache

def act (s : Cache NBUF P D) : DiskAct NBUF P D → Option (Cache NBUF P D)
  | .call a => if a.isModify then none else s.next? a
  | .bwrite p b data => (s.next? (.modify p b data)).bind fun s => s.next? (.bwrite p b)
  | .readError =>
    if s.bio.cmd.any DiskCmd.isRead then some { s with bio := s.bio.ideIntrWith true } else none

/-- One step of a cache whose read commands may fail -/
def Act (s : Cache NBUF P D) (a : DiskAct NBUF P D) (s' : Cache NBUF P D) : Prop :=
  s.act a = some s'

end Cache

/-- No read fails, and sectors are those a command can name. -/
def DiskAct.Good : DiskAct NBUF P D → Prop
  | .call a => a.Addressed
  | .bwrite _ _ _ => True
  | .readError => False

namespace Cache

variable {s s' : Cache NBUF P D} {order qs : List (Fin NBUF)} {p : P} {b : Fin NBUF}
  {disk : ℕ → ℕ → D} {a : BufOp NBUF P D}

/-- Only a buffer that is being written has data that its owner has stored. -/
def Prompt (s : Cache NBUF P D) : Prop := ∀ b, s.changed b = true → ∃ p, s.pc p = .writing b

theorem Prompt.goto (h : s.Prompt) {x : BufPc NBUF} (hp : ∀ b, s.pc p ≠ .writing b) (b : Fin NBUF)
    (hb : s.changed b = true) : ∃ q, update s.pc p x q = .writing b := by
  obtain ⟨q, hq⟩ := h b hb
  have hne : q ≠ p := by
    rintro rfl
    exact hp b hq
  exact ⟨q, by rw [update_of_ne hne]; exact hq⟩

omit [DecidableEq P] in
theorem writing_woken (x : BufPc NBUF) : x.woken = .writing b ↔ x = .writing b := by
  cases x <;> simp [BufPc.woken]

theorem Prompt.moves {order' qs' : List (Fin NBUF)} (h : s.Prompt) (ha : a.isModify = false)
    (hm : Moves s order qs a s' order' qs') : s'.Prompt := by
  cases hm with
  | bread hpc => exact h.goto (by simp [hpc])
  | sleep hpc => exact h.goto (by simp [hpc])
  | wake hpc => exact h.goto (by simp [hpc])
  | got hpc hg => exact h.goto (by simp [hpc])
  | hit hpc hv => exact h.goto (by simp [hpc])
  | miss hpc hv hq hqd => exact h.goto (by simp [hpc])
  | modify hpc hb hq => cases ha
  | bwrite hpc hb hq hqd => exact h.goto (by simp [hpc])
  | read hpc hv hd => exact h.goto (by simp [hpc])
  | @wrote p b hpc hv hd =>
    intro b' hb'
    have hbb : b' ≠ b := by
      rintro rfl
      simp [bwriteReturn] at hb'
    obtain ⟨q, hq⟩ := h b' (by simpa [bwriteReturn, hbb] using hb')
    have hne : q ≠ p := by
      rintro rfl
      exact hbb (BufPc.writing.inj (hq.symm.trans hpc))
    exact ⟨q, by simp [bwriteReturn, hne, hq]⟩
  | brelse hpc hb hq hl =>
    intro b' hb'
    obtain ⟨q, hq⟩ := h b' hb'
    exact ⟨q, (writing_woken _).mpr hq⟩
  | spurious hq => exact h
  | ideIntr hq => exact h

theorem Prompt.session (h : s.Prompt) (hi : s.Inv order qs) (hs : CacheStep s a s') :
    s.Session a := by
  cases a with
  | brelse p b =>
    obtain ⟨order', qs', hm⟩ := hi.moves hs
    cases hm with
    | brelse hpc hb hq hl =>
      change s.changed b = false
      by_contra hc
      obtain ⟨q, hq⟩ := h b (by simpa using hc)
      exact hi.not_writing (mem_owned_of_held hb) (by simp [hpc]) q hq
  | _ => trivial

/-- What holds as long as no read fails -/
structure Settled (disk : ℕ → ℕ → D) (s : Cache NBUF P D) : Prop where
  clear : ∃ order qs, Clear disk s order qs
  prompt : s.Prompt

theorem Settled.call (h : Settled disk s) (ha : a.Addressed) (hmod : a.isModify = false)
    (hs : CacheStep s a s') : Settled disk s' := by
  obtain ⟨order, qs, hc⟩ := h.clear
  obtain ⟨order', qs', hm⟩ := hc.inv.moves hs
  exact ⟨hc.step ha ⟨hs, h.prompt.session hc.inv hs⟩, h.prompt.moves hmod hm⟩

theorem Settled.bwrite (h : Settled disk s) {s₁ : Cache NBUF P D} {data : D}
    (h₁ : CacheStep s (.modify p b data) s₁) (h₂ : CacheStep s₁ (.bwrite p b) s') :
    Settled disk s' := by
  obtain ⟨order, qs, hc⟩ := h.clear
  obtain ⟨order₁, qs₁, hc₁⟩ := hc.step (a := .modify p b data) trivial ⟨h₁, trivial⟩
  refine ⟨hc₁.step (a := .bwrite p b) trivial ⟨h₂, trivial⟩, ?_⟩
  obtain ⟨_, _, hm₁⟩ := hc.inv.moves h₁
  obtain ⟨_, _, hm₂⟩ := hc₁.inv.moves h₂
  cases hm₁ with
  | modify hpc hb hq =>
    cases hm₂ with
    | bwrite hpc' hb' hq' hqd =>
      intro b' hb''
      by_cases hbb : b' = b
      · subst hbb
        exact ⟨p, update_self ..⟩
      · dsimp only at hb''
        rw [update_of_ne hbb] at hb''
        exact h.prompt.goto (by simp [hpc]) b' hb''

theorem Settled.act (h : Settled disk s) {a : DiskAct NBUF P D} (ha : a.Good) (hs : s.Act a s') :
    Settled disk s' := by
  unfold Act Cache.act at hs
  cases a with
  | call a =>
    dsimp only at hs
    split_ifs at hs with hmod
    exact h.call ha (by simpa using hmod) (step_of_next? hs)
  | bwrite p b data =>
    obtain ⟨s₁, h₁, h₂⟩ := Option.bind_eq_some_iff.mp hs
    exact h.bwrite (step_of_next? h₁) (step_of_next? h₂)
  | readError => exact absurd ha id

omit [DecidableEq P] in
theorem Settled.data (h : Settled disk s) (hv : (s.bio.buf b).valid = true)
    (hd : (s.bio.buf b).dirty = false) :
    (s.bio.buf b).data = s.bio.disk (s.bio.buf b).dev (s.bio.buf b).sector := by
  obtain ⟨order, qs, hc⟩ := h.clear
  by_cases hw : ∃ p, s.pc p = .writing b
  · -- the write is done and `bwrite` has not returned yet
    obtain ⟨p, hp⟩ := hw
    exact (hc.mirrors.written p b hp hd).symm
  · have hunchanged : s.changed b = false := by
      by_contra hch
      exact hw (h.prompt b (by simpa using hch))
    rw [hc.mirrors.clean b hv hunchanged, hc.mirrors.settled]
    rintro q b' hq ⟨hdev, hsector⟩
    have hbusy := hc.inv.owners.busy q b' (mem_owned_of_held (hc.inv.writer q b' hq))
    have hbb := hc.inv.unique b b' (.inr hv) (.inl hbusy) hdev hsector
    exact hw ⟨q, hbb ▸ hq⟩

end Cache

/-- For any number of buffers, processes and interleavings: in every run on addressable sectors
without read errors, every buffer that is valid and not dirty has the content of its sector. -/
theorem valid_buffers_on_disk {z : D} {disk1Present : Bool} {disk : ℕ → ℕ → D} {bio : Bio NBUF D}
    (h₀ : (Bio.zero z disk1Present disk).binit = .ok bio) {s : Cache NBUF P D}
    (hr : Reach (fun s a s' => Cache.Act s a s' ∧ DiskAct.Good a) (Cache.start P bio) s)
    (b : Fin NBUF) (hv : (s.bio.buf b).valid = true) (hd : (s.bio.buf b).dirty = false) :
    (s.bio.buf b).data = s.bio.disk (s.bio.buf b).dev (s.bio.buf b).sector := by
  have hs : Cache.Settled disk s := by
    apply hr.invariant (P := Cache.Settled disk)
    · refine ⟨⟨_, _, Cache.clear_start h₀⟩, ?_⟩
      intro b hb
      cases hb
    · exact fun s a s' h ha => h.act ha.2 ha.1
  exact hs.data hv hd

/-- The step, if no read fails -/
def Cache.goodAct (s : Cache NBUF P D) (a : DiskAct NBUF P D) : Option (Cache NBUF P D) :=
  match a with
  | .call a => if a.Addressed then s.act (.call a) else none
  | .bwrite p b data => s.act (.bwrite p b data)
  | .readError => none

theorem Cache.reach_of_goodAct {s s' : Cache NBUF P D} {a : DiskAct NBUF P D}
    (h : s.goodAct a = some s') :
    Reach (fun s a s' => Cache.Act s a s' ∧ DiskAct.Good a) s s' := by
  cases a with
  | call a =>
    unfold goodAct at h
    dsimp only at h
    split_ifs at h with ha
    exact .next .start ⟨h, ha⟩
  | bwrite p b data => exact .next (a := .bwrite p b data) .start ⟨h, trivial⟩
  | readError => cases h

/-- Sector 5 is written with new data and stays in the cache. -/
theorem valid_buffers_on_disk_written :
    ∃ (bio : Bio 1 ℕ) (s : Cache 1 Unit ℕ),
      (Bio.zero 0 false fun _ sector => sector).binit = .ok bio ∧
      Reach (fun s a s' => Cache.Act s a s' ∧ DiskAct.Good a) (Cache.start Unit bio) s ∧
      (s.bio.buf 0).valid = true ∧ (s.bio.buf 0).dirty = false ∧ (s.bio.buf 0).data = 42 ∧
      (s.bio.buf 0).data = s.bio.disk (s.bio.buf 0).dev (s.bio.buf 0).sector := by
  obtain ⟨bio, h₀, hbio⟩ := exists_ok_of_any
    (x := (Bio.zero 0 false fun _ sector => sector : Bio 1 ℕ).binit)
    (P := fun bio => (List.foldlM Cache.goodAct (Cache.start Unit bio)
      [.call (.bread () 0 5), .call (.bget ()), .call (.check ()), .call .ideIntr, .call (.wait ()),
        .bwrite () 0 42, .call .ideIntr]).any fun (s : Cache 1 Unit ℕ) =>
        decide ((s.bio.buf 0).valid = true ∧ (s.bio.buf 0).dirty = false ∧ (s.bio.buf 0).data = 42))
    (by decide +kernel)
  obtain ⟨s, hr, hs⟩ := exists_reach_of_any (fun _ _ _ => Cache.reach_of_goodAct) hbio
  obtain ⟨hv, hd, h42⟩ := of_decide_eq_true hs
  exact ⟨bio, s, h₀, hr, hv, hd, h42, valid_buffers_on_disk h₀ hr 0 hv hd⟩

/-- The only buffer is recycled from sector 5 for sector 7, and the read fails: `bread` returns
the data of sector 5 for sector 7. -/
theorem failed_read_valid :
    ∃ (bio : Bio 1 ℕ) (s : Cache 1 Unit ℕ),
      (Bio.zero 0 false fun _ sector => sector).binit = .ok bio ∧
      Reach Cache.Act (Cache.start Unit bio) s ∧
      s.trace = [.read 0 7 5, .read 0 5 5] ∧ (s.bio.buf 0).valid = true ∧
      (s.bio.buf 0).dirty = false ∧
      (s.bio.buf 0).data ≠ s.bio.disk (s.bio.buf 0).dev (s.bio.buf 0).sector := by
  obtain ⟨bio, h₀, hbio⟩ := exists_ok_of_any
    (x := (Bio.zero 0 false fun _ sector => sector : Bio 1 ℕ).binit)
    (P := fun bio => (List.foldlM Cache.act (Cache.start Unit bio)
      ((readAndRelease () 0 0 5).map .call ++
        [.call (.bread () 0 7), .call (.bget ()), .call (.check ()), .readError,
          .call (.wait ())])).any fun (s : Cache 1 Unit ℕ) =>
        decide (s.trace = [.read 0 7 5, .read 0 5 5] ∧ (s.bio.buf 0).valid = true ∧
          (s.bio.buf 0).dirty = false ∧
          (s.bio.buf 0).data ≠ s.bio.disk (s.bio.buf 0).dev (s.bio.buf 0).sector))
    (by decide +kernel)
  have hstep : ∀ (s : Cache 1 Unit ℕ) a s', s.act a = some s' → Reach Cache.Act s s' :=
    fun _ a _ h => .next (a := a) .start h
  obtain ⟨s, hr, hs⟩ := exists_reach_of_any hstep hbio
  exact ⟨bio, s, h₀, hr, of_decide_eq_true hs⟩

end Xv6Shed
