import Xv6Shed.BufferList
import Xv6Shed.Transition

/-!
# Processes that use the buffer cache

Any number of processes call `bread`, change the data of the buffers they have, call
`bwrite` and `brelse`. A step is what a process does under `buf_table_lock` or `ide_lock`,
or a store to a buffer it has, or the disk interrupt. The history records when a buffer was
last released, whether its owner has changed it since it last agreed with the disk, and
what `bread` and `bwrite` returned.
-/

namespace Xv6Shed
open Function Linked Transition

/-- Where a process is. -/
inductive BufPc (NBUF : ℕ) where
  /-- outside the cache -/
  | user
  /-- at `loop:` in `bget` -/
  | bget (dev sector : ℕ)
  /-- in `sleep(buf, &buf_table_lock)` -/
  | asleep (dev sector : ℕ)
  /-- in `bread`, when `bget` has returned -/
  | got (b : Fin NBUF)
  /-- in the loop of `ide_rw`, called by `bread` -/
  | reading (b : Fin NBUF)
  /-- in the loop of `ide_rw`, called by `bwrite` -/
  | writing (b : Fin NBUF)
  deriving DecidableEq

/-- What a client sees of the cache. -/
inductive IoEvent (D : Type) where
  /-- `bread(dev, sector)` returned a buffer with this data -/
  | read (dev sector : ℕ) (data : D)
  /-- `bwrite` of a buffer for this sector returned -/
  | wrote (dev sector : ℕ) (data : D)
  deriving DecidableEq

structure Cache (NBUF : ℕ) (P D : Type) where
  bio : Bio NBUF D
  pc : P → BufPc NBUF
  /-- the buffers `bread` has returned and that were not passed to `brelse` -/
  held : P → List (Fin NBUF)
  clock : ℕ
  released : Fin NBUF → ℕ
  changed : Fin NBUF → Bool
  trace : List (IoEvent D)

inductive BufOp (NBUF : ℕ) (P D : Type) where
  | bread (p : P) (dev sector : ℕ)
  | bget (p : P)
  | check (p : P)
  | modify (p : P) (b : Fin NBUF) (data : D)
  | bwrite (p : P) (b : Fin NBUF)
  | wait (p : P)
  | brelse (p : P) (b : Fin NBUF)
  /-- `sleep` returns, also when the process was killed or another channel has its number -/
  | wake (p : P)
  | ideIntr

variable {NBUF : ℕ} {P D : Type} [DecidableEq P]

/-- `wakeup(buf)` -/
def BufPc.woken : BufPc NBUF → BufPc NBUF
  | .asleep dev sector => .bget dev sector
  | pc => pc

namespace Cache

/-- `bread` returns `b` to `p`. -/
def breadReturn (p : P) (b : Fin NBUF) (s : Cache NBUF P D) : Cache NBUF P D :=
  { s with
    pc := update s.pc p .user
    held := update s.held p (b :: s.held p)
    trace := .read (s.bio.buf b).dev (s.bio.buf b).sector (s.bio.buf b).data :: s.trace }

/-- `bwrite(b)` returns to `p`. -/
def bwriteReturn (p : P) (b : Fin NBUF) (s : Cache NBUF P D) : Cache NBUF P D :=
  { s with
    pc := update s.pc p .user
    changed := update s.changed b false
    trace := .wrote (s.bio.buf b).dev (s.bio.buf b).sector (s.bio.buf b).data :: s.trace }

/-- One step, if it is possible. A process passes only buffers it has to `bwrite` and
`brelse`. -/
def exec (s : Cache NBUF P D) : BufOp NBUF P D → Except Fault (Option (Cache NBUF P D))
  | .bread p dev sector =>
    match s.pc p with
    | .user => pure (some { s with pc := update s.pc p (.bget dev sector) })
    | _ => pure none
  | .bget p =>
    match s.pc p with
    | .bget dev sector => do
      let (o, bio) ← s.bio.bget dev sector
      let pc := match o with
        | none => .asleep dev sector
        | some b => .got b
      pure (some { s with bio := bio, pc := update s.pc p pc })
    | _ => pure none
  | .check p =>
    match s.pc p with
    | .got b =>
      if (s.bio.buf b).valid = true then pure (some (s.breadReturn p b))
      else do
        let bio ← s.bio.ideRw b
        pure (some { s with bio := bio, pc := update s.pc p (.reading b) })
    | _ => pure none
  | .modify p b data =>
    match s.pc p with
    | .user =>
      if b ∈ s.held p then
        pure (some { s with
          bio := s.bio.setBuf b { s.bio.buf b with data := data }
          changed := update s.changed b true })
      else pure none
    | _ => pure none
  | .bwrite p b =>
    match s.pc p with
    | .user =>
      if b ∈ s.held p then do
        let bio ← s.bio.bwrite b
        pure (some { s with bio := bio, pc := update s.pc p (.writing b) })
      else pure none
    | _ => pure none
  | .wait p =>
    match s.pc p with
    | .reading b =>
      if (s.bio.buf b).valid = true ∧ (s.bio.buf b).dirty = false then
        pure (some (s.breadReturn p b))
      else pure none
    | .writing b =>
      if (s.bio.buf b).valid = true ∧ (s.bio.buf b).dirty = false then
        pure (some (s.bwriteReturn p b))
      else pure none
    | _ => pure none
  | .brelse p b =>
    match s.pc p with
    | .user =>
      if b ∈ s.held p then do
        let bio ← s.bio.brelse b
        pure (some { s with
          bio := bio
          pc := fun q => (s.pc q).woken
          held := update s.held p ((s.held p).erase b)
          clock := s.clock + 1
          released := update s.released b (s.clock + 1) })
      else pure none
    | _ => pure none
  | .wake p =>
    match s.pc p with
    | .asleep dev sector => pure (some { s with pc := update s.pc p (.bget dev sector) })
    | _ => pure none
  | .ideIntr => pure (some { s with bio := s.bio.ideIntr })

end Cache

def CacheStep (s : Cache NBUF P D) (a : BufOp NBUF P D) (s' : Cache NBUF P D) : Prop :=
  s.exec a = .ok (some s')

/-- The globals as the loader leaves them. -/
def Bio.zero (z : D) (disk1Present : Bool) (disk : ℕ → ℕ → D) : Bio NBUF D where
  buf := fun _ => ⟨false, false, false, 0, 0, z⟩
  next := fun _ => none
  prev := fun _ => none
  ideQueue := none
  qnext := fun _ => none
  disk1Present := disk1Present
  cmd := none
  started := []
  disk := disk

/-- No process has used the cache yet. -/
def Cache.start (P : Type) (bio : Bio NBUF D) : Cache NBUF P D where
  bio := bio
  pc := fun _ => .user
  held := fun _ => []
  clock := 0
  released := fun _ => 0
  changed := fun _ => false
  trace := []

/-- The buffer that `bread` will return -/
def BufPc.takes : BufPc NBUF → Option (Fin NBUF)
  | .got b => some b
  | .reading b => some b
  | _ => none

/-- The buffer whose request is waited for -/
def BufPc.waits : BufPc NBUF → Option (Fin NBUF)
  | .reading b => some b
  | .writing b => some b
  | _ => none

/-- The buffers a process owns: `bget` has returned them and they were not passed to
`brelse`. -/
def Cache.owned (s : Cache NBUF P D) (p : P) : List (Fin NBUF) :=
  (s.pc p).takes.toList ++ s.held p

/-- `b->flags & (B_BUSY|B_VALID)` -/
def Bio.inUse (s : Bio NBUF D) (b : Fin NBUF) : Prop :=
  (s.buf b).busy = true ∨ (s.buf b).valid = true

/-- Resources with owners: what is owned is busy, and it is owned once. -/
structure Ownership {B : Type} (owned : P → List B) (busy : B → Bool) : Prop where
  nodup : ∀ p, (owned p).Nodup
  busy : ∀ p, ∀ b ∈ owned p, busy b = true
  unique : ∀ p p' b, b ∈ owned p → b ∈ owned p' → p = p'

namespace Ownership

variable {B : Type} [DecidableEq B] {owned : P → List B} {busy : B → Bool} {p : P} {b : B}

theorem take (h : Ownership owned busy) (hb : busy b = false) :
    Ownership (update owned p (b :: owned p)) (update busy b true) := by
  have hfree : ∀ q, b ∉ owned q := by
    intro q hq
    rw [h.busy q b hq] at hb
    cases hb
  -- a member of the new lists is `b` at `p`, or an old one
  have hmem : ∀ q b', b' ∈ update owned p (b :: owned p) q → (q = p ∧ b' = b) ∨ b' ∈ owned q := by
    intro q b' hq
    by_cases hqp : q = p
    · subst hqp
      rw [update_self, List.mem_cons] at hq
      exact hq.imp_left fun hb' => ⟨rfl, hb'⟩
    · rw [update_of_ne hqp] at hq
      exact .inr hq
  refine ⟨?_, ?_, ?_⟩
  · intro q
    by_cases hqp : q = p
    · subst hqp
      rw [update_self]
      exact List.nodup_cons.mpr ⟨hfree q, h.nodup q⟩
    · rw [update_of_ne hqp]
      exact h.nodup q
  · intro q b' hq
    by_cases hb' : b' = b
    · rw [hb', update_self]
    · rw [update_of_ne hb']
      exact h.busy q b' ((hmem q b' hq).resolve_left fun hc => hb' hc.2)
  · intro q q' b' hq hq'
    rcases hmem q b' hq with ⟨rfl, rfl⟩ | hold
    · rcases hmem q' b' hq' with ⟨rfl, -⟩ | hold'
      · rfl
      · exact absurd hold' (hfree q')
    · rcases hmem q' b' hq' with ⟨rfl, rfl⟩ | hold'
      · exact absurd hold (hfree q)
      · exact h.unique q q' b' hold hold'

theorem drop (h : Ownership owned busy) (hb : b ∈ owned p) :
    Ownership (update owned p ((owned p).erase b)) (update busy b false) := by
  have hmem : ∀ q b', b' ∈ update owned p ((owned p).erase b) q → b' ∈ owned q ∧ b' ≠ b := by
    intro q b' hq
    by_cases hqp : q = p
    · subst hqp
      rw [update_self] at hq
      exact ((h.nodup q).mem_erase_iff.mp hq).symm
    · rw [update_of_ne hqp] at hq
      refine ⟨hq, ?_⟩
      rintro rfl
      exact hqp (h.unique q p b' hq hb)
  refine ⟨?_, ?_, ?_⟩
  · intro q
    by_cases hqp : q = p
    · subst hqp
      rw [update_self]
      exact (h.nodup q).erase b
    · rw [update_of_ne hqp]
      exact h.nodup q
  · intro q b' hq
    rw [update_of_ne (hmem q b' hq).2]
    exact h.busy q b' (hmem q b' hq).1
  · intro q q' b' hq hq'
    exact h.unique q q' b' (hmem q b' hq).1 (hmem q' b' hq').1

end Ownership

/-- What holds in every state: the ring leads through `order`, most recently released first,
and the queue through `qs`. -/
structure Cache.Inv (s : Cache NBUF P D) (order qs : List (Fin NBUF)) : Prop where
  lru : Lru s.bio order
  recent : order.Pairwise fun b b' =>
    s.released b' < s.released b ∨ (s.released b = 0 ∧ s.released b' = 0)
  clock : ∀ b, s.released b ≤ s.clock
  unique : ∀ b b', s.bio.inUse b → s.bio.inUse b' → (s.bio.buf b).dev = (s.bio.buf b').dev →
    (s.bio.buf b).sector = (s.bio.buf b').sector → b = b'
  owners : Ownership s.owned fun b => (s.bio.buf b).busy
  writer : ∀ p b, s.pc p = .writing b → b ∈ s.held p
  queued : Queued s.bio qs
  unfinished : ∀ b ∈ qs, (s.bio.buf b).valid = true → (s.bio.buf b).dirty = true
  waits : ∀ b ∈ qs, ∃ p, (s.pc p).waits = some b

namespace Cache

variable {s s' : Cache NBUF P D} {a : BufOp NBUF P D} {order qs bs qs' : List (Fin NBUF)} {p : P}
  {b : Fin NBUF} {x : BufPc NBUF} {bio : Bio NBUF D} {dev sector : ℕ} {z : D} {disk1Present : Bool}
  {disk : ℕ → ℕ → D}

omit [DecidableEq P] in
theorem mem_owned_of_held (h : b ∈ s.held p) : b ∈ s.owned p :=
  List.mem_append_right _ h

omit [DecidableEq P] in
theorem mem_owned_of_takes (h : (s.pc p).takes = some b) : b ∈ s.owned p := by
  unfold owned
  rw [h]
  exact List.mem_cons_self

omit [DecidableEq P] in
theorem Inv.mem_owned_of_waits (h : s.Inv order qs) (hw : (s.pc p).waits = some b) :
    b ∈ s.owned p := by
  cases hpc : s.pc p with
  | reading b' =>
    rw [hpc] at hw
    obtain rfl : b' = b := Option.some.inj hw
    exact mem_owned_of_takes (by rw [hpc]; rfl)
  | writing b' =>
    rw [hpc] at hw
    obtain rfl : b' = b := Option.some.inj hw
    exact mem_owned_of_held (h.writer p b' hpc)
  | user => rw [hpc] at hw; cases hw
  | bget dev sector => rw [hpc] at hw; cases hw
  | asleep dev sector => rw [hpc] at hw; cases hw
  | got b' => rw [hpc] at hw; cases hw

omit [DecidableEq P] in
theorem Inv.notMem_queue (h : s.Inv order qs) (hb : b ∈ s.owned p)
    (hw : (s.pc p).waits ≠ some b) : b ∉ qs := by
  intro hq
  obtain ⟨p', hp'⟩ := h.waits b hq
  rw [h.owners.unique p' p b (h.mem_owned_of_waits hp') hb] at hp'
  exact hw hp'

/-- `bio` with a request for `b`, whose contents are now `x`, at the end of the queue `qs`. -/
def requested (bio : Bio NBUF D) (qs : List (Fin NBUF)) (b : Fin NBUF) (x : Buf D)
    (q : Option (Fin NBUF)) (qnext : Fin NBUF → Option (Fin NBUF)) : Bio NBUF D :=
  { bio with
    buf := update bio.buf b x
    ideQueue := q
    qnext := qnext
    cmd := if qs = [] then some (Bio.request x) else bio.cmd
    started := if qs = [] then bio.started ++ [b] else bio.started }

/-- The steps from a state with the ring `order` and the queue `qs`: what they find, and what
they leave. -/
inductive Moves (s : Cache NBUF P D) (order qs : List (Fin NBUF)) :
    BufOp NBUF P D → Cache NBUF P D → List (Fin NBUF) → List (Fin NBUF) → Prop
  | bread {p : P} {dev sector : ℕ} : s.pc p = .user →
      Moves s order qs (.bread p dev sector)
        { s with pc := update s.pc p (.bget dev sector) } order qs
  | sleep {p : P} {dev sector : ℕ} : s.pc p = .bget dev sector →
      Moves s order qs (.bget p) { s with pc := update s.pc p (.asleep dev sector) } order qs
  | wake {p : P} {dev sector : ℕ} : s.pc p = .asleep dev sector →
      Moves s order qs (.wake p) { s with pc := update s.pc p (.bget dev sector) } order qs
  | got {p : P} {dev sector : ℕ} {b : Fin NBUF} {bio : Bio NBUF D} :
      s.pc p = .bget dev sector → Got s.bio order dev sector (some b) bio →
      Moves s order qs (.bget p) { s with bio := bio, pc := update s.pc p (.got b) } order qs
  | hit {p : P} {b : Fin NBUF} : s.pc p = .got b → (s.bio.buf b).valid = true →
      Moves s order qs (.check p) (s.breadReturn p b) order qs
  | miss {p : P} {b : Fin NBUF} {q : Option (Fin NBUF)} {qnext : Fin NBUF → Option (Fin NBUF)} :
      s.pc p = .got b → (s.bio.buf b).valid = false → b ∉ qs →
      Queued (requested s.bio qs b (s.bio.buf b) q qnext) (qs ++ [b]) →
      Moves s order qs (.check p) { s with
        bio := requested s.bio qs b (s.bio.buf b) q qnext
        pc := update s.pc p (.reading b) } order (qs ++ [b])
  | modify {p : P} {b : Fin NBUF} {data : D} : s.pc p = .user → b ∈ s.held p → b ∉ qs →
      Moves s order qs (.modify p b data) { s with
        bio := s.bio.setBuf b { s.bio.buf b with data := data }
        changed := update s.changed b true } order qs
  | bwrite {p : P} {b : Fin NBUF} {q : Option (Fin NBUF)}
      {qnext : Fin NBUF → Option (Fin NBUF)} : s.pc p = .user → b ∈ s.held p → b ∉ qs →
      Queued (requested s.bio qs b { s.bio.buf b with dirty := true } q qnext) (qs ++ [b]) →
      Moves s order qs (.bwrite p b) { s with
        bio := requested s.bio qs b { s.bio.buf b with dirty := true } q qnext
        pc := update s.pc p (.writing b) } order (qs ++ [b])
  | read {p : P} {b : Fin NBUF} : s.pc p = .reading b → (s.bio.buf b).valid = true →
      (s.bio.buf b).dirty = false → Moves s order qs (.wait p) (s.breadReturn p b) order qs
  | wrote {p : P} {b : Fin NBUF} : s.pc p = .writing b → (s.bio.buf b).valid = true →
      (s.bio.buf b).dirty = false → Moves s order qs (.wait p) (s.bwriteReturn p b) order qs
  | brelse {p : P} {b : Fin NBUF} {next prev : BufRef NBUF → Option (BufRef NBUF)} :
      s.pc p = .user → b ∈ s.held p → b ∉ qs →
      Lru { s.bio with next := next, prev := prev } (b :: order.erase b) →
      Moves s order qs (.brelse p b) { s with
        bio := { s.bio with next := next, prev := prev }.setBuf b
          { s.bio.buf b with busy := false }
        pc := fun q => (s.pc q).woken
        held := update s.held p ((s.held p).erase b)
        clock := s.clock + 1
        released := update s.released b (s.clock + 1) } (b :: order.erase b) qs
  | spurious : qs = [] →
      Moves s order qs .ideIntr { s with bio := { s.bio with disk := s.bio.perform.2 } } order []
  | ideIntr {b : Fin NBUF} {qs' : List (Fin NBUF)} : qs = b :: qs' →
      Moves s order qs .ideIntr { s with bio := { s.bio with
        buf := update s.bio.buf b (Queued.finished (s.bio.buf b) s.bio.perform.1)
        ideQueue := qs'.head?
        cmd := qs'.head?.map fun b' => Bio.request (s.bio.buf b')
        started := s.bio.started ++ qs'.head?.toList
        disk := s.bio.perform.2 } } order qs'

theorem Inv.moves (hi : s.Inv order qs) (h : CacheStep s a s') :
    ∃ order' qs', Moves s order qs a s' order' qs' := by
  unfold CacheStep exec at h
  cases a with
  | bread p dev sector =>
    dsimp only at h
    split at h
    · next hpc =>
      cases h
      exact ⟨_, _, .bread hpc⟩
    · cases h
  | wake p =>
    dsimp only at h
    split at h
    · next hpc =>
      cases h
      exact ⟨_, _, .wake hpc⟩
    · cases h
  | bget p =>
    dsimp only at h
    split at h
    · next dev sector hpc =>
      obtain ⟨⟨o, bio⟩, hb, h⟩ := bind_eq_ok.mp h
      have hg := hi.lru.bget hb
      cases h
      cases o with
      | none =>
        cases hg
        exact ⟨_, _, .sleep hpc⟩
      | some b => exact ⟨_, _, .got hpc hg⟩
    · cases h
  | check p =>
    dsimp only at h
    split at h
    · next b hpc =>
      split_ifs at h with hv
      · cases h
        exact ⟨_, _, .hit hpc hv⟩
      · obtain ⟨bio, hb, h⟩ := bind_eq_ok.mp h
        cases h
        have hq : b ∉ qs := hi.notMem_queue (p := p) (mem_owned_of_takes (by rw [hpc]; rfl))
          (by rw [hpc]; exact (Option.some_ne_none b).symm)
        obtain ⟨-, q, qnext, hbio, hq'⟩ := hi.queued.ideRw hq hb
        have hbio' : bio = requested s.bio qs b (s.bio.buf b) q qnext := by
          rw [hbio, requested, update_eq_self]
        rw [hbio'] at hq' ⊢
        exact ⟨_, _, .miss hpc (by simpa using hv) hq hq'⟩
    · cases h
  | modify p b data =>
    dsimp only at h
    split at h
    · next hpc =>
      split_ifs at h with hb
      · cases h
        exact ⟨_, _, .modify hpc hb (hi.notMem_queue (mem_owned_of_held hb)
          (by rw [hpc]; exact (Option.some_ne_none b).symm))⟩
      · cases h
    · cases h
  | bwrite p b =>
    dsimp only at h
    split at h
    · next hpc =>
      split_ifs at h with hb
      · obtain ⟨bio, hw, h⟩ := bind_eq_ok.mp h
        cases h
        have hq : b ∉ qs := hi.notMem_queue (mem_owned_of_held hb)
          (by rw [hpc]; exact (Option.some_ne_none b).symm)
        have hset : Queued (s.bio.setBuf b { s.bio.buf b with dirty := true }) qs :=
          ⟨hi.queued.head, hi.queued.chain, hi.queued.nodup⟩
        unfold Bio.bwrite at hw
        split_ifs at hw
        obtain ⟨-, q, qnext, hbio, hq'⟩ := hset.ideRw hq hw
        have hbio' : bio = requested s.bio qs b { s.bio.buf b with dirty := true } q qnext := by
          rw [hbio]
          simp only [Bio.setBuf, update_self, requested]
        rw [hbio'] at hq' ⊢
        exact ⟨_, _, .bwrite hpc hb hq hq'⟩
      · cases h
    · cases h
  | wait p =>
    dsimp only at h
    split at h
    · next b hpc =>
      split_ifs at h with hb
      · cases h
        exact ⟨_, _, .read hpc hb.1 hb.2⟩
      · cases h
    · next b hpc =>
      split_ifs at h with hb
      · cases h
        exact ⟨_, _, .wrote hpc hb.1 hb.2⟩
      · cases h
    · cases h
  | brelse p b =>
    dsimp only at h
    split at h
    · next hpc =>
      split_ifs at h with hb
      · obtain ⟨bio, hr, h⟩ := bind_eq_ok.mp h
        cases h
        obtain ⟨next, prev, hr', hl'⟩ :=
          hi.lru.brelse (hi.owners.busy p b (mem_owned_of_held hb))
        cases Except.ok.inj (hr'.symm.trans hr)
        exact ⟨_, _, .brelse hpc hb (hi.notMem_queue (mem_owned_of_held hb)
          (by rw [hpc]; exact (Option.some_ne_none b).symm)) hl'⟩
      · cases h
    · cases h
  | ideIntr =>
    cases h
    cases qs with
    | nil =>
      rw [hi.queued.ideIntr_nil]
      exact ⟨_, _, .spurious rfl⟩
    | cons b qs =>
      rw [hi.queued.ideIntr_cons]
      exact ⟨_, _, .ideIntr rfl⟩

theorem busy_update (buf : Fin NBUF → Buf D) (b : Fin NBUF) (x : Buf D) :
    (fun b' => (update buf b x b').busy) = update (fun b' => (buf b').busy) b x.busy := by
  funext b'
  by_cases hb : b' = b
  · rw [hb, update_self, update_self]
  · rw [update_of_ne hb, update_of_ne hb]

theorem busy_update_same {buf : Fin NBUF → Buf D} {x : Buf D} (hx : x.busy = (buf b).busy) :
    (fun b' => (update buf b x b').busy) = fun b' => (buf b').busy := by
  rw [busy_update, hx]
  exact update_eq_self b fun b' => (buf b').busy

theorem owned_update (hpc : s'.pc = update s.pc p x) (hheld : s'.held = update s.held p bs) :
    s'.owned = update s.owned p (x.takes.toList ++ bs) := by
  funext q
  unfold owned
  rw [hpc, hheld]
  by_cases hq : q = p
  · rw [hq, update_self, update_self, update_self]
  · rw [update_of_ne hq, update_of_ne hq, update_of_ne hq]

theorem owned_goto (hpc : s'.pc = update s.pc p x) (hheld : s'.held = s.held) :
    s'.owned = update s.owned p (x.takes.toList ++ s.held p) := by
  apply owned_update hpc
  rw [hheld, update_eq_self]

section

variable (h : s.Inv order qs)
include h

omit [DecidableEq P] in
theorem Inv.unique_update {x : Buf D} (hu : x.busy = true ∨ x.valid = true → s.bio.inUse b)
    (hdev : x.dev = (s.bio.buf b).dev) (hsector : x.sector = (s.bio.buf b).sector)
    (hbio : bio.buf = update s.bio.buf b x) (b₁ b₂ : Fin NBUF) (h₁ : bio.inUse b₁)
    (h₂ : bio.inUse b₂) (hd : (bio.buf b₁).dev = (bio.buf b₂).dev)
    (hs : (bio.buf b₁).sector = (bio.buf b₂).sector) : b₁ = b₂ := by
  have key : ∀ b', (bio.inUse b' → s.bio.inUse b') ∧ (bio.buf b').dev = (s.bio.buf b').dev ∧
      (bio.buf b').sector = (s.bio.buf b').sector := by
    intro b'
    unfold Bio.inUse
    rw [hbio]
    by_cases hb : b' = b
    · subst hb
      rw [update_self]
      exact ⟨hu, hdev, hsector⟩
    · rw [update_of_ne hb]
      exact ⟨id, rfl, rfl⟩
  refine h.unique b₁ b₂ ((key b₁).1 h₁) ((key b₂).1 h₂) ?_ ?_
  · rw [← (key b₁).2.1, ← (key b₂).2.1, hd]
  · rw [← (key b₁).2.2, ← (key b₂).2.2, hs]

theorem Inv.waits_update (hp : ∀ b ∈ qs, (s.pc p).waits ≠ some b) (x : BufPc NBUF) :
    ∀ b ∈ qs, ∃ q, (update s.pc p x q).waits = some b := by
  intro b hb
  obtain ⟨q, hq⟩ := h.waits b hb
  have hqp : q ≠ p := by
    rintro rfl
    exact hp b hb hq
  exact ⟨q, by rwa [update_of_ne hqp]⟩

theorem Inv.writer_update (hx : ∀ b, x = .writing b → b ∈ bs) (q : P) (b : Fin NBUF)
    (hq : update s.pc p x q = .writing b) : b ∈ update s.held p bs q := by
  by_cases hqp : q = p
  · rw [hqp, update_self] at hq ⊢
    exact hx b hq
  · rw [update_of_ne hqp] at hq ⊢
    exact h.writer q b hq

theorem Inv.writer_goto (hx : ∀ b, x = .writing b → b ∈ s.held p) (q : P) (b : Fin NBUF)
    (hq : update s.pc p x q = .writing b) : b ∈ s.held q := by
  have key := h.writer_update hx q b hq
  rwa [update_eq_self] at key

theorem Inv.setPc (ho : x.takes.toList ++ bs = s.owned p) (hp : ∀ b ∈ qs, (s.pc p).waits ≠ some b)
    (hx : ∀ b, x = .writing b → b ∈ bs) (changed : Fin NBUF → Bool) (trace : List (IoEvent D)) :
    Inv { s with
      pc := update s.pc p x
      held := update s.held p bs
      changed := changed
      trace := trace } order qs where
  lru := h.lru
  recent := h.recent
  clock := h.clock
  unique := h.unique
  owners := by
    rw [owned_update rfl rfl, ho, update_eq_self]
    exact h.owners
  writer := h.writer_update hx
  queued := h.queued
  unfinished := h.unfinished
  waits := h.waits_update hp x

theorem Inv.goto (ht : x.takes = (s.pc p).takes) (hp : (s.pc p).waits = none)
    (hx : ∀ b, x ≠ .writing b) : Inv { s with pc := update s.pc p x } order qs := by
  have ho : x.takes.toList ++ s.held p = s.owned p := by
    rw [ht]
    rfl
  have key := h.setPc ho (by rw [hp]; exact fun b _ => (Option.some_ne_none b).symm)
    (fun b hb => absurd hb (hx b)) s.changed s.trace
  rwa [update_eq_self] at key

theorem Inv.got (hpc : s.pc p = .bget dev sector) (hg : Got s.bio order dev sector (some b) bio) :
    Inv { s with bio := bio, pc := update s.pc p (.got b) } order qs := by
  have hw : (s.pc p).waits = none := by rw [hpc]; rfl
  have howned : s.owned p = s.held p := by
    unfold owned
    rw [hpc]
    rfl
  -- a buffer that is not busy has no owner, and so no request
  have hfree : (s.bio.buf b).busy = false → b ∉ qs := by
    intro hb hq
    obtain ⟨p', hp'⟩ := h.waits b hq
    rw [h.owners.busy p' b (h.mem_owned_of_waits hp')] at hb
    cases hb
  have hown : ∀ x : Buf D, x.busy = true → (s.bio.buf b).busy = false → Ownership
      (Cache.owned { s with bio := bio, pc := update s.pc p (.got b) })
      fun b' => (update s.bio.buf b x b').busy := by
    intro x hx hb
    have hu : Cache.owned { s with bio := bio, pc := update s.pc p (.got b) } =
        update s.owned p (b :: s.owned p) := by
      refine Eq.trans (owned_goto rfl rfl) ?_
      rw [howned]
      rfl
    rw [busy_update, hx, hu]
    exact h.owners.take hb
  have hwriter : ∀ q b', update s.pc p (.got b) q = .writing b' → b' ∈ s.held q := by
    apply h.writer_goto
    intro b' hb'
    cases hb'
  have hwaits := h.waits_update (p := p)
    (by rw [hw]; exact fun b _ => (Option.some_ne_none b).symm) (.got b)
  cases hg with
  | cached hc hb =>
    have hin : s.bio.inUse b := by
      simp only [Bio.caches, Bool.and_eq_true, Bool.or_eq_true] at hc
      exact hc.1.1
    exact
      { lru := ⟨h.lru.ring, h.lru.nodup, h.lru.mem⟩
        recent := h.recent
        clock := h.clock
        unique := h.unique_update (x := { s.bio.buf b with busy := true })
          (fun _ => hin) rfl rfl rfl
        owners := hown _ rfl hb
        writer := hwriter
        queued := ⟨h.queued.head, h.queued.chain, h.queued.nodup⟩
        unfinished := fun b' hb' => by
          have hne : b' ≠ b := fun hbb => hfree hb (hbb ▸ hb')
          simp only [Bio.setBuf_buf, update_of_ne hne]
          exact h.unfinished b' hb'
        waits := hwaits }
  | fresh hno hb horder hys =>
    -- no other buffer in use has the new block
    have hnew : ∀ b', s.bio.inUse b' →
        ¬ ((s.bio.buf b').dev = dev ∧ (s.bio.buf b').sector = sector) := by
      rintro b' hin ⟨hdev, hsector⟩
      have := hno b'
      simp only [Bio.caches, hdev, hsector, beq_self_eq_true, Bool.and_true,
        Bool.or_eq_false_iff] at this
      rcases hin with hin | hin
      · rw [this.1] at hin; cases hin
      · rw [this.2] at hin; cases hin
    exact
      { lru := ⟨h.lru.ring, h.lru.nodup, h.lru.mem⟩
        recent := h.recent
        clock := h.clock
        unique := by
          intro b₁ b₂ h₁ h₂ hd hs
          simp only [Bio.inUse, Bio.setBuf_buf] at h₁ h₂ hd hs
          by_cases hb₁ : b₁ = b
          · by_cases hb₂ : b₂ = b
            · rw [hb₁, hb₂]
            · rw [hb₁, update_self, update_of_ne hb₂] at hd hs
              rw [update_of_ne hb₂] at h₂
              exact absurd ⟨hd.symm, hs.symm⟩ (hnew b₂ h₂)
          · rw [update_of_ne hb₁] at h₁ hd hs
            by_cases hb₂ : b₂ = b
            · rw [hb₂, update_self] at hd hs
              exact absurd ⟨hd, hs⟩ (hnew b₁ h₁)
            · rw [update_of_ne hb₂] at h₂ hd hs
              exact h.unique b₁ b₂ h₁ h₂ hd hs
        owners := hown _ rfl hb
        writer := hwriter
        queued := ⟨h.queued.head, h.queued.chain, h.queued.nodup⟩
        unfinished := fun b' hb' => by
          have hne : b' ≠ b := fun hbb => hfree hb (hbb ▸ hb')
          simp only [Bio.setBuf_buf, update_of_ne hne]
          exact h.unfinished b' hb'
        waits := hwaits }

theorem Inv.requested {x : Buf D} {pc : BufPc NBUF} {q : Option (Fin NBUF)}
    {qnext : Fin NBUF → Option (Fin NBUF)} (ho : pc.takes = (s.pc p).takes)
    (hp : (s.pc p).waits = none) (hpc : pc.waits = some b)
    (hw : ∀ b', pc = .writing b' → b' ∈ s.held p) (hown : b ∈ s.owned p)
    (hbusy : x.busy = (s.bio.buf b).busy) (hdev : x.dev = (s.bio.buf b).dev)
    (hsector : x.sector = (s.bio.buf b).sector) (hx : x.valid = true → x.dirty = true)
    (hq : Queued (requested s.bio qs b x q qnext) (qs ++ [b])) :
    Inv { s with bio := requested s.bio qs b x q qnext, pc := update s.pc p pc } order
      (qs ++ [b]) where
  lru := ⟨h.lru.ring, h.lru.nodup, h.lru.mem⟩
  recent := h.recent
  clock := h.clock
  unique := h.unique_update (fun _ => .inl (h.owners.busy p b hown)) hdev hsector rfl
  owners := by
    have hu : Cache.owned { s with
        bio := Cache.requested s.bio qs b x q qnext, pc := update s.pc p pc } = s.owned := by
      refine Eq.trans (owned_goto rfl rfl) ?_
      rw [ho]
      exact update_eq_self p s.owned
    have hsame : (fun b' => ((Cache.requested s.bio qs b x q qnext).buf b').busy) =
        fun b' => (s.bio.buf b').busy := busy_update_same hbusy
    rw [hu, hsame]
    exact h.owners
  writer := h.writer_goto hw
  queued := hq
  unfinished := by
    intro b' hb'
    unfold Cache.requested
    by_cases hbb : b' = b
    · rw [hbb]
      dsimp only
      rw [update_self]
      exact hx
    · dsimp only
      rw [update_of_ne hbb]
      refine h.unfinished b' ?_
      simpa [hbb] using hb'
  waits := by
    intro b' hb'
    rcases List.mem_append.mp hb' with hold | hnew
    · exact h.waits_update (by rw [hp]; exact fun b _ => (Option.some_ne_none b).symm) pc b' hold
    · rw [List.mem_singleton.mp hnew]
      refine ⟨p, ?_⟩
      dsimp only
      rw [update_self]
      exact hpc

omit [DecidableEq P] in
theorem Inv.modify (hq : b ∉ qs) (data : D) (changed : Fin NBUF → Bool) :
    Inv { s with
      bio := s.bio.setBuf b { s.bio.buf b with data := data }
      changed := changed } order qs where
  lru := ⟨h.lru.ring, h.lru.nodup, h.lru.mem⟩
  recent := h.recent
  clock := h.clock
  unique := h.unique_update (x := { s.bio.buf b with data := data }) id rfl rfl rfl
  owners := by
    have hsame : (fun b' => ((s.bio.setBuf b { s.bio.buf b with data := data }).buf b').busy) =
        fun b' => (s.bio.buf b').busy := busy_update_same rfl
    rw [hsame]
    exact h.owners
  writer := h.writer
  queued := ⟨h.queued.head, h.queued.chain, h.queued.nodup⟩
  unfinished := fun b' hb' => by
    have hne : b' ≠ b := fun hbb => hq (hbb ▸ hb')
    simp only [Bio.setBuf_buf, update_of_ne hne]
    exact h.unfinished b' hb'
  waits := h.waits

omit [DecidableEq P] in
theorem Inv.recent_release :
    (b :: order.erase b).Pairwise fun b₁ b₂ =>
      update s.released b (s.clock + 1) b₂ < update s.released b (s.clock + 1) b₁ ∨
        (update s.released b (s.clock + 1) b₁ = 0 ∧ update s.released b (s.clock + 1) b₂ = 0) := by
  have hne : ∀ b' ∈ order.erase b, b' ≠ b := fun b' hb' =>
    (h.lru.nodup.mem_erase_iff.mp hb').1
  refine List.pairwise_cons.mpr ⟨?_, ?_⟩
  · intro b' hb'
    rw [update_self, update_of_ne (hne b' hb')]
    have := h.clock b'
    omega
  · refine (h.recent.sublist (List.erase_sublist (a := b))).imp_of_mem ?_
    intro b₁ b₂ h₁ h₂ hr
    rw [update_of_ne (hne b₁ h₁), update_of_ne (hne b₂ h₂)]
    exact hr

end

omit [DecidableEq P] in
theorem takes_woken (x : BufPc NBUF) : x.woken.takes = x.takes := by
  cases x <;> rfl

omit [DecidableEq P] in
theorem waits_woken (x : BufPc NBUF) : x.woken.waits = x.waits := by
  cases x <;> rfl

theorem Inv.brelse (h : s.Inv order qs) (hpc : s.pc p = .user) (hb : b ∈ s.held p) (hq : b ∉ qs)
    {next prev : BufRef NBUF → Option (BufRef NBUF)}
    (hl : Lru { s.bio with next := next, prev := prev } (b :: order.erase b)) :
    Inv { s with
      bio := { s.bio with next := next, prev := prev }.setBuf b { s.bio.buf b with busy := false }
      pc := fun q => (s.pc q).woken
      held := update s.held p ((s.held p).erase b)
      clock := s.clock + 1
      released := update s.released b (s.clock + 1) } (b :: order.erase b) qs where
  lru := ⟨hl.ring, hl.nodup, hl.mem⟩
  recent := h.recent_release
  clock := by
    intro b'
    have := h.clock b'
    by_cases hb' : b' = b
    · rw [hb']
      exact (update_self ..).le
    · dsimp only
      rw [update_of_ne hb']
      omega
  unique := h.unique_update (x := { s.bio.buf b with busy := false })
    (fun _ => .inl (h.owners.busy p b (mem_owned_of_held hb))) rfl rfl rfl
  owners := by
    have howned : Cache.owned { s with
        bio := { s.bio with next := next, prev := prev }.setBuf b { s.bio.buf b with busy := false }
        pc := fun q => (s.pc q).woken
        held := update s.held p ((s.held p).erase b)
        clock := s.clock + 1
        released := update s.released b (s.clock + 1) } =
        update s.owned p ((s.owned p).erase b) := by
      funext q
      unfold owned
      dsimp only
      rw [takes_woken]
      by_cases hqp : q = p
      · rw [hqp, update_self, update_self, hpc]
        rfl
      · rw [update_of_ne hqp, update_of_ne hqp]
    have hbusy : (fun b' => (({ s.bio with next := next, prev := prev }.setBuf b
        { s.bio.buf b with busy := false }).buf b').busy) =
        update (fun b' => (s.bio.buf b').busy) b false := busy_update ..
    rw [howned, hbusy]
    exact h.owners.drop (mem_owned_of_held hb)
  writer := by
    intro q b' hq'
    dsimp only at hq' ⊢
    -- the process that writes `b'` is not `p`
    have hpc' : s.pc q = .writing b' := by
      cases hx : s.pc q <;> rw [hx] at hq' <;> first | exact hq' | cases hq'
    have hqp : q ≠ p := by
      rintro rfl
      rw [hpc] at hpc'
      cases hpc'
    rw [update_of_ne hqp]
    exact h.writer q b' hpc'
  queued := ⟨h.queued.head, h.queued.chain, h.queued.nodup⟩
  unfinished := fun b' hb' => by
    have hne : b' ≠ b := fun hbb => hq (hbb ▸ hb')
    simp only [Bio.setBuf_buf, update_of_ne hne]
    exact h.unfinished b' hb'
  waits := by
    intro b' hb'
    obtain ⟨q, hq'⟩ := h.waits b' hb'
    exact ⟨q, (waits_woken (s.pc q)).trans hq'⟩

omit [DecidableEq P] in
theorem Inv.ideIntr (h : s.Inv order (b :: qs')) :
    Inv { s with bio := { s.bio with
      buf := update s.bio.buf b (Queued.finished (s.bio.buf b) s.bio.perform.1)
      ideQueue := qs'.head?
      cmd := qs'.head?.map fun b' => Bio.request (s.bio.buf b')
      started := s.bio.started ++ qs'.head?.toList
      disk := s.bio.perform.2 } } order qs' where
  lru := ⟨h.lru.ring, h.lru.nodup, h.lru.mem⟩
  recent := h.recent
  clock := h.clock
  unique := by
    obtain ⟨p, hp⟩ := h.waits b List.mem_cons_self
    exact h.unique_update (x := Queued.finished (s.bio.buf b) s.bio.perform.1)
      (fun _ => .inl (h.owners.busy p b (h.mem_owned_of_waits hp))) rfl rfl rfl
  owners := by
    dsimp only
    rw [busy_update_same (x := Queued.finished (s.bio.buf b) s.bio.perform.1) rfl]
    exact h.owners
  writer := h.writer
  queued := ⟨rfl, h.queued.chain.2, (List.nodup_cons.mp h.queued.nodup).2⟩
  unfinished := by
    intro b' hb'
    have hne : b' ≠ b := fun hbb => (List.nodup_cons.mp h.queued.nodup).1 (hbb ▸ hb')
    dsimp only
    rw [update_of_ne hne]
    exact h.unfinished b' (List.mem_cons_of_mem b hb')
  waits := fun b' hb' => h.waits b' (List.mem_cons_of_mem b hb')

omit [DecidableEq P] in
theorem Inv.done (hi : s.Inv order qs) (hw : (s.pc p).waits = some b)
    (hv : (s.bio.buf b).valid = true) (hd : (s.bio.buf b).dirty = false) :
    ∀ b' ∈ qs, (s.pc p).waits ≠ some b' := by
  intro b' hb' hw'
  obtain rfl : b = b' := Option.some.inj (hw.symm.trans hw')
  rw [hi.unfinished b hb' hv] at hd
  cases hd

theorem Moves.inv {order' : List (Fin NBUF)} (hi : s.Inv order qs)
    (h : Moves s order qs a s' order' qs') : s'.Inv order' qs' := by
  cases h with
  | bread hpc =>
    apply hi.goto <;> simp [hpc, BufPc.takes, BufPc.waits]
  | sleep hpc =>
    apply hi.goto <;> simp [hpc, BufPc.takes, BufPc.waits]
  | wake hpc =>
    apply hi.goto <;> simp [hpc, BufPc.takes, BufPc.waits]
  | got hpc hg => exact hi.got hpc hg
  | hit hpc hv =>
    apply hi.setPc <;> simp [hpc, owned, BufPc.takes, BufPc.waits]
  | miss hpc hv hq hqd =>
    have hown := mem_owned_of_takes (s := s) (by rw [hpc]; rfl)
    apply hi.requested _ _ _ _ hown _ _ _ _ hqd <;> simp [hpc, hv, BufPc.takes, BufPc.waits]
  | modify hpc hb hq => exact hi.modify hq _ _
  | bwrite hpc hb hq hqd =>
    apply hi.requested _ _ _ _ (mem_owned_of_held hb) _ _ _ _ hqd <;>
      simp [hpc, hb, BufPc.takes, BufPc.waits]
  | read hpc hv hd =>
    have hdone := hi.done (by rw [hpc]; rfl) hv hd
    exact hi.setPc (by simp [hpc, owned, BufPc.takes]) hdone (by simp) _ _
  | @wrote p b hpc hv hd =>
    have hdone := hi.done (by rw [hpc]; rfl) hv hd
    have ho : BufPc.user.takes.toList ++ s.held p = s.owned p := by
      simp [hpc, owned, BufPc.takes]
    have key := hi.setPc ho hdone (by simp) (update s.changed b false)
      (.wrote (s.bio.buf b).dev (s.bio.buf b).sector (s.bio.buf b).data :: s.trace)
    rwa [update_eq_self] at key
  | brelse hpc hb hq hl => exact hi.brelse hpc hb hq hl
  | spurious hq =>
    subst hq
    exact
      { hi with
        lru := ⟨hi.lru.ring, hi.lru.nodup, hi.lru.mem⟩
        queued := ⟨hi.queued.head, hi.queued.chain, hi.queued.nodup⟩ }
  | ideIntr hq =>
    subst hq
    exact hi.ideIntr

omit [DecidableEq P] in
theorem inv_start (h : (Bio.zero z disk1Present disk).binit = .ok bio) :
    (Cache.start P bio).Inv (List.finRange NBUF).reverse [] := by
  obtain ⟨next, prev, hb, hl⟩ := Bio.binit_ok (Bio.zero z disk1Present disk : Bio NBUF D)
  obtain rfl := Except.ok.inj (hb.symm.trans h)
  refine ⟨hl, ?_, ?_, ?_, ⟨?_, ?_, ?_⟩, ?_, ⟨rfl, trivial, List.nodup_nil⟩, ?_, ?_⟩
  · exact List.pairwise_of_forall fun _ _ => .inr ⟨rfl, rfl⟩
  · exact fun _ => Nat.le_refl 0
  · rintro b b' (hb | hb) <;> cases hb
  · exact fun _ => List.nodup_nil
  · exact fun _ b hb => absurd hb List.not_mem_nil
  · exact fun _ _ b hb => absurd hb List.not_mem_nil
  · intro p b hp
    cases hp
  · exact fun b hb => absurd hb List.not_mem_nil
  · exact fun b hb => absurd hb List.not_mem_nil

theorem exists_inv (h : (Bio.zero z disk1Present disk).binit = .ok bio)
    (hr : Reach CacheStep (Cache.start P bio) s) : ∃ order qs, s.Inv order qs := by
  refine hr.invariant (P := fun s => ∃ order qs, s.Inv order qs) ⟨_, _, inv_start h⟩ ?_
  rintro s a s' ⟨order, qs, hi⟩ hs
  obtain ⟨order', qs', hm⟩ := hi.moves hs
  exact ⟨order', qs', hm.inv hi⟩

omit [DecidableEq P] in
theorem Inv.least_recent (hi : s.Inv order qs) (hno : ∀ b', s.bio.caches dev sector b' = false)
    (hb : s.bio.bget dev sector = .ok (some b, bio)) :
    (s.bio.buf b).busy = false ∧ ∀ b' ≠ b, (s.bio.buf b').busy = false →
      s.released b < s.released b' ∨ (s.released b' = 0 ∧ s.released b = 0) := by
  have hg := hi.lru.bget hb
  cases hg with
  | cached hc =>
    rw [hno b] at hc
    cases hc
  | @fresh _ xs ys _ hbusy horder hys =>
    refine ⟨hbusy, ?_⟩
    intro b' hne hb'
    -- those behind `b` are busy, so `b'` is before it
    have hmem : b' ∈ xs := by
      have hin := hi.lru.mem b'
      rw [horder, List.mem_append, List.mem_cons] at hin
      rcases hin with hin | rfl | hin
      · exact hin
      · exact absurd rfl hne
      · rw [hys b' hin] at hb'
        cases hb'
    have hpair := hi.recent
    rw [horder, List.pairwise_append] at hpair
    exact hpair.2.2 b' hmem b List.mem_cons_self

end Cache

/-- The buffer cache, for any number of buffers and processes, in every state that can be
reached. The ring leads through all buffers, each once. No two buffers in use have the same
block. A buffer has at most one owner. And when no buffer has the block that a process wants,
the one `bget` reuses is not busy and was released before every other one that is not busy,
unless neither was released yet. -/
theorem buffer_cache_unique_lru {z : D} {disk1Present : Bool} {disk : ℕ → ℕ → D}
    {bio : Bio NBUF D} (h₀ : (Bio.zero z disk1Present disk).binit = .ok bio)
    {s : Cache NBUF P D} (hr : Reach CacheStep (Cache.start P bio) s) :
    (∃ order, Lru s.bio order) ∧
    (∀ b b', s.bio.inUse b → s.bio.inUse b' → (s.bio.buf b).dev = (s.bio.buf b').dev →
      (s.bio.buf b).sector = (s.bio.buf b').sector → b = b') ∧
    (∀ p p' b, b ∈ s.owned p → b ∈ s.owned p' → p = p') ∧ (∀ p, (s.owned p).Nodup) ∧
    ∀ dev sector b bio', (∀ b', s.bio.caches dev sector b' = false) →
      s.bio.bget dev sector = .ok (some b, bio') →
      (s.bio.buf b).busy = false ∧ ∀ b' ≠ b, (s.bio.buf b').busy = false →
        s.released b < s.released b' ∨ (s.released b' = 0 ∧ s.released b = 0) := by
  obtain ⟨order, qs, hi⟩ := Cache.exists_inv h₀ hr
  exact ⟨⟨order, hi.lru⟩, hi.unique, hi.owners.unique, hi.owners.nodup,
    fun dev sector b bio' hno hb => hi.least_recent hno hb⟩

/-- The state after a step that is possible. -/
def Cache.next? (s : Cache NBUF P D) (a : BufOp NBUF P D) : Option (Cache NBUF P D) :=
  (s.exec a).toOption.join

theorem Cache.step_of_next? {s s' : Cache NBUF P D} {a : BufOp NBUF P D}
    (h : s.next? a = some s') : CacheStep s a s' := by
  unfold next? at h
  unfold CacheStep
  cases hx : s.exec a with
  | error e =>
    rw [hx] at h
    cases h
  | ok o =>
    rw [hx] at h
    exact congrArg Except.ok h

/-- A process reads a block from the disk and releases the buffer. -/
def readAndRelease (p : P) (b : Fin NBUF) (dev sector : ℕ) : List (BufOp NBUF P D) :=
  [.bread p dev sector, .bget p, .check p, .ideIntr, .wait p, .brelse p b]

/-- With two buffers, read and released one after the other, a third block goes to the first. -/
theorem buffer_cache_unique_lru_third_block :
    ∃ (bio : Bio 2 ℕ) (s : Cache 2 (Fin 2) ℕ) (bio' : Bio 2 ℕ),
      (Bio.zero 0 true fun _ sector => sector).binit = .ok bio ∧
      Reach CacheStep (Cache.start (Fin 2) bio) s ∧
      (∀ b', s.bio.caches 0 7 b' = false) ∧ s.bio.bget 0 7 = .ok (some 0, bio') ∧
      s.released 0 = 1 ∧
      ((s.bio.buf 0).busy = false ∧ ∀ b' ≠ 0, (s.bio.buf b').busy = false →
        s.released 0 < s.released b' ∨ (s.released b' = 0 ∧ s.released 0 = 0)) := by
  obtain ⟨bio, h₀, hbio⟩ := exists_ok_of_any
    (x := (Bio.zero 0 true fun _ sector => sector : Bio 2 ℕ).binit)
    (P := fun bio => (List.foldlM Cache.next? (Cache.start (Fin 2) bio)
      (readAndRelease 0 0 0 5 ++ readAndRelease 0 1 0 6)).any fun (s : Cache 2 (Fin 2) ℕ) =>
        decide (∀ b', s.bio.caches 0 7 b' = false) && (s.released 0 == 1) &&
          (s.bio.bget 0 7).toOption.any fun r : Option (Fin 2) × Bio 2 ℕ => decide (r.1 = some 0))
    (by decide +kernel)
  obtain ⟨s, hr, hs⟩ := exists_reach_of_any
    (fun _ _ _ h => .next .start (Cache.step_of_next? h)) hbio
  simp only [Bool.and_eq_true, decide_eq_true_eq, beq_iff_eq] at hs
  obtain ⟨⟨hno, hrel⟩, hget⟩ := hs
  obtain ⟨⟨o, bio'⟩, hb, ho⟩ := exists_ok_of_any hget
  obtain rfl : o = some 0 := by simpa using ho
  exact ⟨bio, s, bio', h₀, hr, hno, hb, hrel,
    (buffer_cache_unique_lru h₀ hr).2.2.2.2 0 7 0 bio' hno hb⟩

end Xv6Shed
