import Xv6Shed.Pipe
import Xv6Shed.Transition

/-!
# Runs of readers and writers of a pipe

No byte is lost, added or moved, whatever the order of the sections of readers and writers. A
process sleeps only while it has to, unless a writer that has been killed leaves bytes behind.
-/

namespace Xv6Shed
open Function Transition

/-- The bytes that a return has given to a reader -/
def PipeReturn.bytes : PipeReturn → List UInt8
  | .read _ bytes _ => bytes
  | _ => []

namespace PipeSys

variable {T : Type} {s s' : PipeSys T} {t : T} {id n : ℕ} {bytes rest : List UInt8} {p : Pipe}
  {x : PipeThread} {a : PipeLabel T}

/-- All bytes that `piperead` has returned -/
def bytesRead (s : PipeSys T) : List UInt8 := (s.returns.map PipeReturn.bytes).flatten

/-- The bytes that the call `id` of `pipewrite` has stored -/
def storedBy (id : ℕ) (s : PipeSys T) : List UInt8 := (s.stored.filter (·.1 = id)).map Prod.snd

/-- Stored bytes have been read or are in the pipe, and each call has stored the bytes it does not
have left. -/
structure Fifo (s : PipeSys T) : Prop where
  holds : ∃ l, s.pipe.Holds l ∧ s.stored.map Prod.snd = s.bytesRead ++ l
  fresh : ∀ x ∈ s.stored, x.1 < s.calls
  live : ∀ t id bytes rest, (s.thread t).call = some (.write id bytes rest) →
    id < s.calls ∧ bytes = s.storedBy id ++ rest
  one : ∀ t t' id bytes bytes' rest rest', (s.thread t).call = some (.write id bytes rest) →
    (s.thread t').call = some (.write id bytes' rest') → t = t'
  written : ∀ id bytes r, .write id bytes r ∈ s.returns → id < s.calls ∧
    (∀ t bytes' rest, (s.thread t).call ≠ some (.write id bytes' rest)) ∧
    (r = bytes.length → s.storedBy id = bytes)
  read : ∀ n bytes p, .read n bytes p ∈ s.returns → bytes.length ≤ n ∧
    (bytes = [] → 0 < n → p.readp = p.writep ∧ p.writeopen = false)

theorem fifo_start (data : ℕ → UInt8) : (start data : PipeSys T).Fifo where
  holds := ⟨[], Pipe.holds_alloc data, rfl⟩
  fresh _ hx := absurd hx List.not_mem_nil
  live _ _ _ _ h := nomatch h
  one _ _ _ _ _ _ _ h := nomatch h
  written _ _ _ h := absurd h List.not_mem_nil
  read _ _ _ h := absurd h List.not_mem_nil

theorem Fifo.congr (h : s.Fifo) (hp : ∀ l, s.pipe.Holds l → s'.pipe.Holds l)
    (hcalls : s'.calls = s.calls) (hstored : s'.stored = s.stored)
    (hreturns : s'.returns = s.returns)
    (hthread : ∀ t id bytes rest, (s'.thread t).call = some (.write id bytes rest) →
      (s.thread t).call = some (.write id bytes rest)) :
    s'.Fifo := by
  obtain ⟨pipe, thread, calls, stored, returns⟩ := s'
  subst hcalls hstored hreturns
  obtain ⟨l, hl, hbytes⟩ := h.holds
  refine ⟨⟨l, hp l hl, hbytes⟩, h.fresh, fun t id bytes rest ht => ?_,
    fun t t' id b b' r r' ht ht' => ?_, fun id bytes r hr => ?_, h.read⟩
  · exact h.live t id bytes rest (hthread t id bytes rest ht)
  · exact h.one t t' id b b' r r' (hthread t id b r ht) (hthread t' id b' r' ht')
  · obtain ⟨hlt, hno, hall⟩ := h.written id bytes r hr
    exact ⟨hlt, fun t b r ht => hno t b r (hthread t id b r ht), hall⟩

theorem storedBy_append (s : PipeSys T) (id id' : ℕ) (new : List UInt8) :
    ((s.stored ++ new.map (id, ·)).filter (·.1 = id')).map Prod.snd =
      s.storedBy id' ++ if id = id' then new else [] := by
  have hnew : ((new.map (id, ·)).filter (·.1 = id')).map Prod.snd =
      if id = id' then new else [] := by
    induction new with
    | nil => simp
    | cons b new ih =>
      by_cases hid : id = id' <;> simp_all
  rw [List.filter_append, List.map_append, hnew]
  rfl

variable [DecidableEq T]

/-- Process `t` has stored `new`, goes on as `x` and leaves the returns `more`. -/
def afterWrite (t : T) (id : ℕ) (p : Pipe) (new : List UInt8) (x : PipeThread)
    (more : List PipeReturn) (s : PipeSys T) : PipeSys T where
  pipe := p
  thread := update s.thread t x
  calls := s.calls
  stored := s.stored ++ new.map (id, ·)
  returns := s.returns ++ more

theorem storedBy_afterWrite (id' : ℕ) (p : Pipe) (new : List UInt8) (x : PipeThread)
    (more : List PipeReturn) : (s.afterWrite t id p new x more).storedBy id' =
      s.storedBy id' ++ if id = id' then new else [] :=
  storedBy_append s id id' new

theorem Fifo.wrote (h : s.Fifo) (ht : (s.thread t).call = some (.write id bytes rest))
    {new : List UInt8} (hp : ∀ l, s.pipe.Holds l → p.Holds (l ++ new)) {more : List PipeReturn}
    (hcall : (∃ rest', x.call = some (.write id bytes rest') ∧ rest = new ++ rest' ∧ more = []) ∨
      x.call = none ∧ ∃ r, more = [.write id bytes r] ∧ (r = bytes.length → rest = new)) :
    (s.afterWrite t id p new x more).Fifo := by
  obtain ⟨hid, hbytes⟩ := h.live t id bytes rest ht
  -- the calls of `t` after the section, and those of the others
  have hself : ∀ id' b r, x.call = some (.write id' b r) → id' = id ∧ b = bytes ∧
      rest = new ++ r := by
    intro id' b r hx
    rcases hcall with ⟨rest', hx', hrest, -⟩ | ⟨hx', -⟩
    · rw [hx'] at hx
      cases hx
      exact ⟨rfl, rfl, hrest⟩
    · rw [hx'] at hx
      cases hx
  have hother : ∀ t' id' b r, t' ≠ t → (s.thread t').call = some (.write id' b r) → id ≠ id' :=
    fun t' id' b r hne ht' he => hne (h.one t' t id' b bytes r rest ht' (he ▸ ht))
  have hmem : ∀ {e}, e ∈ (s.afterWrite t id p new x more).returns → e ∈ s.returns ∨
      x.call = none ∧ ∃ r, e = .write id bytes r ∧ (r = bytes.length → rest = new) := by
    intro e he
    rcases List.mem_append.mp he with he | he
    · exact .inl he
    · rcases hcall with ⟨-, -, -, hmore⟩ | ⟨hx, r, hmore, hr⟩
      · rw [hmore] at he
        exact absurd he List.not_mem_nil
      · rw [hmore, List.mem_singleton] at he
        exact .inr ⟨hx, r, he, hr⟩
  refine ⟨?_, fun y hy => ?_, fun t' id' b r ht' => ?_, fun t₁ t₂ id' b b' r r' h₁ h₂ => ?_,
    fun id' b r he => ?_, fun n b q he => ?_⟩
  · obtain ⟨l, hl, hb⟩ := h.holds
    refine ⟨l ++ new, hp l hl, ?_⟩
    have hread : (s.afterWrite t id p new x more).bytesRead = s.bytesRead := by
      unfold bytesRead afterWrite
      dsimp only
      rcases hcall with ⟨-, -, -, rfl⟩ | ⟨-, r, rfl, -⟩
      · rw [List.append_nil]
      · rw [List.map_append, List.flatten_append]
        exact List.append_nil _
    have hnew : (new.map (id, ·)).map Prod.snd = new := by
      rw [List.map_map]
      exact List.map_id new
    rw [hread, afterWrite, List.map_append, hb, hnew, List.append_assoc]
  · rcases List.mem_append.mp hy with hy | hy
    · exact h.fresh y hy
    · obtain ⟨b, -, rfl⟩ := List.mem_map.mp hy
      exact hid
  · rw [storedBy_afterWrite]
    change (update s.thread t x t').call = _ at ht'
    by_cases htt : t' = t
    · rw [htt, update_self] at ht'
      obtain ⟨rfl, rfl, hrest⟩ := hself id' b r ht'
      rw [if_pos rfl, List.append_assoc, ← hrest]
      exact ⟨hid, hbytes⟩
    · rw [update_of_ne htt] at ht'
      rw [if_neg (hother t' id' b r htt ht'), List.append_nil]
      exact h.live t' id' b r ht'
  · change (update s.thread t x t₁).call = _ at h₁
    change (update s.thread t x t₂).call = _ at h₂
    by_cases ht₁ : t₁ = t
    · by_cases ht₂ : t₂ = t
      · rw [ht₁, ht₂]
      · rw [ht₁, update_self] at h₁
        rw [update_of_ne ht₂] at h₂
        exact absurd (hself id' b r h₁).1.symm (hother t₂ id' b' r' ht₂ h₂)
    · rw [update_of_ne ht₁] at h₁
      by_cases ht₂ : t₂ = t
      · rw [ht₂, update_self] at h₂
        exact absurd (hself id' b' r' h₂).1.symm (hother t₁ id' b r ht₁ h₁)
      · rw [update_of_ne ht₂] at h₂
        exact h.one t₁ t₂ id' b b' r r' h₁ h₂
  · rw [storedBy_afterWrite]
    rcases hmem he with he | ⟨hx, r', he, hr⟩
    · obtain ⟨hlt, hno, hall⟩ := h.written id' b r he
      have hne : id ≠ id' := fun hii => hno t bytes rest (hii ▸ ht)
      rw [if_neg hne, List.append_nil]
      refine ⟨hlt, fun t' b' r' ht' => ?_, hall⟩
      change (update s.thread t x t').call = _ at ht'
      by_cases htt : t' = t
      · rw [htt, update_self] at ht'
        exact hne (hself id' b' r' ht').1.symm
      · rw [update_of_ne htt] at ht'
        exact hno t' b' r' ht'
    · cases he
      refine ⟨hid, fun t' b' r' ht' => ?_, fun hlen => ?_⟩
      · change (update s.thread t x t').call = _ at ht'
        by_cases htt : t' = t
        · rw [htt, update_self, hx] at ht'
          cases ht'
        · rw [update_of_ne htt] at ht'
          exact hother t' id b' r' htt ht' rfl
      · rw [if_pos rfl, ← hr hlen]
        exact hbytes.symm
  · rcases hmem he with he | ⟨-, r', he, -⟩
    · exact h.read n b q he
    · cases he

omit [DecidableEq T] in
@[simp] theorem wakeup_call (c : PipeChan) (s : PipeSys T) (t : T) :
    ((s.wakeup c).thread t).call = (s.thread t).call := by
  unfold wakeup
  dsimp only
  split <;> rfl

theorem write_of_update {f g : T → PipeThread} {y : PipeThread} (hf : ∀ t, (f t).call = (g t).call)
    (hx : ∀ id bytes rest, x.call = some (.write id bytes rest) → y.call = x.call) (t' : T)
    (h : (update f t x t').call = some (.write id bytes rest)) :
    (update g t y t').call = some (.write id bytes rest) := by
  by_cases htt : t' = t
  · rw [htt, update_self] at h ⊢
    rw [hx id bytes rest h, h]
  · rw [update_of_ne htt] at h ⊢
    rw [← hf, h]

theorem Fifo.setThread (h : s.Fifo) (x : PipeThread)
    (hx : ∀ id bytes rest, x.call = some (.write id bytes rest) → (s.thread t).call = x.call) :
    (s.setThread t x).Fifo := by
  refine h.congr (fun _ hl => hl) rfl rfl rfl fun t' id b r h' => ?_
  have := write_of_update (y := s.thread t) (fun _ => rfl) hx t' h'
  rwa [update_eq_self] at this

omit [DecidableEq T] in
theorem Fifo.wakeup (h : s.Fifo) (c : PipeChan) : (s.wakeup c).Fifo :=
  h.congr (fun _ hl => hl) rfl rfl rfl fun t' _ _ _ h' => (wakeup_call c s t').symm.trans h'

theorem Fifo.runWrite (h : s.Fifo) (ht : (s.thread t).call = some (.write id bytes rest)) :
    (s.runWrite t id bytes rest).Fifo := by
  have hw : ∀ l, s.pipe.Holds l →
      Pipe.Wrote (s.thread t).killed rest s.pipe l (s.pipe.pipewrite (s.thread t).killed rest) :=
    fun l hl => Pipe.pipewrite_wrote _ rest hl
  obtain ⟨l, hl, -⟩ := h.holds
  have hwl := hw l hl
  unfold PipeSys.runWrite
  generalize s.pipe.pipewrite (s.thread t).killed rest = r at hw hwl ⊢
  obtain ⟨p, new, e⟩ := r
  have hp : ∀ l, s.pipe.Holds l → p.Holds (l ++ new) := fun l hl => (hw l hl).holds
  have hwake : ∀ t', ((PipeSys.wakeup .readp
      { s with pipe := p, stored := s.stored ++ new.map (id, ·) }).thread t').call =
        (s.thread t').call := fun t' => wakeup_call _ _ t'
  cases e with
  | done =>
    have hall : rest = new := (hwl.done rfl).symm
    have hx := h.wrote ht hp (x := { s.thread t with call := none })
      (.inr ⟨rfl, bytes.length, rfl, fun _ => hall⟩)
    refine hx.congr (fun _ hl => hl) rfl rfl rfl fun t' id b r h' => ?_
    refine write_of_update hwake ?_ t' h'
    exact fun _ _ _ _ => rfl
  | failed =>
    have hx := h.wrote ht hp (x := { s.thread t with call := none })
      (.inr ⟨rfl, -1, rfl, fun hr => absurd hr (by omega)⟩)
    exact hx.congr (fun _ hl => hl) rfl rfl rfl fun _ _ _ _ h' => h'
  | asleep rest' =>
    obtain ⟨-, -, he⟩ := hwl.asleep rest' rfl
    have hx := h.wrote ht hp (x := { s.thread t with call := some (.write id bytes rest') })
      (.inl ⟨rest', rfl, he, rfl⟩)
    refine hx.congr (fun _ hl => hl) rfl rfl (List.append_nil _).symm fun t' id b r h' => ?_
    refine write_of_update hwake ?_ t' h'
    exact fun _ _ _ _ => rfl

omit [DecidableEq T] in
theorem Fifo.returned (h : s.Fifo) {l : List UInt8} (hl : s.pipe.Holds l) (hp : p.Holds (l.drop n))
    (hbytes : bytes = l.take n) (hempty : l = [] → p.writeopen = false) :
    Fifo { s with pipe := p, returns := s.returns ++ [.read n bytes p] } := by
  refine ⟨⟨l.drop n, hp, ?_⟩, h.fresh, h.live, h.one, fun id b r he => ?_, fun n' b q he => ?_⟩
  · obtain ⟨l', hl', hstored⟩ := h.holds
    have hll : l' = l := hl'.contents_eq.symm.trans hl.contents_eq
    have hread : bytesRead { s with pipe := p, returns := s.returns ++ [.read n bytes p] } =
        s.bytesRead ++ bytes := by
      unfold bytesRead
      rw [List.map_append, List.flatten_append]
      exact congrArg (s.bytesRead ++ ·) (List.append_nil bytes)
    rw [hread, hbytes, List.append_assoc, List.take_append_drop, ← hll]
    exact hstored
  · rcases List.mem_append.mp he with he | he
    · exact h.written id b r he
    · cases List.mem_singleton.mp he
  · rcases List.mem_append.mp he with he | he
    · exact h.read n' b q he
    · cases List.mem_singleton.mp he
      rw [hbytes]
      refine ⟨List.length_take_le n l, fun htake hn => ?_⟩
      have hnil : l = [] := by
        rcases List.take_eq_nil_iff.mp htake with h0 | hnil
        · omega
        · exact hnil
      rw [hnil, List.drop_nil] at hp
      exact ⟨hp.empty_iff.mpr rfl, hempty hnil⟩

omit [DecidableEq T] in
theorem Fifo.readFailed (h : s.Fifo) : Fifo { s with returns := s.returns ++ [.readFailed] } := by
  have hmem : ∀ {e}, e ∈ s.returns ++ [.readFailed] → e ≠ .readFailed → e ∈ s.returns := by
    intro e he hne
    rcases List.mem_append.mp he with he | he
    · exact he
    · exact absurd (List.mem_singleton.mp he) hne
  refine ⟨?_, h.fresh, h.live, h.one, fun id b r he => h.written id b r (hmem he nofun),
    fun n b q he => h.read n b q (hmem he nofun)⟩
  have hread : bytesRead { s with returns := s.returns ++ [.readFailed] } = s.bytesRead := by
    unfold bytesRead
    rw [List.map_append, List.flatten_append]
    exact List.append_nil _
  rw [hread]
  exact h.holds

theorem Fifo.runRead (h : s.Fifo) (t : T) (n : ℕ) : (s.runRead t n).Fifo := by
  obtain ⟨l, hl, -⟩ := h.holds
  have hr := Pipe.piperead_read (s.thread t).killed n hl
  unfold PipeSys.runRead
  generalize s.pipe.piperead (s.thread t).killed n = r at hr ⊢
  obtain ⟨p, e⟩ := r
  cases e with
  | done bytes =>
    obtain ⟨hbytes, hp, hempty⟩ := hr.done bytes rfl
    have hx := h.returned hl hp hbytes fun hnil => hr.open_eq.2.trans (hempty hnil)
    exact (hx.wakeup .writep).setThread _ nofun
  | failed =>
    obtain rfl := hr.failed rfl
    exact h.readFailed.setThread _ nofun
  | asleep =>
    obtain ⟨rfl, -, -⟩ := hr.asleep rfl
    exact h.setThread _ fun _ _ _ _ => rfl

theorem Fifo.called (h : s.Fifo) (t : T) (bytes : List UInt8) :
    Fifo { s.setThread t { s.thread t with call := some (.write s.calls bytes bytes) } with
      calls := s.calls + 1 } := by
  have hnew : s.storedBy s.calls = [] := by
    rw [storedBy, List.map_eq_nil_iff, List.filter_eq_nil_iff]
    intro x hx
    have := h.fresh x hx
    simp only [decide_eq_true_eq]
    omega
  have hcall : ∀ {t' id b r}, (update s.thread t
      { s.thread t with call := some (.write s.calls bytes bytes) } t').call =
      some (.write id b r) → t' = t ∧ id = s.calls ∧ b = bytes ∧ r = bytes ∨
        t' ≠ t ∧ (s.thread t').call = some (.write id b r) ∧ id ≠ s.calls := by
    intro t' id b r h'
    by_cases htt : t' = t
    · rw [htt, update_self] at h'
      cases h'
      exact .inl ⟨htt, rfl, rfl, rfl⟩
    · rw [update_of_ne htt] at h'
      exact .inr ⟨htt, h', (h.live t' id b r h').1.ne⟩
  refine ⟨h.holds, fun x hx => Nat.lt_succ_of_lt (h.fresh x hx), fun t' id b r h' => ?_,
    fun t₁ t₂ id b b' r r' h₁ h₂ => ?_, fun id b r he => ?_, h.read⟩
  · rcases hcall h' with ⟨-, rfl, rfl, rfl⟩ | ⟨-, h', -⟩
    · exact ⟨Nat.lt_succ_self _, (congrArg (· ++ r) hnew).symm⟩
    · obtain ⟨hlt, hb⟩ := h.live t' id b r h'
      exact ⟨Nat.lt_succ_of_lt hlt, hb⟩
  · rcases hcall h₁ with ⟨e₁, hid₁, -⟩ | ⟨-, h₁, hid₁⟩ <;>
      rcases hcall h₂ with ⟨e₂, hid₂, -⟩ | ⟨-, h₂, hid₂⟩
    · rw [e₁, e₂]
    · exact absurd hid₁ hid₂
    · exact absurd hid₂ hid₁
    · exact h.one t₁ t₂ id b b' r r' h₁ h₂
  · obtain ⟨hlt, hno, hall⟩ := h.written id b r he
    refine ⟨Nat.lt_succ_of_lt hlt, fun t' b' r' h' => ?_, hall⟩
    rcases hcall h' with ⟨-, rfl, -⟩ | ⟨-, h', -⟩
    · exact absurd hlt (Nat.lt_irrefl _)
    · exact hno t' b' r' h'

theorem Fifo.step (h : s.Fifo) (hs : s.step a = some s') : s'.Fifo := by
  cases a with
  | write t bytes =>
    simp only [PipeSys.step, Option.ite_none_left_eq_some, Option.some_inj] at hs
    obtain ⟨-, rfl⟩ := hs
    exact h.called t bytes
  | read t n =>
    simp only [PipeSys.step, Option.ite_none_left_eq_some, Option.some_inj] at hs
    obtain ⟨-, rfl⟩ := hs
    exact h.setThread _ nofun
  | run t =>
    simp only [PipeSys.step, Option.ite_none_left_eq_some] at hs
    obtain ⟨-, hs⟩ := hs
    split at hs
    · cases hs
    · next id bytes rest ht =>
      obtain rfl := Option.some_inj.mp hs
      exact h.runWrite ht
    · obtain rfl := Option.some_inj.mp hs
      exact h.runRead t _
  | close writable =>
    obtain rfl := Option.some_inj.mp hs
    have hx : Fifo { s with pipe := s.pipe.shut writable } := by
      refine h.congr (fun _ hl => ?_) rfl rfl rfl fun _ _ _ _ h' => h'
      cases writable <;> exact hl
    exact hx.wakeup _
  | kill t =>
    obtain rfl := Option.some_inj.mp hs
    exact h.setThread _ fun _ _ _ _ => rfl

def Step (s : PipeSys T) (a : PipeLabel T) (s' : PipeSys T) : Prop := s.step a = some s'

theorem reach_of_step (h : s.step a = some s') : Reach Step s s' := .next .start h

theorem fifo_of_reach {data : ℕ → UInt8} (h : Reach Step (start data) s) : s.Fifo :=
  h.invariant (fifo_start data) fun _ _ _ hs ha => hs.step ha

/-- In every state reached, the bytes read and then those in the pipe are the bytes stored, in the
order in which they were stored. The pipe holds at most `PIPESIZE` bytes, a `pipewrite` that has
returned `n` has stored its `n` bytes, and a `piperead` that has returned `0` has found the pipe
empty and closed for writing. -/
theorem lossless_of_reach {data : ℕ → UInt8} (h : Reach Step (start data) s) :
    s.stored.map Prod.snd = s.bytesRead ++ s.pipe.contents ∧ s.pipe.contents.length ≤ 512 ∧
    (∀ id bytes, .write id bytes bytes.length ∈ s.returns → s.storedBy id = bytes) ∧
    ∀ n p, .read n [] p ∈ s.returns → 0 < n → p.readp = p.writep ∧ p.writeopen = false := by
  have hf := fifo_of_reach h
  obtain ⟨l, hl, hstored⟩ := hf.holds
  rw [hl.contents_eq]
  refine ⟨hstored, hl.length, fun id bytes hr => ?_, fun n p hr hn => ?_⟩
  · exact (hf.written id bytes bytes.length hr).2.2 rfl
  · exact (hf.read n [] p hr).2 rfl hn

/-- A writer of three bytes and a reader of two -/
theorem lossless_after_read : ∃ s : PipeSys Bool, Reach Step (start fun _ => 0) s ∧
    s.bytesRead = [1, 2] ∧ s.stored.map Prod.snd = [1, 2, 3] ∧
    s.stored.map Prod.snd = s.bytesRead ++ s.pipe.contents := by
  have hk : (([.write true [1, 2, 3], .read false 2, .run true, .run false] :
      List (PipeLabel Bool)).foldlM PipeSys.step (start fun _ => 0)).any
      (fun s => s.bytesRead = [1, 2] ∧ s.stored.map Prod.snd = [1, 2, 3]) = true := by
    decide +kernel
  obtain ⟨s, hr, hs⟩ := exists_reach_of_any (fun _ _ _ => reach_of_step) hk
  simp only [decide_eq_true_eq] at hs
  exact ⟨s, hr, hs.1, hs.2, (lossless_of_reach hr).1⟩

/-- A reader sleeps only while the pipe is empty and open for writing, a writer only while it is
full and open for reading. -/
structure NotStranded (s : PipeSys T) : Prop where
  reader : ∀ t, (s.thread t).asleep = some .readp →
    s.pipe.readp = s.pipe.writep ∧ s.pipe.writeopen = true
  writer : ∀ t, (s.thread t).asleep = some .writep → s.pipe.Full ∧ s.pipe.readopen = true

/-- No writer with more than `PIPESIZE` bytes left goes on while a reader sleeps, once it has been
killed or the read end is closed. -/
def Careful (s : PipeSys T) : PipeLabel T → Prop
  | .run t =>
    match (s.thread t).call with
    | some (.write _ _ rest) => s.pipe.readopen = false ∨ (s.thread t).killed = true →
      (∃ t', (s.thread t').asleep = some .readp) → rest.length ≤ 512
    | _ => True
  | _ => True

omit [DecidableEq T] in
theorem asleep_of_wakeup {c c' : PipeChan} (h : ((s.wakeup c).thread t).asleep = some c') :
    (s.thread t).asleep = some c' ∧ c' ≠ c := by
  unfold wakeup at h
  dsimp only at h
  split at h
  · cases h
  · next hne => exact ⟨h, fun he => hne (he ▸ h)⟩

section

variable (h : s.NotStranded)
include h

theorem NotStranded.setThread (t : T) (hx : ∀ c, x.asleep = some c → (s.thread t).asleep = some c) :
    (s.setThread t x).NotStranded := by
  have hold : ∀ {t' c}, (update s.thread t x t').asleep = some c →
      (s.thread t').asleep = some c := by
    intro t' c h'
    by_cases htt : t' = t
    · rw [htt, update_self] at h'
      exact htt ▸ hx c h'
    · rwa [update_of_ne htt] at h'
  exact ⟨fun t' h' => h.reader t' (hold h'), fun t' h' => h.writer t' (hold h')⟩

theorem NotStranded.leave (t : T) (r : PipeReturn) : (s.leave t r).NotStranded := by
  have hx := h.setThread t (x := { s.thread t with call := none }) fun _ hc => hc
  exact ⟨hx.reader, hx.writer⟩

theorem NotStranded.sleepReader (t : T) (hx : x.asleep = some .readp)
    (he : s.pipe.readp = s.pipe.writep ∧ s.pipe.writeopen = true) :
    (s.setThread t x).NotStranded := by
  refine ⟨fun _ _ => he, fun t' h' => ?_⟩
  change (update s.thread t x t').asleep = _ at h'
  by_cases htt : t' = t
  · rw [htt, update_self, hx] at h'
    cases h'
  · rw [update_of_ne htt] at h'
    exact h.writer t' h'

theorem NotStranded.sleepWriter (t : T) (hx : x.asleep = some .writep)
    (he : s.pipe.Full ∧ s.pipe.readopen = true) : (s.setThread t x).NotStranded := by
  refine ⟨fun t' h' => ?_, fun _ _ => he⟩
  change (update s.thread t x t').asleep = _ at h'
  by_cases htt : t' = t
  · rw [htt, update_self, hx] at h'
    cases h'
  · rw [update_of_ne htt] at h'
    exact h.reader t' h'

theorem NotStranded.runWrite (hf : s.Fifo)
    (hcare : s.pipe.readopen = false ∨ (s.thread t).killed = true →
      (∃ t', (s.thread t').asleep = some .readp) → rest.length ≤ 512) :
    (s.runWrite t id bytes rest).NotStranded := by
  obtain ⟨l, hl, -⟩ := hf.holds
  have hw := Pipe.pipewrite_wrote (s.thread t).killed rest hl
  unfold PipeSys.runWrite
  generalize s.pipe.pipewrite (s.thread t).killed rest = r at hw ⊢
  obtain ⟨p, new, e⟩ := r
  have hwriter : ∀ t', (s.thread t').asleep = some .writep → p.Full ∧ p.readopen = true := by
    intro t' ht'
    obtain ⟨hfull, hopen⟩ := h.writer t' ht'
    obtain rfl : p = s.pipe := hw.full hfull
    exact ⟨hfull, hopen⟩
  -- after `wakeup` no reader sleeps
  have hwake : (PipeSys.wakeup .readp
      { s with pipe := p, stored := s.stored ++ new.map (id, ·) }).NotStranded := by
    refine ⟨fun t' ht' => absurd rfl (asleep_of_wakeup ht').2, fun t' ht' => ?_⟩
    exact hwriter t' (asleep_of_wakeup ht').1
  cases e with
  | done => exact hwake.leave t _
  | asleep rest' =>
    obtain ⟨hfull, hopen, -⟩ := hw.asleep rest' rfl
    exact hwake.sleepWriter t rfl ⟨hfull, hw.open_eq.1.trans hopen⟩
  | failed =>
    obtain ⟨hfull, hbad, rest', hne, he⟩ := hw.failed rfl
    have hsame : NotStranded { s with pipe := p, stored := s.stored ++ new.map (id, ·) } := by
      refine ⟨fun t' ht' => ?_, hwriter⟩
      have hcount := hcare hbad ⟨t', ht'⟩
      -- the pipe was empty, so the section has stored `PIPESIZE` bytes and has some left
      obtain rfl := hl.empty_iff.mp (h.reader t' ht').1
      have hnew := hw.holds.full_iff.mp hfull
      have hpos := List.length_pos_iff.mpr hne
      rw [he, List.length_append] at hcount
      rw [List.nil_append] at hnew
      dsimp only at hnew hcount
      omega
    exact hsame.leave t _

theorem NotStranded.runRead (hf : s.Fifo) (t : T) (n : ℕ) : (s.runRead t n).NotStranded := by
  obtain ⟨l, hl, -⟩ := hf.holds
  have hr := Pipe.piperead_read (s.thread t).killed n hl
  unfold PipeSys.runRead
  generalize s.pipe.piperead (s.thread t).killed n = r at hr ⊢
  obtain ⟨p, e⟩ := r
  cases e with
  | done b =>
    obtain ⟨-, -, hempty⟩ := hr.done b rfl
    have hwake : (PipeSys.wakeup .writep { s with pipe := p }).NotStranded := by
      refine ⟨fun t' ht' => ?_, fun t' ht' => absurd rfl (asleep_of_wakeup ht').2⟩
      -- the pipe was empty and open for writing, so this section would not have returned
      obtain ⟨he, hopen⟩ := h.reader t' (asleep_of_wakeup ht').1
      rw [hempty (hl.empty_iff.mp he)] at hopen
      cases hopen
    exact hwake.leave t _
  | failed =>
    obtain rfl := hr.failed rfl
    exact h.leave t _
  | asleep =>
    obtain ⟨rfl, he⟩ := hr.asleep rfl
    exact h.sleepReader t rfl he

theorem NotStranded.step (hf : s.Fifo) (hcare : s.Careful a) (hs : s.step a = some s') :
    s'.NotStranded := by
  cases a with
  | write t bytes =>
    simp only [PipeSys.step, Option.ite_none_left_eq_some, Option.some_inj] at hs
    obtain ⟨-, rfl⟩ := hs
    have hx := h.setThread t (x := { s.thread t with call := some (.write s.calls bytes bytes) })
      fun _ hc => hc
    exact ⟨hx.reader, hx.writer⟩
  | read t n =>
    simp only [PipeSys.step, Option.ite_none_left_eq_some, Option.some_inj] at hs
    obtain ⟨-, rfl⟩ := hs
    exact h.setThread t fun _ hc => hc
  | run t =>
    simp only [PipeSys.step, Option.ite_none_left_eq_some] at hs
    obtain ⟨-, hs⟩ := hs
    unfold Careful at hcare
    split at hs
    · cases hs
    · next ht =>
      obtain rfl := Option.some_inj.mp hs
      simp only [ht] at hcare
      exact h.runWrite hf hcare
    · obtain rfl := Option.some_inj.mp hs
      exact h.runRead hf t _
  | close writable =>
    obtain rfl := Option.some_inj.mp hs
    cases writable
    case true =>
      refine ⟨fun t ht => absurd rfl (asleep_of_wakeup ht).2, fun t ht => ?_⟩
      exact h.writer t (asleep_of_wakeup ht).1
    case false =>
      refine ⟨fun t ht => ?_, fun t ht => absurd rfl (asleep_of_wakeup ht).2⟩
      exact h.reader t (asleep_of_wakeup ht).1
  | kill t =>
    obtain rfl := Option.some_inj.mp hs
    exact h.setThread t nofun

end

/-- In every run whose steps are all careful, nobody is stranded. -/
theorem notStranded_of_reach {data : ℕ → UInt8}
    (h : Reach (fun s a s' => s.Careful a ∧ Step s a s') (start data) s) : s.NotStranded := by
  have hboth : s.Fifo ∧ s.NotStranded := by
    refine h.invariant (P := fun s : PipeSys T => s.Fifo ∧ s.NotStranded) ?_ ?_
    · exact ⟨fifo_start data, ⟨nofun, nofun⟩⟩
    · intro s a s' ⟨hf, hn⟩ ⟨hcare, hs⟩
      exact ⟨hf.step hs, hn.step hf hcare hs⟩
  exact hboth.2

instance [Fintype T] (s : PipeSys T) (a : PipeLabel T) : Decidable (s.Careful a) := by
  unfold Careful
  split
  · split <;> infer_instance
  · infer_instance

/-- A reader waits, and a killed writer of one byte wakes it. A second reader then waits. -/
theorem notStranded_after_kill : ∃ s : PipeSys (Fin 3),
    Reach (fun s a s' => s.Careful a ∧ Step s a s') (start fun _ => 0) s ∧
    (s.thread 2).asleep = some .readp ∧ s.NotStranded := by
  have hk : (([.read 0 1, .run 0, .write 1 [7], .kill 1, .run 1, .run 0, .read 2 1, .run 2] :
      List (PipeLabel (Fin 3))).foldlM
      (fun (s : PipeSys (Fin 3)) a => if s.Careful a then s.step a else none)
      (start fun _ => 0)).any (fun s => (s.thread 2).asleep = some .readp) = true := by
    decide +kernel
  have hstep : ∀ (s : PipeSys (Fin 3)) a s', (if s.Careful a then s.step a else none) = some s' →
      Reach (fun s a s' => s.Careful a ∧ Step s a s') s s' :=
    fun _ _ _ h => .next .start (Option.ite_none_right_eq_some.mp h)
  obtain ⟨s, hr, hs⟩ := exists_reach_of_any hstep hk
  exact ⟨s, hr, of_decide_eq_true hs, notStranded_of_reach hr⟩

/-- A reader sleeps while the pipe holds the first 512 of 513 bytes of a killed writer. -/
theorem stranded_after_kill : ∃ s : PipeSys Bool, Reach Step (start fun _ => 0) s ∧
    (s.thread false).asleep = some .readp ∧ s.pipe.readp ≠ s.pipe.writep := by
  have hk : (([.read false 1, .run false, .write true (.replicate 513 0), .kill true, .run true] :
      List (PipeLabel Bool)).foldlM PipeSys.step (start fun _ => 0)).any
      (fun s => (s.thread false).asleep = some .readp ∧ s.pipe.readp ≠ s.pipe.writep) = true := by
    decide +kernel
  obtain ⟨s, hr, hs⟩ := exists_reach_of_any (fun _ _ _ => reach_of_step) hk
  exact ⟨s, hr, of_decide_eq_true hs⟩

end PipeSys

end Xv6Shed
