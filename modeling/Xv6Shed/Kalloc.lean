import Xv6Shed.Interval
import Xv6Shed.Rq
import Xv6Shed.Transition

/-!
# The page allocator

`kalloc.c`. The free list is kept as the list of its runs in the order of their links; a
run's header lies in the free memory it describes, which no block in use overlaps, so the
junk that `kfree` fills a block with reaches no header. Both functions run under
`kalloc_lock` from the first look at the list to the last store.
-/

namespace Xv6Shed
open Transition Xv6Shed.Interval

/-- `param.h` -/
def PAGE : ℕ := 4096

/-- The loop of `kfree(v, len)` from a run on, with what it stores. -/
def kfreeLoop (p len : ℕ) : List Interval → Except Fault (List Interval)
  | [] => pure [⟨p, len⟩]
  | r :: rs =>
    let pend := p + len
    if r.addr ≤ pend then
      let rend := r.stop
      if r.addr ≤ p ∧ p < rend then .error (.panic "freeing free page")
      -- p next to r: replace r with p
      else if pend = r.addr then pure (⟨p, len + r.len⟩ :: rs)
      -- r next to p: replace p with r
      else if rend = p then
        match rs with
        | [] => pure [⟨r.addr, r.len + len⟩]
        | n :: ns =>
          -- r now next to r->next?
          if n.addr = pend then pure (⟨r.addr, r.len + len + n.len⟩ :: ns)
          else pure (⟨r.addr, r.len + len⟩ :: n :: ns)
      else do pure (r :: (← kfreeLoop p len rs))
    -- Insert p before r in list.
    else pure (⟨p, len⟩ :: r :: rs)

def kfree (v : ℕ) (len : ℤ) (freelist : List Interval) : Except Fault (List Interval) :=
  if len ≤ 0 ∨ len % PAGE ≠ 0 then .error (.panic "kfree")
  else kfreeLoop v len.toNat freelist

/-- The loop of `kalloc(n)` from a run on, with the list it leaves. -/
def kallocLoop (n : ℕ) : List Interval → Option ℕ × List Interval
  | [] => (none, [])
  | r :: rs =>
    if r.len = n then (some r.addr, rs)
    else if r.len > n then (some (r.addr + (r.len - n)), ⟨r.addr, r.len - n⟩ :: rs)
    else
      let (v, rs) := kallocLoop n rs
      (v, r :: rs)

/-- `kalloc(n)`; `none` is the null pointer -/
def kalloc (n : ℤ) (freelist : List Interval) : Except Fault (Option ℕ × List Interval) :=
  if n % PAGE ≠ 0 ∨ n ≤ 0 then .error (.panic "kalloc")
  else pure (kallocLoop n.toNat freelist)

/-- The address `kinit` begins at, for a kernel that ends at `e`. -/
def kstart (e : ℕ) : ℕ := (e + PAGE) / PAGE * PAGE

/-- `kinit`: assume computer has 256 pages of RAM. -/
def kinit (e : ℕ) : Except Fault (List Interval) := kfree (kstart e) (256 * PAGE : ℕ) []

variable {rs : List Interval} {p len n : ℕ}

/-- What `kfree` leaves: the block is added, and where it touches a run it is part of it. -/
structure Freed (p len : ℕ) (rs rs' : List Interval) : Prop where
  separated : Separated rs'
  pos : ∀ r ∈ rs', 0 < r.len
  covers : ∀ x, Covers rs' x ↔ Covers rs x ∨ (⟨p, len⟩ : Interval).Has x
  above : ∀ y, y < p → (∀ r ∈ rs, y < r.addr) → ∀ r ∈ rs', y < r.addr
  dvd : ∀ d, d ∣ len → (∀ r ∈ rs, d ∣ r.len) → ∀ r ∈ rs', d ∣ r.len

theorem Freed.of_cons {t : Interval} {ts : List Interval} (hs : Separated ts)
    (hts : ∀ s ∈ ts, s ∈ rs) (hpos : ∀ r ∈ rs, 0 < r.len) (hlen : 0 < len)
    (hlt : ∀ s ∈ ts, t.stop < s.addr) (ht : len ≤ t.len)
    (hcov : ∀ x, t.Has x ∨ Covers ts x ↔ Covers rs x ∨ (⟨p, len⟩ : Interval).Has x)
    (habove : t.addr = p ∨ ∃ r ∈ rs, t.addr = r.addr)
    (hdvd : ∀ d, d ∣ len → (∀ r ∈ rs, d ∣ r.len) → d ∣ t.len) : Freed p len rs (t :: ts) where
  separated := separated_cons.mpr ⟨hlt, hs⟩
  pos := List.forall_mem_cons.mpr ⟨by omega, fun s hs => hpos s (hts s hs)⟩
  covers x := by
    rw [covers_cons]
    exact hcov x
  above y hy hall := by
    refine List.forall_mem_cons.mpr ⟨?_, fun s hs => hall s (hts s hs)⟩
    rcases habove with h | ⟨r, hr, h⟩
    · rwa [h]
    · rw [h]
      exact hall r hr
  dvd d hd hall := List.forall_mem_cons.mpr ⟨hdvd d hd hall, fun s hs => hall s (hts s hs)⟩

theorem kfreeLoop_ok (hs : Separated rs) (hpos : ∀ r ∈ rs, 0 < r.len) (hlen : 0 < len)
    (hd : ∀ r ∈ rs, Apart r ⟨p, len⟩) :
    ∃ rs', kfreeLoop p len rs = .ok rs' ∧ Freed p len rs rs' := by
  induction rs with
  | nil =>
    refine ⟨_, rfl, Freed.of_cons hs (by simp) hpos hlen (by simp) (Nat.le_refl _) ?_ (.inl rfl) ?_⟩
    · simp
    · intro d hd _
      exact hd
  | cons r rs ih =>
    obtain ⟨hlt, hs'⟩ := separated_cons.mp hs
    obtain ⟨hr, hpos'⟩ := List.forall_mem_cons.mp hpos
    obtain ⟨hdr, hd'⟩ := List.forall_mem_cons.mp hd
    unfold Apart at hdr
    simp only [stop] at hdr hlt
    unfold kfreeLoop
    dsimp only [stop]
    by_cases h₁ : r.addr ≤ p + len
    case neg =>
      -- the block lies before `r` and does not touch it
      rw [if_neg h₁]
      refine ⟨_, rfl, Freed.of_cons hs (fun s h => h) hpos hlen ?_ (Nat.le_refl _) ?_ (.inl rfl) ?_⟩
      · refine List.forall_mem_cons.mpr ⟨by simp only [stop]; omega, ?_⟩
        intro s hs
        have := hlt s hs
        simp only [stop]
        omega
      · intro x
        exact Or.comm
      · intro d hd _
        exact hd
    rw [if_pos h₁, if_neg (by omega)]
    by_cases h₂ : p + len = r.addr
    · -- the block ends where `r` begins; a run that ends where it begins was met before
      rw [if_pos h₂]
      refine ⟨_, rfl, Freed.of_cons hs' (fun s h => List.mem_cons_of_mem r h) hpos hlen ?_ ?_ ?_
        (.inl rfl) ?_⟩
      · intro s hs
        have := hlt s hs
        simp only [stop]
        omega
      · exact Nat.le_add_right _ _
      · intro x
        simp only [covers_cons, Has, stop]
        grind
      · intro d hdl hall
        exact Nat.dvd_add hdl (hall r List.mem_cons_self)
    rw [if_neg h₂]
    by_cases h₃ : r.addr + r.len = p
    · -- `r` ends where the block begins
      rw [if_pos h₃]
      cases rs with
      | nil =>
        refine ⟨_, rfl, Freed.of_cons hs' (by simp) hpos hlen (by simp) ?_ ?_
          (.inr ⟨r, List.mem_cons_self, rfl⟩) ?_⟩
        · exact Nat.le_add_left _ _
        · intro x
          simp only [covers_cons, Has, stop]
          grind
        · intro d hdl hall
          exact Nat.dvd_add (hall r List.mem_cons_self) hdl
      | cons n ns =>
        obtain ⟨hltn, hsn⟩ := separated_cons.mp hs'
        obtain ⟨hrn, hlt'⟩ := List.forall_mem_cons.mp hlt
        have hdn := hd' n List.mem_cons_self
        have hmem : n ∈ r :: n :: ns := by simp
        unfold Apart at hdn
        simp only [stop] at hdn hltn
        dsimp only
        split_ifs with h₄
        · refine ⟨_, rfl, Freed.of_cons hsn (fun s h => by simp [h]) hpos hlen ?_ ?_ ?_
            (.inr ⟨r, List.mem_cons_self, rfl⟩) ?_⟩
          · intro s hs
            have := hltn s hs
            simp only [stop]
            omega
          · dsimp only
            omega
          · intro x
            simp only [covers_cons, Has, stop]
            grind
          · intro d hdl hall
            exact Nat.dvd_add (Nat.dvd_add (hall r List.mem_cons_self) hdl) (hall n hmem)
        · refine ⟨_, rfl, Freed.of_cons hs' (fun s h => List.mem_cons_of_mem r h) hpos hlen ?_ ?_ ?_
            (.inr ⟨r, List.mem_cons_self, rfl⟩) ?_⟩
          · have hn := hpos n hmem
            refine List.forall_mem_cons.mpr ⟨by simp only [stop]; omega, ?_⟩
            intro s hs
            have := hltn s hs
            simp only [stop]
            omega
          · exact Nat.le_add_left _ _
          · intro x
            simp only [covers_cons, Has, stop]
            grind
          · intro d hdl hall
            exact Nat.dvd_add (hall r List.mem_cons_self) hdl
    · -- `r` lies before the block and does not touch it
      rw [if_neg h₃]
      obtain ⟨rs', hk, hf⟩ := ih hs' hpos' hd'
      refine ⟨r :: rs', by rw [hk]; rfl, ?_, ?_, ?_, ?_, ?_⟩
      · refine separated_cons.mpr ⟨?_, hf.separated⟩
        refine hf.above r.stop ?_ hlt
        simp only [stop]
        omega
      · exact List.forall_mem_cons.mpr ⟨hr, hf.pos⟩
      · intro x
        rw [covers_cons, covers_cons, hf.covers, or_assoc]
      · intro y hy hall
        obtain ⟨hyr, hall⟩ := List.forall_mem_cons.mp hall
        exact List.forall_mem_cons.mpr ⟨hyr, hf.above y hy hall⟩
      · intro d hdl hall
        obtain ⟨hdr, hall⟩ := List.forall_mem_cons.mp hall
        exact List.forall_mem_cons.mpr ⟨hdr, hf.dvd d hdl hall⟩

/-- What `kalloc` takes out of the list when it finds a run that is large enough. -/
structure Carved (v n : ℕ) (rs rs' : List Interval) : Prop where
  separated : Separated rs'
  pos : ∀ r ∈ rs', 0 < r.len
  covers : ∀ x, Covers rs x ↔ Covers rs' x ∨ (⟨v, n⟩ : Interval).Has x
  apart : ∀ x, Covers rs' x → ¬ (⟨v, n⟩ : Interval).Has x
  within : ∀ y, (∀ r ∈ rs, y < r.addr) → ∀ r ∈ rs', y < r.addr
  dvd : ∀ d, d ∣ n → (∀ r ∈ rs, d ∣ r.len) → ∀ r ∈ rs', d ∣ r.len

theorem not_covers_of_lt {r : Interval} (hlt : ∀ s ∈ rs, r.stop < s.addr) {x : ℕ}
    (hx : x < r.stop) : ¬ Covers rs x := by
  rintro ⟨s, hs, hsx⟩
  have h₁ := hlt s hs
  have h₂ := hsx.1
  omega

theorem kallocLoop_some {v : ℕ} {rs' : List Interval} (hs : Separated rs)
    (hpos : ∀ r ∈ rs, 0 < r.len) (h : kallocLoop n rs = (some v, rs')) : Carved v n rs rs' := by
  induction rs generalizing rs' with
  | nil => cases h
  | cons r rs ih =>
    obtain ⟨hlt, hs'⟩ := separated_cons.mp hs
    obtain ⟨hr, hpos'⟩ := List.forall_mem_cons.mp hpos
    unfold kallocLoop at h
    split_ifs at h with h₁ h₂
    · -- the whole run
      obtain ⟨rfl, rfl⟩ : r.addr = v ∧ rs = rs' := by simpa using h
      have hrn : (⟨r.addr, n⟩ : Interval) = r := by rw [← h₁]
      refine ⟨hs', hpos', ?_, ?_, ?_, ?_⟩
      · intro x
        rw [hrn, covers_cons, or_comm]
      · intro x hc hx
        rw [hrn] at hx
        exact not_covers_of_lt hlt hx.2 hc
      · intro y hall
        exact (List.forall_mem_cons.mp hall).2
      · intro d _ hall
        exact (List.forall_mem_cons.mp hall).2
    · -- the end of the run
      obtain ⟨rfl, rfl⟩ : r.addr + (r.len - n) = v ∧ ⟨r.addr, r.len - n⟩ :: rs = rs' := by
        simpa using h
      refine ⟨?_, ?_, ?_, ?_, ?_, ?_⟩
      · refine separated_cons.mpr ⟨?_, hs'⟩
        intro s hs
        have := hlt s hs
        simp only [stop] at this ⊢
        omega
      · exact List.forall_mem_cons.mpr ⟨by simp only; omega, hpos'⟩
      · intro x
        simp only [covers_cons, Has, stop]
        grind
      · intro x hc hx
        simp only [Has, stop] at hx
        rcases covers_cons.mp hc with hc | hc
        · simp only [Has, stop] at hc
          omega
        · exact not_covers_of_lt hlt (by unfold stop; omega) hc
      · intro y hall
        obtain ⟨hy, hall⟩ := List.forall_mem_cons.mp hall
        exact List.forall_mem_cons.mpr ⟨hy, hall⟩
      · intro d hd hall
        obtain ⟨hdr, hall⟩ := List.forall_mem_cons.mp hall
        exact List.forall_mem_cons.mpr ⟨Nat.dvd_sub hdr hd, hall⟩
    · obtain ⟨hv, rfl⟩ : (kallocLoop n rs).1 = some v ∧ r :: (kallocLoop n rs).2 = rs' := by
        simpa using h
      obtain hc := ih hs' hpos' (Prod.ext hv rfl)
      refine ⟨?_, ?_, ?_, ?_, ?_, ?_⟩
      · exact separated_cons.mpr ⟨hc.within r.stop hlt, hc.separated⟩
      · exact List.forall_mem_cons.mpr ⟨hr, hc.pos⟩
      · intro x
        rw [covers_cons, covers_cons, hc.covers, or_assoc]
      · intro x hx hvx
        rcases covers_cons.mp hx with hx | hx
        · exact not_covers_of_lt hlt hx.2 ((hc.covers x).mpr (.inr hvx))
        · exact hc.apart x hx hvx
      · intro y hall
        obtain ⟨hy, hall⟩ := List.forall_mem_cons.mp hall
        exact List.forall_mem_cons.mpr ⟨hy, hc.within y hall⟩
      · intro d hd hall
        obtain ⟨hdr, hall⟩ := List.forall_mem_cons.mp hall
        exact List.forall_mem_cons.mpr ⟨hdr, hc.dvd d hd hall⟩

theorem kallocLoop_none : (kallocLoop n rs).1 = none ↔ ∀ r ∈ rs, r.len < n := by
  induction rs with
  | nil => simp [kallocLoop]
  | cons r rs ih =>
    unfold kallocLoop
    rw [List.forall_mem_cons]
    split_ifs with h₁ h₂
    · simp [h₁]
    · simp only [false_iff, not_and]
      omega
    · dsimp only
      rw [ih]
      constructor
      · intro h
        exact ⟨by omega, h⟩
      · intro h
        exact h.2

theorem kallocLoop_none_snd (h : (kallocLoop n rs).1 = none) : (kallocLoop n rs).2 = rs := by
  induction rs with
  | nil => rfl
  | cons r rs ih =>
    unfold kallocLoop at h ⊢
    split_ifs at h ⊢ with h₁ h₂
    dsimp only at h ⊢
    rw [ih h]

/-- The free list, and the blocks handed out and not yet freed. -/
structure Heap where
  free : List Interval
  live : List Interval

/-- The live blocks and the free runs tile `size` bytes from `start` on, and the free list is
in order and fully coalesced. -/
structure Heap.Sound (start size : ℕ) (h : Heap) : Prop where
  sorted : Separated h.free
  pos : ∀ r ∈ h.free, 0 < r.len
  pages : ∀ r ∈ h.free, PAGE ∣ r.len
  live_pos : ∀ b ∈ h.live, 0 < b.len
  live_pages : ∀ b ∈ h.live, PAGE ∣ b.len
  live_apart : h.live.Pairwise Apart
  apart : ∀ b ∈ h.live, ∀ r ∈ h.free, Apart r b
  tiles : ∀ x, (⟨start, size⟩ : Interval).Has x ↔ Covers h.free x ∨ Covers h.live x

inductive HeapCall where
  | kalloc (n : ℕ)
  | kfree (b : Interval)

/-- A positive number of pages is asked for; a block that is freed is in use. -/
def HeapCall.Allowed (h : Heap) : HeapCall → Prop
  | .kalloc n => 0 < n ∧ PAGE ∣ n
  | .kfree b => b ∈ h.live

def HeapCall.exec (h : Heap) : HeapCall → Except Fault Heap
  | .kalloc n => do
    let (v, fl) ← Xv6Shed.kalloc n h.free
    pure ⟨fl, v.elim h.live fun v => ⟨v, n⟩ :: h.live⟩
  | .kfree b => do
    let fl ← Xv6Shed.kfree b.addr b.len h.free
    pure ⟨fl, h.live.erase b⟩

def HeapStep (h : Heap) (a : HeapCall) (h' : Heap) : Prop := a.Allowed h ∧ a.exec h = .ok h'

theorem kalloc_eq (hn : 0 < n) (hp : PAGE ∣ n) (fl : List Interval) :
    kalloc n fl = .ok (kallocLoop n fl) := by
  have h : ¬ ((n : ℤ) % PAGE ≠ 0 ∨ (n : ℤ) ≤ 0) := by
    rintro (h | h)
    · exact h (Int.emod_eq_zero_of_dvd (Int.natCast_dvd_natCast.mpr hp))
    · omega
  unfold kalloc
  rw [if_neg h]
  rfl

theorem kfree_eq (v : ℕ) (hn : 0 < n) (hp : PAGE ∣ n) (fl : List Interval) :
    kfree v n fl = kfreeLoop v n fl := by
  have h : ¬ ((n : ℤ) ≤ 0 ∨ (n : ℤ) % PAGE ≠ 0) := by
    rintro (h | h)
    · omega
    · exact h (Int.emod_eq_zero_of_dvd (Int.natCast_dvd_natCast.mpr hp))
  unfold kfree
  rw [if_neg h]
  rfl

namespace Heap.Sound
variable {h h' : Heap} {start size : ℕ}

theorem not_both (hs : h.Sound start size) {x : ℕ} (hf : Covers h.free x) : ¬ Covers h.live x := by
  rintro ⟨b, hb, hbx⟩
  obtain ⟨r, hr, hrx⟩ := hf
  exact (hs.apart b hb r hr).not_has hrx hbx

theorem apart_of_not_both {fs bs : List Interval} (hf : ∀ r ∈ fs, 0 < r.len)
    (hb : ∀ b ∈ bs, 0 < b.len) (h : ∀ x, Covers fs x → ¬ Covers bs x) :
    ∀ b ∈ bs, ∀ r ∈ fs, Apart r b := by
  intro b hbm r hrm
  apply apart_of_forall (hf r hrm) (hb b hbm)
  intro x hr hbx
  exact h x ⟨r, hrm, hr⟩ ⟨b, hbm, hbx⟩

theorem alloc {v : ℕ} {fl : List Interval} (hs : h.Sound start size) (hn : 0 < n) (hp : PAGE ∣ n)
    (hc : Carved v n h.free fl) : (⟨fl, ⟨v, n⟩ :: h.live⟩ : Heap).Sound start size := by
  have hfree : ∀ x, (⟨v, n⟩ : Interval).Has x → Covers h.free x := fun x hx =>
    (hc.covers x).mpr (.inr hx)
  have hpos : ∀ b ∈ (⟨v, n⟩ : Interval) :: h.live, 0 < b.len :=
    List.forall_mem_cons.mpr ⟨hn, hs.live_pos⟩
  refine ⟨hc.separated, hc.pos, hc.dvd PAGE hp hs.pages, hpos,
    List.forall_mem_cons.mpr ⟨hp, hs.live_pages⟩, ?_, ?_, ?_⟩
  · refine List.pairwise_cons.mpr ⟨?_, hs.live_apart⟩
    intro b hb
    apply apart_of_forall hn (hs.live_pos b hb)
    intro x hx hbx
    exact hs.not_both (hfree x hx) ⟨b, hb, hbx⟩
  · apply apart_of_not_both hc.pos hpos
    intro x hx hb
    rcases covers_cons.mp hb with hb | hb
    · exact hc.apart x hx hb
    · exact hs.not_both ((hc.covers x).mpr (.inl hx)) hb
  · intro x
    rw [hs.tiles, hc.covers, covers_cons, or_assoc]

theorem free {b : Interval} {fl : List Interval} (hs : h.Sound start size) (hb : b ∈ h.live)
    (hf : Freed b.addr b.len h.free fl) : (⟨fl, h.live.erase b⟩ : Heap).Sound start size := by
  have hsub : ∀ s ∈ h.live.erase b, s ∈ h.live := fun s hs' => List.mem_of_mem_erase hs'
  have hperm := List.perm_cons_erase hb
  -- the other blocks are apart from the one that is freed
  have hother : ∀ s ∈ h.live.erase b, Apart b s := by
    have hall : (b :: h.live.erase b).Pairwise Apart :=
      (hperm.pairwise_iff fun h => h.symm).mp hs.live_apart
    exact (List.pairwise_cons.mp hall).1
  refine ⟨hf.separated, hf.pos, hf.dvd PAGE (hs.live_pages b hb) hs.pages,
    fun s h => hs.live_pos s (hsub s h), fun s h => hs.live_pages s (hsub s h),
    hs.live_apart.sublist List.erase_sublist, ?_, ?_⟩
  · apply apart_of_not_both hf.pos fun s h => hs.live_pos s (hsub s h)
    rintro x hx ⟨s, hs', hsx⟩
    rcases (hf.covers x).mp hx with hx | hx
    · exact hs.not_both hx ⟨s, hsub s hs', hsx⟩
    · exact (hother s hs').not_has hx hsx
  · intro x
    have hlive : Covers h.live x ↔ b.Has x ∨ Covers (h.live.erase b) x := by
      rw [← covers_cons]
      constructor
      · rintro ⟨s, hs, hx⟩
        exact ⟨s, hperm.mem_iff.mp hs, hx⟩
      · rintro ⟨s, hs, hx⟩
        exact ⟨s, hperm.mem_iff.mpr hs, hx⟩
    rw [hs.tiles, hf.covers, hlive, or_assoc]

theorem exec (hs : h.Sound start size) {a : HeapCall} (ha : a.Allowed h) :
    ∃ h', a.exec h = .ok h' ∧ h'.Sound start size := by
  cases a with
  | kalloc n =>
    obtain ⟨hn, hp⟩ := ha
    simp only [HeapCall.exec]
    rw [kalloc_eq hn hp, ok_bind]
    refine ⟨_, rfl, ?_⟩
    cases hv : (kallocLoop n h.free).1 with
    | none =>
      rw [kallocLoop_none_snd hv]
      exact hs
    | some v => exact hs.alloc hn hp (kallocLoop_some hs.sorted hs.pos (Prod.ext hv rfl))
  | kfree b =>
    have hb : b ∈ h.live := ha
    simp only [HeapCall.exec]
    rw [kfree_eq b.addr (hs.live_pos b hb) (hs.live_pages b hb)]
    obtain ⟨fl, hk, hf⟩ := kfreeLoop_ok hs.sorted hs.pos (hs.live_pos b hb)
      (fun r hr => hs.apart b hb r hr)
    exact ⟨_, by rw [hk, ok_bind]; rfl, hs.free hb hf⟩

theorem kalloc_none_iff (hs : h.Sound start size) (hn : 0 < n) (hp : PAGE ∣ n) :
    (∃ fl, kalloc n h.free = .ok (none, fl)) ↔ ¬ ∃ a, ∀ x, a ≤ x → x < a + n →
      (⟨start, size⟩ : Interval).Has x ∧ ¬ Covers h.live x := by
  have hfree : ∀ x, (⟨start, size⟩ : Interval).Has x ∧ ¬ Covers h.live x ↔ Covers h.free x := by
    intro x
    rw [hs.tiles]
    constructor
    · rintro ⟨hx | hx, hl⟩
      · exact hx
      · exact absurd hx hl
    · intro hx
      exact ⟨.inl hx, hs.not_both hx⟩
  have hnone : (∃ fl, kalloc n h.free = .ok (none, fl)) ↔ (kallocLoop n h.free).1 = none := by
    rw [kalloc_eq hn hp]
    constructor
    · rintro ⟨fl, hk⟩
      rw [Except.ok.inj hk]
    · intro hk
      exact ⟨_, congrArg Except.ok (Prod.ext hk rfl)⟩
  simp only [hfree]
  rw [hnone, kallocLoop_none]
  constructor
  · rintro hall ⟨a, ha⟩
    obtain ⟨r, hr, h₁, h₂⟩ := hs.sorted.exists_of_covers hn ha
    have h₃ := hall r hr
    unfold stop at h₂
    omega
  · intro hno r hr
    by_contra hlt
    refine hno ⟨r.addr, ?_⟩
    intro x h₁ h₂
    exact ⟨r, hr, h₁, by unfold stop; omega⟩

end Heap.Sound

theorem kinit_eq (e : ℕ) : kinit e = .ok [⟨kstart e, 256 * PAGE⟩] :=
  kfree_eq _ (by decide) (Nat.dvd_mul_left PAGE 256) []

theorem sound_kinit (e : ℕ) : (⟨[⟨kstart e, 256 * PAGE⟩], []⟩ : Heap).Sound (kstart e)
    (256 * PAGE) where
  sorted := List.pairwise_singleton _ _
  pos := by simp [PAGE]
  pages := by
    intro r hr
    rw [List.mem_singleton.mp hr]
    exact Nat.dvd_mul_left PAGE 256
  live_pos := by simp
  live_pages := by simp
  live_apart := List.Pairwise.nil
  apart := by simp
  tiles := by simp

theorem sound_of_reach {e : ℕ} {fl : List Interval} {h : Heap} (h₀ : kinit e = .ok fl)
    (hr : Reach HeapStep ⟨fl, []⟩ h) : h.Sound (kstart e) (256 * PAGE) := by
  obtain rfl := Except.ok.inj ((kinit_eq e).symm.trans h₀)
  refine hr.invariant (P := fun h => h.Sound (kstart e) (256 * PAGE)) (sound_kinit e) ?_
  rintro h a h' hs ⟨ha, he⟩
  obtain ⟨h'', he', hs'⟩ := hs.exec ha
  rwa [Except.ok.inj (he.symm.trans he')]

/-- In every state a sequence of calls leads to from `kinit`, the arena is tiled by the live
blocks and the coalesced free list, every allowed call returns, and `kalloc` fails only for
want of enough free bytes in a row. -/
theorem page_allocator_sound {e : ℕ} {fl : List Interval} {h : Heap} (h₀ : kinit e = .ok fl)
    (hr : Reach HeapStep ⟨fl, []⟩ h) :
    h.Sound (kstart e) (256 * PAGE) ∧ (∀ a : HeapCall, a.Allowed h → ∃ h', a.exec h = .ok h') ∧
      ∀ n : ℕ, 0 < n → PAGE ∣ n → ((∃ fl, kalloc n h.free = .ok (none, fl)) ↔
        ¬ ∃ a, ∀ x, a ≤ x → x < a + n →
          (⟨kstart e, 256 * PAGE⟩ : Interval).Has x ∧ ¬ Covers h.live x) := by
  have hs := sound_of_reach h₀ hr
  refine ⟨hs, ?_, ?_⟩
  · intro a ha
    obtain ⟨h', he, -⟩ := hs.exec ha
    exact ⟨h', he⟩
  · intro n hn hp
    exact hs.kalloc_none_iff hn hp

/-- Two blocks are taken and the first is given back. -/
theorem page_allocator_sound_twice : ∃ h : Heap, kinit 0 = .ok [⟨kstart 0, 256 * PAGE⟩] ∧
    Reach HeapStep ⟨[⟨kstart 0, 256 * PAGE⟩], []⟩ h ∧ h.free.length = 2 ∧ h.live.length = 1 ∧
    h.Sound (kstart 0) (256 * PAGE) := by
  have hr : Reach HeapStep ⟨[⟨kstart 0, 256 * PAGE⟩], []⟩
      ⟨[⟨4096, 254 * 4096⟩, ⟨256 * 4096, 4096⟩], [⟨255 * 4096, 4096⟩]⟩ := by
    have hp : 0 < 4096 ∧ PAGE ∣ 4096 := by decide
    apply Reach.next (a := .kfree ⟨256 * 4096, 4096⟩)
    · apply Reach.next (a := .kalloc 4096)
      · apply Reach.next (a := .kalloc 4096) .start
        exact ⟨hp, rfl⟩
      · exact ⟨hp, rfl⟩
    · exact ⟨List.mem_cons_of_mem _ List.mem_cons_self, rfl⟩
  exact ⟨_, kinit_eq 0, hr, rfl, rfl, (page_allocator_sound (kinit_eq 0) hr).1⟩

/-- The blocks are freed one after the other. -/
def kfreeAll (bs fl : List Interval) : Except Fault (List Interval) :=
  bs.foldlM (fun fl b => kfree b.addr b.len fl) fl

theorem covers_perm {bs cs : List Interval} (h : bs.Perm cs) (x : ℕ) :
    Covers bs x ↔ Covers cs x := by
  unfold Covers
  simp only [h.mem_iff]

namespace Heap.Sound
variable {h : Heap} {start size : ℕ} {bs : List Interval}

theorem kfreeAll (hs : h.Sound start size) (hb : bs.Subperm h.live) :
    ∃ fl, Xv6Shed.kfreeAll bs h.free = .ok fl ∧ Separated fl ∧ (∀ r ∈ fl, 0 < r.len) ∧
      ∀ x, Covers fl x ↔ Covers h.free x ∨ Covers bs x := by
  induction bs generalizing h with
  | nil => exact ⟨h.free, rfl, hs.sorted, hs.pos, fun x => by simp⟩
  | cons b bs ih =>
    have hmem : b ∈ h.live := hb.subset List.mem_cons_self
    obtain ⟨fl, hk, hf⟩ := kfreeLoop_ok hs.sorted hs.pos (hs.live_pos b hmem)
      (fun r hr => hs.apart b hmem r hr)
    have hrest : bs.Subperm (h.live.erase b) := by
      have := hb.erase b
      rwa [List.erase_cons_head] at this
    obtain ⟨fl', hk', hsep, hpos, hcov⟩ := ih (hs.free hmem hf) hrest
    refine ⟨fl', ?_, hsep, hpos, fun x => ?_⟩
    · unfold Xv6Shed.kfreeAll at hk' ⊢
      rw [List.foldlM_cons, kfree_eq b.addr (hs.live_pos b hmem) (hs.live_pages b hmem),
        hk, ok_bind]
      exact hk'
    · rw [hcov, hf.covers, covers_cons, or_assoc]

theorem kfreeAll_perm (hs : h.Sound start size) (hb : bs.Subperm h.live) {cs : List Interval}
    (hp : bs.Perm cs) :
    ∃ fl, Xv6Shed.kfreeAll bs h.free = .ok fl ∧ Xv6Shed.kfreeAll cs h.free = .ok fl := by
  obtain ⟨fl, hk, hsep, hpos, hcov⟩ := hs.kfreeAll hb
  obtain ⟨fl', hk', hsep', hpos', hcov'⟩ := hs.kfreeAll (hp.symm.subperm.trans hb)
  have he : fl = fl' := by
    apply hsep.ext hsep' hpos hpos'
    intro x
    rw [hcov, hcov', covers_perm hp]
  exact ⟨fl, hk, he ▸ hk'⟩

theorem kfree_kalloc (hs : h.Sound start size) (hn : 0 < n) (hp : PAGE ∣ n) {v : ℕ}
    {fl : List Interval} (hk : kalloc n h.free = .ok (some v, fl)) : kfree v n fl = .ok h.free := by
  rw [kalloc_eq hn hp] at hk
  have hc := kallocLoop_some hs.sorted hs.pos (Except.ok.inj hk)
  have hs' := hs.alloc hn hp hc
  have hmem : (⟨v, n⟩ : Interval) ∈ (⟨v, n⟩ : Interval) :: h.live := List.mem_cons_self
  obtain ⟨fl', hk', hsep, hpos, hcov⟩ := hs'.kfreeAll (List.singleton_subperm_iff.mpr hmem)
  have he : fl' = h.free := by
    apply hsep.ext hs.sorted hpos hs.pos
    intro x
    rw [hcov, hc.covers, covers_cons]
    simp
  rw [← he, ← hk']
  unfold Xv6Shed.kfreeAll
  rw [List.foldlM_cons]
  cases Xv6Shed.kfree v n fl <;> rfl

theorem kfreeAll_live (hs : h.Sound start size) (hsize : 0 < size) (hp : bs.Perm h.live) :
    Xv6Shed.kfreeAll bs h.free = .ok [⟨start, size⟩] := by
  obtain ⟨fl, hk, hsep, hpos, hcov⟩ := hs.kfreeAll hp.subperm
  have he : fl = [⟨start, size⟩] := by
    apply hsep.ext (List.pairwise_singleton _ _) hpos
    · simpa using hsize
    · intro x
      rw [hcov, covers_perm hp, ← hs.tiles]
      simp
  rw [hk, he]

end Heap.Sound

/-- In every state calls lead to, the order in which blocks are freed makes no difference to the
list, `kfree` undoes `kalloc`, and when all blocks are free the list is that of `kinit`. -/
theorem freeing_commutes {e : ℕ} {fl : List Interval} {h : Heap} (h₀ : kinit e = .ok fl)
    (hr : Reach HeapStep ⟨fl, []⟩ h) :
    (∀ bs cs, bs.Subperm h.live → bs.Perm cs →
      ∃ fl', kfreeAll bs h.free = .ok fl' ∧ kfreeAll cs h.free = .ok fl') ∧
    (∀ (n v : ℕ) fl', 0 < n → PAGE ∣ n → kalloc n h.free = .ok (some v, fl') →
      kfree v n fl' = .ok h.free) ∧
    ∀ bs, bs.Perm h.live → kfreeAll bs h.free = .ok fl := by
  have hs := sound_of_reach h₀ hr
  refine ⟨fun bs cs hb hp => hs.kfreeAll_perm hb hp, fun n v fl' hn hp hk =>
    hs.kfree_kalloc hn hp hk, fun bs hp => ?_⟩
  rw [← h₀, kinit_eq]
  exact hs.kfreeAll_live (by decide) hp

/-- Three blocks are taken, and freed in two orders. -/
theorem freeing_commutes_three : ∃ h : Heap, Reach HeapStep ⟨[⟨kstart 0, 256 * PAGE⟩], []⟩ h ∧
    h.live = [⟨254 * 4096, 4096⟩, ⟨255 * 4096, 4096⟩, ⟨256 * 4096, 4096⟩] ∧
    kfreeAll [⟨254 * 4096, 4096⟩, ⟨255 * 4096, 4096⟩, ⟨256 * 4096, 4096⟩] h.free =
      .ok [⟨kstart 0, 256 * PAGE⟩] ∧
    kfreeAll [⟨256 * 4096, 4096⟩, ⟨254 * 4096, 4096⟩, ⟨255 * 4096, 4096⟩] h.free =
      .ok [⟨kstart 0, 256 * PAGE⟩] := by
  have hp : 0 < 4096 ∧ PAGE ∣ 4096 := by decide
  have hr : Reach HeapStep ⟨[⟨kstart 0, 256 * PAGE⟩], []⟩ ⟨[⟨4096, 253 * 4096⟩],
      [⟨254 * 4096, 4096⟩, ⟨255 * 4096, 4096⟩, ⟨256 * 4096, 4096⟩]⟩ := by
    apply Reach.next (a := .kalloc 4096)
    · apply Reach.next (a := .kalloc 4096)
      · exact .next (a := .kalloc 4096) .start ⟨hp, rfl⟩
      · exact ⟨hp, rfl⟩
    · exact ⟨hp, rfl⟩
  obtain ⟨-, -, hall⟩ := freeing_commutes (kinit_eq 0) hr
  exact ⟨_, hr, rfl, hall _ (.refl _), hall _ (by decide)⟩

end Xv6Shed
