import Xv6Shed.Umalloc

/-!
# The sizes that `malloc` computes

`nunits` and the argument of `sbrk` are 32-bit expressions. Up to `2 ^ 31 - 16` bytes neither
wraps, and `malloc` returns a block that is large enough from every heap whose free list runs
through headers that share no byte.
-/

namespace Xv6Shed
open Bytes Header

/-- `sbrk(k)`, `k > 0`, fails or extends the memory by `k` bytes. -/
def Sbrk.Extends (sbrk : Sbrk) : Prop :=
  ∀ k m brk p m' brk', 0 < k → sbrk k m brk = some (p, m', brk') →
    p = brk ∧ (brk' : ℤ) = brk + k ∧ brk' < 2 ^ 32 ∧ ∀ i < brk, m' i = m i

namespace UserHeap

/-- The header size that `morecore(nu)` stores -/
def recorded (nu : ℕ) : ℕ := if nu < PAGE then PAGE else nu

/-- The argument that `morecore(nu)` gives to `sbrk` -/
def requested (nu : ℕ) : ℤ := toInt (recorded nu * 8 % 2 ^ 32)

/-- The free list runs through headers `ns` below the break that share no byte. -/
structure FreeList (h : UserHeap) (ns : Set ℕ) : Prop where
  rover : h.freep ∈ ns
  closed : ∀ p ∈ ns, ptr h.mem p ∈ ns
  spaced : ∀ p ∈ ns, ∀ q ∈ ns, q = p ∨ Far p q
  below : ∀ p ∈ ns, p + 8 ≤ h.brk
  brk_lt : h.brk < 2 ^ 32

/-- A heap before the first `malloc`, or with a free list -/
def Usable (base : ℕ) (h : UserHeap) : Prop :=
  base + 8 ≤ h.brk ∧ h.brk < 2 ^ 32 ∧ (h.freep ≠ 0 → ∃ ns, FreeList h ns)

variable {sbrk : Sbrk} {h h' : UserHeap} {ns : Set ℕ} {m m' : Buffer}
  {base fuel ap bp hp p q prevp n nbytes : ℕ}

theorem ofArea_plus (hp : p < 2 ^ 32) : ofArea (plus p 1) = p := by
  unfold ofArea plus
  omega

theorem plus_lt (p n : ℕ) : plus p n < 2 ^ 32 := Nat.mod_lt _ (Nat.two_pow_pos 32)

theorem morecore_eq (sbrk : Sbrk) (fuel nu : ℕ) (h : UserHeap) : morecore sbrk fuel nu h =
    (match sbrk (requested nu) h.mem h.brk with
    | none => some (0, h)
    | some (hp, mem, brk) => do
      let h ← free fuel (plus hp 1) ⟨setSize mem hp (recorded nu), brk, h.freep⟩
      pure (h.freep, h)) := rfl

theorem freeLoop_mem (hc : ∀ p ∈ ns, ptr m p ∈ ns) (hp : p ∈ ns)
    (hl : freeLoop m bp fuel p = some q) : q ∈ ns := by
  induction fuel generalizing p with
  | zero => cases hl
  | succ fuel ih =>
    unfold freeLoop at hl
    split at hl
    · exact Option.some.inj hl ▸ hp
    · split at hl
      · exact Option.some.inj hl ▸ hp
      · exact ih (hc p hp) hl

theorem joinUpper_mem (hc : ∀ p ∈ ns, ptr m p ∈ ns) (hf : ∀ q ∈ ns, q = bp ∨ Far bp q)
    (hp : p ∈ ns) : ∀ q ∈ insert bp ns, ptr (joinUpper m bp p) q ∈ ns := by
  have hpp := hc p hp
  have hset : ∀ {m₁ : Buffer} {v : ℕ}, (∀ q ∈ ns, ptr m₁ q ∈ ns) → v ∈ ns → v < 2 ^ 32 →
      ∀ q ∈ insert bp ns, ptr (setPtr m₁ bp v) q ∈ ns := by
    intro m₁ v hm hv hlt q hq
    rcases hq with rfl | hq
    · rwa [ptr_setPtr _ _ hlt]
    · rcases hf q hq with rfl | hfar
      · rwa [ptr_setPtr _ _ hlt]
      · rw [ptr_setPtr_of_far hfar]
        exact hm q hq
  have hsize : ∀ {n : ℕ}, ∀ q ∈ ns, ptr (setSize m bp n) q = ptr m q :=
    fun q hq => ptr_setSize (hf q hq)
  unfold joinUpper
  split
  · refine hset (fun q hq => ?_) ?_ (ptr_lt _ _)
    · rw [hsize q hq]
      exact hc q hq
    · rw [hsize p hp, hsize _ hpp]
      exact hc _ hpp
  · exact hset hc hpp (ptr_lt _ _)

theorem joinLower_mem (hc : ∀ p ∈ ns, ptr m p ∈ ns) (hs : ∀ p ∈ ns, ∀ q ∈ ns, q = p ∨ Far p q)
    (hp : p ∈ ns) (hbp : bp ∈ ns) (hlt : bp < 2 ^ 32) :
    ∀ q ∈ ns, ptr (joinLower m bp p) q ∈ ns := by
  have hset : ∀ {m₁ : Buffer} {v : ℕ}, (∀ q ∈ ns, ptr m₁ q ∈ ns) → v ∈ ns → v < 2 ^ 32 →
      ∀ q ∈ ns, ptr (setPtr m₁ p v) q ∈ ns := by
    intro m₁ v hm hv hlt q hq
    rcases hs p hp q hq with rfl | hfar
    · rwa [ptr_setPtr _ _ hlt]
    · rw [ptr_setPtr_of_far hfar]
      exact hm q hq
  unfold joinLower
  split
  · refine hset (fun q hq => ?_) ?_ (ptr_lt _ _)
    · rw [ptr_setSize (hs p hp q hq)]
      exact hc q hq
    · rw [ptr_setSize (hs p hp bp hbp)]
      exact hc bp hbp
  · exact hset hc hbp hlt

theorem FreeList.freed (hl : FreeList h ns) (hbp : ofArea ap = bp) (hlt : bp < 2 ^ 32)
    (hf : ∀ q ∈ ns, q = bp ∨ Far bp q) (hb : bp + 8 ≤ h.brk) (he : free fuel ap h = some h') :
    FreeList h' (insert bp ns) := by
  simp only [free, hbp, Option.bind_eq_bind, Option.bind_eq_some_iff, Option.pure_def,
    Option.some.injEq] at he
  obtain ⟨p, hloop, he⟩ := he
  have hmem : h'.mem = joinLower (joinUpper h.mem bp p) bp p := by rw [← he]
  have hbrk : h'.brk = h.brk := by rw [← he]
  have hrover : h'.freep = p := by rw [← he]
  have hp : p ∈ ns := freeLoop_mem hl.closed hl.rover hloop
  have hspaced : ∀ p ∈ insert bp ns, ∀ q ∈ insert bp ns, q = p ∨ Far p q := by
    rintro p (rfl | hp) q (rfl | hq)
    · exact .inl rfl
    · exact hf q hq
    · exact (hf p hp).imp Eq.symm Far.symm
    · exact hl.spaced p hp q hq
  have hup := joinUpper_mem hl.closed hf hp
  refine ⟨.inr (hrover ▸ hp), ?_, hspaced, ?_, hbrk ▸ hl.brk_lt⟩
  · rw [hmem]
    exact joinLower_mem (fun q hq => .inr (hup q hq)) hspaced (.inr hp) (.inl rfl) hlt
  · rw [hbrk]
    rintro q (rfl | hq)
    · exact hb
    · exact hl.below q hq

theorem FreeList.grown (hl : FreeList h ns) (hs : sbrk.Extends)
    (hk : (recorded n * 8 : ℤ) ≤ requested n) (he : morecore sbrk fuel n h = some (p, h'))
    (hp : p ≠ 0) : ∃ ns', FreeList h' ns' ∧ p ∈ ns' := by
  have hrec : PAGE ≤ recorded n := by
    unfold recorded
    split <;> omega
  have hpage : PAGE = 4096 := rfl
  rw [morecore_eq] at he
  cases hres : sbrk (requested n) h.mem h.brk with
  | none =>
    rw [hres] at he
    simp only [Option.some.injEq, Prod.mk.injEq] at he
    exact absurd he.1.symm hp
  | some r =>
    obtain ⟨hp', mem, brk⟩ := r
    obtain ⟨rfl, hbrk, hlt, hmem⟩ := hs _ _ _ _ _ _ (by omega) hres
    rw [hres] at he
    simp only [Option.bind_eq_bind, Option.bind_eq_some_iff, Option.pure_def, Option.some.injEq,
      Prod.mk.injEq] at he
    obtain ⟨h₁, hfree, rfl, rfl⟩ := he
    have hfar : ∀ q ∈ ns, Far h.brk q := fun q hq => .inr (hl.below q hq)
    have hl' : FreeList ⟨setSize mem h.brk (recorded n), brk, h.freep⟩ ns := by
      refine ⟨hl.rover, fun q hq => ?_, hl.spaced, fun q hq => ?_, hlt⟩
      · have hptr : ptr mem q = ptr h.mem q := by
          have hb := hl.below q hq
          unfold ptr
          rw [get32_congr fun i hi => hmem (q + i) (by omega)]
        rw [ptr_setSize (.inr (hfar q hq)), hptr]
        exact hl.closed q hq
      · have hb := hl.below q hq
        show q + 8 ≤ brk
        omega
    have hnew := hl'.freed (ofArea_plus hl.brk_lt) hl.brk_lt (fun q hq => .inr (hfar q hq))
      (show h.brk + 8 ≤ brk by omega) hfree
    exact ⟨_, hnew, hnew.rover⟩

theorem FreeList.size_take (hl : FreeList h ns) (hprev : prevp ∈ ns) (hp : p ∈ ns)
    (hn : n < 2 ^ 32) : size (h.take n prevp p).2.mem (ofArea (h.take n prevp p).1) = n := by
  have hlt : p < 2 ^ 32 := by
    have h₁ := hl.below p hp
    have h₂ := hl.brk_lt
    omega
  unfold take
  split
  · next hsize =>
    show size (setPtr h.mem prevp _) (ofArea (plus p 1)) = n
    rw [ofArea_plus hlt, size_setPtr (hl.spaced prevp hprev p hp), hsize]
  · show size (setSize _ _ n) (ofArea (plus (plus p _) 1)) = n
    rw [ofArea_plus (plus_lt _ _), size_setSize _ _ hn]

theorem FreeList.size_mallocLoop (hl : FreeList h ns) (hs : sbrk.Extends) (hn : n < 2 ^ 32)
    (hk : (recorded n * 8 : ℤ) ≤ requested n) (hprev : prevp ∈ ns) (hp : p ∈ ns)
    (he : mallocLoop sbrk n fuel prevp p h = some (ap, h')) (hap : ap ≠ 0) :
    size h'.mem (ofArea ap) = n := by
  induction fuel generalizing h ns prevp p with
  | zero => cases he
  | succ fuel ih =>
    unfold mallocLoop at he
    split at he
    · rw [Option.some.injEq] at he
      have htake := hl.size_take hprev hp hn
      rwa [he] at htake
    · split at he
      · -- `p == freep`
        simp only [Option.bind_eq_bind, Option.bind_eq_some_iff] at he
        obtain ⟨⟨p₁, h₁⟩, hmore, he⟩ := he
        by_cases h0 : p₁ = 0
        · rw [if_pos h0, Option.some.injEq, Prod.mk.injEq] at he
          exact absurd he.1.symm hap
        · rw [if_neg h0] at he
          obtain ⟨ns', hl', hp'⟩ := hl.grown hs hk hmore h0
          exact ih hl' hp' (hl'.closed _ hp') he
      · exact ih hl hp (hl.closed p hp) he

theorem Usable.init (hu : Usable base h) : ∃ ns, FreeList (h.init base) ns := by
  obtain ⟨hbase, hlt, hl⟩ := hu
  unfold UserHeap.init
  split
  · have hptr : ptr (setSize (setPtr h.mem base base) base 0) base = base := by
      rw [ptr_setSize (.inl rfl), ptr_setPtr _ _ (by omega)]
    refine ⟨{base}, rfl, ?_, ?_, ?_, hlt⟩
    · rintro p rfl
      exact hptr
    · rintro p rfl q rfl
      exact .inl rfl
    · rintro p rfl
      exact hbase
  · next hne => exact hl hne

theorem units_bounds (hn : nbytes ≤ 2 ^ 31 - 16) :
    nbytes + 8 ≤ units nbytes * 8 ∧ units nbytes * 8 < 2 ^ 31 := by
  unfold units
  omega

theorem requested_of_lt (hn : n * 8 < 2 ^ 31) : requested n = recorded n * 8 := by
  have hrec : recorded n * 8 < 2 ^ 31 := by
    have hpage : PAGE = 4096 := rfl
    unfold recorded
    split <;> omega
  unfold requested toInt
  rw [Nat.mod_eq_of_lt (by omega), if_pos hrec]
  push_cast
  rfl

theorem requested_neg (h₁ : 2 ^ 31 ≤ n * 8) (h₂ : n ≤ 2 ^ 29) : requested n < recorded n * 8 := by
  have hrec : recorded n = n := by
    have hpage : PAGE = 4096 := rfl
    exact if_neg (by omega)
  unfold requested toInt
  rw [hrec]
  split <;> omega

/-- From every heap state `malloc(nbytes)` returns null or a block with `nbytes` bytes behind its
header, and the region that `morecore` records is no larger than the one it asks for. -/
def NeverShort (nbytes : ℕ) : Prop :=
  (∀ (sbrk : Sbrk) (base fuel : ℕ) (h h' : UserHeap) (ap : ℕ), sbrk.Extends → Usable base h →
    malloc sbrk base fuel nbytes h = some (ap, h') → ap ≠ 0 →
      (nbytes : ℤ) ≤ ((size h'.mem (ofArea ap) : ℤ) - 1) * 8) ∧
  (recorded (units nbytes) * 8 : ℤ) ≤ requested (units nbytes)

/-- An `sbrk` with memory up to the end of the address space -/
def grow : Sbrk := fun k m brk =>
  if (brk + k).toNat < 2 ^ 32 then some (brk, m, (brk + k).toNat) else none

theorem grow_extends : grow.Extends := by
  intro k m brk p m' brk' hk he
  unfold grow at he
  split at he
  · next hlt =>
    obtain ⟨rfl, rfl, rfl⟩ : brk = p ∧ m = m' ∧ (brk + k).toNat = brk' := by
      simpa only [Option.some.injEq, Prod.mk.injEq] using he
    exact ⟨rfl, by omega, hlt, fun _ _ => rfl⟩
  · cases he

/-- A program of one page that has not called `malloc` -/
def fresh : UserHeap := ⟨zeros, PAGE, 0⟩

theorem fresh_usable : Usable 2048 fresh := ⟨by decide, by decide, fun h => absurd rfl h⟩

theorem fresh_one : ∃ h', mallocLoop grow 1 3 2048 2048 (fresh.init 2048) = some (36864, h') ∧
    size h'.mem (ofArea 36864) = 1 := by
  have h : (mallocLoop grow 1 3 2048 2048 (fresh.init 2048)).any
      (fun r => r.1 = 36864 ∧ size r.2.mem (ofArea 36864) = 1) = true := by decide +kernel
  rw [Option.any_eq_true] at h
  obtain ⟨⟨ap, h'⟩, he, hr⟩ := h
  rw [decide_eq_true_eq] at hr
  obtain ⟨rfl, hs⟩ := hr
  exact ⟨h', he, hs⟩

theorem malloc_wrapped (h₁ : 2 ^ 32 - 7 ≤ nbytes) (h₂ : nbytes < 2 ^ 32) :
    ∃ h', malloc grow 2048 3 nbytes fresh = some (36864, h') ∧
      size h'.mem (ofArea 36864) = 1 := by
  have hunits : units nbytes = 1 := by
    unfold units
    omega
  have hptr : ptr (fresh.init 2048).mem 2048 = 2048 := by decide +kernel
  obtain ⟨h', he, hs⟩ := fresh_one
  refine ⟨h', ?_, hs⟩
  simp only [malloc, hunits, show (fresh.init 2048).freep = 2048 from rfl, hptr]
  exact he

/-- `malloc` is safe exactly for the requests whose rounded size in bytes is an `int`. -/
theorem never_short_iff (hn : nbytes < 2 ^ 32) : NeverShort nbytes ↔ nbytes ≤ 2 ^ 31 - 16 := by
  constructor
  · rintro ⟨hblock, hregion⟩
    by_contra hlarge
    by_cases hwrap : nbytes < 2 ^ 32 - 7
    · -- the product with `sizeof(Header)` is no positive `int`
      have h₁ : 2 ^ 31 ≤ units nbytes * 8 := by
        unfold units
        omega
      have h₂ : units nbytes ≤ 2 ^ 29 := by
        unfold units
        omega
      exact absurd hregion (requested_neg h₁ h₂).not_ge
    · obtain ⟨h', he, hs⟩ := malloc_wrapped (by omega) hn
      have hle := hblock grow 2048 3 fresh h' 36864 grow_extends fresh_usable he (by decide)
      rw [hs] at hle
      omega
  · intro hsmall
    obtain ⟨hle, hlt⟩ := units_bounds hsmall
    have hk : (recorded (units nbytes) * 8 : ℤ) ≤ requested (units nbytes) :=
      (requested_of_lt hlt).ge
    refine ⟨fun sbrk base fuel h h' ap hs hu he hap => ?_, hk⟩
    obtain ⟨ns, hl⟩ := hu.init
    have hsize := hl.size_mallocLoop hs (by omega) hk hl.rover (hl.closed _ hl.rover) he hap
    rw [hsize]
    omega

theorem never_short_hundred : NeverShort 100 := (never_short_iff (by decide)).mpr (by decide)

/-- `malloc(0xFFFFFFFF)` as the first call of a program -/
theorem malloc_short : grow.Extends ∧ Usable 2048 fresh ∧
    ∃ h', malloc grow 2048 3 (2 ^ 32 - 1) fresh = some (36864, h') ∧
      ((size h'.mem (ofArea 36864) : ℤ) - 1) * 8 < 2 ^ 32 - 1 := by
  refine ⟨grow_extends, fresh_usable, ?_⟩
  obtain ⟨h', he, hs⟩ := malloc_wrapped (show 2 ^ 32 - 7 ≤ 2 ^ 32 - 1 by decide) (by decide)
  exact ⟨h', he, by rw [hs]; decide⟩

end UserHeap

end Xv6Shed
