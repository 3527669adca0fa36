import Mathlib.Algebra.BigOperators.Group.Finset.Basic
import Mathlib.Algebra.Order.BigOperators.Group.Finset
import Mathlib.Data.Finset.Card
import Mathlib.Tactic.Simps.Basic

/-!
# Counted links

Objects are numbered; some are directories and hold links to other objects, at most `K` of
them, and 0 stands for no link. An object records how many links it has. While a link is made
or removed the record and the links differ; the difference is kept as a credit. Links of an
object to itself are not counted. An object whose record says 0 may be freed when nobody
holds it, and `Linked` is why nothing then refers to it; object 1 is never freed.
-/

namespace Xv6Shed
open Function

@[ext] structure Graph where
  live : ℕ → Bool
  dir : ℕ → Bool
  links : ℕ → ℕ
  entry : ℕ → ℕ → ℕ

namespace Graph

/-- The record of object `i` becomes `n`. -/
@[simps -fullyApplied] def setLinks (G : Graph) (i n : ℕ) : Graph :=
  { G with links := update G.links i n }

/-- Place `k` of directory `j` becomes a link to `v`. -/
@[simps -fullyApplied] def setEntry (G : Graph) (j k v : ℕ) : Graph :=
  { G with entry := update G.entry j (update (G.entry j) k v) }

/-- Object `i` comes into being, without links. -/
@[simps -fullyApplied] def alloc (G : Graph) (i : ℕ) (dir : Bool) (n : ℕ) : Graph where
  live := update G.live i true
  dir := update G.dir i dir
  links := update G.links i n
  entry := update G.entry i fun _ => 0

/-- Object `i` is freed, with the links it has. -/
@[simps -fullyApplied] def free (G : Graph) (i : ℕ) : Graph where
  live := update G.live i false
  dir := update G.dir i false
  links := update G.links i 0
  entry := update G.entry i fun _ => 0

end Graph

/-- How many of the first `N` objects' links lead to `i` from elsewhere -/
def names (N K : ℕ) (E : ℕ → ℕ → ℕ) (i : ℕ) : ℕ :=
  ∑ j ∈ Finset.range N, ∑ k ∈ Finset.range K, if j ≠ i ∧ E j k = i then 1 else 0

variable {N K : ℕ} {E E' : ℕ → ℕ → ℕ} {i j k v : ℕ}

theorem sum_add_of_eq_off {ι : Type} [DecidableEq ι] {s : Finset ι} {f g : ι → ℕ} {a : ι}
    (ha : a ∈ s) (h : ∀ x ∈ s, x ≠ a → f x = g x) : ∑ x ∈ s, f x + g a = ∑ x ∈ s, g x + f a := by
  have herase : ∑ x ∈ s.erase a, f x = ∑ x ∈ s.erase a, g x :=
    Finset.sum_congr rfl fun x hx => h x (Finset.mem_of_mem_erase hx) (Finset.ne_of_mem_erase hx)
  rw [← Finset.add_sum_erase s f ha, ← Finset.add_sum_erase s g ha, herase]
  omega

theorem names_setEntry (hj : j < N) (hk : k < K) (E : ℕ → ℕ → ℕ) (v i : ℕ) :
    names N K (update E j (update (E j) k v)) i + (if j ≠ i ∧ E j k = i then 1 else 0) =
      names N K E i + (if j ≠ i ∧ v = i then 1 else 0) := by
  have hinner := sum_add_of_eq_off (s := Finset.range K) (a := k)
    (f := fun x => if j ≠ i ∧ update (E j) k v x = i then 1 else 0)
    (g := fun x => if j ≠ i ∧ E j x = i then 1 else 0) (Finset.mem_range.mpr hk)
    fun x _ hx => by simp only [update_of_ne hx]
  have houter := sum_add_of_eq_off (s := Finset.range N) (a := j)
    (f := fun y => ∑ x ∈ Finset.range K,
      if y ≠ i ∧ update E j (update (E j) k v) y x = i then 1 else 0)
    (g := fun y => ∑ x ∈ Finset.range K, if y ≠ i ∧ E y x = i then 1 else 0)
    (Finset.mem_range.mpr hj) fun y _ hy => by simp only [update_of_ne hy]
  simp only [update_self] at hinner houter
  unfold names
  omega

section Change

variable {c : ℕ → ℕ} {x : ℕ}

theorem names_enter (hj : j < N) (hk : k < K) (hne : j ≠ i) (hc : 0 < c i) :
    names N K (update E j (update (E j) k i)) x + update c i (c i - 1) x +
      (if j ≠ x ∧ E j k = x then 1 else 0) = names N K E x + c x := by
  have hn := names_setEntry hj hk E i x
  by_cases hxi : x = i
  · subst hxi
    rw [if_pos (c := j ≠ x ∧ x = x) ⟨hne, rfl⟩] at hn
    rw [update_self]
    omega
  · rw [if_neg (c := j ≠ x ∧ i = x) (fun hz => hxi hz.2.symm)] at hn
    rw [update_of_ne hxi]
    omega

theorem names_enterSelf (hj : j < N) (hk : k < K) :
    names N K (update E j (update (E j) k j)) x + (if j ≠ x ∧ E j k = x then 1 else 0) =
      names N K E x := by
  rw [names_setEntry hj hk, if_neg (c := j ≠ x ∧ j = x) (fun hz => hz.1 hz.2), Nat.add_zero]

theorem names_remove (hj : j < N) (hk : k < K) (he : E j k = i) (hne : j ≠ i) (hx : x ≠ 0) :
    names N K (update E j (update (E j) k 0)) x + update c i (c i + 1) x =
      names N K E x + c x := by
  have hn := names_setEntry hj hk E 0 x
  rw [he, if_neg (c := j ≠ x ∧ 0 = x) (fun hz => hx hz.2.symm)] at hn
  by_cases hxi : x = i
  · subst hxi
    rw [if_pos ⟨hne, rfl⟩] at hn
    rw [update_self]
    omega
  · rw [if_neg (fun hz => hxi hz.2.symm)] at hn
    rw [update_of_ne hxi]
    omega

end Change

theorem names_clear_le (E : ℕ → ℕ → ℕ) (j i : ℕ) (hi : i ≠ 0) :
    names N K (update E j fun _ => 0) i ≤ names N K E i := by
  refine Finset.sum_le_sum fun y _ => Finset.sum_le_sum fun x _ => ?_
  by_cases hy : y = j
  · subst hy
    simp only [update_self, Ne.symm hi, and_false, if_false]
    exact Nat.zero_le _
  · simp only [update_of_ne hy]
    exact Nat.le_refl _

theorem names_eq_zero_iff :
    names N K E i = 0 ↔ ∀ y < N, ∀ x < K, E y x = i → y = i := by
  simp only [names, Finset.sum_eq_zero_iff, Finset.mem_range, ite_eq_right_iff]
  constructor
  · intro h y hy x hx he
    by_contra hne
    exact absurd (h y hy x hx ⟨hne, he⟩) (by omega)
  · rintro h y hy x hx ⟨hne, he⟩
    exact absurd (h y hy x hx he) hne

theorem names_pos (hj : j < N) (hk : k < K) (he : E j k = i) (hne : j ≠ i) : 0 < names N K E i := by
  rw [Nat.pos_iff_ne_zero]
  intro h0
  exact hne (names_eq_zero_iff.mp h0 j hj k hk he)

/-- Objects that are linked or held are there, and no record is below the number of links and
credits, or above `B`. -/
structure Linked (N K : ℕ) (G : Graph) (held : ℕ → Prop) (c : ℕ → ℕ) (B : ℕ) : Prop where
  named : ∀ j < N, ∀ k < K, G.entry j k ≠ 0 → G.live (G.entry j k) = true
  held : ∀ i, held i → G.live i = true
  counted : ∀ i, G.live i = true → names N K G.entry i + c i + (if i = 1 then 1 else 0) ≤ G.links i
  few : ∀ i, G.live i = true → G.links i ≤ B
  root : G.live 1 = true
  zero : G.live 0 = false

variable {G : Graph} {held held' : ℕ → Prop} {c : ℕ → ℕ} {B B' n : ℕ} {dir : Bool}

namespace Linked

section

variable (h : Linked N K G held c B)
include h

theorem ne_zero (hl : G.live i = true) : i ≠ 0 := by
  intro h0
  rw [h0, h.zero] at hl
  cases hl

theorem names_dead (hd : G.live i = false) (hi : i ≠ 0) : names N K G.entry i = 0 := by
  rw [names_eq_zero_iff]
  intro y hy x hx he
  have := h.named y hy x hx (by rwa [he])
  rw [he, hd] at this
  cases this

theorem setLinks {d : ℕ} (hd : d + G.links i ≤ n + c i) (hn : G.live i = true → n ≤ B')
    (hB : B ≤ B') : Linked N K (G.setLinks i n) held (update c i d) B' where
  named := h.named
  held := h.held
  counted x hx := by
    have := h.counted x hx
    by_cases hxi : x = i
    · subst hxi
      simp only [Graph.setLinks_entry, Graph.setLinks_links, update_self]
      omega
    · simpa only [Graph.setLinks_entry, Graph.setLinks_links, update_of_ne hxi] using this
  few x hx := by
    by_cases hxi : x = i
    · subst hxi
      simpa only [Graph.setLinks_links, update_self] using hn hx
    · simpa only [Graph.setLinks_links, update_of_ne hxi] using (h.few x hx).trans hB
  root := h.root
  zero := h.zero

theorem up (hB : G.links i + 1 ≤ B') (hBB : B ≤ B') :
    Linked N K (G.setLinks i (G.links i + 1)) held (update c i (c i + 1)) B' :=
  h.setLinks (by omega) (fun _ => hB) hBB

theorem down (hc : 0 < c i) :
    Linked N K (G.setLinks i (G.links i - 1)) held (update c i (c i - 1)) B :=
  h.setLinks (by omega) (fun hl => (Nat.sub_le _ _).trans (h.few i hl)) le_rfl

theorem named_setEntry (hv : v ≠ 0 → G.live v = true) :
    ∀ y < N, ∀ x < K, (G.setEntry j k v).entry y x ≠ 0 →
      G.live ((G.setEntry j k v).entry y x) = true := by
  intro y hy x hx hne
  simp only [Graph.setEntry_entry] at hne ⊢
  by_cases hyj : y = j
  · subst hyj
    rw [update_self] at hne ⊢
    by_cases hxk : x = k
    · subst hxk
      rw [update_self] at hne ⊢
      exact hv hne
    · rw [update_of_ne hxk] at hne ⊢
      exact h.named y hy x hx hne
  · rw [update_of_ne hyj] at hne ⊢
    exact h.named y hy x hx hne

/-- A place is set, with the credits `c'`, and no object has more links and credits than before. -/
theorem setEntry {c' : ℕ → ℕ} (hv : v ≠ 0 → G.live v = true) (hn : ∀ x, G.live x = true →
      names N K (G.setEntry j k v).entry x + c' x ≤ names N K G.entry x + c x) :
    Linked N K (G.setEntry j k v) held c' B where
  named := h.named_setEntry hv
  held := h.held
  counted x hx := by
    have := h.counted x hx
    have := hn x hx
    rw [Graph.setEntry_links]
    omega
  few := h.few
  root := h.root
  zero := h.zero

theorem enter (hj : j < N) (hk : k < K) (hl : G.live i = true) (hne : j ≠ i) (hc : 0 < c i) :
    Linked N K (G.setEntry j k i) held (update c i (c i - 1)) B :=
  h.setEntry (fun _ => hl) fun _ _ => Nat.le.intro (names_enter hj hk hne hc)

theorem enterSelf (hj : j < N) (hk : k < K) (hl : G.live j = true) :
    Linked N K (G.setEntry j k j) held c B :=
  h.setEntry (fun _ => hl) fun _ _ =>
    Nat.add_le_add_right (Nat.le.intro (names_enterSelf hj hk)) _

theorem remove (hj : j < N) (hk : k < K) (he : G.entry j k = i) (_hi : i ≠ 0) (hne : j ≠ i) :
    Linked N K (G.setEntry j k 0) held (update c i (c i + 1)) B :=
  h.setEntry (fun h0 => absurd rfl h0) fun _ hx => (names_remove hj hk he hne (h.ne_zero hx)).le

theorem alloc (hd : G.live i = false) (hi : i ≠ 0) (hn : n ≤ B) :
    Linked N K (G.alloc i dir n) held (update c i n) B where
  named y hy x hx hne := by
    simp only [Graph.alloc_entry, Graph.alloc_live] at hne ⊢
    by_cases hyi : y = i
    · rw [hyi, update_self] at hne
      exact absurd rfl hne
    · rw [update_of_ne hyi] at hne ⊢
      have hl := h.named y hy x hx hne
      rw [update_of_ne, hl]
      intro he
      rw [he, hd] at hl
      cases hl
  held x hx := by
    have hl := h.held x hx
    simp only [Graph.alloc_live]
    rw [update_of_ne, hl]
    intro he
    rw [he, hd] at hl
    cases hl
  counted x hx := by
    simp only [Graph.alloc_entry, Graph.alloc_links, Graph.alloc_live] at hx ⊢
    by_cases hxi : x = i
    · subst hxi
      have hle := names_clear_le (N := N) (K := K) G.entry x x hi
      rw [h.names_dead hd hi] at hle
      have h1 : x ≠ 1 := by
        intro h1
        rw [h1, h.root] at hd
        cases hd
      rw [update_self, update_self, if_neg h1]
      omega
    · rw [update_of_ne hxi] at hx
      have hle := names_clear_le (N := N) (K := K) G.entry i x (h.ne_zero hx)
      have := h.counted x hx
      rw [update_of_ne hxi, update_of_ne hxi]
      omega
  few x hx := by
    simp only [Graph.alloc_links, Graph.alloc_live] at hx ⊢
    by_cases hxi : x = i
    · rw [hxi, update_self]
      exact hn
    · rw [update_of_ne hxi] at hx ⊢
      exact h.few x hx
  root := by
    have : 1 ≠ i := by
      intro h1
      rw [← h1, h.root] at hd
      cases hd
    simp only [Graph.alloc_live, update_of_ne this, h.root]
  zero := by
    simp only [Graph.alloc_live, update_of_ne hi.symm, h.zero]

theorem free (hl : G.live i = true) (hc : G.links i ≤ c i) (hsub : ∀ x, held' x → held x)
    (hi : ¬held' i) : Linked N K (G.free i) held' (update c i 0) B := by
  have hcount := h.counted i hl
  have h1 : i ≠ 1 := by
    intro h1
    rw [if_pos h1] at hcount
    omega
  have h0 : names N K G.entry i = 0 := by omega
  refine ⟨?_, ?_, ?_, ?_, ?_, ?_⟩
  · intro y hy x hx hne
    simp only [Graph.free_entry, Graph.free_live] at hne ⊢
    by_cases hyi : y = i
    · rw [hyi, update_self] at hne
      exact absurd rfl hne
    · rw [update_of_ne hyi] at hne ⊢
      rw [update_of_ne]
      · exact h.named y hy x hx hne
      · exact fun he => hyi (names_eq_zero_iff.mp h0 y hy x hx he)
  · intro x hx
    have : x ≠ i := by
      rintro rfl
      exact hi hx
    simp only [Graph.free_live, update_of_ne this]
    exact h.held x (hsub x hx)
  · intro x hx
    have hxi : x ≠ i := by
      rintro rfl
      simp at hx
    simp only [Graph.free_live, Graph.free_entry, Graph.free_links, update_of_ne hxi] at hx ⊢
    have hle := names_clear_le (N := N) (K := K) G.entry i x (h.ne_zero hx)
    have := h.counted x hx
    omega
  · intro x hx
    have hxi : x ≠ i := by
      rintro rfl
      simp at hx
    simp only [Graph.free_live, Graph.free_links, update_of_ne hxi] at hx ⊢
    exact h.few x hx
  · simp only [Graph.free_live, update_of_ne h1.symm, h.root]
  · by_cases hi0 : i = 0
    · simp [hi0]
    · simp only [Graph.free_live, update_of_ne (Ne.symm hi0), h.zero]

theorem hold (hsub : ∀ x, held' x → held x ∨ G.live x = true) : Linked N K G held' c B :=
  { h with held := fun x hx => (hsub x hx).elim (h.held x) id }

theorem weaken (hB : B ≤ B') : Linked N K G held c B' :=
  { h with few := fun x hx => (h.few x hx).trans hB }

end

end Linked

/-- Records are exact, directories are linked, and what is not linked is held. -/
structure Exact (N K : ℕ) (G : Graph) (held : ℕ → Prop) (c : ℕ → ℕ) : Prop where
  equal : ∀ i, G.live i = true → i ≠ 1 → names N K G.entry i + c i = G.links i
  used : ∀ i, G.live i = true → G.links i = 0 → held i
  dirs : ∀ i, G.dir i = true → G.links i ≠ 0

namespace Exact

section

variable (h : Exact N K G held c)
include h

theorem setLinks {d : ℕ} (hd : ∀ m, m + c i = G.links i → m + d = n) (hi : n = 0 → held i)
    (hdir : G.dir i = true → n ≠ 0) : Exact N K (G.setLinks i n) held (update c i d) where
  equal x hx h1 := by
    have := h.equal x hx h1
    by_cases hxi : x = i
    · subst hxi
      simpa only [Graph.setLinks_entry, Graph.setLinks_links, update_self] using hd _ this
    · simpa only [Graph.setLinks_entry, Graph.setLinks_links, update_of_ne hxi] using this
  used x hx h0 := by
    by_cases hxi : x = i
    · rw [hxi, Graph.setLinks_links, update_self] at h0
      exact hxi ▸ hi h0
    · rw [Graph.setLinks_links, update_of_ne hxi] at h0
      exact h.used x hx h0
  dirs x hx := by
    by_cases hxi : x = i
    · rw [hxi, Graph.setLinks_links, update_self]
      exact hdir (hxi ▸ hx)
    · rw [Graph.setLinks_links, update_of_ne hxi]
      exact h.dirs x hx

theorem up : Exact N K (G.setLinks i (G.links i + 1)) held (update c i (c i + 1)) :=
  h.setLinks (by omega) (fun h0 => absurd h0 (Nat.succ_ne_zero _)) fun _ => Nat.succ_ne_zero _

theorem down (hc : 0 < c i) (hd : G.dir i = false) (hi : held i) :
    Exact N K (G.setLinks i (G.links i - 1)) held (update c i (c i - 1)) :=
  h.setLinks (by omega) (fun _ => hi) fun ht => absurd (hd.symm.trans ht) Bool.false_ne_true

theorem setEntry {c' : ℕ → ℕ} (hl : Linked N K G held c B)
    (hn : ∀ x, x ≠ 0 → names N K (G.setEntry j k v).entry x + c' x = names N K G.entry x + c x) :
    Exact N K (G.setEntry j k v) held c' where
  equal x hx h1 := (hn x (hl.ne_zero hx)).trans (h.equal x hx h1)
  used := h.used
  dirs := h.dirs

theorem enter (hl : Linked N K G held c B) (hj : j < N) (hk : k < K) (h0 : G.entry j k = 0)
    (hne : j ≠ i) (hc : 0 < c i) : Exact N K (G.setEntry j k i) held (update c i (c i - 1)) := by
  refine h.setEntry hl fun x hx => ?_
  have hn := names_enter (x := x) (E := G.entry) hj hk hne hc
  rwa [h0, if_neg (fun hz => hx hz.2.symm)] at hn

theorem enterSelf (hl : Linked N K G held c B) (hj : j < N) (hk : k < K) (h0 : G.entry j k = 0) :
    Exact N K (G.setEntry j k j) held c := by
  refine h.setEntry hl fun x hx => congrArg (· + c x) ?_
  have hn := names_enterSelf (x := x) (E := G.entry) hj hk
  rwa [h0, if_neg (fun hz => hx hz.2.symm)] at hn

theorem remove (hl : Linked N K G held c B) (hj : j < N) (hk : k < K) (he : G.entry j k = i)
    (hne : j ≠ i) : Exact N K (G.setEntry j k 0) held (update c i (c i + 1)) :=
  h.setEntry hl fun _ hx => names_remove hj hk he hne hx

theorem alloc (hl : Linked N K G held c B) (hd : G.live i = false) (hi : i ≠ 0)
    (hE : ∀ k, G.entry i k = 0) (hn : n ≠ 0) : Exact N K (G.alloc i dir n) held (update c i n) := by
  have hentry : update G.entry i (fun _ => 0) = G.entry := by
    rw [← funext hE, update_eq_self]
  refine ⟨?_, ?_, ?_⟩
  · intro x hx h1
    simp only [Graph.alloc_entry, Graph.alloc_links, Graph.alloc_live, hentry] at hx ⊢
    by_cases hxi : x = i
    · subst hxi
      rw [update_self, update_self, hl.names_dead hd hi, Nat.zero_add]
    · rw [update_of_ne hxi] at hx
      rw [update_of_ne hxi, update_of_ne hxi]
      exact h.equal x hx h1
  · intro x hx h0
    simp only [Graph.alloc_links, Graph.alloc_live] at hx h0
    by_cases hxi : x = i
    · rw [hxi, update_self] at h0
      exact absurd h0 hn
    · rw [update_of_ne hxi] at hx h0
      exact h.used x hx h0
  · intro x hx
    simp only [Graph.alloc_links, Graph.alloc_dir] at hx ⊢
    by_cases hxi : x = i
    · rw [hxi, update_self]
      exact hn
    · rw [update_of_ne hxi] at hx ⊢
      exact h.dirs x hx

theorem free (hE : ∀ k, G.entry i k = 0) (hsub : ∀ x, x ≠ i → held x → held' x) :
    Exact N K (G.free i) held' (update c i 0) := by
  have hentry : update G.entry i (fun _ => 0) = G.entry := by
    rw [← funext hE, update_eq_self]
  have hne : ∀ {x}, (G.free i).live x = true → x ≠ i := by
    rintro x hx rfl
    simp at hx
  refine ⟨?_, ?_, ?_⟩
  · intro x hx h1
    have hxi := hne hx
    simp only [Graph.free_entry, Graph.free_links, Graph.free_live, hentry,
      update_of_ne hxi] at hx ⊢
    exact h.equal x hx h1
  · intro x hx h0
    have hxi := hne hx
    simp only [Graph.free_links, Graph.free_live, update_of_ne hxi] at hx h0
    exact hsub x hxi (h.used x hx h0)
  · intro x hx
    have hxi : x ≠ i := by
      rintro rfl
      simp at hx
    simp only [Graph.free_links, Graph.free_dir, update_of_ne hxi] at hx ⊢
    exact h.dirs x hx

theorem hold (hsub : ∀ x, held x → held' x ∨ G.links x ≠ 0) : Exact N K G held' c :=
  { h with used := fun x hx h0 => (hsub x (h.used x hx h0)).resolve_right (absurd h0) }

end

end Exact

end Xv6Shed
