import Xv6Shed.Exec
import Xv6Shed.Sbrk
import Mathlib.Algebra.Order.BigOperators.Group.List
import Mathlib.Algebra.Order.Group.Nat
import Mathlib.Data.List.GetD

/-!
# The arguments of a new program

`exec` adds up the lengths of its arguments, rounds the sum up and later copies the arguments
downwards from the end of the new memory. The strings lie in the memory of the old image, so
they are still the same when they are copied if no segment is loaded over them.
-/

namespace Xv6Shed
open Bytes Xv6Shed.Interval Ram

variable {m : Ram} {a : UInt32} {s : List UInt8} {α β : Type} {R : α → β → Prop} {l : List α}
  {l' : List β} {i : ℕ}

namespace Exec

theorem toNat_roundWord {x : UInt32} (h : x.toNat + 3 < 2 ^ 32) :
    (roundWord x).toNat = (x.toNat + 3) / 4 * 4 := by
  have hadd : (x + 3).toNat = x.toNat + 3 := by
    rw [UInt32.toNat_add]
    exact Nat.mod_eq_of_lt h
  have hmask : (~~~3 : UInt32).toNat = 2 ^ 32 - 2 ^ 2 := by decide
  rw [roundWord, UInt32.toNat_and, hadd, hmask, and_mask (by decide) h]
  rfl

theorem toNat_roundPage (x : UInt32) :
    (roundPage x).toNat = (x.toNat + 4095) % 2 ^ 32 / PAGE * PAGE := by
  have hadd : (x + 4095).toNat = (x.toNat + 4095) % 2 ^ 32 := UInt32.toNat_add x 4095
  have hmask : (~~~4095 : UInt32).toNat = 2 ^ 32 - 2 ^ 12 := by decide
  rw [roundPage, UInt32.toNat_and, hadd, hmask, and_mask (by decide) (Nat.mod_lt _ (by decide))]
  rfl

end Exec

/-- The string at `a` -/
structure Ram.IsString (m : Ram) (a : UInt32) (s : List UInt8) : Prop where
  chars : 0 ∉ s
  bytes : ∀ j ≤ s.length, m.bytes (a + UInt32.ofNat j) = s.getD j 0

theorem Ram.IsString.strlen (h : m.IsString a s) (hlen : s.length < 2 ^ 32) :
    m.strlen a = .ok s.length := by
  have hfirst : Bytes.first (fun k => m.bytes (a + UInt32.ofNat k) == 0) (2 ^ 32) 0 =
      some s.length := by
    refine first_of_least (Nat.zero_le _) (by omega) (fun j _ hj => ?_) ?_
    · rw [h.bytes j (Nat.le_of_lt hj), List.getD_eq_getElem _ _ hj]
      exact beq_false_of_ne fun h0 => h.chars (h0 ▸ List.getElem_mem hj)
    · rw [h.bytes _ (Nat.le_refl _), List.getD_eq_default _ _ (Nat.le_refl _)]
      rfl
  unfold Ram.strlen
  rw [hfirst]
  rfl

theorem Ram.IsString.congr {m' : Ram} (h : m.IsString a s)
    (hb : ∀ j ≤ s.length, m'.bytes (a + UInt32.ofNat j) = m.bytes (a + UInt32.ofNat j)) :
    m'.IsString a s :=
  ⟨h.chars, fun j hj => (hb j hj).trans (h.bytes j hj)⟩

/-- Argument `a` is string `s`, in the memory of the process. -/
structure Space.Arg (p : Space) (a : UInt32) (s : List UInt8) : Prop
    extends p.ram.IsString a s where
  lo : p.mem.toNat ≤ a.toNat
  hi : a.toNat + s.length < p.mem.toNat + p.sz.toNat

theorem getD_of_forall₂ (h : List.Forall₂ R l l') (a : α) (b : β) (hi : i < l'.length) :
    R (l.getD i a) (l'.getD i b) := by
  induction h generalizing i with
  | nil => exact absurd hi (Nat.not_lt_zero i)
  | cons hr _ ih =>
    cases i with
    | zero => exact hr
    | succ i => exact ih (Nat.lt_of_succ_lt_succ hi)

theorem forall₂_of_getD {a : α} {b : β} (hlen : l.length = l'.length)
    (h : ∀ i < l'.length, R (l.getD i a) (l'.getD i b)) :
    List.Forall₂ R l l' := by
  rw [List.forall₂_iff_get]
  refine ⟨hlen, fun i hi hi' => ?_⟩
  have := h i hi'
  rwa [List.getD_eq_getElem _ _ hi, List.getD_eq_getElem _ _ hi'] at this

/-- The bytes of the strings, with their final zeros -/
def argBytes (strs : List (List UInt8)) : ℕ := (strs.map fun s => s.length + 1).sum

theorem argBytes_drop {strs : List (List UInt8)} (hi : i < strs.length) :
    argBytes (strs.drop i) = (strs.getD i []).length + 1 + argBytes (strs.drop (i + 1)) := by
  rw [List.drop_eq_getElem_cons hi, List.getD_eq_getElem _ _ hi]
  rfl

theorem argBytes_drop_le (strs : List (List UInt8)) (i : ℕ) :
    argBytes (strs.drop i) ≤ argBytes strs := by
  have h := congrArg argBytes (List.take_append_drop i strs)
  unfold argBytes at *
  rw [List.map_append, List.sum_append] at h
  omega

namespace Exec

variable {p q p' : Space} {argv : List UInt32} {strs : List (List UInt8)} {m m' : Ram} {b : Buffer}
  {mem x : UInt32} {N P e : ℕ} {ok : Bool} {l : Loaded} {live fl : List Interval}

theorem argLoop_ok (h : List.Forall₂ (fun a s => m.IsString a s) argv strs)
    (hlen : ∀ s ∈ strs, s.length < 2 ^ 32) (x : UInt32) :
    argLoop m argv x = .ok (x + UInt32.ofNat (argBytes strs)) := by
  induction h generalizing x with
  | nil =>
    unfold argLoop
    exact congrArg Except.ok (UInt32.add_zero x).symm
  | @cons a s argv strs hs _ ih =>
    unfold argLoop
    rw [hs.strlen (hlen s List.mem_cons_self), ok_bind,
      ih fun s hs => hlen s (List.mem_cons_of_mem _ hs)]
    have hsum : argBytes (s :: strs) = s.length + 1 + argBytes strs := rfl
    rw [hsum, UInt32.ofNat_add, UInt32.ofNat_add, UInt32.add_assoc]
    rfl

/-- The segments that are loaded, from the header at `off` on -/
def segments (read : Reader) : ℕ → UInt32 → List Proghdr
  | 0, _ => []
  | n + 1, off =>
    match read off.toNat 32 with
    | .error _ => []
    | .ok (r, b) =>
      if r ≠ 32 then []
      else if (Proghdr.load b).type ≠ ELF_PROG_LOAD then segments read n (off + 32)
      else Proghdr.load b :: segments read n (off + 32)

/-- The sum of the sizes in memory -/
def memBytes (phs : List Proghdr) : ℕ := (phs.map fun ph => ph.memsz.toNat).sum

variable {read : Reader} {n : ℕ} {off sz : UInt32}

theorem segments_succ (h : read off.toNat 32 = .ok (32, b)) :
    segments read (n + 1) off =
      if (Proghdr.load b).type ≠ ELF_PROG_LOAD then segments read n (off + 32)
      else Proghdr.load b :: segments read n (off + 32) := by
  conv_lhs => unfold segments
  rw [h]
  rfl

theorem sizeLoop_some {sz' : UInt32} (h : sizeLoop read n off sz = .ok (some sz')) :
    (∀ ph ∈ segments read n off, ph.filesz.toNat ≤ ph.memsz.toNat) ∧
      sz' = sz + UInt32.ofNat (memBytes (segments read n off)) := by
  induction n generalizing off sz with
  | zero =>
    cases h
    exact ⟨fun _ hph => absurd hph List.not_mem_nil, (UInt32.add_zero _).symm⟩
  | succ n ih =>
    unfold sizeLoop at h
    obtain ⟨⟨r, b⟩, hb, h⟩ := bind_eq_ok.mp h
    dsimp only at h
    by_cases hr : r = 32
    case neg =>
      rw [if_pos hr] at h
      cases h
    rw [if_neg (not_not.mpr hr)] at h
    rw [hr] at hb
    rw [segments_succ hb]
    by_cases hty : (Proghdr.load b).type ≠ ELF_PROG_LOAD
    · rw [if_pos hty] at h ⊢
      exact ih h
    rw [if_neg hty] at h ⊢
    by_cases hlt : (Proghdr.load b).memsz < (Proghdr.load b).filesz
    · rw [if_pos hlt] at h
      cases h
    rw [if_neg hlt] at h
    obtain ⟨hle, hsum⟩ := ih h
    refine ⟨List.forall_mem_cons.mpr ⟨?_, hle⟩, ?_⟩
    · exact not_lt.mp fun hgt => hlt (UInt32.lt_iff_toNat_lt.mpr hgt)
    · have hcons : memBytes (Proghdr.load b :: segments read n (off + 32)) =
          (Proghdr.load b).memsz.toNat + memBytes (segments read n (off + 32)) := rfl
      rw [hsum, hcons, UInt32.ofNat_add, UInt32.ofNat_toNat, UInt32.add_assoc]

theorem within_segment {ph : Proghdr} {r : ℤ} (hf : Fits mem N)
    (hend : ph.va.toNat + ph.memsz.toNat ≤ N) (hle : ph.filesz.toNat ≤ ph.memsz.toNat)
    (hr : r ≤ ph.filesz.toNat) :
    Within mem N m (m.write (mem + ph.va) b r.toNat) ∧
      Within mem N m ((m.write (mem + ph.va) b r.toNat).memset (mem + ph.va + ph.filesz) 0
        (ph.memsz - ph.filesz).toNat) := by
  have hva : mem + ph.va = mem + UInt32.ofNat ph.va.toNat := by rw [UInt32.ofNat_toNat]
  have hbss : mem + ph.va + ph.filesz = mem + UInt32.ofNat (ph.va.toNat + ph.filesz.toNat) := by
    rw [UInt32.ofNat_add, UInt32.ofNat_toNat, UInt32.ofNat_toNat, UInt32.add_assoc]
  have hsub : (ph.memsz - ph.filesz).toNat = ph.memsz.toNat - ph.filesz.toNat :=
    UInt32.toNat_sub_of_le _ _ (UInt32.le_iff_toNat_le.mpr hle)
  have hw : Within mem N m (m.write (mem + ph.va) b r.toNat) := by
    rw [hva]
    exact (write_marks _ _ _ _).within hf (by omega)
  refine ⟨hw, hw.trans ?_⟩
  rw [hbss]
  exact (memset_marks _ _ _ _).within hf (by omega)

theorem loadLoop_invariant {I : Ram → Prop}
    (hseg : ∀ ph ∈ segments read n off, ¬ ph.va + ph.memsz > sz → ∀ r b m,
      read ph.offset.toNat ph.filesz.toNat = .ok (r, b) → I m →
        I (m.write (mem + ph.va) b r.toNat) ∧
          I ((m.write (mem + ph.va) b r.toNat).memset (mem + ph.va + ph.filesz) 0
            (ph.memsz - ph.filesz).toNat)) (hm : I m)
    (h : loadLoop read mem sz n off m = .ok (ok, m')) : I m' := by
  induction n generalizing off m with
  | zero =>
    cases h
    exact hm
  | succ n ih =>
    unfold loadLoop at h
    obtain ⟨⟨r, b⟩, hb, h⟩ := bind_eq_ok.mp h
    dsimp only at h
    by_cases hr : r = 32
    case neg =>
      rw [if_pos hr] at h
      cases h
      exact hm
    rw [if_neg (not_not.mpr hr)] at h
    rw [hr] at hb
    rw [segments_succ hb] at hseg
    by_cases hty : (Proghdr.load b).type ≠ ELF_PROG_LOAD
    · rw [if_pos hty] at h hseg
      exact ih hseg hm h
    rw [if_neg hty] at h hseg
    obtain ⟨hph, hseg⟩ := List.forall_mem_cons.mp hseg
    by_cases hgt : (Proghdr.load b).va + (Proghdr.load b).memsz > sz
    · rw [if_pos hgt] at h
      cases h
      exact hm
    rw [if_neg hgt] at h
    obtain ⟨⟨r', b'⟩, hb', h⟩ := bind_eq_ok.mp h
    dsimp only at h
    have hs := hph hgt r' b' m hb' hm
    by_cases hfull : UInt32.ofInt r' ≠ (Proghdr.load b).filesz
    · rw [if_pos hfull] at h
      cases h
      exact hs.1
    · rw [if_neg hfull] at h
      exact ih hseg hs.2 h

theorem loadLoop_within (hread : ∀ off n r b, read off n = .ok (r, b) → r ≤ n)
    (hf : Fits mem sz.toNat) (hseg : ∀ ph ∈ segments read n off, ph.filesz.toNat ≤ ph.memsz.toNat ∧
      ph.va.toNat + ph.memsz.toNat < 2 ^ 32) (h : loadLoop read mem sz n off m = .ok (ok, m')) :
    Within mem sz.toNat m m' := by
  refine loadLoop_invariant (I := Within mem sz.toNat m) ?_ (.refl _ _ _) h
  intro ph hph hgt r b m₁ hb hm
  obtain ⟨hle, hwrap⟩ := hseg ph hph
  rw [gt_iff_lt, UInt32.lt_iff_toNat_lt, UInt32.toNat_add, Nat.mod_eq_of_lt hwrap, not_lt] at hgt
  have hs := within_segment (m := m₁) (b := b) hf hgt hle (hread _ _ _ _ hb)
  exact ⟨hm.trans hs.1, hm.trans hs.2⟩

/-- The bytes from `mem` on -/
abbrev window (mem : UInt32) (m : Ram) : Buffer := fun k => m.bytes (mem + UInt32.ofNat k)

theorem window_store32 {k : ℕ} (hf : Fits mem N) (hP : P + 4 ≤ N) (hk : k < N) :
    window mem (m.store32 (mem + UInt32.ofNat P) x) k =
      if P ≤ k ∧ k < P + 4 then putLE x.toNat (k - P) else window mem m k := by
  have hfit : Fits (mem + UInt32.ofNat P) 4 := by
    have := hf.toNat_add (show P < N by omega)
    unfold Fits at hf ⊢
    omega
  exact (write_marks _ _ _ _).bytes_offset hf hP (fun j hj => write_bytes hfit hj) hk

theorem within_store32 (hf : Fits mem N) (hP : P + 4 ≤ N) :
    Within mem N m (m.store32 (mem + UInt32.ofNat P) x) :=
  (write_marks _ _ _ _).within hf hP

/-- The strings to be copied lie outside the block. -/
structure Source (argv : List UInt32) (strs : List (List UInt8)) (mem : UInt32) (N : ℕ) (m : Ram) :
    Prop where
  string : ∀ i < strs.length, m.IsString (argv.getD i 0) (strs.getD i [])
  apart : ∀ i < strs.length, ∀ j ≤ (strs.getD i []).length,
    ¬ (block mem N).Has (argv.getD i 0 + UInt32.ofNat j).toNat
  top : ∀ i < strs.length, (argv.getD i 0).toNat + ((strs.getD i []).length + 1) < 2 ^ 32

theorem Source.within (h : Source argv strs mem N m) (hw : Within mem N m m') :
    Source argv strs mem N m' :=
  ⟨fun i hi => (h.string i hi).congr fun j hj => hw.bytes _ (h.apart i hi j hj), h.apart, h.top⟩

/-- Where the copy of string `i` begins -/
def place (N : ℕ) (strs : List (List UInt8)) (i : ℕ) : ℕ := N - argBytes (strs.drop i)

/-- String `i` and the pointer to it are in place. -/
structure Placed (N P : ℕ) (strs : List (List UInt8)) (b : Buffer) (i : ℕ) : Prop where
  ptr : ∀ t < 4, b (P + 4 * i + t) = putLE (place N strs i) t
  str : ∀ t ≤ (strs.getD i []).length, b (place N strs i + t) = (strs.getD i []).getD t 0

section
variable {mem : UInt32} {N P i c : ℕ} {m m' : Ram} {l : Loaded}

theorem place_succ (hi : i < strs.length) (hroom : argBytes strs ≤ N) :
    place N strs (i + 1) = place N strs i + ((strs.getD i []).length + 1) := by
  have h := argBytes_drop hi
  have hle := argBytes_drop_le strs i
  unfold place
  omega

theorem place_mono {j : ℕ} (hij : i ≤ j) (hj : j ≤ strs.length) (hroom : argBytes strs ≤ N) :
    place N strs i ≤ place N strs j := by
  induction j, hij using Nat.le_induction with
  | base => exact Nat.le_refl _
  | succ j _ ih =>
    have := place_succ hj hroom
    have := ih (Nat.le_of_succ_le hj)
    omega

theorem place_le (N : ℕ) (strs : List (List UInt8)) (i : ℕ) : place N strs i ≤ N := Nat.sub_le _ _

theorem le_place (hroom : P + argBytes strs ≤ N) (i : ℕ) : P ≤ place N strs i := by
  have := argBytes_drop_le strs i
  unfold place
  omega

theorem copy_store {a : UInt32} {S A len : ℕ} (hf : Fits mem N) (hS : S + len ≤ N) (hlen : 0 < len)
    (hA : A + 4 ≤ S) (ha : a.toNat + len < 2 ^ 32)
    (hm : m' = (m.memmove (mem + UInt32.ofNat S) a (UInt32.ofNat len)).store32
      (mem + UInt32.ofNat A) (UInt32.ofNat S)) :
    Within mem N m m' ∧ ∀ k < N, window mem m' k =
      if A ≤ k ∧ k < A + 4 then putLE S (k - A)
      else if S ≤ k ∧ k < S + len then m.bytes (a + UInt32.ofNat (k - S)) else window mem m k := by
  have hlen' : (UInt32.ofNat len).toNat = len :=
    UInt32.toNat_ofNat_of_lt' (show len < 2 ^ 32 by omega)
  have hS' : (UInt32.ofNat S).toNat = S := by
    apply UInt32.toNat_ofNat_of_lt'
    change S < 2 ^ 32
    unfold Fits at hf
    omega
  have hfit : Fits (mem + UInt32.ofNat S) (UInt32.ofNat len).toNat := by
    have := hf.toNat_add (show S < N by omega)
    rw [hlen']
    unfold Fits at hf ⊢
    omega
  have hmv := memmove_marks (mem + UInt32.ofNat S) a (UInt32.ofNat len) m
  rw [hlen'] at hmv
  rw [hm]
  refine ⟨(hmv.within hf hS).trans (within_store32 hf (by omega)), ?_⟩
  intro k hk
  rw [window_store32 hf (by omega) hk, hS']
  have hcopy : ∀ j < len, (m.memmove (mem + UInt32.ofNat S) a (UInt32.ofNat len)).bytes
      (mem + UInt32.ofNat S + UInt32.ofNat j) = m.bytes (a + UInt32.ofNat j) := by
    intro j hj
    exact memmove_bytes hfit (by omega) (by omega)
  congr 1
  exact hmv.bytes_offset hf hS hcopy hk

theorem copy_step (hf : Fits mem N) (hi : i < strs.length)
    (hroom : P + 4 * (strs.length + 1) + argBytes strs ≤ N) (hsrc : Source argv strs mem N m) :
    ∃ m', copyLoop argv mem (UInt32.ofNat P) (i + 1) (UInt32.ofNat (place N strs (i + 1))) m =
        copyLoop argv mem (UInt32.ofNat P) i (UInt32.ofNat (place N strs i)) m' ∧
      Within mem N m m' ∧ Placed N P strs (window mem m') i ∧
      ∀ k < N, ¬ (P + 4 * i ≤ k ∧ k < P + 4 * i + 4) →
        ¬ (place N strs i ≤ k ∧ k < place N strs (i + 1)) → window mem m' k = window mem m k := by
  have hnext := place_succ hi (show argBytes strs ≤ N by omega)
  have hend := place_le N strs (i + 1)
  have hbelow := le_place (P := P + 4 * (strs.length + 1)) hroom i
  have htop := hsrc.top i hi
  have hstr := hsrc.string i hi
  generalize ha : argv.getD i 0 = a at htop hstr
  generalize hs : strs.getD i [] = s at hnext htop hstr
  generalize hS : place N strs i = S at hnext hbelow
  have hsp : UInt32.ofNat (place N strs (i + 1)) - UInt32.ofNat (s.length + 1) =
      UInt32.ofNat S := by
    rw [hnext, UInt32.ofNat_add, UInt32.add_sub_cancel]
  have hptr : mem + UInt32.ofNat P + 4 * UInt32.ofNat i = mem + UInt32.ofNat (P + 4 * i) := by
    rw [UInt32.ofNat_add, UInt32.ofNat_mul, UInt32.add_assoc]
    rfl
  obtain ⟨hw, hbytes⟩ := copy_store (m := m) (A := P + 4 * i) hf
    (show S + (s.length + 1) ≤ N by omega) (Nat.succ_pos _) (by omega) htop rfl
  refine ⟨_, ?_, hw, ⟨?_, ?_⟩, ?_⟩
  · conv_lhs => unfold copyLoop
    dsimp only
    rw [ha, hstr.strlen (by omega), ok_bind]
    have hone : UInt32.ofNat s.length + 1 = UInt32.ofNat (s.length + 1) := by
      rw [UInt32.ofNat_add]
      rfl
    simp only [hone, hsp, hptr]
  · intro t ht
    rw [hbytes _ (by omega), if_pos (by omega), hS, Nat.add_sub_cancel_left]
  · intro t ht
    rw [hs] at ht
    rw [hS, hs, hbytes _ (by omega), if_neg (by omega), if_pos (by omega), Nat.add_sub_cancel_left]
    exact hstr.bytes t ht
  · intro k hk hp hq
    rw [hbytes k hk, if_neg hp, if_neg (by omega)]

theorem copyLoop_ok (hf : Fits mem N) (hi : i ≤ strs.length)
    (hroom : P + 4 * (strs.length + 1) + argBytes strs ≤ N) (hsrc : Source argv strs mem N m) :
    ∃ m', copyLoop argv mem (UInt32.ofNat P) i (UInt32.ofNat (place N strs i)) m = .ok m' ∧
      Within mem N m m' ∧ (∀ j < i, Placed N P strs (window mem m') j) ∧
      ∀ k < N, place N strs i ≤ k ∨ P + 4 * i ≤ k ∧ k < P + 4 * (strs.length + 1) →
        window mem m' k = window mem m k := by
  induction i generalizing m with
  | zero =>
    refine ⟨m, by unfold copyLoop; rfl, .refl _ _ _, ?_, fun _ _ _ => rfl⟩
    intro j hj
    exact absurd hj (Nat.not_lt_zero j)
  | succ i ih =>
    obtain ⟨m₁, heq, hw₁, hplaced, hkeep₁⟩ := copy_step hf hi hroom hsrc
    obtain ⟨m', hok, hw, hall, hkeep⟩ := ih (Nat.le_of_succ_le hi) (hsrc.within hw₁)
    have hnext := place_succ hi (show argBytes strs ≤ N by omega)
    have hend := place_le N strs (i + 1)
    have hbelow := le_place (P := P + 4 * (strs.length + 1)) hroom i
    refine ⟨m', heq.trans hok, hw₁.trans hw, ?_, ?_⟩
    · intro j hj
      by_cases hji : j = i
      · -- the later strings go below this one, and their pointers before its pointer
        rw [hji]
        constructor
        · intro t ht
          rw [hkeep _ (by omega) (.inr (by omega))]
          exact hplaced.ptr t ht
        · intro t ht
          rw [hkeep _ (by omega) (.inl (by omega))]
          exact hplaced.str t ht
      · exact hall j (by omega)
    · intro k hk hor
      rw [hkeep k hk (by omega)]
      exact hkeep₁ k hk (by omega) (by omega)

/-- The stack of `main(argc, argv)` in a block of `N` bytes -/
structure Stack (N P : ℕ) (strs : List (List UInt8)) (b : Buffer) : Prop where
  placed : ∀ i < strs.length, Placed N P strs b i
  null : get32 b (P + 4 * strs.length) = 0
  pc : get32 b (P - 12) = 0xffffffff
  argc : get32 b (P - 8) = UInt32.ofNat strs.length
  argp : get32 b (P - 4) = UInt32.ofNat P

theorem Stack.congr {b b' : Buffer} (h : Stack N P strs b) (h12 : 12 ≤ P)
    (hroom : P + 4 * (strs.length + 1) + argBytes strs ≤ N) (hb : ∀ k < N, b' k = b k) :
    Stack N P strs b' := by
  have hword : ∀ off, off + 4 ≤ N → get32 b' off = get32 b off := by
    intro off hoff
    apply get32_congr
    intro t ht
    exact hb _ (by omega)
  refine ⟨?_, (hword _ (by omega)).trans h.null, (hword _ (by omega)).trans h.pc,
    (hword _ (by omega)).trans h.argc, (hword _ (by omega)).trans h.argp⟩
  intro i hi
  have hnext := place_succ hi (show argBytes strs ≤ N by omega)
  have hend := place_le N strs (i + 1)
  constructor
  · intro t ht
    rw [hb _ (by omega)]
    exact (h.placed i hi).ptr t ht
  · intro t ht
    rw [hb _ (by omega)]
    exact (h.placed i hi).str t ht

theorem sub_four {d : ℕ} (h : d + 4 ≤ P) :
    UInt32.ofNat (P - d) - 4 = UInt32.ofNat (P - (d + 4)) := by
  have hle : 4 ≤ P - d := by omega
  rw [← Nat.sub_sub, UInt32.ofNat_sub hle]
  rfl

/-- The frame of `main`, below the array at `P` -/
def frame (mem : UInt32) (P c : ℕ) (m : Ram) : Ram :=
  ((m.store32 (mem + UInt32.ofNat (P - 4)) (UInt32.ofNat P)).store32
    (mem + UInt32.ofNat (P - 8)) (UInt32.ofNat c)).store32 (mem + UInt32.ofNat (P - 12)) 0xffffffff

theorem window_frame {k : ℕ} (hf : Fits mem N) (h12 : 12 ≤ P) (hP : P ≤ N) (hk : k < N)
    (hPk : P ≤ k) : window mem (frame mem P c m) k = window mem m k := by
  rw [frame, window_store32 hf (by omega) hk, if_neg (by omega), window_store32 hf (by omega) hk,
    if_neg (by omega), window_store32 hf (by omega) hk, if_neg (by omega)]

theorem get32_frame (hf : Fits mem N) (h12 : 12 ≤ P) (hP : P ≤ N) :
    get32 (window mem (frame mem P c m)) (P - 4) = UInt32.ofNat P := by
  apply get32_of_putLE
  intro t ht
  rw [frame, window_store32 hf (by omega) (by omega), if_neg (by omega),
    window_store32 hf (by omega) (by omega), if_neg (by omega),
    window_store32 hf (by omega) (by omega), if_pos (by omega), Nat.add_sub_cancel_left]

theorem stack_of_frame (hf : Fits mem N) (h12 : 12 ≤ P)
    (hroom : P + 4 * (strs.length + 1) + argBytes strs ≤ N)
    (hplaced : ∀ i < strs.length, Placed N P strs (window mem m) i)
    (hnull : get32 (window mem m) (P + 4 * strs.length) = 0) :
    Within mem N m (frame mem P strs.length m) ∧
      Stack N P strs (window mem (frame mem P strs.length m)) := by
  have hkeep := fun k => window_frame (m := m) (c := strs.length) (k := k) hf h12 (by omega)
  refine ⟨?_, ?_, ?_, ?_, ?_, get32_frame hf h12 (by omega)⟩
  · exact ((within_store32 hf (by omega)).trans (within_store32 hf (by omega))).trans
      (within_store32 hf (by omega))
  · intro i hi
    have hnext := place_succ hi (show argBytes strs ≤ N by omega)
    have hend := place_le N strs (i + 1)
    have hbelow := le_place (P := P + 4 * (strs.length + 1)) hroom i
    constructor
    · intro t ht
      rw [hkeep _ (by omega) (by omega)]
      exact (hplaced i hi).ptr t ht
    · intro t ht
      rw [hkeep _ (by omega) (by omega)]
      exact (hplaced i hi).str t ht
  · rw [← hnull]
    apply get32_congr
    intro t ht
    exact hkeep _ (by omega) (by omega)
  · apply get32_of_putLE
    intro t ht
    rw [frame, window_store32 hf (by omega) (by omega), if_pos (by omega), Nat.add_sub_cancel_left]
  · apply get32_of_putLE
    intro t ht
    rw [frame, window_store32 hf (by omega) (by omega), if_neg (by omega),
      window_store32 hf (by omega) (by omega), if_pos (by omega), Nat.add_sub_cancel_left]

theorem initStack_eq (h12 : 12 ≤ P) (m : Ram)
    (hP : P + 4 * (argv.length + 1) + l.arglen.toNat = l.sz.toNat) :
    initStack argv l m = (do
      let m ← copyLoop argv l.mem (UInt32.ofNat P) argv.length l.sz
        (m.store32 (l.mem + UInt32.ofNat (P + 4 * argv.length)) 0)
      pure (UInt32.ofNat (P - 12), frame l.mem P argv.length m)) := by
  have hargp : l.sz - l.arglen - 4 * (UInt32.ofNat argv.length + 1) = UInt32.ofNat P := by
    have hsz : l.sz = UInt32.ofNat P + 4 * (UInt32.ofNat argv.length + 1) + l.arglen := by
      have := congrArg UInt32.ofNat hP
      rw [UInt32.ofNat_toNat, UInt32.ofNat_add, UInt32.ofNat_add, UInt32.ofNat_mul,
        UInt32.ofNat_add, UInt32.ofNat_toNat] at this
      rw [← this]
      rfl
    rw [hsz, UInt32.add_sub_cancel, UInt32.add_sub_cancel]
  have hnull : l.mem + UInt32.ofNat P + 4 * UInt32.ofNat argv.length =
      l.mem + UInt32.ofNat (P + 4 * argv.length) := by
    rw [UInt32.ofNat_add, UInt32.ofNat_mul, UInt32.add_assoc]
    rfl
  have h4 : UInt32.ofNat P - 4 = UInt32.ofNat (P - 4) := sub_four (d := 0) (by omega)
  have h8 : UInt32.ofNat (P - 4) - 4 = UInt32.ofNat (P - 8) := sub_four (by omega)
  have h12 : UInt32.ofNat (P - 8) - 4 = UInt32.ofNat (P - 12) := sub_four (by omega)
  unfold initStack
  simp only [hargp, hnull, h4, h8, h12]
  rfl

theorem initStack_ok (hargc : argv.length = strs.length) (hf : Fits l.mem l.sz.toNat) (h12 : 12 ≤ P)
    (hroom : P + 4 * (strs.length + 1) + argBytes strs ≤ l.sz.toNat)
    (hP : P + 4 * (strs.length + 1) + l.arglen.toNat = l.sz.toNat)
    (hsrc : Source argv strs l.mem l.sz.toNat m) :
    ∃ m', initStack argv l m = .ok (UInt32.ofNat (P - 12), m') ∧
      Within l.mem l.sz.toNat m m' ∧ Stack l.sz.toNat P strs (window l.mem m') := by
  have hw₀ : Within l.mem l.sz.toNat m (m.store32 (l.mem + UInt32.ofNat (P + 4 * strs.length)) 0) :=
    within_store32 hf (by omega)
  obtain ⟨m₁, hcopy, hw₁, hplaced, hkeep⟩ := copyLoop_ok hf (Nat.le_refl strs.length) hroom
    (hsrc.within hw₀)
  have hplace : place l.sz.toNat strs strs.length = l.sz.toNat := by
    unfold place
    rw [List.drop_length]
    rfl
  rw [hplace, UInt32.ofNat_toNat] at hcopy
  have hzero : get32 (window l.mem m₁) (P + 4 * strs.length) = 0 := by
    apply get32_of_putLE
    intro t ht
    rw [hkeep _ (by omega) (.inr (by omega)), window_store32 hf (by omega) (by omega),
      if_pos (by omega), Nat.add_sub_cancel_left]
  obtain ⟨hw₂, hstack⟩ := stack_of_frame hf h12 hroom hplaced hzero
  refine ⟨_, ?_, (hw₀.trans hw₁).trans hw₂, hstack⟩
  rw [initStack_eq h12 m (by omega), hargc, hcopy]
  rfl

end

def fileSegments (read : Reader) : List Proghdr :=
  match read 0 52 with
  | .error _ => []
  | .ok (_, b) => segments read (Elfhdr.load b).phnum.toNat (Elfhdr.load b).phoff

theorem readHeaders_some {elf : Elfhdr} (h : readHeaders read = .ok (some (elf, sz))) :
    (∃ r b, read 0 52 = .ok (r, b) ∧ elf = Elfhdr.load b ∧ elf.magic = ELF_MAGIC) ∧
      fileSegments read = segments read elf.phnum.toNat elf.phoff ∧
      sizeLoop read elf.phnum.toNat elf.phoff 0 = .ok (some sz) := by
  unfold readHeaders at h
  obtain ⟨⟨r, b⟩, hb, h⟩ := bind_eq_ok.mp h
  dsimp only at h
  by_cases hr : UInt32.ofInt r < 52
  · rw [if_pos hr] at h
    cases h
  rw [if_neg hr] at h
  by_cases hmagic : (Elfhdr.load b).magic ≠ ELF_MAGIC
  · rw [if_pos hmagic] at h
    cases h
  rw [if_neg hmagic] at h
  obtain ⟨o, hloop, h⟩ := bind_eq_ok.mp h
  cases o with
  | none => cases h
  | some sz' =>
    have heq : (Elfhdr.load b, sz') = (elf, sz) := Option.some.inj (Except.ok.inj h)
    obtain ⟨rfl, rfl⟩ := Prod.ext_iff.mp heq
    refine ⟨⟨r, b, hb, rfl, not_not.mp hmagic⟩, ?_, hloop⟩
    unfold fileSegments
    rw [hb]

/-- What is known when `load` has come to its end -/
structure Loads (read : Reader) (argv : List UInt32) (p : Space) (l : Loaded) (q : Space) :
    Prop where
  magic : ∃ r b, read 0 52 = .ok (r, b) ∧ (Elfhdr.load b).magic = ELF_MAGIC
  small : ∀ ph ∈ fileSegments read, ph.filesz.toNat ≤ ph.memsz.toNat
  arglen : ∃ x, argLoop p.ram argv 0 = .ok x ∧ l.arglen = roundWord x
  size : l.sz = imageSize (UInt32.ofNat (memBytes (fileSegments read))) l.arglen argv.length
  alloc : ∃ v, kalloc l.sz.toInt32.toInt p.free = .ok (some v, q.free) ∧ l.mem = UInt32.ofNat v
  loaded : ∃ n off, segments read n off = fileSegments read ∧
    loadLoop read l.mem l.sz n off (p.ram.memset l.mem 0 l.sz.toNat) = .ok (true, q.ram)
  same : q.mem = p.mem ∧ q.sz = p.sz

theorem load_some (h : load read argv p = .ok (some l, q)) :
    Loads read argv p l q := by
  unfold load at h
  obtain ⟨o, hhead, h⟩ := bind_eq_ok.mp h
  cases o with
  | none => cases h
  | some head =>
    obtain ⟨elf, sz⟩ := head
    obtain ⟨⟨r, b, hb, helf, hmagic⟩, hsegs, hsize⟩ := readHeaders_some hhead
    obtain ⟨hsmall, hsum⟩ := sizeLoop_some hsize
    rw [UInt32.zero_add, ← hsegs] at hsum
    dsimp only at h
    obtain ⟨x, hx, h⟩ := bind_eq_ok.mp h
    obtain ⟨⟨o, fl⟩, hk, h⟩ := bind_eq_ok.mp h
    cases o with
    | none => cases h
    | some v =>
      dsimp only at h
      obtain ⟨⟨ok, m⟩, hload, h⟩ := bind_eq_ok.mp h
      cases ok with
      | false =>
        dsimp only at h
        obtain ⟨_, -, h⟩ := bind_eq_ok.mp h
        cases h
      | true =>
        cases h
        refine ⟨⟨r, b, hb, helf ▸ hmagic⟩, hsegs ▸ hsmall, ⟨x, hx, rfl⟩, ?_, ⟨v, hk, rfl⟩,
          ⟨_, _, hsegs.symm, hload⟩, rfl, rfl⟩
        rw [← hsum]

/-- The bytes of the strings and of the pointers to them -/
def argSize (strs : List (List UInt8)) : ℕ := (argBytes strs + 3) / 4 * 4 + 4 * (strs.length + 1)

theorem toInt_toInt32_of_pos (h : 0 < x.toInt32.toInt) :
    x.toInt32.toInt = x.toNat := by
  have hx : x.toInt32.toInt = (x.toNat : ℤ).bmod (2 ^ 32) := BitVec.toInt_eq_toNat_bmod x.toBitVec
  have hlt := x.toNat_lt
  rw [Int.bmod_def] at hx
  split_ifs at hx <;> omega

/-- The block that `kalloc` returns -/
structure Fresh (p : Space) (mem : UInt32) (N : ℕ) (fl : List Interval) : Prop where
  pos : 0 < N
  page : PAGE ∣ N
  fits : Fits mem N
  carved : Carved mem.toNat N p.free fl
  apart : ∀ x, (block mem N).Has x → ¬ (block p.mem p.sz.toNat).Has x

theorem kalloc_fresh {v : ℕ} (hp : p.Process e live)
    (h : kalloc sz.toInt32.toInt p.free = .ok (some v, fl)) :
    Fresh p (UInt32.ofNat v) sz.toNat fl := by
  unfold kalloc at h
  split_ifs at h with hbad
  push Not at hbad
  obtain ⟨hd, hpos⟩ := hbad
  have hsz := toInt_toInt32_of_pos hpos
  rw [hsz] at hd hpos h
  have hN : 0 < sz.toNat := by omega
  have hpage : PAGE ∣ sz.toNat := Int.natCast_dvd_natCast.mp (Int.dvd_of_emod_eq_zero hd)
  have hc := kallocLoop_some hp.sound.sorted hp.sound.pos (Except.ok.inj h)
  rw [Int.toNat_natCast] at hc
  obtain ⟨hlo, hhi, hapart⟩ := hp.carved hN hc
  have htop := hp.top
  have hv : (UInt32.ofNat v).toNat = v := UInt32.toNat_ofNat_of_lt' (by change v < 2 ^ 32; omega)
  refine ⟨hN, hpage, ?_, ?_, ?_⟩
  · unfold Fits
    omega
  · rw [hv]
    exact hc
  · intro x hx
    apply hapart
    unfold block at hx
    rwa [hv] at hx

theorem Loads.sizes (h : Loads read argv p l q) (hargs : List.Forall₂ p.Arg argv strs)
    (hpos : 0 < l.sz.toNat) (hsum : memBytes (fileSegments read) + argSize strs + PAGE < 2 ^ 32) :
    l.arglen.toNat = (argBytes strs + 3) / 4 * 4 ∧
      memBytes (fileSegments read) + argSize strs + PAGE ≤ l.sz.toNat := by
  have hc : argv.length = strs.length := hargs.length_eq
  have hpg : PAGE = 4096 := rfl
  obtain ⟨x, hx, harg⟩ := h.arglen
  have hlen : ∀ s ∈ strs, s.length < 2 ^ 32 := by
    intro s hs
    have hle : s.length + 1 ≤ argBytes strs :=
      List.single_le_sum (fun _ _ => Nat.zero_le _) _ (List.mem_map_of_mem hs)
    unfold argSize at hsum
    omega
  rw [argLoop_ok (hargs.imp fun _ _ ha => ha.toIsString) hlen, UInt32.zero_add] at hx
  have hxn : x.toNat = argBytes strs := by
    rw [← Except.ok.inj hx]
    apply UInt32.toNat_ofNat_of_lt'
    change argBytes strs < 2 ^ 32
    unfold argSize at hsum
    omega
  have hround : l.arglen.toNat = (argBytes strs + 3) / 4 * 4 := by
    rw [harg, toNat_roundWord, hxn]
    unfold argSize at hsum
    omega
  refine ⟨hround, ?_⟩
  have hraw : (UInt32.ofNat (memBytes (fileSegments read)) +
      (l.arglen + 4 * (UInt32.ofNat argv.length + 1)) + 4096) =
      UInt32.ofNat (memBytes (fileSegments read) + argSize strs + PAGE) := by
    have harg' : l.arglen = UInt32.ofNat ((argBytes strs + 3) / 4 * 4) := by
      rw [← hround, UInt32.ofNat_toNat]
    rw [harg', hc, argSize, UInt32.ofNat_add, UInt32.ofNat_add, UInt32.ofNat_add,
      UInt32.ofNat_mul 4, UInt32.ofNat_add strs.length 1]
    rfl
  have hsz := congrArg UInt32.toNat h.size
  rw [imageSize, hraw, toNat_roundPage, UInt32.toNat_ofNat_of_lt' hsum, hpg] at hsz
  omega

theorem source_of_args (hp : p.Process e live) (hfr : Fresh p mem N fl)
    (hargs : List.Forall₂ p.Arg argv strs) (hstr : List.Forall₂ m.IsString argv strs) :
    Source argv strs mem N m := by
  have hb := hp.bounds
  have htop := hp.top
  refine ⟨fun i hi => getD_of_forall₂ hstr 0 [] hi, ?_, ?_⟩
  · intro i hi j hj hin
    have harg := getD_of_forall₂ hargs 0 [] hi
    have hlo := harg.lo
    have hhi := harg.hi
    apply hfr.apart _ hin
    have hfit : Fits (argv.getD i 0) ((strs.getD i []).length + 1) := by
      unfold Fits
      omega
    rw [block_has, hfit.toNat_add (by omega)]
    omega
  · intro i hi
    have harg := getD_of_forall₂ hargs 0 [] hi
    have hhi := harg.hi
    omega

/-- The argument block of `strs` in the new memory, with the pointers at `argp` and copy `i` at
`str i` -/
structure ArgBlock (argp : ℕ) (str : ℕ → ℕ) (strs : List (List UInt8)) (p : Space) : Prop where
  pc : get32 p.user p.esp.toNat = 0xffffffff
  argc : get32 p.user (p.esp.toNat + 4) = UInt32.ofNat strs.length
  argv : get32 p.user (p.esp.toNat + 8) = UInt32.ofNat argp
  ptr : ∀ i < strs.length, get32 p.user (argp + 4 * i) = UInt32.ofNat (str i)
  copy : ∀ i < strs.length, ∀ j ≤ (strs.getD i []).length,
    p.user (str i + j) = (strs.getD i []).getD j 0
  null : get32 p.user (argp + 4 * strs.length) = 0
  apart : ∀ i < strs.length, ∀ j < strs.length, i ≠ j →
    Apart ⟨str i, (strs.getD i []).length + 1⟩ ⟨str j, (strs.getD j []).length + 1⟩
  array : ∀ i < strs.length,
    Apart ⟨argp, 4 * (strs.length + 1)⟩ ⟨str i, (strs.getD i []).length + 1⟩
  -- all above the three words at `esp` and inside the new memory
  above : p.esp.toNat + 12 ≤ argp ∧ ∀ i < strs.length, p.esp.toNat + 12 ≤ str i
  inside : argp + 4 * (strs.length + 1) ≤ p.sz.toNat ∧
    ∀ i < strs.length, str i + ((strs.getD i []).length + 1) ≤ p.sz.toNat
  aligned : 4 ∣ argp
  page : PAGE ∣ p.sz.toNat

theorem Stack.argBlock (h : Stack N P strs q.user) (h12 : 12 ≤ P)
    (hroom : P + 4 * (strs.length + 1) + argBytes strs ≤ N) (hN : q.sz.toNat = N)
    (hesp : q.esp = UInt32.ofNat (P - 12)) (h4 : 4 ∣ P) (hpage : PAGE ∣ N) :
    ArgBlock P (place N strs) strs q := by
  have hlt := q.sz.toNat_lt
  have hsp : q.esp.toNat = P - 12 := by
    rw [hesp]
    apply UInt32.toNat_ofNat_of_lt'
    change P - 12 < 2 ^ 32
    omega
  have hle : argBytes strs ≤ N := by omega
  have hend := fun i (hi : i < strs.length) => place_succ hi hle
  have hbelow := le_place (P := P + 4 * (strs.length + 1)) hroom
  -- the copies follow each other upwards
  have hord : ∀ i j, i < j → j < strs.length →
      place N strs i + ((strs.getD i []).length + 1) ≤ place N strs j := by
    intro i j hij hj
    rw [← hend i (by omega)]
    exact place_mono hij (Nat.le_of_lt hj) hle
  refine ⟨?_, ?_, ?_, ?_, ?_, h.null, ?_, ?_, ⟨by omega, ?_⟩, ⟨by omega, ?_⟩, h4, ?_⟩
  · rw [hsp]
    exact h.pc
  · rw [hsp, show P - 12 + 4 = P - 8 by omega]
    exact h.argc
  · rw [hsp, show P - 12 + 8 = P - 4 by omega]
    exact h.argp
  · intro i hi
    apply get32_of_putLE
    intro t ht
    rw [UInt32.toNat_ofNat_of_lt' (show place N strs i < 2 ^ 32 from
      (place_le N strs i).trans_lt (hN ▸ hlt))]
    exact (h.placed i hi).ptr t ht
  · intro i hi
    exact (h.placed i hi).str
  · intro i hi j hj hij
    rcases Nat.lt_or_gt_of_ne hij with hlt | hgt
    · exact .inl (hord i j hlt hj)
    · exact .inr (hord j i hgt hi)
  · intro i _
    exact .inl (hbelow i)
  · intro i _
    have := hbelow i
    omega
  · intro i hi
    have := hend i hi
    have := place_le N strs (i + 1)
    omega
  · rw [hN]
    exact hpage

theorem Loads.fresh (hl : Loads read argv p l q) (hp : p.Process e live) :
    Fresh p l.mem l.sz.toNat q.free := by
  obtain ⟨v, hk, hmem⟩ := hl.alloc
  rw [hmem]
  exact kalloc_fresh hp hk

/-- Where the array of pointers is: above the stack page, below the strings -/
structure Layout (strs : List (List UInt8)) (l : Loaded) (P : ℕ) : Prop where
  frame : 12 ≤ P
  size : P + 4 * (strs.length + 1) + l.arglen.toNat = l.sz.toNat
  room : argBytes strs ≤ l.arglen.toNat
  aligned : 4 ∣ P

theorem Loads.layout (hl : Loads read argv p l q) (hp : p.Process e live)
    (hargs : List.Forall₂ p.Arg argv strs)
    (hsum : memBytes (fileSegments read) + argSize strs + PAGE < 2 ^ 32) :
    ∃ P, Layout strs l P := by
  have hfr := hl.fresh hp
  obtain ⟨harglen, hsz⟩ := hl.sizes hargs hfr.pos hsum
  have hpg : PAGE = 4096 := rfl
  obtain ⟨t, ht⟩ := hfr.page
  rw [hpg] at ht
  unfold argSize at hsz
  exact ⟨l.sz.toNat - l.arglen.toNat - 4 * (strs.length + 1), by omega, by omega, by omega,
    by omega⟩

section

variable (hp : p.Process e live) (hl : Loads read argv p l q)
include hp hl

theorem commit_some (hc : commit argv l q = .ok p') :
    ∃ m, initStack argv l q.ram = .ok (p'.esp, m) ∧ p'.sz = l.sz ∧
      ∀ k < l.sz.toNat, p'.user k = window l.mem m k := by
  have hfr := hl.fresh hp
  have hb := hp.bounds
  have htop := hp.top
  unfold commit at hc
  obtain ⟨⟨sp, m⟩, hinit, hc⟩ := bind_eq_ok.mp hc
  obtain ⟨fl, -, hc⟩ := bind_eq_ok.mp hc
  cases hc
  refine ⟨m, hinit, rfl, fun k hk => ?_⟩
  change (m.memset q.mem 1 q.sz.toNat).bytes (l.mem + UInt32.ofNat k) = _
  rw [hl.same.1, hl.same.2]
  apply (memset_marks p.mem 1 p.sz.toNat m).bytes
  · unfold Fits
    omega
  · exact hfr.apart _ (offset_has hfr.fits hk)

theorem commit_argBlock (hargs : List.Forall₂ p.Arg argv strs)
    (hsum : memBytes (fileSegments read) + argSize strs + PAGE < 2 ^ 32)
    (hstr : List.Forall₂ q.ram.IsString argv strs) (hc : commit argv l q = .ok p') :
    ∃ argp str, ArgBlock argp str strs p' := by
  have hfr := hl.fresh hp
  obtain ⟨P, hP⟩ := hl.layout hp hargs hsum
  have hsize := hP.size
  have hroom := hP.room
  obtain ⟨m, hinit, -, hstack⟩ := initStack_ok hargs.length_eq hfr.fits hP.frame (by omega) hsize
    (source_of_args hp hfr hargs hstr)
  obtain ⟨m', hinit', hsz, huser⟩ := commit_some hp hl hc
  obtain ⟨hesp, rfl⟩ := Prod.ext_iff.mp (Except.ok.inj (hinit'.symm.trans hinit))
  refine ⟨P, place l.sz.toNat strs, ?_⟩
  exact (hstack.congr hP.frame (by omega) huser).argBlock hP.frame (by omega) (by rw [hsz]) hesp
    hP.aligned hfr.page

theorem Loads.spares (hargs : List.Forall₂ p.Arg argv strs)
    (hread : ∀ off n r b, read off n = .ok (r, b) → r ≤ n)
    (hwrap : ∀ ph ∈ fileSegments read, ph.va.toNat + ph.memsz.toNat < 2 ^ 32) :
    List.Forall₂ q.ram.IsString argv strs := by
  have hfr := hl.fresh hp
  obtain ⟨n, off, hseg, hload⟩ := hl.loaded
  have hset : Within l.mem l.sz.toNat p.ram (p.ram.memset l.mem 0 l.sz.toNat) := by
    have hmarks := memset_marks (l.mem + UInt32.ofNat 0) 0 l.sz.toNat p.ram
    have := hmarks.within hfr.fits (by omega)
    rwa [show l.mem + UInt32.ofNat 0 = l.mem from UInt32.add_zero l.mem] at this
  have hw := hset.trans (loadLoop_within hread hfr.fits
    (fun ph hph => ⟨hl.small ph (hseg ▸ hph), hwrap ph (hseg ▸ hph)⟩) hload)
  have hsrc := source_of_args hp hfr hargs (hargs.imp fun _ _ ha => ha.toIsString)
  exact forall₂_of_getD hargs.length_eq (hsrc.within hw).string

end

end Exec

namespace Program

variable {NINODE : ℕ}

theorem readi_le {s : Fs NINODE} {driver : ℤ} {ip : Fin NINODE} {off n : ℕ} {r : ℤ} {b : Buffer}
    (hdev : (s.icache ip).d.type ≠ T_DEV) (h : s.readi driver ip off n = .ok (r, b)) : r ≤ n := by
  unfold Fs.readi at h
  dsimp only at h
  rw [if_neg hdev] at h
  split_ifs at h with hbad hlong
  · cases h
    omega
  · obtain ⟨_, -, h⟩ := bind_eq_ok.mp h
    cases h
    omega
  · obtain ⟨_, -, h⟩ := bind_eq_ok.mp h
    cases h
    exact le_refl _

end Program

end Xv6Shed
