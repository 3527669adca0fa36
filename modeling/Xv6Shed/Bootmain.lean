import Xv6Shed.Exec

/-!
# The boot loader

`bootmain.c`. `readseg` copies whole sectors, so a segment is loaded together with what its first
and last sectors have around it. A byte of memory ends up as the last load that covers it has it in
the image; the loads are the first page, into scratch space, and then the segments in their order.
-/

namespace Xv6Shed
open Bytes

namespace Bootmain

/-- Physical memory -/
abbrev Mem := UInt32 → UInt8

/-- The bytes of a sector of one of two drives -/
abbrev Disk := Bool → ℕ → Buffer

/-- `readsect`: the drive register has bit 28 of the sector number, and there are 28 bits below. -/
def readsect (disk : Disk) (dst offset : UInt32) (m : Mem) : Mem := fun a =>
  if (a - dst).toNat < 512 then
    disk (offset.toNat.testBit 28) (offset.toNat % 2 ^ 28) (a - dst).toNat
  else m a

/-- The loop of `readseg`; `none` says that it does not end. -/
def readsegLoop (disk : Disk) (eva : UInt32) : ℕ → UInt32 → UInt32 → Mem → Option Mem
  | 0, _, _, _ => none
  | fuel + 1, va, offset, m =>
    if va < eva then readsegLoop disk eva fuel (va + 512) (offset + 1) (readsect disk va offset m)
    else some m

/-- `readseg`. After `2 ^ 23` rounds `va` has passed all sectors of the address space. -/
def readseg (disk : Disk) (va count offset : UInt32) (m : Mem) : Option Mem :=
  readsegLoop disk (va + count) (2 ^ 23 + 1) (va &&& 0xfffffe00) (offset / 512 + 1) m

/-- Memory from an address on -/
def view (m : Mem) (a : UInt32) : Buffer := fun i => m (a + UInt32.ofNat i)

/-- The loop of `bootmain` -/
def loadLoop (disk : Disk) (eph : UInt32) : ℕ → UInt32 → Mem → Option Mem
  | 0, _, _ => none
  | fuel + 1, ph, m =>
    if ph < eph then do
      let p := Proghdr.load (view m ph)
      let m ← readseg disk (p.va &&& 0xffffff) p.memsz p.offset m
      loadLoop disk eph fuel (ph + 32) m
    else some m

/-- `bootmain`: the address it jumps to and memory at the jump, if it comes to that -/
def bootmain (disk : Disk) (m : Mem) : Option (UInt32 × Mem) := do
  let m ← readseg disk 0x10000 (512 * 8) 0 m
  let elf := Elfhdr.load (view m 0x10000)
  if elf.magic ≠ ELF_MAGIC then none
  else
    let ph := 0x10000 + elf.phoff
    let m ← loadLoop disk (ph + elf.phnum.toUInt32 * 32) (2 ^ 27 + 1) ph m
    some ((Elfhdr.load (view m 0x10000)).entry &&& 0xffffff, m)

/-- The kernel image, from sector 1 on -/
def image (disk : Disk) : Buffer := fun i => disk false (i / 512 + 1) (i % 512)

/-! ## Loads -/

/-- One call of `readseg` -/
structure Load where
  va : ℕ
  count : ℕ
  offset : ℕ
  deriving DecidableEq

namespace Load

/-- The first byte of the first sector -/
def lo (l : Load) : ℕ := l.va / 512 * 512

/-- The end of the last sector -/
def hi (l : Load) : ℕ := (l.va + l.count + 511) / 512 * 512

/-- The address is in a sector that is read. -/
def Covers (l : Load) (x : ℕ) : Prop := l.lo ≤ x ∧ x < l.hi

instance (l : Load) (x : ℕ) : Decidable (l.Covers x) := inferInstanceAs (Decidable (_ ∧ _))

/-- The byte of the image that is read to the address -/
def supplies (l : Load) (img : Buffer) (x : ℕ) : UInt8 :=
  img (l.offset / 512 * 512 + (x - l.lo))

/-- Memory after the load -/
def layer (img : Buffer) (m : Mem) (l : Load) : Mem := fun a =>
  if l.Covers a.toNat then l.supplies img a.toNat else m a

end Load

/-- The call of `readseg` for a segment -/
def toLoad (p : Proghdr) : Load := ⟨p.va.toNat, p.memsz.toNat, p.offset.toNat⟩

/-- The last load that covers an address -/
def topmost : List Load → ℕ → Option Load
  | [], _ => none
  | l :: ls, x => (topmost ls x).or (if l.Covers x then some l else none)

theorem covers_of_topmost {ls : List Load} {l : Load} {x : ℕ} (h : topmost ls x = some l) :
    l ∈ ls ∧ l.Covers x := by
  induction ls with
  | nil => cases h
  | cons l' ls ih =>
    rw [topmost, Option.or_eq_some_iff] at h
    rcases h with h | ⟨-, h⟩
    · exact ⟨List.mem_cons_of_mem _ (ih h).1, (ih h).2⟩
    · split at h
      · next hc =>
        obtain rfl := Option.some.inj h
        exact ⟨List.mem_cons_self, hc⟩
      · cases h

/-- After a row of loads a byte is what the last one that covers it has supplied. -/
theorem foldl_layer (img : Buffer) (ls : List Load) (m : Mem) (a : UInt32) :
    ls.foldl (Load.layer img) m a =
      ((topmost ls a.toNat).map (·.supplies img a.toNat)).getD (m a) := by
  induction ls generalizing m with
  | nil => rfl
  | cons l ls ih =>
    rw [List.foldl_cons, ih, topmost]
    cases topmost ls a.toNat with
    | some t => rfl
    | none =>
      rw [Option.none_or, Load.layer]
      split <;> rfl

/-! ## `readseg` -/

variable {disk : Disk} {m : Mem} {a va eva offset count : UInt32}

theorem readsect_apply (h : va.toNat + 512 ≤ 2 ^ 32) (ho : offset.toNat < 2 ^ 28) :
    readsect disk va offset m a =
      if va.toNat ≤ a.toNat ∧ a.toNat < va.toNat + 512 then
        disk false offset.toNat (a.toNat - va.toNat)
      else m a := by
  have hsub : (a - va).toNat = (2 ^ 32 - va.toNat + a.toNat) % 2 ^ 32 := UInt32.toNat_sub a va
  have ha := a.toNat_lt
  unfold readsect
  rw [Nat.testBit_lt_two_pow ho, Nat.mod_eq_of_lt ho]
  by_cases hin : va.toNat ≤ a.toNat ∧ a.toNat < va.toNat + 512
  · rw [if_pos hin, if_pos (by omega), show (a - va).toNat = a.toNat - va.toNat by omega]
  · rw [if_neg hin, if_neg (by omega)]

/-- The loop reads `r` sectors, if that is what lies between `va` and `eva`. -/
theorem readsegLoop_eq {r fuel : ℕ} (hf : r < fuel) (h₁ : eva.toNat ≤ va.toNat + 512 * r)
    (h₂ : va.toNat + 512 * r < eva.toNat + 512 ∨ r = 0) (h₃ : va.toNat + 512 * r < 2 ^ 32)
    (h₄ : offset.toNat + r ≤ 2 ^ 28) :
    readsegLoop disk eva fuel va offset m = some fun a =>
      if va.toNat ≤ a.toNat ∧ a.toNat < va.toNat + 512 * r then
        disk false (offset.toNat + (a.toNat - va.toNat) / 512) ((a.toNat - va.toNat) % 512)
      else m a := by
  induction r generalizing fuel va offset m with
  | zero =>
    obtain ⟨fuel, rfl⟩ := Nat.exists_eq_add_of_le' (show 1 ≤ fuel by omega)
    rw [readsegLoop, if_neg (by rw [UInt32.lt_iff_toNat_lt]; omega)]
    refine congrArg some (funext fun a => ?_)
    rw [if_neg (by omega)]
  | succ r ih =>
    obtain ⟨fuel, rfl⟩ := Nat.exists_eq_add_of_le' (show 1 ≤ fuel by omega)
    have hva : (va + 512).toNat = va.toNat + 512 := by
      rw [UInt32.toNat_add, show (512 : UInt32).toNat = 512 from rfl]
      omega
    have hoff : (offset + 1).toNat = offset.toNat + 1 := by
      rw [UInt32.toNat_add, show (1 : UInt32).toNat = 1 from rfl]
      omega
    rw [readsegLoop, if_pos (by rw [UInt32.lt_iff_toNat_lt]; omega),
      ih (by omega) (by omega) (by omega) (by omega) (by omega), hva, hoff]
    refine congrArg some (funext fun a => ?_)
    rw [readsect_apply (by omega) (by omega)]
    by_cases h₅ : va.toNat + 512 ≤ a.toNat ∧ a.toNat < va.toNat + 512 + 512 * r
    · have hs : offset.toNat + 1 + (a.toNat - (va.toNat + 512)) / 512 =
          offset.toNat + (a.toNat - va.toNat) / 512 := by omega
      have hb : (a.toNat - (va.toNat + 512)) % 512 = (a.toNat - va.toNat) % 512 := by omega
      rw [if_pos h₅, if_pos (by omega), hs, hb]
    · rw [if_neg h₅, Nat.mul_add_one, ← Nat.add_assoc]
      by_cases h₆ : va.toNat ≤ a.toNat ∧ a.toNat < va.toNat + 512
      · have hs : offset.toNat + (a.toNat - va.toNat) / 512 = offset.toNat := by omega
        have hb : (a.toNat - va.toNat) % 512 = a.toNat - va.toNat := by omega
        rw [if_pos h₆, if_pos (by omega), hs, hb]
      · rw [if_neg h₆, if_neg (by omega)]

theorem toNat_and_sector (va : UInt32) : (va &&& 0xfffffe00).toNat = va.toNat / 512 * 512 := by
  rw [UInt32.toNat_and]
  exact and_mask (k := 9) (by decide) va.toNat_lt

theorem toNat_and_phys (h : va.toNat < 2 ^ 24) : va &&& 0xffffff = va := by
  rw [← UInt32.toNat_inj, UInt32.toNat_and]
  exact (Nat.and_two_pow_sub_one_eq_mod va.toNat 24).trans (Nat.mod_eq_of_lt h)

/-- A load that stays in the first gigabyte -/
theorem readseg_eq (h : va.toNat + count.toNat ≤ 2 ^ 30) :
    readseg disk va count offset m =
      some (Load.layer (image disk) m ⟨va.toNat, count.toNat, offset.toNat⟩) := by
  have hoff : (offset / 512 + 1).toNat = offset.toNat / 512 + 1 := by
    have := offset.toNat_lt
    rw [UInt32.toNat_add, UInt32.toNat_div, show (512 : UInt32).toNat = 512 from rfl,
      show (1 : UInt32).toNat = 1 from rfl]
    omega
  have heva : (va + count).toNat = va.toNat + count.toNat := by
    rw [UInt32.toNat_add]
    omega
  have hva := toNat_and_sector va
  have ho := offset.toNat_lt
  let r := (va.toNat + count.toNat + 511) / 512 - va.toNat / 512
  have hr : r = (va.toNat + count.toNat + 511) / 512 - va.toNat / 512 := rfl
  rw [readseg, readsegLoop_eq (r := r) (by omega) (by omega) (by omega) (by omega) (by omega)]
  refine congrArg some (funext fun a => ?_)
  have hhi : va.toNat / 512 * 512 + 512 * r = (va.toNat + count.toNat + 511) / 512 * 512 := by
    omega
  rw [hva, hoff, hhi]
  by_cases hc : va.toNat / 512 * 512 ≤ a.toNat ∧
      a.toNat < (va.toNat + count.toNat + 511) / 512 * 512
  · have hl : Load.Covers ⟨va.toNat, count.toNat, offset.toNat⟩ a.toNat := hc
    have hs : (offset.toNat / 512 * 512 + (a.toNat - va.toNat / 512 * 512)) / 512 + 1 =
        offset.toNat / 512 + 1 + (a.toNat - va.toNat / 512 * 512) / 512 := by omega
    have hb : (offset.toNat / 512 * 512 + (a.toNat - va.toNat / 512 * 512)) % 512 =
        (a.toNat - va.toNat / 512 * 512) % 512 := by omega
    rw [if_pos hc, Load.layer, if_pos hl, Load.supplies, image]
    simp only [Load.lo, hs, hb]
  · have hl : ¬ Load.Covers ⟨va.toNat, count.toNat, offset.toNat⟩ a.toNat := hc
    rw [if_neg hc, Load.layer, if_neg hl]

/-! ## The image -/

/-- The program headers -/
def headers (img : Buffer) : List Proghdr :=
  (List.range (Elfhdr.load img).phnum.toNat).map fun i =>
    Proghdr.load fun j => img ((Elfhdr.load img).phoff.toNat + 32 * i + j)

/-- The first page, read to scratch space -/
def scratch : Load := ⟨0x10000, 4096, 0⟩

/-- A kernel image with its headers in the first page and disjoint segments from 1 MB to 16 MB, in
increasing order, that have their addresses and offsets at the same place in a sector -/
structure Accepted (img : Buffer) : Prop where
  magic : (Elfhdr.load img).magic = ELF_MAGIC
  page : (Elfhdr.load img).phoff.toNat + 32 * (Elfhdr.load img).phnum.toNat ≤ 4096
  order : (headers img).Pairwise fun p q => p.va ≤ q.va
  low : ∀ p ∈ headers img, 0x100000 ≤ p.va.toNat
  high : ∀ p ∈ headers img, p.va.toNat < 0x1000000 ∧ p.va.toNat + p.memsz.toNat ≤ 0x1000000
  disjoint : (headers img).Pairwise fun p q => ∀ x,
    ¬ ((p.va.toNat ≤ x ∧ x < p.va.toNat + p.memsz.toNat) ∧
      q.va.toNat ≤ x ∧ x < q.va.toNat + q.memsz.toNat)
  aligned : ∀ p ∈ headers img, p.va.toNat % 512 = p.offset.toNat % 512

/-- The scratch space has the first page. -/
def Scratch (img : Buffer) (m : Mem) : Prop :=
  ∀ i < 4096, m (0x10000 + UInt32.ofNat i) = img i

variable {img : Buffer}

theorem toNat_scratch {i : ℕ} (h : i ≤ 4096) :
    (0x10000 + UInt32.ofNat i).toNat = 0x10000 + i := by
  rw [UInt32.toNat_add, UInt32.toNat_ofNat_of_lt' (show i < 2 ^ 32 by omega),
    show (0x10000 : UInt32).toNat = 0x10000 from rfl]
  omega

theorem Scratch.layer {p : Proghdr} (h : Scratch img m) (hp : 0x100000 ≤ p.va.toNat) :
    Scratch img ((toLoad p).layer img m) := by
  intro i hi
  have ha := toNat_scratch hi.le
  have hc : ¬ (toLoad p).Covers (0x10000 + UInt32.ofNat i).toNat := by
    rintro ⟨hlo, -⟩
    have hlo' : p.va.toNat / 512 * 512 ≤ (0x10000 + UInt32.ofNat i).toNat := hlo
    omega
  rw [Load.layer, if_neg hc]
  exact h i hi

/-- A program header in scratch space -/
theorem Scratch.load (h : Scratch img m) {o : ℕ} (ho : o + 32 ≤ 4096) :
    Proghdr.load (view m (0x10000 + UInt32.ofNat o)) = Proghdr.load fun j => img (o + j) := by
  have hv : ∀ j < 32, view m (0x10000 + UInt32.ofNat o) j = img (o + j) := by
    intro j hj
    rw [← h (o + j) (by omega), UInt32.ofNat_add, ← add_assoc]
    rfl
  have hw : ∀ k, k + 4 ≤ 32 → get32 (view m (0x10000 + UInt32.ofNat o)) k =
      get32 (fun j => img (o + j)) k := fun k hk => get32_congr fun i hi => hv (k + i) (by omega)
  unfold Proghdr.load
  rw [hw 0 (by decide), hw 4 (by decide), hw 8 (by decide), hw 16 (by decide), hw 20 (by decide)]

theorem Scratch.elf (h : Scratch img m) : Elfhdr.load (view m 0x10000) = Elfhdr.load img := by
  have hv : ∀ j < 52, view m 0x10000 j = img j := fun j hj => h j (by omega)
  have hw : ∀ k, k + 4 ≤ 52 → get32 (view m 0x10000) k = get32 img k :=
    fun k hk => get32_congr fun i hi => hv (k + i) (by omega)
  have hh : get16 (view m 0x10000) 44 = get16 img 44 :=
    get16_congr fun i hi => hv (44 + i) (by omega)
  unfold Elfhdr.load
  rw [hw 0 (by decide), hw 24 (by decide), hw 28 (by decide), hh]

/-- The loop of `bootmain`, from the program header at `o` on -/
theorem loadLoop_eq (ps : List Proghdr) {o fuel : ℕ} (hs : Scratch (image disk) m)
    (ho : o + 32 * ps.length ≤ 4096) (hf : ps.length < fuel)
    (hps : ∀ i (h : i < ps.length), ps[i] = Proghdr.load fun j => image disk (o + 32 * i + j))
    (hlow : ∀ p ∈ ps, 0x100000 ≤ p.va.toNat)
    (hhigh : ∀ p ∈ ps, p.va.toNat < 0x1000000 ∧ p.va.toNat + p.memsz.toNat ≤ 0x1000000) :
    loadLoop disk (0x10000 + UInt32.ofNat (o + 32 * ps.length)) fuel (0x10000 + UInt32.ofNat o) m =
      some ((ps.map toLoad).foldl (Load.layer (image disk)) m) := by
  induction ps generalizing o fuel m with
  | nil =>
    obtain ⟨fuel, rfl⟩ := Nat.exists_eq_add_of_le' (show 1 ≤ fuel by simp at hf; omega)
    rw [loadLoop, if_neg (by rw [UInt32.lt_iff_toNat_lt]; simp)]
    rfl
  | cons p ps ih =>
    obtain ⟨fuel, rfl⟩ := Nat.exists_eq_add_of_le' (show 1 ≤ fuel by simp at hf; omega)
    simp only [List.length_cons] at ho hf
    have hlt : 0x10000 + UInt32.ofNat o < 0x10000 + UInt32.ofNat (o + 32 * (p :: ps).length) := by
      simp only [List.length_cons]
      rw [UInt32.lt_iff_toNat_lt, toNat_scratch (by omega), toNat_scratch (by omega)]
      omega
    have hp : p = Proghdr.load fun j => image disk (o + j) := hps 0 (by simp)
    obtain ⟨hva, hend⟩ := hhigh p (by simp)
    have hread : readseg disk (p.va &&& 0xffffff) p.memsz p.offset m =
        some ((toLoad p).layer (image disk) m) := by
      rw [toNat_and_phys (by omega), readseg_eq (by omega)]
      rfl
    have hnext : (0x10000 : UInt32) + UInt32.ofNat o + 32 = 0x10000 + UInt32.ofNat (o + 32) := by
      rw [add_assoc, UInt32.ofNat_add]
      rfl
    have hlen : o + 32 * (p :: ps).length = o + 32 + 32 * ps.length := by
      simp only [List.length_cons]
      omega
    rw [loadLoop, if_pos hlt]
    simp only [hs.load (show o + 32 ≤ 4096 by omega), ← hp, hread, Option.bind_eq_bind,
      Option.bind_some, hnext, hlen, List.map_cons, List.foldl_cons]
    refine ih (hs.layer (hlow p (by simp))) (by omega) (by omega) (fun i hi => ?_)
      (fun q hq => hlow q (by simp [hq])) (fun q hq => hhigh q (by simp [hq]))
    have hi' := hps (i + 1) (by simp; omega)
    rw [List.getElem_cons_succ] at hi'
    rw [hi']
    congr 1
    funext j
    exact congrArg (image disk) (by omega)

theorem scratch_layer (m : Mem) : Scratch img (scratch.layer img m) := by
  intro i hi
  have ha := toNat_scratch hi.le
  have hc : scratch.Covers (0x10000 + UInt32.ofNat i).toNat := by
    show 0x10000 / 512 * 512 ≤ _ ∧ _ < (0x10000 + 4096 + 511) / 512 * 512
    omega
  have hlo : scratch.lo = 0x10000 := rfl
  rw [Load.layer, if_pos hc, Load.supplies, hlo, ha]
  show img (0 / 512 * 512 + _) = img i
  exact congrArg img (by omega)

/-- The loads of `bootmain`, in their order -/
def loads (img : Buffer) : List Load := scratch :: (headers img).map toLoad

theorem Scratch.loads {ps : List Proghdr} (h : Scratch img m)
    (hlow : ∀ p ∈ ps, 0x100000 ≤ p.va.toNat) :
    Scratch img ((ps.map toLoad).foldl (Load.layer img) m) := by
  induction ps generalizing m with
  | nil => exact h
  | cons p ps ih =>
    exact ih (h.layer (hlow p List.mem_cons_self)) fun q hq => hlow q (List.mem_cons_of_mem _ hq)

/-- `bootmain` jumps to the entry of the image, and memory is what the loads have left. -/
theorem bootmain_eq (h : Accepted (image disk)) (m : Mem) :
    bootmain disk m = some ((Elfhdr.load (image disk)).entry &&& 0xffffff,
      (loads (image disk)).foldl (Load.layer (image disk)) m) := by
  have hfirst : readseg disk 0x10000 (512 * 8) 0 m = some (scratch.layer (image disk) m) :=
    readseg_eq (by decide)
  have hs : Scratch (image disk) (scratch.layer (image disk) m) := scratch_layer m
  have hlen : (headers (image disk)).length = (Elfhdr.load (image disk)).phnum.toNat := by
    simp [headers]
  have hpage := h.page
  have hphoff : (Elfhdr.load (image disk)).phoff =
      UInt32.ofNat (Elfhdr.load (image disk)).phoff.toNat := (UInt32.ofNat_toNat).symm
  have hphnum : (Elfhdr.load (image disk)).phnum.toUInt32 =
      UInt32.ofNat (Elfhdr.load (image disk)).phnum.toNat := by
    rw [← UInt32.toNat_inj, UInt16.toNat_toUInt32, UInt32.toNat_ofNat_of_lt']
    exact (UInt16.toNat_lt _).trans (by decide)
  have heph : 0x10000 + (Elfhdr.load (image disk)).phoff +
      (Elfhdr.load (image disk)).phnum.toUInt32 * 32 = 0x10000 + UInt32.ofNat
        ((Elfhdr.load (image disk)).phoff.toNat + 32 * (headers (image disk)).length) := by
    rw [UInt32.ofNat_add, ← hphoff, hlen, UInt32.ofNat_mul, ← hphnum, ← add_assoc, mul_comm]
    rfl
  have hrun := loadLoop_eq (headers (image disk)) (o := (Elfhdr.load (image disk)).phoff.toNat) hs
    (by omega) (show (headers (image disk)).length < 2 ^ 27 + 1 by omega)
    (fun i hi => by simp [headers]) h.low h.high
  unfold bootmain
  simp only [hfirst, Option.bind_eq_bind, Option.bind_some, hs.elf, h.magic, ne_eq,
    not_true_eq_false, if_false, heph]
  rw [← hphoff] at hrun
  rw [hrun, Option.bind_some, (hs.loads h.low).elf, loads, List.foldl_cons]

/-! ## Intact segments -/

/-- `bootmain` comes to the jump with every segment as it is in the image. -/
def Intact (disk : Disk) (m : Mem) : Prop :=
  ∃ e m', bootmain disk m = some (e, m') ∧ ∀ p ∈ headers (image disk), ∀ k < p.filesz.toNat,
    m' (p.va + UInt32.ofNat k) = image disk (p.offset.toNat + k)

/-- Of all loads that cover a byte of a segment's file part, the last one reads the byte that the
segment has there. -/
def SectorsAgree (img : Buffer) : Prop :=
  ∀ p ∈ headers img, ∀ k < p.filesz.toNat,
    ∃ l, topmost (loads img) (p.va + UInt32.ofNat k).toNat = some l ∧
      l.supplies img (p.va + UInt32.ofNat k).toNat = img (p.offset.toNat + k)

theorem topmost_isSome {ls : List Load} {l : Load} {x : ℕ} (hl : l ∈ ls) (hc : l.Covers x) :
    ∃ t, topmost ls x = some t := by
  induction ls with
  | nil => cases hl
  | cons l' ls ih =>
    rw [topmost]
    rcases List.mem_cons.mp hl with rfl | hl
    · rw [if_pos hc]
      cases topmost ls x with
      | none => exact ⟨_, rfl⟩
      | some t => exact ⟨t, rfl⟩
    · obtain ⟨t, ht⟩ := ih hl
      exact ⟨t, by rw [ht]; rfl⟩

/-- It is enough that segments that share a sector have the same distance between address and
offset. -/
theorem sectorsAgree_of_shift (h : Accepted img)
    (hfile : ∀ p ∈ headers img, p.filesz.toNat ≤ p.memsz.toNat)
    (hshift : ∀ p ∈ headers img, ∀ q ∈ headers img, ∀ x, (toLoad p).Covers x →
      (toLoad q).Covers x → p.offset.toNat + q.va.toNat = q.offset.toNat + p.va.toNat) :
    SectorsAgree img := by
  intro p hp k hk
  have hlow := h.low p hp
  obtain ⟨hva, hend⟩ := h.high p hp
  have hle := hfile p hp
  have hx : (p.va + UInt32.ofNat k).toNat = p.va.toNat + k := by
    rw [UInt32.toNat_add, UInt32.toNat_ofNat_of_lt' (show k < 2 ^ 32 by omega)]
    omega
  have hcov : (toLoad p).Covers (p.va.toNat + k) := by
    show p.va.toNat / 512 * 512 ≤ _ ∧ _ < (p.va.toNat + p.memsz.toNat + 511) / 512 * 512
    omega
  have hmem : toLoad p ∈ loads img := List.mem_cons_of_mem _ (List.mem_map_of_mem hp)
  obtain ⟨l, hl⟩ := topmost_isSome hmem hcov
  obtain ⟨hlmem, hlcov⟩ := covers_of_topmost hl
  rw [hx]
  refine ⟨l, hl, ?_⟩
  rcases List.mem_cons.mp hlmem with rfl | hlmem
  · -- scratch space ends below the segments
    have hhi : scratch.hi = 0x11000 := rfl
    have := hlcov.2
    omega
  · obtain ⟨q, hq, rfl⟩ := List.mem_map.mp hlmem
    have heq := hshift p hp q hq _ hcov hlcov
    have hal := h.aligned q hq
    have hlo : q.va.toNat / 512 * 512 ≤ p.va.toNat + k := hlcov.1
    show img (q.offset.toNat / 512 * 512 + (p.va.toNat + k - q.va.toNat / 512 * 512)) = _
    exact congrArg img (by omega)

/-- The segments are loaded intact into every memory exactly if the sectors agree. -/
theorem bootmain_intact_iff (h : Accepted (image disk)) :
    (∀ m, Intact disk m) ↔ SectorsAgree (image disk) := by
  constructor
  · intro hall p hp k hk
    -- an address that no load covers keeps any byte it had
    obtain ⟨_, m', he, hm'⟩ := hall fun _ => image disk (p.offset.toNat + k) + 1
    rw [bootmain_eq h, Option.some.injEq] at he
    have hbyte := hm' p hp k hk
    rw [← (Prod.mk.inj he).2, foldl_layer] at hbyte
    cases htop : topmost (loads (image disk)) (p.va + UInt32.ofNat k).toNat with
    | some l =>
      rw [htop] at hbyte
      exact ⟨l, rfl, hbyte⟩
    | none =>
      rw [htop] at hbyte
      exact absurd (add_eq_left.mp hbyte) (by decide)
  · intro hagree m
    refine ⟨_, _, bootmain_eq h m, fun p hp k hk => ?_⟩
    obtain ⟨l, htop, hl⟩ := hagree p hp k hk
    rw [foldl_layer, htop]
    exact hl

/-- The bytes of a `uint` -/
def le (x : ℕ) : List UInt8 :=
  [UInt8.ofNat x, UInt8.ofNat (x / 2 ^ 8), UInt8.ofNat (x / 2 ^ 16), UInt8.ofNat (x / 2 ^ 24)]

/-- The bytes of a program header -/
def bytesOf (p : Proghdr) : List UInt8 :=
  le p.type.toNat ++ le p.offset.toNat ++ le p.va.toNat ++ le 0 ++ le p.filesz.toNat ++
    le p.memsz.toNat ++ le 0 ++ le 0

/-- An image with these program headers that is zero behind them, but for its byte at `0x1000` -/
def kernel (ps : List Proghdr) : Buffer := fun i =>
  if i = 0x1000 then 1 else
    (le ELF_MAGIC.toNat ++ List.replicate 24 0 ++ le 52 ++ List.replicate 12 0 ++ le ps.length ++
      List.replicate 4 0 ++ ps.flatMap bytesOf).getD i 0

/-- A disk with the image from sector 1 on -/
def diskOf (img : Buffer) : Disk := fun _ s i => img (512 * (s - 1) + i)

theorem image_diskOf (img : Buffer) : image (diskOf img) = img := by
  funext i
  unfold image diskOf
  rw [Nat.add_sub_cancel, Nat.div_add_mod]

/-- A hundred bytes at 1 MB -/
def text : Proghdr := ⟨1, 0x1000, 0x100000, 100, 100⟩

/-- A hundred bytes behind them, from another page of the file -/
def data : Proghdr := ⟨1, 0x2064, 0x100064, 100, 100⟩

theorem text_accepted : Accepted (kernel [text]) := by
  have hh : headers (kernel [text]) = [text] := by decide +kernel
  constructor
  · decide +kernel
  · decide +kernel
  all_goals
    rw [hh]
    simp [text]

/-- One segment -/
theorem bootmain_intact_text : Intact (diskOf (kernel [text])) fun _ => 0 := by
  have hh : headers (kernel [text]) = [text] := by decide +kernel
  have ha := text_accepted
  rw [← image_diskOf (kernel [text])] at ha
  refine (bootmain_intact_iff ha).mpr ?_ _
  rw [image_diskOf]
  refine sectorsAgree_of_shift text_accepted ?_ ?_
  · rw [hh]
    simp [text]
  · rw [hh]
    simp

theorem data_accepted : Accepted (kernel [text, data]) := by
  have hh : headers (kernel [text, data]) = [text, data] := by decide +kernel
  constructor
  · decide +kernel
  · decide +kernel
  all_goals
    rw [hh]
    simp [text, data]
  omega

/-- The first sector of the second segment overwrites the first segment. -/
theorem bootmain_clobbers : Accepted (image (diskOf (kernel [text, data]))) ∧
    ¬ Intact (diskOf (kernel [text, data])) fun _ => 0 := by
  have hh : headers (kernel [text, data]) = [text, data] := by decide +kernel
  have ha := data_accepted
  rw [← image_diskOf (kernel [text, data])] at ha
  refine ⟨ha, ?_⟩
  rintro ⟨_, m', he, hm'⟩
  rw [bootmain_eq ha, Option.some.injEq] at he
  rw [image_diskOf] at he hm'
  have hbyte := hm' text (by rw [hh]; simp) 0 (by decide)
  have htop : topmost (loads (kernel [text, data])) (text.va + UInt32.ofNat 0).toNat =
      some (toLoad data) := by
    rw [loads, hh]
    decide +kernel
  rw [← (Prod.mk.inj he).2, foldl_layer, htop] at hbyte
  revert hbyte
  decide +kernel

end Bootmain

end Xv6Shed
