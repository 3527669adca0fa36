import Mathlib.Data.Multiset.Count
import Xv6Shed.Directories
import Xv6Shed.Triple

/-!
# Inodes in memory

`H` is the multiset of all pointers to inodes: those of open files, of current directories and
of the call that runs; `L` is the set of inodes that call has locked. `Inv` is what holds
between the steps of a call. How much it says of links depends on how much is asked of the
image: nothing, that no link count is too small, or that link counts are exact. Then no step
fails because an inode has no type.
-/

namespace Xv6Shed
open Function Bytes

/-- What is kept of links -/
inductive Mode where
  | blocks
  | names
  | exact
  deriving DecidableEq

variable {NINODE : ℕ} {sb : Superblock} {m : Mode} {c : ℕ → ℕ} {B : ℕ}
  {H H' R R' : Multiset (Fin NINODE)} {L L' : Finset (Fin NINODE)} {ip jp : Fin NINODE} {i : ℕ}

/-- What `ilock` says of an inode that is free on the disk -/
def noType : Fault := .panic "ilock: no type"

/-- The faults that a call may end with -/
def Allowed (m : Mode) (e : Fault) : Prop := m ≠ .blocks → e ≠ noType

theorem Allowed.panic {msg : String} (h : msg ≠ "ilock: no type") : Allowed m (.panic msg) :=
  fun _ he => h (Fault.panic.inj he)

theorem Allowed.hang : Allowed m .hang := fun _ he => nomatch he

theorem Allowed.null : Allowed m .null := fun _ he => nomatch he

namespace Fs

variable {s s' s'' : Fs NINODE}

/-- The inode on the disk; all inodes are on the root device. -/
def onDisk (s : Fs NINODE) (ip : Fin NINODE) : Dinode := dinode (s.disk 1) (s.icache ip).inum

/-- Entry `k` of the inode as a directory -/
def entryOf (s : Fs NINODE) (ip : Fin NINODE) (k : ℕ) : Dirent := (s.onDisk ip).ent (s.disk 1) k

/-- Somebody has a pointer to inode `i`. -/
def Held (s : Fs NINODE) (H : Multiset (Fin NINODE)) (i : ℕ) : Prop :=
  ∃ ip ∈ H, (s.icache ip).inum = i

/-- The pointers in `H` are counted, lead to different inodes, and the copies in memory differ
from the disk at most in their link counts. -/
structure Counted (sb : Superblock) (s : Fs NINODE) (H : Multiset (Fin NINODE))
    (L : Finset (Fin NINODE)) : Prop where
  healthy : Healthy sb (s.disk 1)
  root : 1 < sb.ninodes
  count : ∀ ip, (s.icache ip).ref = H.count ip
  sub : ∀ ip ∈ L, ip ∈ H
  busy : ∀ ip ∈ H, (s.icache ip).busy = true ↔ ip ∈ L
  dev : ∀ ip ∈ H, (s.icache ip).dev = 1
  range : ∀ ip ∈ H, (s.icache ip).inum < sb.ninodes
  one : ∀ ip ∈ H, ∀ jp ∈ H, (s.icache ip).inum = (s.icache jp).inum → ip = jp
  copy : ∀ ip ∈ H, (s.icache ip).valid = true →
    (s.icache ip).d = { s.onDisk ip with nlink := (s.icache ip).d.nlink }
  live : ∀ ip ∈ H, (s.icache ip).valid = true → (s.onDisk ip).type ≠ 0

/-- Between the steps of a call: `c` are the link counts that are ahead of their links. -/
structure Inv (m : Mode) (sb : Superblock) (s : Fs NINODE) (H : Multiset (Fin NINODE))
    (L : Finset (Fin NINODE)) (c : ℕ → ℕ) (B : ℕ) : Prop extends Counted sb s H L where
  small : m ≠ .blocks → sb.ninodes ≤ 65536
  nlink : m ≠ .blocks → ∀ ip ∈ H, (s.icache ip).valid = true →
    (s.icache ip).d.nlink = (s.onDisk ip).nlink
  linked : m ≠ .blocks → Linked sb.ninodes maxEntries (graph sb (s.disk 1)) (s.Held H) c B
  exact : m = .exact → Exact sb.ninodes maxEntries (graph sb (s.disk 1)) (s.Held H) c
  fresh : m = .exact → ∀ ip ∈ H, (s.icache ip).valid = false → (s.onDisk ip).nlink ≠ 0
  tidy : m = .exact → Tidy sb (s.disk 1)

/-- Nothing is written to the inodes in `R`. -/
def Keep (R : Multiset (Fin NINODE)) (s s' : Fs NINODE) : Prop :=
  ∀ ip ∈ R, (s'.icache ip).inum = (s.icache ip).inum ∧
    ((s.icache ip).valid = true → (s'.icache ip).valid = true ∧ s'.onDisk ip = s.onDisk ip ∧
      ∀ k, s'.entryOf ip k = s.entryOf ip k)

/-- The inodes in `R` stay in use, with their types, and do not get shorter. -/
def Grow (R : Multiset (Fin NINODE)) (s s' : Fs NINODE) : Prop :=
  ∀ ip ∈ R, (s'.icache ip).inum = (s.icache ip).inum ∧
    ((s.icache ip).valid = true → (s'.icache ip).valid = true ∧
      (s'.onDisk ip).type = (s.onDisk ip).type ∧
      (s.onDisk ip).size.toNat ≤ (s'.onDisk ip).size.toNat)

theorem Keep.grow (h : Keep R s s') : Grow R s s' := by
  intro ip hip
  obtain ⟨hi, hv⟩ := h ip hip
  refine ⟨hi, fun hvalid => ?_⟩
  obtain ⟨hv', hd, -⟩ := hv hvalid
  rw [hd]
  exact ⟨hv', rfl, Nat.le_refl _⟩

theorem Keep.refl (R : Multiset (Fin NINODE)) (s : Fs NINODE) : Keep R s s :=
  fun _ _ => ⟨rfl, fun h => ⟨h, rfl, fun _ => rfl⟩⟩

theorem Keep.trans (h : Keep R s s') (h' : Keep R s' s'') : Keep R s s'' := by
  intro ip hip
  obtain ⟨hi, hv⟩ := h ip hip
  obtain ⟨hi', hv'⟩ := h' ip hip
  refine ⟨hi'.trans hi, fun hvalid => ?_⟩
  obtain ⟨h₁, hd₁, he₁⟩ := hv hvalid
  obtain ⟨h₂, hd₂, he₂⟩ := hv' h₁
  exact ⟨h₂, hd₂.trans hd₁, fun k => (he₂ k).trans (he₁ k)⟩

theorem Keep.mono (h : Keep R s s') (hR : ∀ ip ∈ R', ip ∈ R) : Keep R' s s' :=
  fun ip hip => h ip (hR ip hip)

theorem Grow.trans (h : Grow R s s') (h' : Grow R s' s'') : Grow R s s'' := by
  intro ip hip
  obtain ⟨hi, hv⟩ := h ip hip
  obtain ⟨hi', hv'⟩ := h' ip hip
  refine ⟨hi'.trans hi, fun hvalid => ?_⟩
  obtain ⟨h₁, ht₁, hs₁⟩ := hv hvalid
  obtain ⟨h₂, ht₂, hs₂⟩ := hv' h₁
  exact ⟨h₂, ht₂.trans ht₁, hs₁.trans hs₂⟩

theorem Grow.mono (h : Grow R s s') (hR : ∀ ip ∈ R', ip ∈ R) : Grow R' s s' :=
  fun ip hip => h ip (hR ip hip)

theorem Keep.of_disk (hdisk : s'.disk 1 = s.disk 1)
    (h : ∀ ip ∈ R, (s'.icache ip).inum = (s.icache ip).inum ∧
      ((s.icache ip).valid = true → (s'.icache ip).valid = true)) : Keep R s s' := by
  intro ip hip
  obtain ⟨hi, hv⟩ := h ip hip
  have hd : s'.onDisk ip = s.onDisk ip := by rw [onDisk, onDisk, hdisk, hi]
  refine ⟨hi, fun hvalid => ⟨hv hvalid, hd, fun k => ?_⟩⟩
  rw [entryOf, entryOf, hd, hdisk]

theorem Inv.live_of_mem (h : Inv m sb s H L c B) (hm : m ≠ .blocks) (hip : ip ∈ H) :
    Live sb (dinode (s.disk 1)) (s.icache ip).inum :=
  graph_live.mp ((h.linked hm).held _ ⟨ip, hip, rfl⟩)

/-- An inode in memory that is the same but for `ref` and `busy`, or is read from the disk; the
link count may change where nothing is kept of links. -/
def Loaded (m : Mode) (x x' : Inode) (d : Dinode) : Prop :=
  x'.dev = x.dev ∧ x'.inum = x.inum ∧
    (x'.valid = x.valid ∧ x'.d = { x.d with nlink := x'.d.nlink } ∧ (m ≠ .blocks → x'.d = x.d) ∨
      x'.valid = true ∧ x'.d = d ∧ d.type ≠ 0)

theorem Loaded.same {x x' : Inode} {d : Dinode} (hdev : x'.dev = x.dev) (hinum : x'.inum = x.inum)
    (hvalid : x'.valid = x.valid) (hd : x'.d = x.d) : Loaded m x x' d :=
  ⟨hdev, hinum, .inl ⟨hvalid, by rw [hd], fun _ => hd⟩⟩

section SetInode

variable {x : Inode} (hx : ip ∈ H' → ip ∈ H ∧ Loaded m (s.icache ip) x (s.onDisk ip))
  (hH : ∀ jp, jp ≠ ip → H'.count jp = H.count jp)

include hx hH

theorem setInode_loaded (hjp : jp ∈ H') :
    jp ∈ H ∧ Loaded m (s.icache jp) ((s.setInode ip x).icache jp) (s.onDisk jp) := by
  by_cases hji : jp = ip
  · subst hji
    rw [setInode_icache, update_self]
    exact hx hjp
  · rw [setInode_icache, update_of_ne hji]
    refine ⟨?_, .same rfl rfl rfl rfl⟩
    rwa [← Multiset.count_pos, ← hH jp hji, Multiset.count_pos]

theorem setInode_inum (hjp : jp ∈ H') :
    ((s.setInode ip x).icache jp).inum = (s.icache jp).inum ∧
      (s.setInode ip x).onDisk jp = s.onDisk jp := by
  have hi := (setInode_loaded hx hH hjp).2.2.1
  refine ⟨hi, ?_⟩
  rw [onDisk, onDisk, hi]
  rfl

theorem Inv.setInode (h : Inv m sb s H L c B) (href : x.ref = H'.count ip)
    (hL : ∀ jp, jp ≠ ip → (jp ∈ L' ↔ jp ∈ L)) (hsub : ip ∈ L' → ip ∈ H')
    (hbusy : ip ∈ H' → (x.busy = true ↔ ip ∈ L'))
    (hhold : m = .exact → ip ∈ H → ip ∈ H' ∨ (s.onDisk ip).nlink ≠ 0) :
    Inv m sb (s.setInode ip x) H' L' c B := by
  have hmem : ∀ {jp}, jp ≠ ip → (jp ∈ H' ↔ jp ∈ H) := fun {jp} hji => by
    rw [← Multiset.count_pos, hH jp hji, Multiset.count_pos]
  have hheld : ∀ y, (s.setInode ip x).Held H' y → s.Held H y := by
    rintro y ⟨jp, hjp, rfl⟩
    exact ⟨jp, (setInode_loaded hx hH hjp).1, (setInode_inum hx hH hjp).1.symm⟩
  refine ⟨⟨h.healthy, h.root, ?_, ?_, ?_, ?_, ?_, ?_, ?_, ?_⟩, h.small, ?_, ?_, ?_, ?_, h.tidy⟩
  · intro jp
    by_cases hji : jp = ip
    · rw [hji, setInode_icache, update_self]
      exact href
    · rw [setInode_icache, update_of_ne hji, hH jp hji]
      exact h.count jp
  · intro jp hjp
    by_cases hji : jp = ip
    · rw [hji] at hjp ⊢
      exact hsub hjp
    · exact (hmem hji).mpr (h.sub jp ((hL jp hji).mp hjp))
  · intro jp hjp
    by_cases hji : jp = ip
    · rw [hji] at hjp ⊢
      rw [setInode_icache, update_self]
      exact hbusy hjp
    · rw [setInode_icache, update_of_ne hji, hL jp hji]
      exact h.busy jp ((hmem hji).mp hjp)
  · intro jp hjp
    obtain ⟨hj, hd, -⟩ := setInode_loaded hx hH hjp
    exact hd.trans (h.dev jp hj)
  · intro jp hjp
    rw [(setInode_inum hx hH hjp).1]
    exact h.range jp (setInode_loaded hx hH hjp).1
  · intro jp hjp kp hkp
    rw [(setInode_inum hx hH hjp).1, (setInode_inum hx hH hkp).1]
    exact h.one jp (setInode_loaded hx hH hjp).1 kp (setInode_loaded hx hH hkp).1
  · intro jp hjp hv
    rw [(setInode_inum hx hH hjp).2]
    obtain ⟨hj, -, -, ⟨hvs, hds, -⟩ | ⟨-, hds, -⟩⟩ := setInode_loaded hx hH hjp
    · rw [hds, h.copy jp hj (hvs ▸ hv)]
    · rw [hds]
  · intro jp hjp hv
    rw [(setInode_inum hx hH hjp).2]
    obtain ⟨hj, -, -, ⟨hvs, -⟩ | ⟨-, -, ht⟩⟩ := setInode_loaded hx hH hjp
    · exact h.live jp hj (hvs ▸ hv)
    · exact ht
  · intro hm jp hjp hv
    rw [(setInode_inum hx hH hjp).2]
    obtain ⟨hj, -, -, ⟨hvs, -, hds⟩ | ⟨-, hds, -⟩⟩ := setInode_loaded hx hH hjp
    · rw [hds hm]
      exact h.nlink hm jp hj (hvs ▸ hv)
    · rw [hds]
  · exact fun hm => (h.linked hm).hold fun y hy => .inl (hheld y hy)
  · intro hm
    refine (h.exact hm).hold ?_
    rintro y ⟨jp, hjp, rfl⟩
    have hkept : jp ∈ H' ∨ (s.onDisk jp).nlink ≠ 0 := by
      by_cases hji : jp = ip
      · rw [hji] at hjp ⊢
        exact hhold hm hjp
      · exact .inl ((hmem hji).mpr hjp)
    refine hkept.imp (fun hj => ⟨jp, hj, (setInode_inum hx hH hj).1⟩) fun hn => ?_
    rw [graph_links (h.live_of_mem (by rw [hm]; decide) hjp)]
    intro h0
    exact hn (UInt16.toNat_inj.mp h0)
  · intro hm jp hjp hv
    rw [(setInode_inum hx hH hjp).2]
    obtain ⟨hj, -, -, ⟨hvs, -⟩ | ⟨hvt, -⟩⟩ := setInode_loaded hx hH hjp
    · exact h.fresh hm jp hj (hvs ▸ hv)
    · rw [hvt] at hv
      cases hv

theorem setInode_keep (hR : ∀ jp ∈ R, jp ∈ H') : Keep R s (s.setInode ip x) := by
  refine Keep.of_disk rfl fun jp hjp => ?_
  refine ⟨(setInode_inum hx hH (hR jp hjp)).1, fun hv => ?_⟩
  obtain ⟨-, -, -, ⟨hvs, -⟩ | ⟨hvt, -⟩⟩ := setInode_loaded hx hH (hR jp hjp)
  · exact hvs.trans hv
  · exact hvt

end SetInode

section

variable (h : Inv m sb s H L c B)
include h

theorem Inv.mem_iff : ip ∈ H ↔ 0 < (s.icache ip).ref := by
  rw [h.count ip, ← Multiset.count_pos]
  omega

theorem Inv.another (hip : ip ∈ H) :
    Inv m sb (s.idup ip) (ip ::ₘ H) L c B ∧ Keep (ip ::ₘ H) s (s.idup ip) := by
  have hx : ip ∈ ip ::ₘ H → ip ∈ H ∧ Loaded m (s.icache ip)
      { s.icache ip with ref := (s.icache ip).ref + 1 } (s.onDisk ip) :=
    fun _ => ⟨hip, .same rfl rfl rfl rfl⟩
  have hH : ∀ jp, jp ≠ ip → (ip ::ₘ H).count jp = H.count jp :=
    fun jp hji => Multiset.count_cons_of_ne hji H
  refine ⟨h.setInode hx hH ?_ (fun _ _ => Iff.rfl) (fun _ => Multiset.mem_cons_self ip H)
    (fun _ => h.busy ip hip) (fun _ _ => .inl (Multiset.mem_cons_self ip H)),
    setInode_keep hx hH fun _ hj => hj⟩
  rw [Multiset.count_cons_self, h.count ip]
  rfl

theorem Inv.first (hip : ip ∉ H) (hi : i < sb.ninodes) (hnew : ¬s.Held H i)
    (hlive : m ≠ .blocks → Live sb (dinode (s.disk 1)) i)
    (hfresh : m = .exact → (dinode (s.disk 1) i).nlink ≠ 0) (d : Dinode) :
    Inv m sb (s.setInode ip ⟨1, i, 1, false, false, d⟩) (ip ::ₘ H) L c B ∧
      Keep H s (s.setInode ip ⟨1, i, 1, false, false, d⟩) := by
  generalize hs' : s.setInode ip ⟨1, i, 1, false, false, d⟩ = s'
  have hself : s'.icache ip = ⟨1, i, 1, false, false, d⟩ := by
    rw [← hs', setInode_icache, update_self]
  have hold : ∀ jp ∈ H, s'.icache jp = s.icache jp := by
    intro jp hjp
    rw [← hs', setInode_icache, update_of_ne]
    rintro rfl
    exact hip hjp
  have hdisk : s'.disk = s.disk := by rw [← hs']; rfl
  have honDisk : ∀ jp ∈ H, s'.onDisk jp = s.onDisk jp := by
    intro jp hjp
    rw [onDisk, onDisk, hdisk, hold jp hjp]
  have hheld : ∀ y, s'.Held (ip ::ₘ H) y ↔ y = i ∨ s.Held H y := by
    intro y
    constructor
    · rintro ⟨jp, hjp, rfl⟩
      rcases Multiset.mem_cons.mp hjp with rfl | hj
      · rw [hself]
        exact .inl rfl
      · rw [hold jp hj]
        exact .inr ⟨jp, hj, rfl⟩
    · rintro (rfl | ⟨jp, hj, rfl⟩)
      · exact ⟨ip, Multiset.mem_cons_self ip H, by rw [hself]⟩
      · exact ⟨jp, Multiset.mem_cons_of_mem hj, by rw [hold jp hj]⟩
  refine ⟨⟨⟨hdisk ▸ h.healthy, h.root, ?_, ?_, ?_, ?_, ?_, ?_, ?_, ?_⟩,
    h.small, ?_, ?_, ?_, ?_, ?_⟩,
    Keep.of_disk (by rw [hdisk]) fun jp hj => by rw [hold jp hj]; exact ⟨rfl, id⟩⟩
  · intro jp
    by_cases hji : jp = ip
    · rw [hji, hself, Multiset.count_cons_self, Multiset.count_eq_zero_of_notMem hip]
      rfl
    · rw [← hs', setInode_icache, update_of_ne hji, Multiset.count_cons_of_ne hji]
      exact h.count jp
  · exact fun jp hj => Multiset.mem_cons_of_mem (h.sub jp hj)
  · intro jp hjp
    rcases Multiset.mem_cons.mp hjp with rfl | hj
    · rw [hself]
      exact ⟨fun hb => absurd hb Bool.false_ne_true, fun hb => absurd (h.sub jp hb) hip⟩
    · rw [hold jp hj]
      exact h.busy jp hj
  · intro jp hjp
    rcases Multiset.mem_cons.mp hjp with rfl | hj
    · rw [hself]
    · rw [hold jp hj]
      exact h.dev jp hj
  · intro jp hjp
    rcases Multiset.mem_cons.mp hjp with rfl | hj
    · rw [hself]
      exact hi
    · rw [hold jp hj]
      exact h.range jp hj
  · intro jp hjp kp hkp he
    rcases Multiset.mem_cons.mp hjp with rfl | hj <;> rcases Multiset.mem_cons.mp hkp with rfl | hk
    · rfl
    · rw [hself, hold kp hk] at he
      exact absurd ⟨kp, hk, he.symm⟩ hnew
    · rw [hself, hold jp hj] at he
      exact absurd ⟨jp, hj, he⟩ hnew
    · rw [hold jp hj, hold kp hk] at he
      exact h.one jp hj kp hk he
  · intro jp hjp hv
    rcases Multiset.mem_cons.mp hjp with rfl | hj
    · rw [hself] at hv
      cases hv
    · rw [honDisk jp hj]
      rw [hold jp hj] at hv ⊢
      exact h.copy jp hj hv
  · intro jp hjp hv
    rcases Multiset.mem_cons.mp hjp with rfl | hj
    · rw [hself] at hv
      cases hv
    · rw [honDisk jp hj]
      rw [hold jp hj] at hv
      exact h.live jp hj hv
  · intro hm jp hjp hv
    rcases Multiset.mem_cons.mp hjp with rfl | hj
    · rw [hself] at hv
      cases hv
    · rw [honDisk jp hj]
      rw [hold jp hj] at hv ⊢
      exact h.nlink hm jp hj hv
  · intro hm
    rw [hdisk]
    refine (h.linked hm).hold fun y hy => ?_
    rcases (hheld y).mp hy with rfl | hy
    · exact .inr (graph_live.mpr (hlive hm))
    · exact .inl hy
  · intro hm
    rw [hdisk]
    exact (h.exact hm).hold fun y hy => .inl ((hheld y).mpr (.inr hy))
  · intro hm jp hjp hv
    rcases Multiset.mem_cons.mp hjp with rfl | hj
    · rw [onDisk, hself, hdisk]
      exact hfresh hm
    · rw [honDisk jp hj]
      rw [hold jp hj] at hv
      exact h.fresh hm jp hj hv
  · exact hdisk ▸ h.tidy

theorem iget_meets (hi : i < sb.ninodes) (hlive : m ≠ .blocks → Live sb (dinode (s.disk 1)) i)
    (hfresh : m = .exact → ¬s.Held H i → (dinode (s.disk 1) i).nlink ≠ 0) :
    Meets (Allowed m) (s.iget 1 i) fun r => Inv m sb r.2 (r.1 ::ₘ H) L c B ∧ Keep H s r.2 ∧
      r.2.disk = s.disk ∧ (r.2.icache r.1).inum = i := by
  unfold iget
  cases hf : (List.finRange NINODE).find? fun ip =>
      0 < (s.icache ip).ref ∧ (s.icache ip).dev = 1 ∧ (s.icache ip).inum = i with
  | some ip =>
    have hp : 0 < (s.icache ip).ref ∧ (s.icache ip).dev = 1 ∧ (s.icache ip).inum = i := by
      simpa using List.find?_some hf
    obtain ⟨hinv, hkeep⟩ := h.another (h.mem_iff.mpr hp.1)
    refine Meets.pure ⟨hinv, hkeep.mono fun _ hj => Multiset.mem_cons_of_mem hj, rfl, ?_⟩
    rw [setInode_icache, update_self]
    exact hp.2.2
  | none =>
    have hnew : ¬s.Held H i := by
      rintro ⟨jp, hjp, hj⟩
      have := List.find?_eq_none.mp hf jp (List.mem_finRange jp)
      exact this (decide_eq_true ⟨h.mem_iff.mp hjp, h.dev jp hjp, hj⟩)
    dsimp only
    cases hg : (List.finRange NINODE).find? fun ip => (s.icache ip).ref = 0 with
    | none => exact Meets.error (.panic (by decide))
    | some ip =>
      have h0 : (s.icache ip).ref = 0 := by simpa using List.find?_some hg
      have hip : ip ∉ H := fun hip => by
        have := h.mem_iff.mp hip
        omega
      obtain ⟨hinv, hkeep⟩ := h.first hip hi hnew hlive (fun hm => hfresh hm hnew) (s.icache ip).d
      refine Meets.pure ⟨hinv, hkeep, rfl, ?_⟩
      rw [setInode_icache, update_self]

theorem ilock_meets (hip : ip ∈ H) :
    Meets (Allowed m) (s.ilock ip) fun s' => Inv m sb s' H (insert ip L) c B ∧ Keep H s s' ∧
      s'.disk = s.disk ∧ ip ∉ L ∧ (s'.icache ip).valid = true := by
  have hlock : ∀ x : Inode, Loaded m (s.icache ip) x (s.onDisk ip) → x.ref = (s.icache ip).ref →
      x.busy = true → Inv m sb (s.setInode ip x) H (insert ip L) c B ∧
        Keep H s (s.setInode ip x) := by
    intro x hx href hbusy
    refine ⟨h.setInode (fun _ => ⟨hip, hx⟩) (fun _ _ => rfl) (href.trans (h.count ip)) ?_
      (fun _ => hip) (fun _ => by simp [hbusy]) (fun _ _ => .inl hip),
      setInode_keep (fun _ => ⟨hip, hx⟩) (fun _ _ => rfl) fun _ hj => hj⟩
    intro jp hji
    simp [hji]
  unfold ilock
  dsimp only
  by_cases href : (s.icache ip).ref < 1
  · rw [if_pos href]
    exact Meets.error (.panic (by decide))
  rw [if_neg href]
  by_cases hb : (s.icache ip).busy = true
  · rw [if_pos hb]
    exact Meets.error .hang
  rw [if_neg hb]
  have hL : ip ∉ L := fun hL => hb ((h.busy ip hip).mpr hL)
  by_cases hv : (s.icache ip).valid = true
  · rw [if_pos hv]
    obtain ⟨hinv, hkeep⟩ := hlock { s.icache ip with busy := true } (.same rfl rfl rfl rfl) rfl rfl
    refine Meets.pure ⟨hinv, hkeep, rfl, hL, ?_⟩
    rw [setInode_icache, update_self]
    exact hv
  · rw [if_neg hv, h.dev ip hip]
    by_cases ht : (dinode (s.disk 1) (s.icache ip).inum).type = 0
    · rw [if_pos ht]
      exact Meets.error fun hm _ => (h.live_of_mem hm hip).2 ht
    · rw [if_neg ht]
      obtain ⟨hinv, hkeep⟩ := hlock
        ⟨1, (s.icache ip).inum, (s.icache ip).ref, true, true, s.onDisk ip⟩
        ⟨(h.dev ip hip).symm, rfl, .inr ⟨rfl, rfl, ht⟩⟩ rfl rfl
      refine Meets.pure ⟨hinv, hkeep, rfl, hL, ?_⟩
      rw [setInode_icache, update_self]

theorem iunlock_meets (hip : ip ∈ H) :
    Meets (Allowed m) (s.iunlock ip) fun s' => Inv m sb s' H (L.erase ip) c B ∧ Keep H s s' ∧
      s'.disk = s.disk := by
  unfold iunlock
  dsimp only
  by_cases hb : (s.icache ip).busy = false ∨ (s.icache ip).ref < 1
  · rw [if_pos hb]
    exact Meets.error (.panic (by decide))
  · rw [if_neg hb]
    have hx : Loaded m (s.icache ip) { s.icache ip with busy := false } (s.onDisk ip) :=
      .same rfl rfl rfl rfl
    refine Meets.pure ⟨h.setInode (fun _ => ⟨hip, hx⟩) (fun _ _ => rfl) (h.count ip) ?_
      (fun _ => hip) (fun _ => by simp) (fun _ _ => .inl hip),
      setInode_keep (fun _ => ⟨hip, hx⟩) (fun _ _ => rfl) fun _ hj => hj, rfl⟩
    intro jp hji
    simp [hji]

theorem Inv.congr_credit {c' : ℕ → ℕ} (hc : m ≠ .blocks → c' = c) : Inv m sb s H L c' B where
  toCounted := h.toCounted
  small := h.small
  nlink := h.nlink
  linked hm := by
    rw [hc hm]
    exact h.linked hm
  exact hm := by
    rw [hc (by rw [hm]; decide)]
    exact h.exact hm
  fresh := h.fresh
  tidy := h.tidy

end

section

variable (h : Inv m sb s (ip ::ₘ H) L c B)
include h

theorem Inv.drop {d : Dinode} (hip : ip ∉ H)
    (hicache : ∀ jp, jp ≠ ip → s'.icache jp = s.icache jp) (href : (s'.icache ip).ref = 0)
    (r : Replaced sb (dinode (s.disk 1)) (s.icache ip).inum (s.disk 1) d (s'.disk 1))
    (ht : d.type = 0) (hlive : (s.onDisk ip).type ≠ 0)
    (hlinks : m ≠ .blocks → (s.onDisk ip).nlink.toNat ≤ c (s.icache ip).inum)
    (hE : m = .exact → ∀ k, (graph sb (s.disk 1)).entry (s.icache ip).inum k = 0) :
    Inv m sb s' H (L.erase ip) (update c (s.icache ip).inum 0) B ∧ Keep H s s' := by
  have hself : ip ∈ ip ::ₘ H := Multiset.mem_cons_self ip H
  have hup : ∀ {jp}, jp ∈ H → jp ∈ ip ::ₘ H := Multiset.mem_cons_of_mem
  have hne : ∀ {jp}, jp ∈ H → jp ≠ ip := by
    rintro jp hj rfl
    exact hip hj
  have hold : ∀ {jp}, jp ∈ H → s'.icache jp = s.icache jp := fun hj => hicache _ (hne hj)
  have hi := h.range ip hself
  have hinum : ∀ {jp}, jp ∈ H → (s.icache jp).inum ≠ (s.icache ip).inum :=
    fun hj he => hne hj (h.one _ (hup hj) ip hself he)
  have honDisk : ∀ {jp}, jp ∈ H → s'.onDisk jp = s.onDisk jp := by
    intro jp hj
    rw [onDisk, hold hj, r.inodes _ (h.range jp (hup hj)) (hinum hj)]
    rfl
  have hheld : ∀ y, s'.Held H y ↔ ∃ jp ∈ H, (s.icache jp).inum = y :=
    fun y => exists_congr fun jp => and_congr_right fun hj => by rw [hold hj]
  have h0 : d.type ≠ T_DIR := by
    rw [ht]
    decide
  have hgraph := graph_free r hi ht
  have hl : (graph sb (s.disk 1)).live (s.icache ip).inum = true := graph_live.mpr ⟨hi, hlive⟩
  have hlinks' : m ≠ .blocks →
      (graph sb (s.disk 1)).links (s.icache ip).inum ≤ c (s.icache ip).inum := by
    intro hm
    rw [graph_links ⟨hi, hlive⟩]
    exact hlinks hm
  refine ⟨⟨⟨h.healthy.replace r (absurd ht) (fun ht => absurd ht h0),
    h.root, ?_, ?_, ?_, ?_, ?_, ?_, ?_, ?_⟩, h.small, ?_, ?_, ?_, ?_, ?_⟩, ?_⟩
  · intro jp
    by_cases hji : jp = ip
    · rw [hji, href, Multiset.count_eq_zero_of_notMem hip]
      rfl
    · rw [hicache jp hji, h.count jp, Multiset.count_cons_of_ne hji]
  · intro jp hjp
    obtain ⟨hji, hj⟩ := Finset.mem_erase.mp hjp
    exact (Multiset.mem_cons.mp (h.sub jp hj)).resolve_left hji
  · intro jp hj
    rw [hold hj, Finset.mem_erase, and_iff_right (hne hj)]
    exact h.busy jp (hup hj)
  · intro jp hj
    rw [hold hj]
    exact h.dev jp (hup hj)
  · intro jp hj
    rw [hold hj]
    exact h.range jp (hup hj)
  · intro jp hj kp hk
    rw [hold hj, hold hk]
    exact h.one jp (hup hj) kp (hup hk)
  · intro jp hj
    rw [hold hj, honDisk hj]
    exact h.copy jp (hup hj)
  · intro jp hj
    rw [hold hj, honDisk hj]
    exact h.live jp (hup hj)
  · intro hm jp hj
    rw [hold hj, honDisk hj]
    exact h.nlink hm jp (hup hj)
  · intro hm
    rw [hgraph]
    refine (h.linked hm).free hl (hlinks' hm) ?_ ?_
    · intro y hy
      obtain ⟨jp, hj, he⟩ := (hheld y).mp hy
      exact ⟨jp, hup hj, he⟩
    · intro hy
      obtain ⟨jp, hj, he⟩ := (hheld _).mp hy
      exact hinum hj he
  · intro hm
    rw [hgraph]
    refine (h.exact hm).free (hE hm) ?_
    rintro y hy ⟨jp, hj, he⟩
    refine (hheld y).mpr ⟨jp, (Multiset.mem_cons.mp hj).resolve_left ?_, he⟩
    rintro rfl
    exact hy he.symm
  · intro hm jp hj
    rw [hold hj, honDisk hj]
    exact h.fresh hm jp (hup hj)
  · intro hm
    exact (h.tidy hm).replace r (fun ht => absurd ht h0) fun ht => absurd ht h0
  · intro jp hj
    rw [hold hj]
    refine ⟨rfl, fun hv => ⟨hv, honDisk hj, fun k => ?_⟩⟩
    have hlj : Live sb (dinode (s.disk 1)) (s.icache jp).inum :=
      ⟨h.range jp (hup hj), h.live jp (hup hj) hv⟩
    have := ent_replaced r (hinum hj) hlj k
    rw [entryOf, onDisk, hold hj]
    exact this

theorem free_meets {x : Inode} (hip : ip ∉ H) (hinum : x.inum = (s.icache ip).inum)
    (hdev : x.dev = 1) (href : x.ref = 1) (hd : x.d = { s.onDisk ip with nlink := x.d.nlink })
    (hlive : (s.onDisk ip).type ≠ 0)
    (hlinks : m ≠ .blocks → (s.onDisk ip).nlink.toNat ≤ c (s.icache ip).inum)
    (hE : m = .exact → ∀ k, (graph sb (s.disk 1)).entry (s.icache ip).inum k = 0) :
    Meets (Allowed m) ((s.setInode ip x).ifree ip) fun t =>
      Inv m sb (t.setInode ip { t.icache ip with ref := (t.icache ip).ref - 1 }) H (L.erase ip)
        (update c (s.icache ip).inum 0) B ∧
      Keep H s (t.setInode ip { t.icache ip with ref := (t.icache ip).ref - 1 }) := by
  have hx : (s.setInode ip x).icache ip = x := by rw [setInode_icache, update_self]
  have hi := h.range ip (Multiset.mem_cons_self ip H)
  have ha : x.d.addrs = (s.onDisk ip).addrs := by rw [hd]
  have ht : x.d.type ≠ 0 := by
    rw [hd]
    exact hlive
  have hvol : Volume sb (update (dinode (s.disk 1)) (s.icache ip).inum x.d)
      ((s.setInode ip x).disk ((s.setInode ip x).icache ip).dev) := by
    rw [hx, hdev]
    exact h.healthy.volume.fields ⟨hi, hlive⟩ ha ht
  refine ((ifree_meets hvol (live_self hi ht) (by rw [update_self, hx])
    (by rw [hx, hinum])).weaken ?_).imp ?_
  · rintro e rfl
    exact .panic (by decide)
  · rintro t ⟨-, disk', rfl, r⟩
    rw [update_self, hx, hdev] at r
    have r' : Replaced sb (dinode (s.disk 1)) (s.icache ip).inum (s.disk 1) (gone x.d) disk' :=
      ⟨r.toOthers.of_update, by have := r.volume; rwa [update_idem] at this, r.self⟩
    have hdisk : ((s.setInode ip x).put ip (gone x.d) disk').disk 1 = disk' := by
      have := (s.setInode ip x).put_disk ip (gone x.d) disk'
      rwa [hx, hdev] at this
    rw [← hdisk] at r'
    rw [update_self]
    refine h.drop hip ?_ ?_ r' (show (gone x.d).type = 0 from rfl) hlive hlinks hE
    · intro jp hji
      rw [setInode_icache, update_of_ne hji, put_icache_of_ne hji, setInode_icache,
        update_of_ne hji]
    · rw [setInode_icache, update_self, put_icache, hx, href]
      rfl

theorem Inv.count_cons : (s.icache ip).ref = H.count ip + 1 := by
  rw [h.count ip, Multiset.count_cons_self]
  rfl

theorem Inv.release {x : Inode} (href : x.ref = (s.icache ip).ref - 1)
    (hx : Loaded m (s.icache ip) x (s.onDisk ip)) (hL : ∀ jp, jp ≠ ip → (jp ∈ L' ↔ jp ∈ L))
    (hsub : ip ∈ L' → ip ∈ H) (hbusy : ip ∈ H → (x.busy = true ↔ ip ∈ L'))
    (hhold : m = .exact → ip ∈ H ∨ (s.onDisk ip).nlink ≠ 0) :
    Inv m sb (s.setInode ip x) H L' c B ∧ Keep H s (s.setInode ip x) := by
  have hself := Multiset.mem_cons_self ip H
  have hH : ∀ jp, jp ≠ ip → H.count jp = (ip ::ₘ H).count jp :=
    fun jp hji => (Multiset.count_cons_of_ne hji H).symm
  refine ⟨h.setInode (fun _ => ⟨hself, hx⟩) hH ?_ hL hsub hbusy fun hm _ => hhold hm,
    setInode_keep (fun _ => ⟨hself, hx⟩) hH fun _ hj => hj⟩
  rw [href, h.count_cons]
  omega

theorem iput_meets (hL : ip ∈ L → ip ∈ H) :
    Meets (Allowed m) (s.iput ip) fun s' => Inv m sb s' H L c B ∧ Keep H s s' := by
  have hself := Multiset.mem_cons_self ip H
  have hcount := h.count_cons
  unfold iput
  dsimp only
  by_cases hfree : (s.icache ip).ref = 1 ∧ (s.icache ip).valid = true ∧ (s.icache ip).d.nlink = 0
  · rw [if_pos hfree]
    obtain ⟨href, hv, h0⟩ := hfree
    have hip : ip ∉ H := by
      rw [← Multiset.count_eq_zero]
      omega
    have hlive := h.live ip hself hv
    have hn : m ≠ .blocks → (s.onDisk ip).nlink = 0 :=
      fun hm => by rw [← h.nlink hm ip hself hv, h0]
    have hlinks : m ≠ .blocks → (graph sb (s.disk 1)).links (s.icache ip).inum = 0 := by
      intro hm
      rw [graph_links (h.live_of_mem hm hself)]
      exact congrArg UInt16.toNat (hn hm)
    have hmeets := free_meets h hip rfl (h.dev ip hself) href (h.copy ip hself hv) hlive
      (fun hm => by rw [hn hm]; exact Nat.zero_le _) ?_
    · rw [show s.setInode ip (s.icache ip) = s by unfold setInode; rw [update_eq_self]] at hmeets
      refine hmeets.bind fun t ht => Meets.pure ⟨?_, ht.2⟩
      have hinv := ht.1
      rw [Finset.erase_eq_of_notMem fun hi => hip (hL hi)] at hinv
      refine hinv.congr_credit fun hm => ?_
      -- an inode without links has no credit
      have := (h.linked hm).counted _ (graph_live.mpr (h.live_of_mem hm hself))
      rw [hlinks hm] at this
      rw [← show c (s.icache ip).inum = 0 by omega, update_eq_self]
    · intro hm k
      refine graph_entry_of_not (fun hd => ?_) k
      exact (h.exact hm).dirs _ (graph_dir.mpr hd) (hlinks (by rw [hm]; decide))
  · rw [if_neg hfree]
    refine Meets.pure (h.release rfl (.same rfl rfl rfl rfl) (fun _ _ => Iff.rfl) hL
      (fun _ => h.busy ip hself) fun hm => ?_)
    by_cases hip : ip ∈ H
    · exact .inl hip
    · right
      have href : (s.icache ip).ref = 1 := by
        rw [hcount, Multiset.count_eq_zero_of_notMem hip]
        rfl
      by_cases hv : (s.icache ip).valid = true
      · rw [← h.nlink (by rw [hm]; decide) ip hself hv]
        exact fun h0 => hfree ⟨href, hv, h0⟩
      · exact h.fresh hm ip hself (Bool.eq_false_iff.mpr hv)

theorem iunlockput_meets :
    Meets (Allowed m) (s.iunlockput ip) fun s' => Inv m sb s' H (L.erase ip) c B ∧ Keep H s s' := by
  unfold iunlockput
  refine (iunlock_meets h (Multiset.mem_cons_self ip H)).bind ?_
  rintro s₁ ⟨h₁, hk₁, -⟩
  refine (iput_meets h₁ fun hi => absurd rfl (Finset.ne_of_mem_erase hi)).imp ?_
  rintro s₂ ⟨h₂, hk₂⟩
  exact ⟨h₂, (hk₁.mono fun _ hj => Multiset.mem_cons_of_mem hj).trans hk₂⟩

end

theorem release_meets (h : Inv m sb s (ip ::ₘ H) (insert ip ∅) c B) :
    Meets (Allowed m) (s.iunlockput ip) fun s' => Inv m sb s' H ∅ c B ∧ Keep H s s' := by
  have hput := iunlockput_meets h
  rwa [Finset.erase_insert_eq_erase, Finset.erase_empty] at hput

/-- A new inode that gets no name is freed; without an account of links somebody else may have
a pointer to it. -/
theorem discard_meets (h : Inv m sb s (ip ::ₘ H) L c B)
    (hv : (s.icache ip).valid = true) (hnew : m ≠ .blocks → ip ∉ H)
    (hlinks : m ≠ .blocks → (s.onDisk ip).nlink.toNat ≤ c (s.icache ip).inum)
    (hE : m = .exact → ∀ k, (graph sb (s.disk 1)).entry (s.icache ip).inum k = 0) :
    Meets (Allowed m) ((s.setCopy ip { (s.icache ip).d with nlink := 0 }).iunlockput ip) fun s' =>
      Inv m sb s' H (L.erase ip) (update c (s.icache ip).inum 0) B ∧ Keep H s s' := by
  have hself := Multiset.mem_cons_self ip H
  have hcount := h.count_cons
  generalize hx : ({ s.icache ip with busy := false, d := { (s.icache ip).d with nlink := 0 } } :
    Inode) = x
  have hd : x.d = { s.onDisk ip with nlink := x.d.nlink } := by
    rw [← hx]
    dsimp only
    rw [h.copy ip hself hv]
  unfold iunlockput iunlock
  rw [setCopy_icache, update_self]
  dsimp only
  by_cases hb : (s.icache ip).busy = false ∨ (s.icache ip).ref < 1
  · rw [if_pos hb]
    exact Meets.error (.panic (by decide))
  rw [if_neg hb]
  have hstate : (s.setCopy ip { (s.icache ip).d with nlink := 0 }).setInode ip
      { s.icache ip with busy := false, d := { (s.icache ip).d with nlink := 0 } } =
      s.setInode ip x := by
    rw [← hx, setCopy, setInode_setInode]
  refine Meets.bind (Q := (· = s.setInode ip x)) (Meets.pure hstate) ?_
  rintro t rfl
  have hxi : (s.setInode ip x).icache ip = x := by rw [setInode_icache, update_self]
  have hrefx : x.ref = (s.icache ip).ref := by rw [← hx]
  have hvx : x.valid = true ∧ x.d.nlink = 0 := by
    rw [← hx]
    exact ⟨hv, rfl⟩
  unfold iput
  rw [hxi]
  by_cases href : (s.icache ip).ref = 1
  · rw [if_pos ⟨hrefx.trans href, hvx⟩]
    have hip : ip ∉ H := by
      rw [← Multiset.count_eq_zero]
      omega
    refine (free_meets h hip (by rw [← hx]) (by rw [← hx]; exact h.dev ip hself)
      (hrefx.trans href) hd (h.live ip hself hv) hlinks hE).bind fun t ht => Meets.pure ht
  · rw [if_neg fun hc => href (hrefx.symm.trans hc.1)]
    have hm : m = .blocks := by
      by_contra hm
      rw [Multiset.count_eq_zero_of_notMem (hnew hm)] at hcount
      exact href hcount
    have hrel : Inv m sb (s.setInode ip { x with ref := x.ref - 1 }) H (L.erase ip) c B ∧
        Keep H s (s.setInode ip { x with ref := x.ref - 1 }) := by
      refine h.release (by rw [hrefx])
        ⟨by rw [← hx], by rw [← hx], .inl ⟨by rw [← hx], by rw [← hx], absurd hm⟩⟩
        (fun jp hji => by simp [hji]) (fun hi => absurd rfl (Finset.ne_of_mem_erase hi))
        (fun _ => by rw [← hx]; simp) (fun he => absurd (hm.symm.trans he) (by decide))
    refine Meets.pure ?_
    rw [hxi, setInode_setInode]
    exact ⟨hrel.1.congr_credit (absurd hm), hrel.2⟩

end Fs

end Xv6Shed
