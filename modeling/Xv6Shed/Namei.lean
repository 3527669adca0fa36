import Mathlib.Data.List.TakeWhile
import Xv6Shed.Fs

/-!
# Paths and their components

The loop of `_namei` takes a path apart with `skipelem`. It is a left fold of `dirlookup` over
the path's components, whatever the state and whatever the slashes between them.
-/

namespace Xv6Shed.Fs
open Function

variable {NINODE fuel : ℕ} {l a path rest name last : List UInt8} {names : List (List UInt8)}

/-- The maximal runs of bytes other than `'/'` that are not empty -/
def runs (l : List UInt8) : List (List UInt8) := (l.splitOn slash).filter fun r => r ≠ []

/-- The components of a path, each cut at `DIRSIZ`; the path ends at its first zero byte. -/
def components (path : List UInt8) : List (List UInt8) :=
  (runs (path.takeWhile (· != 0))).map (·.take 14)

theorem runs_append_slash (a b : List UInt8) : runs (a ++ slash :: b) = runs a ++ runs b := by
  have h := List.splitOnP_append_cons a b (p := fun c => c == slash) (beq_self_eq_true slash)
  unfold runs List.splitOn
  rw [h, List.filter_append]

theorem runs_of_notMem (h : slash ∉ l) : runs l = if l = [] then [] else [l] := by
  have hall : ∀ c ∈ l, (c == slash) = false := by
    intro c hc
    rw [beq_eq_false_iff_ne]
    rintro rfl
    exact h hc
  unfold runs List.splitOn
  rw [List.splitOnP_eq_singleton hall]
  by_cases hl : l = []
  · simp [hl]
  · simp [hl]

theorem runs_cons_slash (l : List UInt8) : runs (slash :: l) = runs l := by
  have h := runs_append_slash [] l
  rwa [runs_of_notMem List.not_mem_nil, if_pos rfl, List.nil_append, List.nil_append] at h

theorem components_cons_slash (path : List UInt8) :
    components (slash :: path) = components path := by
  unfold components
  rw [List.takeWhile_cons_of_pos (by decide), runs_cons_slash]

theorem takeWhile_of_notMem (h : 0 ∉ a) (b : List UInt8) :
    (a ++ b).takeWhile (· != 0) = a ++ b.takeWhile (· != 0) := by
  apply List.takeWhile_append_of_pos
  intro c hc
  rw [bne_iff_ne]
  rintro rfl
  exact h hc

theorem components_of_notMem (h : 0 ∉ a) : components a = (runs a).map (·.take 14) := by
  have ha := takeWhile_of_notMem h []
  rw [List.append_nil, List.takeWhile_nil, List.append_nil] at ha
  unfold components
  rw [ha]

theorem components_append_slash (h : 0 ∉ a) (b : List UInt8) :
    components (a ++ slash :: b) = components a ++ components b := by
  rw [components_of_notMem h]
  unfold components
  rw [takeWhile_of_notMem h, List.takeWhile_cons_of_pos (by decide), runs_append_slash,
    List.map_append]

theorem components_append_of_mem (h : 0 ∈ a) (b : List UInt8) :
    components (a ++ b) = components a := by
  unfold components
  congr 2
  induction a with
  | nil => cases h
  | cons c a ih =>
    rw [List.cons_append, List.takeWhile_cons, List.takeWhile_cons]
    by_cases hc : (c != 0) = true
    · rw [if_pos hc, if_pos hc]
      congr 1
      apply ih
      rcases List.mem_cons.mp h with h0 | h0
      · rw [← h0] at hc
        cases hc
      · exact h0
    · rw [if_neg hc, if_neg hc]

theorem components_dropWhile (path : List UInt8) :
    components (path.dropWhile (· == slash)) = components path := by
  induction path with
  | nil => rfl
  | cons c path ih =>
    rw [List.dropWhile_cons]
    split
    · next hc =>
      rw [ih, beq_iff_eq.mp hc, components_cons_slash]
    · rfl

theorem components_append {e t : List UInt8} (hne : e ≠ []) (h0 : 0 ∉ e) (hs : slash ∉ e)
    (ht : ∀ c ∈ t.head?, c = 0 ∨ c = slash) : components (e ++ t) = e.take 14 :: components t := by
  have he : components e = [e.take 14] := by
    rw [components_of_notMem h0, runs_of_notMem hs, if_neg hne]
    rfl
  cases t with
  | nil =>
    rw [List.append_nil, he]
    rfl
  | cons c t =>
    rcases ht c rfl with rfl | rfl
    · have hcut : components (e ++ 0 :: t) = components e := by
        rw [components_of_notMem h0]
        unfold components
        rw [takeWhile_of_notMem h0, List.takeWhile_cons_of_neg (by decide), List.append_nil]
      rw [hcut, he]
      rfl
    · rw [components_append_slash h0, he, components_cons_slash]
      rfl

theorem elem_ne_nil (hl : ∀ c ∈ l.head?, c ≠ slash) (h : atEnd l = false) :
    (l.takeWhile fun c => c != slash && c != 0) ≠ [] := by
  cases l with
  | nil => cases h
  | cons c l =>
    have h₁ := hl c rfl
    have h₂ : c ≠ 0 := by simpa [atEnd] using h
    rw [List.takeWhile_cons_of_pos (by simp [h₁, h₂])]
    exact List.cons_ne_nil _ _

theorem components_elem (hl : ∀ c ∈ l.head?, c ≠ slash) (h : atEnd l = false) :
    components l =
      (l.takeWhile fun c => c != slash && c != 0).take 14 ::
        components (l.drop (l.takeWhile fun c => c != slash && c != 0).length) := by
  have hne := elem_ne_nil hl h
  generalize hp : (fun c : UInt8 => c != slash && c != 0) = p at hne ⊢
  have hmem : ∀ c ∈ l.takeWhile p, c ≠ slash ∧ c ≠ 0 := by
    intro c hc
    have := List.mem_takeWhile_imp hc
    rw [← hp] at this
    simpa using this
  have hl' : l.takeWhile p ++ l.dropWhile p = l := List.takeWhile_append_dropWhile
  have hdrop : l.drop (l.takeWhile p).length = l.dropWhile p := by
    have := congrArg (List.drop (l.takeWhile p).length) hl'
    rw [List.drop_left] at this
    exact this.symm
  rw [hdrop]
  conv_lhs => rw [← hl']
  apply components_append hne
  · exact fun h0 => (hmem 0 h0).2 rfl
  · exact fun hs => (hmem slash hs).1 rfl
  · intro c hc
    have hnot := List.head?_dropWhile_not p l
    rw [Option.mem_def.mp hc] at hnot
    subst hp
    by_cases h0 : c = 0
    · exact .inl h0
    · right
      simpa [h0] using hnot

theorem components_atEnd (h : atEnd l = true) : components l = [] := by
  cases l with
  | nil => rfl
  | cons c l =>
    obtain rfl : c = 0 := by simpa [atEnd] using h
    rfl

theorem head_dropWhile (path : List UInt8) :
    ∀ c ∈ (path.dropWhile (· == slash)).head?, c ≠ slash := by
  intro c hc
  have := List.head?_dropWhile_not (· == slash) path
  rw [Option.mem_def.mp hc] at this
  simpa using this

theorem atEnd_dropWhile (path : List UInt8) :
    atEnd (path.dropWhile (· == slash)) = true ↔ components path = [] := by
  rw [← components_dropWhile path]
  constructor
  · exact components_atEnd
  · intro h
    by_contra hne
    rw [components_elem (head_dropWhile path) (Bool.eq_false_iff.mpr hne)] at h
    cases h

theorem skipelem_none : skipelem path = none ↔ components path = [] := by
  unfold skipelem
  rw [← atEnd_dropWhile]
  simp

theorem skipelem_some (h : skipelem path = some (rest, name)) :
    components path = name :: components rest ∧ (atEnd rest = true ↔ components rest = []) ∧
      rest.length < path.length := by
  unfold skipelem at h
  dsimp only at h
  split_ifs at h with hend
  rw [Option.some_inj, Prod.mk.injEq] at h
  obtain ⟨rfl, rfl⟩ := h
  have hend := Bool.eq_false_iff.mpr hend
  have he := components_elem (head_dropWhile path) hend
  have hne := elem_ne_nil (head_dropWhile path) hend
  rw [components_dropWhile] at he
  refine ⟨?_, ?_, ?_⟩
  · rw [he, components_dropWhile]
  · rw [atEnd_dropWhile, components_dropWhile]
  · have hpos := List.length_pos_of_ne_nil hne
    have h₁ := List.length_dropWhile_le (· == slash) path
    have h₂ := (List.takeWhile_prefix (fun c => c != slash && c != 0)
      (l := path.dropWhile (· == slash))).length_le
    apply Nat.lt_of_le_of_lt (List.length_dropWhile_le _ _)
    rw [List.length_drop]
    omega

/-- `dirlookup` as a walk uses it: the inode is locked, searched and given up; nothing is found
in one that is not a directory. -/
def lookup (ip : Fin NINODE) (name : List UInt8) (s : Fs NINODE) :
    Except Fault (Option (Fin NINODE) × Fs NINODE) := do
  let s ← s.ilock ip
  if (s.icache ip).d.type ≠ T_DIR then pure (none, ← s.iunlockput ip)
  else
    match ← s.dirlookup ip name with
    | (none, s) => pure (none, ← s.iunlockput ip)
    | (some (next, _), s) => pure (some next, ← s.iunlockput ip)

/-- One step of the fold, which has failed or has come to an inode. -/
def walkStep (r : Option (Fin NINODE) × Fs NINODE) (name : List UInt8) :
    Except Fault (Option (Fin NINODE) × Fs NINODE) :=
  match r.1 with
  | none => pure r
  | some ip => r.2.lookup ip name

/-- The left fold of `lookup` over `names`, from `ip` on -/
def walk (names : List (List UInt8)) (ip : Fin NINODE) (s : Fs NINODE) :
    Except Fault (Option (Fin NINODE) × Fs NINODE) :=
  names.foldlM walkStep (some ip, s)

/-- Where a path begins -/
def origin (cwd : Option (Fin NINODE)) (path : List UInt8) (s : Fs NINODE) :
    Except Fault (Fin NINODE × Fs NINODE) :=
  if path.headD 0 = slash then s.iget 1 1
  else do
    let ip ← deref cwd
    pure (ip, s.idup ip)

/-- The inode that a walk has come to, if it is a directory -/
def parentOf (name : List UInt8) (r : Option (Fin NINODE) × Fs NINODE) :
    Except Fault (Option (Fin NINODE × List UInt8) × Fs NINODE) :=
  match r.1 with
  | none => pure (none, r.2)
  | some ip => do
    let s ← r.2.ilock ip
    if (s.icache ip).d.type ≠ T_DIR then pure (none, ← s.iunlockput ip)
    else pure (some (ip, name), ← s.iunlock ip)

variable {s : Fs NINODE} {ip : Fin NINODE}

theorem foldlM_failed (names : List (List UInt8)) (s : Fs NINODE) :
    names.foldlM walkStep (none, s) = .ok (none, s) := by
  induction names with
  | nil => rfl
  | cons name names ih =>
    rw [List.foldlM_cons]
    exact ih

theorem walk_cons (name : List UInt8) (names : List (List UInt8)) (ip : Fin NINODE)
    (s : Fs NINODE) : walk (name :: names) ip s = (do
      match ← s.lookup ip name with
      | (none, s) => pure (none, s)
      | (some next, s) => s.walk names next) := by
  unfold walk
  rw [List.foldlM_cons]
  change (s.lookup ip name >>= fun r => names.foldlM walkStep r) = _
  congr 1
  funext r
  obtain ⟨_ | next, s⟩ := r
  · exact foldlM_failed names s
  · rfl

theorem nameiLoop_lookup {parent : Bool} (fuel : ℕ) (hskip : skipelem path = some (rest, name))
    (hgo : ¬ (parent = true ∧ atEnd rest = true)) (ip : Fin NINODE) (s : Fs NINODE) :
    nameiLoop parent (fuel + 1) ip path s = (do
      match ← s.lookup ip name with
      | (none, s) => pure (none, s)
      | (some next, s) => nameiLoop parent fuel next rest s) := by
  conv_lhs => unfold nameiLoop
  unfold lookup
  simp only [hskip, if_neg hgo, bind_assoc]
  congr 1
  funext s₁
  by_cases hdir : (s₁.icache ip).d.type ≠ T_DIR
  · simp only [if_pos hdir, bind_assoc, pure_bind]
  · simp only [if_neg hdir, bind_assoc]
    congr 1
    funext r
    obtain ⟨_ | ⟨next, off⟩, s₂⟩ := r
    · simp only [bind_assoc, pure_bind]
    · simp only [bind_assoc, pure_bind]

theorem nameiLoop_walk (hf : path.length < fuel) (ip : Fin NINODE) (s : Fs NINODE) :
    nameiLoop false fuel ip path s = (do
      let (r, s) ← s.walk (components path) ip
      pure (r.map (·, []), s)) := by
  induction fuel generalizing path ip s with
  | zero => cases hf
  | succ fuel ih =>
    cases hskip : skipelem path with
    | none =>
      unfold nameiLoop
      rw [skipelem_none.mp hskip, hskip]
      rfl
    | some a =>
      obtain ⟨rest, name⟩ := a
      obtain ⟨hcomp, -, hlen⟩ := skipelem_some hskip
      rw [nameiLoop_lookup fuel hskip (fun h => Bool.false_ne_true h.1), hcomp, walk_cons,
        bind_assoc]
      congr 1
      funext r
      obtain ⟨_ | next, s₁⟩ := r
      · rfl
      · exact ih (by omega) next s₁

theorem nameiLoop_parent (hf : path.length < fuel) (hc : components path = names ++ [last])
    (ip : Fin NINODE) (s : Fs NINODE) :
    nameiLoop true fuel ip path s = s.walk names ip >>= parentOf last := by
  induction fuel generalizing path ip s names with
  | zero => cases hf
  | succ fuel ih =>
    cases hskip : skipelem path with
    | none =>
      rw [skipelem_none.mp hskip] at hc
      cases names <;> cases hc
    | some a =>
      obtain ⟨rest, name⟩ := a
      obtain ⟨hcomp, hend, hlen⟩ := skipelem_some hskip
      rw [hcomp] at hc
      cases names with
      | nil =>
        -- this component is the last one
        obtain ⟨rfl, hrest⟩ := List.cons.inj hc
        unfold nameiLoop
        simp only [hskip, hend.mpr hrest, and_self, if_true]
        rfl
      | cons name' names =>
        obtain ⟨rfl, hrest⟩ := List.cons.inj hc
        have hgo : ¬ (true = true ∧ atEnd rest = true) := by
          rintro ⟨-, h⟩
          rw [hend.mp h] at hrest
          cases names <;> cases hrest
        rw [nameiLoop_lookup fuel hskip hgo, walk_cons, bind_assoc]
        congr 1
        funext r
        obtain ⟨_ | next, s₁⟩ := r
        · rfl
        · exact ih (by omega) hrest next s₁

theorem nameiLoop_nil (hf : path.length < fuel) (hc : components path = []) (ip : Fin NINODE)
    (s : Fs NINODE) :
    nameiLoop true fuel ip path s = (do pure (none, ← s.iput ip)) := by
  obtain ⟨fuel, rfl⟩ := Nat.exists_eq_add_of_lt hf
  unfold nameiLoop
  rw [skipelem_none.mpr hc]
  rfl

theorem nameiFrom_eq (parent : Bool) (cwd : Option (Fin NINODE)) (path : List UInt8)
    (s : Fs NINODE) : s.nameiFrom parent cwd path = (do
      let (ip, s) ← s.origin cwd path
      nameiLoop parent (path.length + 1) ip path s) := by
  unfold nameiFrom origin
  split_ifs
  · rfl
  · simp only [bind_assoc, pure_bind]

theorem namei_eq_walk (cwd : Option (Fin NINODE)) (path : List UInt8) (s : Fs NINODE) :
    s.namei cwd path = (do
      let (ip, s) ← s.origin cwd path
      s.walk (components path) ip) := by
  unfold namei
  rw [nameiFrom_eq]
  simp only [bind_assoc]
  congr 1
  funext r
  rw [nameiLoop_walk (Nat.lt_succ_self _)]
  conv_rhs => rw [← bind_pure (r.2.walk (components path) r.1)]
  simp only [bind_assoc, pure_bind]
  congr 1
  funext x
  obtain ⟨_ | ip, s⟩ := x
  · rfl
  · rfl

theorem nameiparent_eq_walk (cwd : Option (Fin NINODE)) (s : Fs NINODE)
    (hc : components path = names ++ [last]) :
    s.nameiparent cwd path = (do
      let (ip, s) ← s.origin cwd path
      s.walk names ip >>= parentOf last) := by
  unfold nameiparent
  rw [nameiFrom_eq]
  congr 1
  funext r
  exact nameiLoop_parent (Nat.lt_succ_self _) hc r.1 r.2

theorem nameiparent_nil (cwd : Option (Fin NINODE)) (s : Fs NINODE) (hc : components path = []) :
    s.nameiparent cwd path = (do
      let (ip, s) ← s.origin cwd path
      pure (none, ← s.iput ip)) := by
  unfold nameiparent
  rw [nameiFrom_eq]
  congr 1
  funext r
  exact nameiLoop_nil (Nat.lt_succ_self _) hc r.1 r.2

theorem ilock_again {s₁ : Fs NINODE} (h : s.ilock ip = .ok s₁) :
    ∃ s₂, s₁.iunlock ip = .ok s₂ ∧ s₂.ilock ip = .ok s₁ := by
  have hs₁ : ∃ x : Inode, 1 ≤ x.ref ∧ x.busy = true ∧ x.valid = true ∧ s₁ = s.setInode ip x := by
    unfold ilock at h
    dsimp only at h
    split_ifs at h with href hbusy hvalid htype
    · cases h
      exact ⟨{ s.icache ip with busy := true }, by dsimp only; omega, rfl, hvalid, rfl⟩
    · cases h
      refine ⟨{ s.icache ip with
        busy := true, valid := true, d := dinode (s.disk (s.icache ip).dev) (s.icache ip).inum },
        ?_, rfl, rfl, rfl⟩
      dsimp only
      omega
  obtain ⟨x, href, hbusy, hvalid, rfl⟩ := hs₁
  have hx : (s.setInode ip x).icache ip = x := by simp
  refine ⟨s.setInode ip { x with busy := false }, ?_, ?_⟩
  · unfold iunlock
    dsimp only
    rw [hx, if_neg (by rw [hbusy]; simp; omega), setInode_setInode]
    rfl
  · have hy : (s.setInode ip { x with busy := false }).icache ip = { x with busy := false } := by
      simp
    have hback : { x with busy := true } = x := by
      rw [← hbusy]
    unfold ilock
    dsimp only
    rw [hy, if_neg (by dsimp only; omega), if_neg (by simp), if_pos hvalid,
      setInode_setInode, hback]
    rfl

theorem parentOf_lookup (last : List UInt8) (r : Option (Fin NINODE) × Fs NINODE) :
    walkStep r last = (do
      match ← parentOf last r with
      | (none, s) => pure (none, s)
      | (some (dp, name), s) => s.lookup dp name) := by
  obtain ⟨_ | ip, s⟩ := r
  · rfl
  · unfold walkStep parentOf lookup
    dsimp only
    cases h₁ : s.ilock ip with
    | error e => rfl
    | ok s₁ =>
      rw [ok_bind]
      by_cases hdir : (s₁.icache ip).d.type ≠ T_DIR
      · simp only [if_pos hdir, ok_bind, bind_assoc, pure_bind]
      · obtain ⟨s₂, hun, hagain⟩ := ilock_again h₁
        simp only [if_neg hdir, ok_bind, hun, hagain, pure_bind]

theorem namei_of_nameiparent (cwd : Option (Fin NINODE)) (s : Fs NINODE)
    (hc : components path = names ++ [last]) :
    s.namei cwd path = (do
      match ← s.nameiparent cwd path with
      | (none, s) => pure (none, s)
      | (some (dp, name), s) => s.lookup dp name) := by
  rw [namei_eq_walk, nameiparent_eq_walk cwd s hc, hc, bind_assoc]
  congr 1
  funext r
  obtain ⟨ip, s⟩ := r
  unfold walk
  dsimp only
  rw [List.foldlM_append, bind_assoc]
  congr 1
  funext x
  rw [← parentOf_lookup, List.foldlM_cons]
  exact bind_pure _

theorem components_slashes (n : ℕ) : components (List.replicate n slash) = [] := by
  induction n with
  | zero => rfl
  | succ n ih => rw [List.replicate_succ, components_cons_slash, ih]

theorem components_repeat (a b : List UInt8) :
    components (a ++ slash :: slash :: b) = components (a ++ slash :: b) := by
  by_cases h0 : 0 ∈ a
  · rw [components_append_of_mem h0, components_append_of_mem h0]
  · rw [components_append_slash h0, components_append_slash h0, components_cons_slash]

theorem components_append_slashes (path : List UInt8) (n : ℕ) :
    components (path ++ List.replicate n slash) = components path := by
  by_cases h0 : 0 ∈ path
  · rw [components_append_of_mem h0]
  · cases n with
    | zero => rw [List.replicate_zero, List.append_nil]
    | succ n =>
      rw [List.replicate_succ, components_append_slash h0, components_slashes, List.append_nil]

theorem namei_congr {p q : List UInt8} (hhead : p.headD 0 = q.headD 0)
    (hc : components p = components q) (cwd : Option (Fin NINODE)) (s : Fs NINODE) :
    s.namei cwd p = s.namei cwd q ∧ s.nameiparent cwd p = s.nameiparent cwd q := by
  have horigin : s.origin cwd p = s.origin cwd q := by
    unfold origin
    rw [hhead]
  constructor
  · rw [namei_eq_walk, namei_eq_walk, horigin, hc]
  · rcases List.eq_nil_or_concat' (components q) with hq | ⟨names, last, hq⟩
    · rw [nameiparent_nil cwd s hq, nameiparent_nil cwd s (hc.trans hq), horigin]
    · rw [nameiparent_eq_walk cwd s hq, nameiparent_eq_walk cwd s (hc.trans hq), horigin]

/-- In every state, `namei` is the fold of `dirlookup` over the components of the path, and
`nameiparent` the fold over all but the last, which has to end at a directory. The first is the
second followed by `dirlookup` of the last component, and neither depends on repeated slashes or
on slashes at the end. -/
theorem path_resolution (cwd : Option (Fin NINODE)) (path : List UInt8) (s : Fs NINODE) :
    s.namei cwd path = (do
      let (ip, s) ← s.origin cwd path
      s.walk (components path) ip) ∧
    (components path = [] → s.nameiparent cwd path = (do
      let (ip, s) ← s.origin cwd path
      pure (none, ← s.iput ip))) ∧
    (∀ names last, components path = names ++ [last] →
      s.nameiparent cwd path = (do
        let (ip, s) ← s.origin cwd path
        s.walk names ip >>= parentOf last) ∧
      s.namei cwd path = (do
        match ← s.nameiparent cwd path with
        | (none, s) => pure (none, s)
        | (some (dp, name), s) => s.lookup dp name)) ∧
    (∀ a b, path = a ++ slash :: b →
      s.namei cwd (a ++ slash :: slash :: b) = s.namei cwd path ∧
        s.nameiparent cwd (a ++ slash :: slash :: b) = s.nameiparent cwd path) ∧
    (components path ≠ [] → ∀ n,
      s.namei cwd (path ++ List.replicate n slash) = s.namei cwd path ∧
        s.nameiparent cwd (path ++ List.replicate n slash) = s.nameiparent cwd path) := by
  refine ⟨namei_eq_walk cwd path s, nameiparent_nil cwd s, ?_, ?_, ?_⟩
  · intro names last hc
    exact ⟨nameiparent_eq_walk cwd s hc, namei_of_nameiparent cwd s hc⟩
  · rintro a b rfl
    apply namei_congr _ (components_repeat a b)
    cases a with
    | nil => rfl
    | cons c a => rfl
  · intro hne n
    apply namei_congr _ (components_append_slashes path n)
    cases path with
    | nil => exact absurd rfl hne
    | cons c path => rfl

/-- `"//a/b/"` -/
example : components [47, 47, 97, 47, 98, 47] = [[97], [98]] := by decide

end Xv6Shed.Fs
