import Mathlib.Data.Fintype.Card
import Xv6Shed.Bio

/-!
# The links of the buffer cache

What the operations of `Bio` do to the ring of all buffers and to the queue of disk
requests, as functions of the lists of buffers the links lead through.
-/

namespace Xv6Shed
open Function Linked

variable {NBUF : ℕ} {D : Type} {s s' : Bio NBUF D} {order qs : List (Fin NBUF)} {b : Fin NBUF}

/-- The ring leads from `bufhead` through the buffers `order`, and each buffer occurs once. -/
structure Lru (s : Bio NBUF D) (order : List (Fin NBUF)) : Prop where
  ring : DRing s.next s.prev (.head :: order.map .buf)
  nodup : order.Nodup
  mem : ∀ b, b ∈ order

/-- The queue of disk requests leads through `qs` and ends. -/
structure Queued (s : Bio NBUF D) (qs : List (Fin NBUF)) : Prop where
  head : s.ideQueue = qs.head?
  chain : Seg s.qnext qs none
  nodup : qs.Nodup

theorem buf_injective : Injective (BufRef.buf : Fin NBUF → BufRef NBUF) := by
  intro b b' h
  cases h
  rfl

theorem head_notMem (order : List (Fin NBUF)) : BufRef.head ∉ order.map BufRef.buf := by
  simp

theorem nodup_ring (h : order.Nodup) : (BufRef.head :: order.map BufRef.buf).Nodup :=
  List.nodup_cons.mpr ⟨head_notMem order, h.map buf_injective⟩

namespace Bio

variable {link : BufRef NBUF → Option (BufRef NBUF)} {test : Fin NBUF → Bool}

theorem pushFront_ok (hr : DRing s.next s.prev (.head :: order.map .buf)) (hd : order.Nodup)
    (hb : b ∉ order) :
    ∃ next prev, s.pushFront b = .ok { s with next := next, prev := prev } ∧
      DRing next prev (.head :: (b :: order).map .buf) := by
  have hnb : BufRef.buf b ∉ order.map BufRef.buf ++ [BufRef.head] := by
    simpa using hb
  have hd' : (order.map BufRef.buf ++ [BufRef.head]).Nodup := by
    rw [List.nodup_append_comm]
    exact nodup_ring hd
  have hr' : DRing s.next s.prev (order.map BufRef.buf ++ [.head]) :=
    (dring_append_comm [_] _).mp hr
  obtain ⟨c, hc⟩ : ∃ c, (order.map BufRef.buf ++ [BufRef.head]).head? = some c := by
    cases order <;> simp
  have hhead : s.next .head = some c := hr.next_head.trans hc
  have hne : BufRef.head ≠ BufRef.buf b := nofun
  have hlink := DRing.link hd' hnb hc (List.getLast?_concat) hr'
  rw [List.append_assoc] at hlink
  refine ⟨_, _, ?_, (dring_append_comm _ _).mp hlink⟩
  unfold pushFront
  simp only [update_of_ne hne, hhead, deref_some, ok_bind]
  rw [update_comm hne]
  rfl

theorem binit_ok (s : Bio NBUF D) :
    ∃ next prev, s.binit = .ok { s with next := next, prev := prev } ∧
      Lru { s with next := next, prev := prev } (List.finRange NBUF).reverse := by
  have key : ∀ (bs order : List (Fin NBUF)) (s : Bio NBUF D),
      DRing s.next s.prev (.head :: order.map .buf) → (order ++ bs).Nodup →
      ∃ next prev, bs.foldlM (fun s b => s.pushFront b) s =
        .ok { s with next := next, prev := prev } ∧
        DRing next prev (.head :: (bs.reverse ++ order).map .buf) := by
    intro bs
    induction bs with
    | nil => exact fun order s hr _ => ⟨s.next, s.prev, rfl, hr⟩
    | cons b bs ih =>
      intro order s hr hd
      have hb : b ∉ order := by
        intro hb
        exact List.disjoint_of_nodup_append hd hb List.mem_cons_self
      obtain ⟨next, prev, hp, hr'⟩ := pushFront_ok hr hd.of_append_left hb
      obtain ⟨next', prev', hf, hr''⟩ := ih (b :: order) { s with next := next, prev := prev } hr'
        (List.perm_middle.nodup_iff.mp hd)
      refine ⟨next', prev', ?_, by simpa using hr''⟩
      rw [List.foldlM_cons, hp, ok_bind, hf]
  have h₀ : DRing (update s.next .head (some .head)) (update s.prev .head (some .head))
      (.head :: ([] : List (Fin NBUF)).map .buf) :=
    ⟨ring_singleton.mpr (update_self ..), ring_singleton.mpr (update_self ..)⟩
  obtain ⟨next, prev, hf, hr⟩ := key (List.finRange NBUF) []
    { s with next := update s.next .head (some .head), prev := update s.prev .head (some .head) }
    h₀ (List.nodup_finRange NBUF)
  refine ⟨next, prev, hf, ?_, ?_, ?_⟩
  · simpa using hr
  · exact List.nodup_reverse.mpr (List.nodup_finRange NBUF)
  · simp

theorem walk_eq {fuel : ℕ} (h : Seg link (order.map .buf) (some .head)) (hf : order.length < fuel) :
    walk link test fuel ((order.map BufRef.buf).head?.or (some .head)) =
      .ok (order.find? test) := by
  induction order generalizing fuel with
  | nil =>
    obtain ⟨fuel, rfl⟩ : ∃ m, fuel = m + 1 := ⟨fuel - 1, by simp at hf; omega⟩
    rfl
  | cons b order ih =>
    obtain ⟨fuel, rfl⟩ : ∃ m, fuel = m + 1 := ⟨fuel - 1, by simp at hf; omega⟩
    rw [List.map_cons, seg_cons] at h
    rw [List.map_cons, List.head?_cons, Option.some_or, walk, List.find?_cons, h.1,
      ih h.2 (by simpa using hf)]
    cases test b <;> rfl

theorem walk_ring (h : Ring link (.head :: order.map .buf)) (hd : order.Nodup) :
    walk link test (NBUF + 1) (link .head) = .ok (order.find? test) := by
  have hlen : order.length < NBUF + 1 := by
    have := hd.length_le_card
    rw [Fintype.card_fin] at this
    omega
  rw [h.next_head]
  exact walk_eq h.2 hlen

end Bio

namespace Lru

theorem walk_next (h : Lru s order) (test : Fin NBUF → Bool) :
    Bio.walk s.next test (NBUF + 1) (s.next .head) = .ok (order.find? test) :=
  Bio.walk_ring h.ring.1 h.nodup

theorem walk_prev (h : Lru s order) (test : Fin NBUF → Bool) :
    Bio.walk s.prev test (NBUF + 1) (s.prev .head) = .ok (order.reverse.find? test) := by
  have hr : Ring s.prev (.head :: order.reverse.map .buf) := by
    have h₂ := h.ring.2
    rw [List.reverse_cons, ring_append_comm, ← List.map_reverse] at h₂
    exact h₂
  exact Bio.walk_ring hr (List.nodup_reverse.mpr h.nodup)

theorem brelse (h : Lru s order) (hb : (s.buf b).busy = true) :
    ∃ next prev, s.brelse b = .ok ({ s with next := next, prev := prev }.setBuf b
        { s.buf b with busy := false }) ∧
      Lru { s with next := next, prev := prev } (b :: order.erase b) := by
  obtain ⟨xs, ys, hxy⟩ := List.append_of_mem (h.mem b)
  have hd := h.nodup
  rw [hxy] at hd
  have hbx : b ∉ xs ++ ys := (List.nodup_cons.mp (List.perm_middle.nodup_iff.mp hd)).1
  have herase : order.erase b = xs ++ ys := by
    rw [hxy, List.erase_append_right _ (by simp at hbx; exact hbx.1)]
    simp
  -- entered at `b`, the ring goes on with `ys`, `bufhead` and `xs`
  have hring : DRing s.next s.prev (.buf b :: (ys.map .buf ++ .head :: xs.map .buf)) := by
    have hr := h.ring
    rw [hxy, List.map_append, List.map_cons, ← List.cons_append] at hr
    have hr' := (dring_append_comm _ _).mp hr
    simpa using hr'
  have hne : ys.map BufRef.buf ++ BufRef.head :: xs.map BufRef.buf ≠ [] := by simp
  obtain ⟨c, hc⟩ : ∃ c, (ys.map BufRef.buf ++ BufRef.head :: xs.map BufRef.buf).head? = some c :=
    ⟨_, List.head?_eq_some_head hne⟩
  obtain ⟨a, ha⟩ : ∃ a, (ys.map BufRef.buf ++ BufRef.head :: xs.map BufRef.buf).getLast? = some a :=
    ⟨_, List.getLast?_eq_some_getLast hne⟩
  have hbmem : BufRef.buf b ∉ ys.map BufRef.buf ++ BufRef.head :: xs.map BufRef.buf := by
    simp only [List.mem_append, not_or] at hbx
    simp [hbx.1, hbx.2]
  have hdr : (BufRef.buf b :: (ys.map BufRef.buf ++ BufRef.head :: xs.map BufRef.buf)).Nodup := by
    refine List.nodup_cons.mpr ⟨hbmem, ?_⟩
    refine (List.perm_append_comm.nodup_iff).mp ?_
    have hd' : (xs ++ ys).Nodup := (List.nodup_cons.mp (List.perm_middle.nodup_iff.mp hd)).2
    simpa using nodup_ring hd'
  have hnext : s.next (.buf b) = some c := by
    rw [hring.next_head, List.head?_append, hc]
    rfl
  have hprev : s.prev (.buf b) = some a := by
    rw [hring.prev_head, List.getLast?_cons, ha]
    rfl
  have hcb : BufRef.buf b ≠ c := by
    rintro rfl
    exact hbmem (List.mem_of_head? hc)
  have hun := DRing.unlink hdr hc ha hring
  have hun' : DRing (update s.next a (some c)) (update s.prev c (some a))
      (.head :: (xs ++ ys).map .buf) := by
    have := (dring_append_comm _ _).mp hun
    simpa using this
  obtain ⟨next, prev, hp, hr⟩ := Bio.pushFront_ok
    (s := { s with next := update s.next a (some c), prev := update s.prev c (some a) }) hun'
    (List.nodup_cons.mp (List.perm_middle.nodup_iff.mp hd)).2 hbx
  refine ⟨next, prev, ?_, ?_, ?_, ?_⟩
  · unfold Bio.brelse
    rw [if_neg (by simp [hb])]
    simp only [hnext, hprev, deref_some, ok_bind, update_of_ne hcb, hp]
    rfl
  · rw [herase]
    exact hr
  · rw [herase]
    exact List.perm_middle.nodup_iff.mp hd
  · intro b'
    rw [herase]
    have := h.mem b'
    rw [hxy] at this
    exact (List.perm_middle.mem_iff).mp this

end Lru

/-- The possible results of a look at the cache for a block. -/
inductive Got (s : Bio NBUF D) (order : List (Fin NBUF)) (dev sector : ℕ) :
    Option (Fin NBUF) → Bio NBUF D → Prop
  /-- another process has the block -/
  | sleep {b : Fin NBUF} : s.caches dev sector b = true → (s.buf b).busy = true →
      Got s order dev sector none s
  | cached {b : Fin NBUF} : s.caches dev sector b = true → (s.buf b).busy = false →
      Got s order dev sector (some b) (s.setBuf b { s.buf b with busy := true })
  /-- the last buffer of the ring that is not busy is reused -/
  | fresh {b : Fin NBUF} {xs ys : List (Fin NBUF)} : (∀ b', s.caches dev sector b' = false) →
      (s.buf b).busy = false → order = xs ++ b :: ys → (∀ b' ∈ ys, (s.buf b').busy = true) →
      Got s order dev sector (some b) (s.setBuf b { s.buf b with
        busy := true, valid := false, dirty := false, dev := dev, sector := sector })

theorem Lru.bget (h : Lru s order) {dev sector : ℕ} {o : Option (Fin NBUF)}
    (hb : s.bget dev sector = .ok (o, s')) : Got s order dev sector o s' := by
  unfold Bio.bget at hb
  rw [h.walk_next, ok_bind] at hb
  cases hf : order.find? (s.caches dev sector) with
  | some b =>
    rw [hf] at hb
    have hc := List.find?_some hf
    dsimp only at hb
    split_ifs at hb with hbusy
    · cases hb
      exact .sleep hc hbusy
    · cases hb
      exact .cached hc (by simpa using hbusy)
  | none =>
    rw [hf] at hb
    dsimp only at hb
    rw [h.walk_prev, ok_bind] at hb
    have hno : ∀ b', s.caches dev sector b' = false := fun b' => by
      simpa using List.find?_eq_none.mp hf b' (h.mem b')
    cases hr : order.reverse.find? (fun b => !(s.buf b).busy) with
    | none =>
      rw [hr] at hb
      cases hb
    | some b =>
      rw [hr] at hb
      cases hb
      obtain ⟨hbusy, as, bs, hab, has⟩ := List.find?_eq_some_iff_append.mp hr
      have horder : order = bs.reverse ++ b :: as.reverse := by
        rw [← List.reverse_reverse order, hab]
        simp
      refine .fresh hno (by simpa using hbusy) horder ?_
      intro b' hb'
      simpa using has b' (List.mem_reverse.mp hb')

theorem ideLast_eq {qnext : Fin NBUF → Option (Fin NBUF)} {xs : List (Fin NBUF)} {l h : Fin NBUF}
    {fuel : ℕ} (hs : Seg qnext (xs ++ [l]) none) (hh : (xs ++ [l]).head? = some h)
    (hf : xs.length < fuel) : Bio.ideLast qnext fuel h = .ok l := by
  induction xs generalizing h fuel with
  | nil =>
    obtain ⟨fuel, rfl⟩ : ∃ m, fuel = m + 1 := ⟨fuel - 1, by simp at hf; omega⟩
    obtain rfl : l = h := by simpa using hh
    have hn : qnext l = none := by simpa using hs
    rw [Bio.ideLast, hn]
    rfl
  | cons x xs ih =>
    obtain ⟨fuel, rfl⟩ : ∃ m, fuel = m + 1 := ⟨fuel - 1, by simp at hf; omega⟩
    obtain rfl : x = h := by simpa using hh
    rw [List.cons_append, seg_cons, Option.or_none] at hs
    obtain ⟨y, hy⟩ : ∃ y, (xs ++ [l]).head? = some y := by cases xs <;> simp
    rw [Bio.ideLast, hs.1, hy]
    exact ih hs.2 hy (by simpa using hf)

namespace Queued

theorem append (h : Queued s qs) (hb : b ∉ qs) :
    ∃ q qnext, s.ideAppend b = .ok { s with ideQueue := q, qnext := qnext } ∧
      Queued { s with ideQueue := q, qnext := qnext } (qs ++ [b]) := by
  have hd : (qs ++ [b]).Nodup := by
    rw [List.nodup_append_comm]
    exact List.nodup_cons.mpr ⟨hb, h.nodup⟩
  have hchain : Seg (update s.qnext b none) qs none := (seg_update_of_notMem hb _).mpr h.chain
  unfold Bio.ideAppend
  rcases List.eq_nil_or_concat' qs with rfl | ⟨xs, l, rfl⟩
  · refine ⟨some b, update s.qnext b none, ?_, rfl, ?_, hd⟩
    · have hq : s.ideQueue = none := h.head
      simp only [hq]
      rfl
    · simp
  · have hbl : l ≠ b := by
      rintro rfl
      exact hb (by simp)
    obtain ⟨x, hx⟩ : ∃ x, (xs ++ [l]).head? = some x := by cases xs <;> simp
    have hlen : xs.length < NBUF + 1 := by
      have hle := h.nodup.length_le_card
      rw [Fintype.card_fin, List.length_append, List.length_singleton] at hle
      omega
    have hq : s.ideQueue = some x := h.head.trans hx
    refine ⟨s.ideQueue, update (update s.qnext b none) l (some b), ?_, ?_, ?_, hd⟩
    · simp only [hq, ideLast_eq hchain hx hlen, ok_bind]
      rfl
    · rw [List.head?_append, hx, hq]
      rfl
    · rw [seg_concat]
      refine ⟨hchain.update_last h.nodup _, ?_⟩
      dsimp only
      rw [update_of_ne hbl.symm, update_self]

/-- A request that `ide_rw` accepts: it is last in the queue, and first at the disk if the
queue was empty. -/
theorem ideRw (h : Queued s qs) (hb : b ∉ qs) (hr : s.ideRw b = .ok s') :
    ((s.buf b).valid = true → (s.buf b).dirty = true) ∧
      ∃ q qnext, s' = { s with
        ideQueue := q
        qnext := qnext
        cmd := if qs = [] then some (Bio.request (s.buf b)) else s.cmd
        started := if qs = [] then s.started ++ [b] else s.started } ∧ Queued s' (qs ++ [b]) := by
  unfold Bio.ideRw at hr
  split_ifs at hr with h₁ h₂ h₃
  refine ⟨by simpa using h₂, ?_⟩
  obtain ⟨q, qnext, ha, hq⟩ := h.append hb
  rw [ha, ok_bind] at hr
  refine ⟨q, qnext, ?_⟩
  have hhead : q = (qs ++ [b]).head? := hq.head
  cases qs with
  | nil =>
    have hqb : q = some b := hhead
    simp only [hqb, if_true] at hr ⊢
    rw [← Except.ok.inj hr]
    rw [hqb] at hq
    exact ⟨rfl, ⟨hq.head, hq.chain, hq.nodup⟩⟩
  | cons x qs =>
    have hqx : q = some x := hhead
    have hxb : x ≠ b := by
      rintro rfl
      exact hb List.mem_cons_self
    simp only [hqx, Option.some.injEq, hxb, if_false, reduceCtorEq] at hr ⊢
    rw [← Except.ok.inj hr]
    rw [hqx] at hq
    exact ⟨rfl, hq⟩

/-- What the handler stores to the buffer of the request that is done. -/
def finished (x : Buf D) (sectorData : Option D) : Buf D :=
  { x with
    data := if x.dirty then x.data else sectorData.getD x.data
    valid := true
    dirty := false }

theorem ideIntr_nil (h : Queued s []) : s.ideIntr = { s with disk := s.perform.2 } := by
  have hq : s.ideQueue = none := h.head
  unfold Bio.ideIntr Bio.ideIntrWith
  simp [hq]

theorem ideIntr_cons (h : Queued s (b :: qs)) : s.ideIntr = { s with
    buf := update s.buf b (finished (s.buf b) s.perform.1)
    ideQueue := qs.head?
    cmd := qs.head?.map fun b' => Bio.request (s.buf b')
    started := s.started ++ qs.head?.toList
    disk := s.perform.2 } := by
  have hq : s.ideQueue = some b := h.head
  have hn : s.qnext b = qs.head? := by simpa using h.chain.1
  have hne : ∀ b', qs.head? = some b' → b' ≠ b := by
    rintro b' hb' rfl
    exact (List.nodup_cons.mp h.nodup).1 (List.mem_of_head? hb')
  unfold Bio.ideIntr Bio.ideIntrWith
  simp only [hq, hn, Bio.setBuf, Bool.or_false]
  cases hh : qs.head? with
  | none =>
    simp only [Option.toList_none, List.append_nil]
    rfl
  | some b' =>
    simp only [Bio.ideStartRequest, update_of_ne (hne b' hh)]
    rfl

theorem ideIntr (h : Queued s (b :: qs)) : Queued s.ideIntr qs := by
  rw [h.ideIntr_cons]
  exact ⟨rfl, h.chain.2, (List.nodup_cons.mp h.nodup).2⟩

end Queued

end Xv6Shed
