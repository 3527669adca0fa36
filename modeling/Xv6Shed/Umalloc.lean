import Xv6Shed.Bytes
import Xv6Shed.Kalloc

/-!
# The allocator of user programs

`umalloc.c`. Pointers and `uint`s are numbers below `2 ^ 32`, and a header is eight bytes of the
program's memory: `s.ptr` and then `s.size`, which counts headers. The loops have a bound on their
rounds; `none` says that it was not enough.
-/

namespace Xv6Shed
open Bytes

namespace Header

/-- `p->s.ptr` -/
def ptr (m : Buffer) (p : ℕ) : ℕ := (get32 m p).toNat

/-- `p->s.size` -/
def size (m : Buffer) (p : ℕ) : ℕ := (get32 m (p + 4)).toNat

/-- `p->s.ptr = v` -/
def setPtr (m : Buffer) (p v : ℕ) : Buffer := put32 m p (UInt32.ofNat v)

/-- `p->s.size = n` -/
def setSize (m : Buffer) (p n : ℕ) : Buffer := put32 m (p + 4) (UInt32.ofNat n)

/-- `p + n` -/
def plus (p n : ℕ) : ℕ := (p + 8 * n) % 2 ^ 32

/-- `(Header*) ap - 1` -/
def ofArea (ap : ℕ) : ℕ := (ap + (2 ^ 32 - 8)) % 2 ^ 32

end Header

open Header

/-- A program's memory, its break, and `freep` -/
structure UserHeap where
  mem : Buffer
  brk : ℕ
  freep : ℕ

/-- What `sbrk(k)` does to memory and break: `none` is a result of -1. -/
abbrev Sbrk : Type := ℤ → Buffer → ℕ → Option (ℕ × Buffer × ℕ)

namespace UserHeap

/-- The search loop of `free`, from `p` on -/
def freeLoop (m : Buffer) (bp : ℕ) : ℕ → ℕ → Option ℕ
  | 0, _ => none
  | fuel + 1, p =>
    if bp > p ∧ bp < ptr m p then some p
    else if p ≥ ptr m p ∧ (bp > p ∨ bp < ptr m p) then some p
    else freeLoop m bp fuel (ptr m p)

/-- `free`: the block is joined to the free block after `p`, or linked to it. -/
def joinUpper (m : Buffer) (bp p : ℕ) : Buffer :=
  if plus bp (size m bp) = ptr m p then
    let m := setSize m bp ((size m bp + size m (ptr m p)) % 2 ^ 32)
    setPtr m bp (ptr m (ptr m p))
  else setPtr m bp (ptr m p)

/-- `free`: the block is joined to `p`, or `p` is linked to it. -/
def joinLower (m : Buffer) (bp p : ℕ) : Buffer :=
  if plus p (size m p) = bp then
    let m := setSize m p ((size m p + size m bp) % 2 ^ 32)
    setPtr m p (ptr m bp)
  else setPtr m p bp

def free (fuel ap : ℕ) (h : UserHeap) : Option UserHeap := do
  let bp := ofArea ap
  let p ← freeLoop h.mem bp fuel h.freep
  let mem := joinUpper h.mem bp p
  pure { h with mem := joinLower mem bp p, freep := p }

/-- The `int` with the bits of a `uint` -/
def toInt (x : ℕ) : ℤ := if x < 2 ^ 31 then x else x - 2 ^ 32

/-- `morecore(nu)`; 0 is the null pointer -/
def morecore (sbrk : Sbrk) (fuel nu : ℕ) (h : UserHeap) : Option (ℕ × UserHeap) :=
  let nu := if nu < PAGE then PAGE else nu
  match sbrk (toInt (nu * 8 % 2 ^ 32)) h.mem h.brk with
  | none => some (0, h)
  | some (hp, mem, brk) => do
    let h ← free fuel (plus hp 1) ⟨setSize mem hp nu, brk, h.freep⟩
    pure (h.freep, h)

/-- `malloc` has found a block that is large enough: it is unlinked, or its tail is cut off. -/
def take (nunits prevp p : ℕ) (h : UserHeap) : ℕ × UserHeap :=
  if size h.mem p = nunits then
    (plus p 1, { h with mem := setPtr h.mem prevp (ptr h.mem p), freep := prevp })
  else
    let mem := setSize h.mem p (size h.mem p - nunits)
    let p := plus p (size mem p)
    (plus p 1, { h with mem := setSize mem p nunits, freep := prevp })

/-- The loop of `malloc` with its two pointers -/
def mallocLoop (sbrk : Sbrk) (nunits : ℕ) : ℕ → ℕ → ℕ → UserHeap → Option (ℕ × UserHeap)
  | 0, _, _, _ => none
  | fuel + 1, prevp, p, h =>
    if size h.mem p ≥ nunits then some (h.take nunits prevp p)
    else if p = h.freep then do
      let (p, h) ← morecore sbrk fuel nunits h
      if p = 0 then some (0, h)
      else mallocLoop sbrk nunits fuel p (ptr h.mem p) h
    else mallocLoop sbrk nunits fuel p (ptr h.mem p) h

/-- `(nbytes + sizeof(Header) - 1)/sizeof(Header) + 1` -/
def units (nbytes : ℕ) : ℕ := (nbytes + 7) % 2 ^ 32 / 8 + 1

/-- The first part of `malloc`: the list of free blocks is `base` alone if there is none yet. -/
def init (base : ℕ) (h : UserHeap) : UserHeap :=
  if h.freep = 0 then { h with mem := setSize (setPtr h.mem base base) base 0, freep := base }
  else h

/-- `malloc(nbytes)`, with `base` at an address; 0 is the null pointer -/
def malloc (sbrk : Sbrk) (base fuel nbytes : ℕ) (h : UserHeap) : Option (ℕ × UserHeap) :=
  let h := h.init base
  mallocLoop sbrk (units nbytes) fuel h.freep (ptr h.mem h.freep) h

end UserHeap

namespace Header

variable {m : Buffer} {p q v n : ℕ}

/-- Headers that share no byte -/
def Far (p q : ℕ) : Prop := p + 8 ≤ q ∨ q + 8 ≤ p

theorem Far.symm (h : Far p q) : Far q p := Or.symm h

theorem toNat_ofNat_of_lt (h : v < 2 ^ 32) : (UInt32.ofNat v).toNat = v := by
  rw [UInt32.toNat_ofNat']
  exact Nat.mod_eq_of_lt h

theorem ptr_setPtr (m : Buffer) (p : ℕ) (h : v < 2 ^ 32) : ptr (setPtr m p v) p = v := by
  unfold ptr setPtr
  rw [get32_put32, toNat_ofNat_of_lt h]

theorem size_setSize (m : Buffer) (p : ℕ) (h : n < 2 ^ 32) : size (setSize m p n) p = n := by
  unfold size setSize
  rw [get32_put32, toNat_ofNat_of_lt h]

theorem ptr_setPtr_of_far (h : Far p q) : ptr (setPtr m p v) q = ptr m q := by
  unfold Far at h
  unfold ptr setPtr
  rw [get32_put32_of_ne (by omega)]

theorem size_setPtr (h : q = p ∨ Far p q) : size (setPtr m p v) q = size m q := by
  unfold Far at h
  unfold size setPtr
  rw [get32_put32_of_ne (by omega)]

theorem ptr_setSize (h : q = p ∨ Far p q) : ptr (setSize m p n) q = ptr m q := by
  unfold Far at h
  unfold ptr setSize
  rw [get32_put32_of_ne (by omega)]

theorem ptr_lt (m : Buffer) (p : ℕ) : ptr m p < 2 ^ 32 := (get32 m p).toNat_lt

end Header

end Xv6Shed
