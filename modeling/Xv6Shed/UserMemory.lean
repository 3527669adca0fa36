import Xv6Shed.Bytes
import Xv6Shed.Kalloc
import Xv6Shed.Ram

/-!
# A process's memory

The memory of the current process is one block of physical memory at `cp->mem`, `cp->sz`
bytes long. The fetching of system call arguments of `syscall.c`, and `growproc`.
-/

namespace Xv6Shed
open Bytes Xv6Shed.Interval Ram

theorem toInt_add_toUInt32 (x : UInt32) (n : Int32) :
    (x + n.toUInt32).toInt32.toInt = ((x.toNat : ℤ) + n.toInt).bmod (2 ^ 32) := by
  have h : (x + n.toUInt32).toInt32.toInt = (x.toBitVec + n.toBitVec).toInt := rfl
  rw [h, BitVec.toInt_add, BitVec.toInt_eq_toNat_bmod x.toBitVec, Int.bmod_add_bmod]
  rfl

theorem toInt_toInt32_of_lt {x : UInt32} (h : x.toNat < 2 ^ 31) : x.toInt32.toInt = x.toNat := by
  have hx : x.toInt32.toInt = x.toBitVec.toInt := rfl
  rw [hx, BitVec.toInt_eq_toNat_of_lt]
  · rfl
  · change 2 * x.toNat < 2 ^ 32
    omega

/-- The page allocator's free list, memory, and the fields of the current process. -/
structure Space where
  free : List Interval
  ram : Ram
  /-- `cp->mem` -/
  mem : UInt32
  /-- `cp->sz` -/
  sz : UInt32
  /-- `cp->tf->esp` -/
  esp : UInt32
  /-- base and limit of the user segments -/
  seg : UInt32 × UInt32

namespace Space

/-- The byte at a user address. -/
def user (s : Space) : Buffer := fun k => s.ram.bytes (s.mem + UInt32.ofNat k)

/-- `fetchint(cp, addr, &i)` -/
def fetchint (addr : UInt32) (s : Space) : Option Int32 :=
  if addr ≥ s.sz ∨ addr + 4 > s.sz then none else some (get32 s.user addr.toNat).toInt32

/-- `argint(n, &i)` -/
def argint (n : UInt32) (s : Space) : Option Int32 := s.fetchint (s.esp + 4 + 4 * n)

/-- `fetchstr(cp, addr, &s)`: the pointer, and the length of the string -/
def fetchstr (addr : UInt32) (s : Space) : Option (UInt32 × ℕ) :=
  if addr ≥ s.sz then none
  else
    (Bytes.first (fun k => s.user (addr.toNat + k) == 0) (s.sz - addr).toNat 0).map
      (s.mem + addr, ·)

/-- `argstr(n, &s)` -/
def argstr (n : UInt32) (s : Space) : Option (UInt32 × ℕ) :=
  match s.argint n with
  | none => none
  | some addr => s.fetchstr addr.toUInt32

/-- `setupsegs(cp)`, the user segments -/
def setupsegs (s : Space) : Space := { s with seg := (s.mem, s.sz - 1) }

def growproc (n : Int32) (s : Space) : Except Fault (Int32 × Space) := do
  let (newmem, fl) ← kalloc (s.sz + n.toUInt32).toInt32.toInt s.free
  match newmem with
  | none => pure (-1, { s with free := fl })
  | some v =>
    let newmem := UInt32.ofNat v
    let ram := s.ram.memmove newmem s.mem s.sz
    let ram := ram.memset (newmem + s.sz) 0 n.toUInt32.toNat
    let fl ← kfree s.mem.toNat s.sz.toInt32.toInt fl
    -- kfree fills the block with junk
    let ram := ram.memset s.mem 1 s.sz.toNat
    let s := { s with free := fl, ram := ram, mem := newmem, sz := s.sz + n.toUInt32 }
    pure ((s.sz - n.toUInt32).toInt32, s.setupsegs)

def sysSbrk (s : Space) : Except Fault (Int32 × Space) :=
  match s.argint 0 with
  | none => pure (-1, s)
  | some n => do
    let (addr, s) ← s.growproc n
    if addr < 0 then pure (-1, s) else pure (addr, s)

end Space

end Xv6Shed
