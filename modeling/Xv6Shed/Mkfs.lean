import Xv6Shed.Layout

/-!
# mkfs

`mkfs.c`, which writes a file system image. A failed assertion, a sector that cannot be read and
`exit(1)` are `none`. `xint` and `xshort` store numbers as the kernel reads them, as `Dinode.store`
and `Dirent.bytes` do. Block and inode numbers are natural numbers; none comes near `2^32`.
-/

namespace Xv6Shed
open Function Bytes

/-- The image and the counters of the program -/
structure Mkfs where
  disk : Disk
  freeinode : ℕ
  freeblock : ℕ
  usedblocks : ℕ

/-- An input file: its name on the command line and the bytes that each `read` into `buf` gives,
as long as it gives any -/
structure InputFile where
  arg : List UInt8
  reads : List (List UInt8)
  no_zero : 0 ∉ arg
  ne_nil : ∀ l ∈ reads, l ≠ []
  length_le : ∀ l ∈ reads, l.length ≤ 512

namespace InputFile

def bytes (f : InputFile) : List UInt8 := f.reads.flatten

/-- Skip leading _ in name when writing to file system. -/
def name (f : InputFile) : List UInt8 := if f.arg.head? = some 95 then f.arg.tail else f.arg

end InputFile

namespace Mkfs

def wsect (sec : ℕ) (buf : Buffer) (m : Mkfs) : Mkfs := { m with disk := update m.disk sec buf }

/-- `rsect`; the image has 1024 sectors. -/
def rsect (sec : ℕ) (m : Mkfs) : Option Buffer := if sec < 1024 then some (m.disk sec) else none

def i2b (inum : ℕ) : ℕ := inum / 8 + 2

def winode (inum : ℕ) (d : Dinode) (m : Mkfs) : Option Mkfs := do
  let buf ← m.rsect (i2b inum)
  some (m.wsect (i2b inum) (d.store buf (64 * (inum % 8))))

def rinode (inum : ℕ) (m : Mkfs) : Option Dinode := do
  let buf ← m.rsect (i2b inum)
  some (.load buf (64 * (inum % 8)))

def ialloc (type : UInt16) (m : Mkfs) : Option (ℕ × Mkfs) := do
  let inum := m.freeinode
  let m ← { m with freeinode := inum + 1 }.winode inum { Dinode.zero with type := type, nlink := 1 }
  some (inum, m)

/-- `freeblock++`, with `usedblocks++` -/
def takeBlock (m : Mkfs) : Mkfs :=
  { m with freeblock := m.freeblock + 1, usedblocks := m.usedblocks + 1 }

/-- The block of `iappend` for block `fbn` of the file, which may be new -/
def block (fbn : ℕ) (din : Dinode) (m : Mkfs) : Option (ℕ × Dinode × Mkfs) :=
  if fbn < 12 then
    if din.addrs (Fin.ofNat 13 fbn) = 0 then
      let din := din.setAddr (Fin.ofNat 13 fbn) (UInt32.ofNat m.freeblock)
      some ((din.addrs (Fin.ofNat 13 fbn)).toNat, din, m.takeBlock)
    else some ((din.addrs (Fin.ofNat 13 fbn)).toNat, din, m)
  else do
    let (din, m) :=
      if din.addrs 12 = 0 then (din.setAddr 12 (UInt32.ofNat m.freeblock), m.takeBlock)
      else (din, m)
    -- read indirect block
    let indirect ← m.rsect (din.addrs 12).toNat
    if entry indirect (fbn - 12) = 0 then
      let x := UInt32.ofNat m.freeblock
      some (x.toNat, din,
        m.takeBlock.wsect (din.addrs 12).toNat (put32 indirect (4 * (fbn - 12)) x))
    else some ((entry indirect (fbn - 12)).toNat, din, m)

/-- The loop of `iappend`, for `n` bytes at `p`, with the inode in memory -/
def iappendLoop : ℕ → Buffer → ℕ → ℕ → Dinode → Mkfs → Option (ℕ × Dinode × Mkfs)
  | 0, _, _, _, _, _ => none
  | fuel + 1, p, off, n, din, m =>
    if n = 0 then some (off, din, m)
    else if off / 512 < 140 then do
      let (x, din, m) ← m.block (off / 512) din
      let n1 := min n (512 - off % 512)
      let buf ← m.rsect x
      iappendLoop fuel (fun i => p (i + n1)) (off + n1) (n - n1) din
        (m.wsect x (patch buf (off % 512) n1 p))
    else none

/-- `iappend` of the `n` bytes at `p` -/
def iappend (inum : ℕ) (p : Buffer) (n : ℕ) (m : Mkfs) : Option Mkfs := do
  let din ← m.rinode inum
  let (off, din, m) ← iappendLoop (n + 1) p din.size.toNat n din m
  m.winode inum { din with size := UInt32.ofNat off }

def ofList (l : List UInt8) : Buffer := fun i => l.getD i 0

/-- The bitmap that `balloc` writes, with `used` bits set -/
def bitmap : ℕ → Buffer
  | 0 => zeros
  | used + 1 => setBit (bitmap used) used

def balloc (used : ℕ) (m : Mkfs) : Option Mkfs :=
  if used < 512 then some (m.wsect 28 (bitmap used)) else none

/-- One round of the loop over the files -/
def addFile (m : Mkfs) (f : InputFile) : Option Mkfs :=
  if 47 ∈ f.arg then none
  else do
    let (inum, m) ← m.ialloc T_FILE
    let m ← m.iappend 1 (Dirent.bytes ⟨UInt16.ofNat inum, f.name⟩) 16
    f.reads.foldlM (fun m l => m.iappend inum (ofList l) l.length) m

/-- The image before the first inode: zeroes and the super block, with what follows `sb` in
memory -/
def blank (rest : Buffer) : Mkfs where
  disk := update (fun _ => zeros) 1
    (patch (patch (patch rest 0 4 (putLE 1024)) 4 4 (putLE 995)) 8 4 (putLE 200))
  freeinode := 1
  freeblock := 29
  usedblocks := 29

/-- The root with `.` and `..` -/
def makeRoot (m : Mkfs) : Option Mkfs := do
  let (rootino, m) ← m.ialloc T_DIR
  if rootino = 1 then do
    let m ← m.iappend rootino (Dirent.bytes ⟨1, [46]⟩) 16
    m.iappend rootino (Dirent.bytes ⟨1, [46, 46]⟩) 16
  else none

/-- `off = ((off/BSIZE) + 1) * BSIZE` -/
def nextBlock (d : Dinode) : Dinode :=
  { d with size := UInt32.ofNat ((d.size.toNat / 512 + 1) * 512) }

/-- fix size of root inode dir -/
def fixRoot (m : Mkfs) : Option Mkfs := do
  let din ← m.rinode 1
  m.winode 1 (nextBlock din)

/-- `main`: the image, if the program runs to completion -/
def main (rest : Buffer) (files : List InputFile) : Option Disk := do
  let m ← (blank rest).makeRoot
  let m ← files.foldlM addFile m
  let m ← m.fixRoot
  let m ← m.balloc m.usedblocks
  some m.disk

end Mkfs

end Xv6Shed
