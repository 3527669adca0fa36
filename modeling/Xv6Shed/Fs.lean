import Xv6Shed.Layout
import Xv6Shed.Rq

/-!
# The file system

`fs.c`, for system calls that run one at a time. `bread` and `bwrite` are reads and stores of
sectors; an inode is locked by its flag, and to lock one that is locked would be to wait for
ever. Block and inode numbers are natural numbers (`int b` in `balloc` counts blocks of a disk
with fewer than 2^31). What a device driver answers is given to `readi` and `writei`.
-/

namespace Xv6Shed
open Function Bytes

/-- `struct inode`, with its copy of the disk inode -/
structure Inode where
  dev : ℕ
  inum : ℕ
  ref : ℤ
  busy : Bool
  valid : Bool
  d : Dinode

/-- The disks and `icache` -/
structure Fs (NINODE : ℕ) where
  disk : ℕ → Disk
  icache : Fin NINODE → Inode

variable {NINODE : ℕ}

namespace Fs

@[simps] def setDisk (dev : ℕ) (x : Disk) (s : Fs NINODE) : Fs NINODE :=
  { s with disk := update s.disk dev x }

@[simps] def setInode (ip : Fin NINODE) (x : Inode) (s : Fs NINODE) : Fs NINODE :=
  { s with icache := update s.icache ip x }

theorem setInode_setInode (ip : Fin NINODE) (x y : Inode) (s : Fs NINODE) :
    (s.setInode ip x).setInode ip y = s.setInode ip y := by
  simp only [setInode, update_idem]

@[simps!] def setCopy (ip : Fin NINODE) (d : Dinode) (s : Fs NINODE) : Fs NINODE :=
  s.setInode ip { s.icache ip with d := d }

/-- `bwrite` of block `b` with data `x` -/
@[simps!] def bwrite (dev b : ℕ) (x : Buffer) (s : Fs NINODE) : Fs NINODE :=
  s.setDisk dev (update (s.disk dev) b x)

/-- `balloc`; the bitmap is searched to the end of its last block. -/
def balloc (dev : ℕ) (s : Fs NINODE) : Except Fault (ℕ × Fs NINODE) :=
  let sb := readsb (s.disk dev)
  match Bytes.first (fun b => !marked sb (s.disk dev) b) (4096 * ((sb.size + 4095) / 4096)) 0 with
  | some b => pure (b, s.setDisk dev (mark sb (s.disk dev) b))
  | none => .error (.panic "balloc: out of blocks")

def bfree (dev b : ℕ) (s : Fs NINODE) : Except Fault (Fs NINODE) :=
  let s := s.bwrite dev b zeros
  let sb := readsb (s.disk dev)
  if marked sb (s.disk dev) b = false then .error (.panic "freeing free block")
  else pure (s.setDisk dev (unmark sb (s.disk dev) b))

def iget (dev inum : ℕ) (s : Fs NINODE) : Except Fault (Fin NINODE × Fs NINODE) :=
  -- Try for cached inode.
  match (List.finRange NINODE).find? fun ip =>
    0 < (s.icache ip).ref ∧ (s.icache ip).dev = dev ∧ (s.icache ip).inum = inum with
  | some ip => pure (ip, s.setInode ip { s.icache ip with ref := (s.icache ip).ref + 1 })
  | none =>
    -- Allocate fresh inode.
    match (List.finRange NINODE).find? fun ip => (s.icache ip).ref = 0 with
    | none => .error (.panic "iget: no inodes")
    | some ip => pure (ip, s.setInode ip { s.icache ip with
        dev := dev, inum := inum, ref := 1, busy := false, valid := false })

def idup (ip : Fin NINODE) (s : Fs NINODE) : Fs NINODE :=
  s.setInode ip { s.icache ip with ref := (s.icache ip).ref + 1 }

def ilock (ip : Fin NINODE) (s : Fs NINODE) : Except Fault (Fs NINODE) :=
  let x := s.icache ip
  if x.ref < 1 then .error (.panic "ilock")
  else if x.busy = true then .error .hang
  else if x.valid = true then pure (s.setInode ip { x with busy := true })
  else
    let d := dinode (s.disk x.dev) x.inum
    if d.type = 0 then .error (.panic "ilock: no type")
    else pure (s.setInode ip { x with busy := true, valid := true, d := d })

def iunlock (ip : Fin NINODE) (s : Fs NINODE) : Except Fault (Fs NINODE) :=
  let x := s.icache ip
  if x.busy = false ∨ x.ref < 1 then .error (.panic "iunlock")
  else pure (s.setInode ip { x with busy := false })

def iupdate (ip : Fin NINODE) (s : Fs NINODE) : Fs NINODE :=
  let x := s.icache ip
  s.setDisk x.dev (setDinode (s.disk x.dev) x.inum x.d)

/-- Store to `ip->addrs[j]`. -/
def setAddr (ip : Fin NINODE) (j : Fin 13) (a : UInt32) (s : Fs NINODE) : Fs NINODE :=
  s.setCopy ip ((s.icache ip).d.setAddr j a)

/-- One round of the first loop of `itrunc`. -/
def truncDirect (ip : Fin NINODE) (s : Fs NINODE) (j : ℕ) : Except Fault (Fs NINODE) :=
  let x := s.icache ip
  let a := x.d.addrs (Fin.ofNat 13 j)
  if a = 0 then pure s
  else do
    let s ← s.bfree x.dev a.toNat
    pure (s.setAddr ip (Fin.ofNat 13 j) 0)

/-- One round of the second loop, with `a` the indirect block. -/
def truncEntry (dev : ℕ) (a : Buffer) (s : Fs NINODE) (j : ℕ) : Except Fault (Fs NINODE) :=
  if entry a j = 0 then pure s else s.bfree dev (entry a j).toNat

def itrunc (ip : Fin NINODE) (s : Fs NINODE) : Except Fault (Fs NINODE) := do
  let s ← (List.range 12).foldlM (truncDirect ip) s
  let x := s.icache ip
  let s ←
    if x.d.addrs 12 = 0 then pure s
    else do
      let a := s.disk x.dev (x.d.addrs 12).toNat
      let s ← (List.range 128).foldlM (truncEntry x.dev a) s
      pure (s.setAddr ip 12 0)
  let s := s.setCopy ip { (s.icache ip).d with size := 0 }
  pure (s.iupdate ip)

/-- `iput`, when the inode is no longer used: truncate and free inode. -/
def ifree (ip : Fin NINODE) (s : Fs NINODE) : Except Fault (Fs NINODE) :=
  if (s.icache ip).busy = true then .error (.panic "iput busy")
  else do
    let s ← itrunc ip (s.setInode ip { s.icache ip with busy := true })
    let s := s.setCopy ip { (s.icache ip).d with type := 0 }
    let s := s.iupdate ip
    pure (s.setInode ip { s.icache ip with busy := false })

def iput (ip : Fin NINODE) (s : Fs NINODE) : Except Fault (Fs NINODE) := do
  let x := s.icache ip
  let s ← if x.ref = 1 ∧ x.valid = true ∧ x.d.nlink = 0 then s.ifree ip else pure s
  pure (s.setInode ip { s.icache ip with ref := (s.icache ip).ref - 1 })

def iunlockput (ip : Fin NINODE) (s : Fs NINODE) : Except Fault (Fs NINODE) := do
  (← s.iunlock ip).iput ip

def ialloc (dev : ℕ) (type : UInt16) (s : Fs NINODE) : Except Fault (Fin NINODE × Fs NINODE) :=
  match Bytes.first (fun i => (dinode (s.disk dev) i).type == 0)
      ((readsb (s.disk dev)).ninodes - 1) 1 with
  | none => .error (.panic "ialloc: no inodes")
  | some inum =>
    (s.setDisk dev (setDinode (s.disk dev) inum { Dinode.zero with type := type })).iget dev inum

/-- `-1` as an unsigned number: what `bmap` returns for a block that is not there -/
def unmapped : ℕ := 2 ^ 32 - 1

/-- Load indirect block, allocating if necessary. -/
def loadIndirect (ip : Fin NINODE) (s : Fs NINODE) : Except Fault (Fs NINODE) :=
  if (s.icache ip).d.addrs 12 = 0 then do
    let (b, s) ← s.balloc (s.icache ip).dev
    pure (s.setAddr ip 12 (UInt32.ofNat b))
  else pure s

def bmap (alloc : Bool) (ip : Fin NINODE) (bn : ℕ) (s : Fs NINODE) :
    Except Fault (ℕ × Fs NINODE) :=
  let x := s.icache ip
  if bn < 12 then
    let a := x.d.addrs (Fin.ofNat 13 bn)
    if a ≠ 0 then pure (a.toNat, s)
    else if alloc = false then pure (unmapped, s)
    else do
      let (b, s) ← s.balloc x.dev
      pure ((UInt32.ofNat b).toNat, s.setAddr ip (Fin.ofNat 13 bn) (UInt32.ofNat b))
  else if bn - 12 < 128 then
    if x.d.addrs 12 = 0 ∧ alloc = false then pure (unmapped, s)
    else do
      let s ← s.loadIndirect ip
      let addr := ((s.icache ip).d.addrs 12).toNat
      let a := s.disk x.dev addr
      if entry a (bn - 12) ≠ 0 then pure ((entry a (bn - 12)).toNat, s)
      else if alloc = false then pure (unmapped, s)
      else do
        let (b, s) ← s.balloc x.dev
        pure ((UInt32.ofNat b).toNat,
          s.bwrite x.dev addr (put32 a (4 * (bn - 12)) (UInt32.ofNat b)))
  else .error (.panic "bmap: out of range")

/-- The loop of `readi`, for `n` bytes from `off` on. -/
def readLoop (ip : Fin NINODE) (s : Fs NINODE) : ℕ → ℕ → ℕ → Except Fault Buffer
  | 0, _, _ => .error .hang
  | fuel + 1, off, n =>
    if n = 0 then pure zeros
    else do
      let (b, _) ← s.bmap false ip (off / 512)
      let m := min n (512 - off % 512)
      let rest ← readLoop ip s fuel (off + m) (n - m)
      pure fun i => if i < m then s.disk (s.icache ip).dev b (off % 512 + i) else rest (i - m)

/-- `readi`, with the bytes that are stored at `dst`; `driver` is what a device answers. -/
def readi (driver : ℤ) (ip : Fin NINODE) (off n : ℕ) (s : Fs NINODE) :
    Except Fault (ℤ × Buffer) :=
  let size := (s.icache ip).d.size.toNat
  if (s.icache ip).d.type = T_DEV then pure (driver, zeros)
  else if size < off ∨ (off + n) % 2 ^ 32 < off then pure (-1, zeros)
  else do
    let n := if size < off + n then size - off else n
    let dst ← s.readLoop ip (n + 1) off n
    pure (n, dst)

/-- The loop of `writei`; it returns the offset it has reached. -/
def writeLoop (ip : Fin NINODE) : ℕ → Buffer → ℕ → ℕ → Fs NINODE → Except Fault (ℕ × Fs NINODE)
  | 0, _, _, _, _ => .error .hang
  | fuel + 1, src, off, n, s =>
    if n = 0 then pure (off, s)
    else do
      let (b, s) ← s.bmap true ip (off / 512)
      let m := min n (512 - off % 512)
      let dev := (s.icache ip).dev
      let s := s.bwrite dev b (patch (s.disk dev b) (off % 512) m src)
      writeLoop ip fuel (fun i => src (i + m)) (off + m) (n - m) s

def writei (driver : ℤ) (ip : Fin NINODE) (src : Buffer) (off n : ℕ) (s : Fs NINODE) :
    Except Fault (ℤ × Fs NINODE) :=
  if (s.icache ip).d.type = T_DEV then pure (driver, s)
  else if (off + n) % 2 ^ 32 < off then pure (-1, s)
  else do
    let n := if 140 * 512 < off + n then (140 * 512 + 2 ^ 32 - off) % 2 ^ 32 else n
    let (off, s) ← writeLoop ip (n + 1) src off n s
    let d := (s.icache ip).d
    if 0 < n ∧ d.size.toNat < off then
      pure (n, (s.setCopy ip { d with size := UInt32.ofNat off }).iupdate ip)
    else pure (n, s)

/-- The loop of `dirlookup`, from offset `off` on, with `n` blocks left: the offset and the
inode number of the first entry that matches. `namecmp` compares strings cut at `DIRSIZ`. -/
def dirScan (dp : Fin NINODE) (name : List UInt8) (s : Fs NINODE) :
    ℕ → ℕ → Except Fault (Option (ℕ × ℕ))
  | 0, _ => pure none
  | n + 1, off => do
    let (b, _) ← s.bmap false dp (off / 512)
    let de := fun k => Dirent.load (s.disk (s.icache dp).dev b) (16 * k)
    match Bytes.first (fun k => (de k).inum != 0 && (de k).name == name) 32 0 with
    | some k => pure (some (off + 16 * k, (de k).inum.toNat))
    | none => dirScan dp name s n (off + 512)

/-- `dirlookup`: the inode, and the offset stored at `poff` -/
def dirlookup (dp : Fin NINODE) (name : List UInt8) (s : Fs NINODE) :
    Except Fault (Option (Fin NINODE × ℕ) × Fs NINODE) :=
  let x := s.icache dp
  if x.d.type ≠ T_DIR then .error (.panic "dirlookup not DIR")
  else do
    match ← s.dirScan dp name ((x.d.size.toNat + 511) / 512) 0 with
    | none => pure (none, s)
    | some (off, inum) =>
      let (ip, s) ← s.iget x.dev inum
      pure (some (ip, off), s)

/-- Look for an empty dirent, from offset `off` on, with `n` entries left. -/
def dirEmpty (dp : Fin NINODE) (s : Fs NINODE) : ℕ → ℕ → Except Fault ℕ
  | 0, off => pure off
  | n + 1, off => do
    let (r, de) ← s.readi (-1) dp off 16
    if r ≠ 16 then .error (.panic "dirlink read")
    else if (Dirent.load de 0).inum = 0 then pure off
    else dirEmpty dp s n (off + 16)

def dirlink (dp : Fin NINODE) (name : List UInt8) (ino : ℕ) (s : Fs NINODE) :
    Except Fault (ℤ × Fs NINODE) := do
  match ← s.dirlookup dp name with
  | (some (ip, _), s) => pure (-1, ← s.iput ip)
  | (none, s) =>
    let off ← s.dirEmpty dp (((s.icache dp).d.size.toNat + 15) / 16) 0
    let (r, s) ← s.writei (-1) dp (Dirent.bytes ⟨UInt16.ofNat ino, name⟩) off 16
    if r ≠ 16 then .error (.panic "dirlink") else pure (0, s)

/-- `'/'` -/
def slash : UInt8 := 47

/-- A path ends with its bytes or at a zero byte. -/
def atEnd (path : List UInt8) : Bool := path.headD 0 == 0

/-- `skipelem`: the path that is left, and the name -/
def skipelem (path : List UInt8) : Option (List UInt8 × List UInt8) :=
  let path := path.dropWhile (· == slash)
  if atEnd path then none
  else
    let elem := path.takeWhile fun c => c != slash && c != 0
    some ((path.drop elem.length).dropWhile (· == slash), elem.take 14)

/-- The loop of `_namei`, which each time leaves a shorter path. -/
def nameiLoop (parent : Bool) : ℕ → Fin NINODE → List UInt8 → Fs NINODE →
    Except Fault (Option (Fin NINODE × List UInt8) × Fs NINODE)
  | 0, _, _, _ => .error .hang
  | fuel + 1, ip, path, s =>
    match skipelem path with
    | none =>
      if parent = true then do pure (none, ← s.iput ip)
      else pure (some (ip, []), s)
    | some (path, name) => do
      let s ← s.ilock ip
      if (s.icache ip).d.type ≠ T_DIR then pure (none, ← s.iunlockput ip)
      else if parent = true ∧ atEnd path = true then
        -- Stop one level early.
        pure (some (ip, name), ← s.iunlock ip)
      else
        match ← s.dirlookup ip name with
        | (none, s) => pure (none, ← s.iunlockput ip)
        | (some (next, _), s) => nameiLoop parent fuel next path (← s.iunlockput ip)

/-- `_namei`; `ROOTDEV` is 1. -/
def nameiFrom (parent : Bool) (cwd : Option (Fin NINODE)) (path : List UInt8) (s : Fs NINODE) :
    Except Fault (Option (Fin NINODE × List UInt8) × Fs NINODE) :=
  if path.headD 0 = slash then do
    let (ip, s) ← s.iget 1 1
    nameiLoop parent (path.length + 1) ip path s
  else do
    let ip ← deref cwd
    nameiLoop parent (path.length + 1) ip path (s.idup ip)

def namei (cwd : Option (Fin NINODE)) (path : List UInt8) (s : Fs NINODE) :
    Except Fault (Option (Fin NINODE) × Fs NINODE) := do
  let (r, s) ← s.nameiFrom false cwd path
  pure (r.map Prod.fst, s)

/-- `nameiparent`, with the final path element -/
def nameiparent (cwd : Option (Fin NINODE)) (path : List UInt8) (s : Fs NINODE) :
    Except Fault (Option (Fin NINODE × List UInt8) × Fs NINODE) :=
  s.nameiFrom true cwd path

end Fs

end Xv6Shed
