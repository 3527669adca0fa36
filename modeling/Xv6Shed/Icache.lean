import Xv6Shed.Fs
import Xv6Shed.Transition

/-!
# Concurrent use of the inode cache

`iget`, `ilock`, `iunlock`, `iput`, `ialloc` and `iupdate` as processes run them side by side. A
section under `icache.lock` is one step, and so is each access to an inode block, which the buffer
cache serializes. A process sleeps in `ilock` as long as the inode is busy. A panic is no step.

The accesses to other blocks, those of `itrunc` among them, change no inode; they happen at any
time. `refs`, `owner` and `unwritten` are not in the kernel: they say which processes hold the
references to an inode, which process has set its `I_BUSY`, and whether a store to the inode was
left without `iupdate`.
-/

namespace Xv6Shed
open Function

/-- Where a process is. A process that is `idle` may hold references and locked inodes. `lock` and
`load` are in `ilock`, for an inode from `ialloc` with the type asked for, and `locked` is the
return from such an `ilock`. -/
inductive IPc (NINODE : ℕ) where
  | idle
  | scan (dev : ℕ) (type : UInt16) (ninodes inum : ℕ)
  | found (dev : ℕ) (type : UInt16) (inum : ℕ)
  | lock (ip : Fin NINODE) (want : Option UInt16)
  | load (ip : Fin NINODE) (want : Option UInt16)
  | locked (ip : Fin NINODE) (type : UInt16)
  | update (ip : Fin NINODE)
  | trunc (ip : Fin NINODE)
  | free (ip : Fin NINODE)
  | put (ip : Fin NINODE)
  deriving DecidableEq

/-- The file system and the processes that use it -/
structure Icache (T : Type) (NINODE : ℕ) where
  fs : Fs NINODE
  pc : T → IPc NINODE
  refs : Fin NINODE → List T
  owner : Fin NINODE → Option T
  unwritten : Fin NINODE → Bool

/-- What can happen: a block that holds no inodes changes, a process calls a function, or it goes
on with its call. `change` stores to a locked inode and calls `iupdate`; after `assign` there is
no `iupdate`: `create` stores `ip->nlink = 0` if `dirlink` fails, and `bmap` may fill a hole. -/
inductive ILabel (T : Type) (NINODE : ℕ) where
  | other (dev : ℕ) (disk : Disk)
  | iget (t : T) (dev inum : ℕ)
  | idup (t : T) (ip : Fin NINODE)
  | ialloc (t : T) (dev : ℕ) (type : UInt16)
  | ilock (t : T) (ip : Fin NINODE)
  | change (t : T) (ip : Fin NINODE) (d : Dinode)
  | assign (t : T) (ip : Fin NINODE) (d : Dinode)
  | iunlock (t : T) (ip : Fin NINODE)
  | iput (t : T) (ip : Fin NINODE)
  | run (t : T)

namespace Icache

variable {T : Type} {NINODE : ℕ}

/-- After `iinit` -/
def start (disk : ℕ → Disk) : Icache T NINODE where
  fs := ⟨disk, fun _ => ⟨0, 0, 0, false, false, .zero⟩⟩
  pc _ := .idle
  refs _ := []
  owner _ := none
  unwritten _ := false

/-- The inode that a slot is for -/
def key (s : Icache T NINODE) (ip : Fin NINODE) : ℕ × ℕ :=
  ((s.fs.icache ip).dev, (s.fs.icache ip).inum)

/-- The inode of a slot as the disk has it -/
def onDisk (s : Icache T NINODE) (ip : Fin NINODE) : Dinode :=
  dinode (s.fs.disk (s.fs.icache ip).dev) (s.fs.icache ip).inum

def ninodes (s : Icache T NINODE) (dev : ℕ) : ℕ := (readsb (s.fs.disk dev)).ninodes

/-- Process `t` has marked an inode allocated and has not returned from `ilock` for it. -/
def Making (s : Icache T NINODE) (t : T) (dev inum : ℕ) : Prop :=
  match s.pc t with
  | .found dev' _ inum' => dev' = dev ∧ inum' = inum
  | .lock ip (some _) => s.key ip = (dev, inum)
  | .load ip (some _) => s.key ip = (dev, inum)
  | _ => False

/-- The other parts of the kernel: no inode is in a block that is not an inode block, no directory
names an inode that is being made, and inodes are made with a type. -/
def Allowed (s : Icache T NINODE) : ILabel T NINODE → Prop
  | .other dev disk => readsb disk = readsb (s.fs.disk dev) ∧
      ∀ i < s.ninodes dev, dinode disk i = dinode (s.fs.disk dev) i
  | .iget _ dev inum => inum < s.ninodes dev ∧ ∀ t, ¬s.Making t dev inum
  | .ialloc _ _ type => type ≠ 0
  | _ => True

/-- `ialloc` takes no inode that is still in the cache. -/
def Gone (s : Icache T NINODE) : ILabel T NINODE → Prop
  | .run t =>
    match s.pc t with
    | .scan dev _ _ inum => (dinode (s.fs.disk dev) inum).type = 0 →
      ∀ ip, 0 < (s.fs.icache ip).ref → s.key ip ≠ (dev, inum)
    | _ => True
  | _ => True

variable [DecidableEq T]

def setPc (t : T) (x : IPc NINODE) (s : Icache T NINODE) : Icache T NINODE :=
  { s with pc := update s.pc t x }

/-- `iget` by process `t` -/
def iget (t : T) (dev inum : ℕ) (s : Icache T NINODE) : Option (Fin NINODE × Icache T NINODE) :=
  match s.fs.iget dev inum with
  | .ok (ip, fs) => some (ip, { s with fs, refs := update s.refs ip (t :: s.refs ip) })
  | .error _ => none

/-- `ip->flags |= I_BUSY` -/
def setBusy (t : T) (ip : Fin NINODE) (s : Icache T NINODE) : Icache T NINODE :=
  { s with
    fs := s.fs.setInode ip { s.fs.icache ip with busy := true }
    owner := update s.owner ip (some t) }

/-- `ip->flags &= ~I_BUSY` -/
def clearBusy (ip : Fin NINODE) (s : Icache T NINODE) : Icache T NINODE :=
  { s with
    fs := s.fs.setInode ip { s.fs.icache ip with busy := false }
    owner := update s.owner ip none }

/-- `ip->ref--` -/
def drop (t : T) (ip : Fin NINODE) (s : Icache T NINODE) : Icache T NINODE :=
  { s with
    fs := s.fs.setInode ip { s.fs.icache ip with ref := (s.fs.icache ip).ref - 1 }
    refs := update s.refs ip ((s.refs ip).erase t) }

def iupdate (ip : Fin NINODE) (s : Icache T NINODE) : Icache T NINODE :=
  { s with fs := s.fs.iupdate ip, unwritten := update s.unwritten ip false }

/-- `ilock` reads the inode. -/
def read (ip : Fin NINODE) (d : Dinode) (s : Icache T NINODE) : Icache T NINODE :=
  { s with
    fs := s.fs.setInode ip { s.fs.icache ip with valid := true, d := d }
    unwritten := update s.unwritten ip false }

/-- Stores to the fields of the inode and then `iupdate` -/
def store (ip : Fin NINODE) (d : Dinode) (s : Icache T NINODE) : Icache T NINODE :=
  { s with fs := s.fs.setCopy ip d }.iupdate ip

/-- The next step of a call -/
def run (t : T) (s : Icache T NINODE) : Option (Icache T NINODE) :=
  match s.pc t with
  | .idle => none
  | .scan dev type ninodes inum =>
    if inum < ninodes then
      if (dinode (s.fs.disk dev) inum).type = 0 then  -- a free inode
        let disk := setDinode (s.fs.disk dev) inum { Dinode.zero with type := type }
        some ({ s with fs := s.fs.setDisk dev disk }.setPc t (.found dev type inum))
      else some (s.setPc t (.scan dev type ninodes (inum + 1)))
    else none
  | .found dev type inum => do
    let (ip, s) ← s.iget t dev inum
    some (s.setPc t (.lock ip (some type)))
  | .lock ip want =>
    if (s.fs.icache ip).busy = true then none else some ((s.setBusy t ip).setPc t (.load ip want))
  | .load ip want =>
    let x := s.fs.icache ip
    let next := want.elim .idle (.locked ip)
    if x.valid = true then some (s.setPc t next)
    else
      let d := dinode (s.fs.disk x.dev) x.inum
      if d.type = 0 then none
      else some ((s.read ip d).setPc t next)
  | .locked _ _ => some (s.setPc t .idle)
  | .update ip => some ((s.iupdate ip).setPc t .idle)
  | .trunc ip =>
    let d := { (s.fs.icache ip).d with size := 0, addrs := fun _ => 0 }
    some ((s.store ip d).setPc t (.free ip))
  | .free ip =>
    let d := { (s.fs.icache ip).d with type := 0 }
    some ((s.store ip d).setPc t (.put ip))
  | .put ip => some (((s.clearBusy ip).drop t ip).setPc t .idle)

/-- The first step of `iput`, under `icache.lock` -/
def iput (t : T) (ip : Fin NINODE) (s : Icache T NINODE) : Option (Icache T NINODE) :=
  let x := s.fs.icache ip
  if x.ref = 1 ∧ x.valid = true ∧ x.d.nlink = 0 then
    if x.busy = true then none else some ((s.setBusy t ip).setPc t (.trunc ip))
  else some (s.drop t ip)

/-- One step. A process uses only inodes to which it holds a reference, changes and unlocks only
those that it has locked, leaves their type alone, and does not put one that it has locked. -/
def step (s : Icache T NINODE) : ILabel T NINODE → Option (Icache T NINODE)
  | .other dev disk => some { s with fs := s.fs.setDisk dev disk }
  | .iget t dev inum => if s.pc t = .idle then (s.iget t dev inum).map Prod.snd else none
  | .idup t ip =>
    if s.pc t = .idle ∧ t ∈ s.refs ip then
      some { s with fs := s.fs.idup ip, refs := update s.refs ip (t :: s.refs ip) }
    else none
  | .ialloc t dev type =>
    if s.pc t = .idle then some (s.setPc t (.scan dev type (readsb (s.fs.disk dev)).ninodes 1))
    else none
  | .ilock t ip =>
    if s.pc t = .idle ∧ t ∈ s.refs ip then some (s.setPc t (.lock ip none)) else none
  | .change t ip d =>
    if s.pc t = .idle ∧ s.owner ip = some t ∧ d.type = (s.fs.icache ip).d.type then
      some ({ s with fs := s.fs.setCopy ip d }.setPc t (.update ip))
    else none
  | .assign t ip d =>
    if s.pc t = .idle ∧ s.owner ip = some t ∧ d.type = (s.fs.icache ip).d.type then
      some { s with fs := s.fs.setCopy ip d, unwritten := update s.unwritten ip true }
    else none
  | .iunlock t ip =>
    if s.pc t = .idle ∧ s.owner ip = some t then some (s.clearBusy ip) else none
  | .iput t ip =>
    if s.pc t = .idle ∧ t ∈ s.refs ip ∧ s.owner ip ≠ some t then s.iput t ip else none
  | .run t => s.run t

def Step (s : Icache T NINODE) (a : ILabel T NINODE) (s' : Icache T NINODE) : Prop :=
  s.Allowed a ∧ s.step a = some s'

end Icache

end Xv6Shed
