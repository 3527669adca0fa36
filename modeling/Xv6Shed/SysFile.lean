import Xv6Shed.Fs

/-!
# Open files and the file-system calls

`file.c` and `sysfile.c`, with what `fork`, `exit`, `exec` and the start of a process do to
open files and current directories. Calls run one at a time, with their arguments as they
were fetched from the user. What a device or a pipe answers to `read` and `write` is given
with the call, and so are the result of the rest of `exec` and whether there is a page for a
new pipe.
-/

namespace Xv6Shed
open Function Bytes

variable {NINODE NFILE NOFILE : ℕ} {P : Type}

/-- The value of a `short` -/
def short (x : UInt16) : ℤ := if x.toNat < 32768 then x.toNat else x.toNat - 65536

/-- `"."` -/
def dot : List UInt8 := [46]

/-- `".."` -/
def dotdot : List UInt8 := [46, 46]

namespace Fs

/-- Store to `ip->nlink`, then `iupdate`. -/
def setNlink (ip : Fin NINODE) (n : UInt16) (s : Fs NINODE) : Fs NINODE :=
  (s.setCopy ip { (s.icache ip).d with nlink := n }).iupdate ip

/-- The label `bad` of `sys_link` -/
def linkBad (dp : Option (Fin NINODE)) (ip : Fin NINODE) (s : Fs NINODE) :
    Except Fault (ℤ × Fs NINODE) := do
  let s ← match dp with
    | some dp => s.iunlockput dp
    | none => pure s
  let s ← s.ilock ip
  let s ← (s.setNlink ip ((s.icache ip).d.nlink - 1)).iunlockput ip
  pure (-1, s)

/-- `sys_link`, from `nameiparent` on -/
def linkName (cwd : Option (Fin NINODE)) (ip : Fin NINODE) (new : List UInt8) (s : Fs NINODE) :
    Except Fault (ℤ × Fs NINODE) := do
  match ← s.nameiparent cwd new with
  | (none, s) => s.linkBad none ip
  | (some (dp, name), s) =>
    let s ← s.ilock dp
    if (s.icache dp).dev ≠ (s.icache ip).dev then s.linkBad (some dp) ip
    else
      let (r, s) ← s.dirlink dp name (s.icache ip).inum
      if r < 0 then s.linkBad (some dp) ip
      else
        let s ← s.iunlockput dp
        pure (0, ← s.iput ip)

def sysLink (cwd : Option (Fin NINODE)) (old new : List UInt8) (s : Fs NINODE) :
    Except Fault (ℤ × Fs NINODE) := do
  match ← s.namei cwd old with
  | (none, s) => pure (-1, s)
  | (some ip, s) =>
    let s ← s.ilock ip
    if (s.icache ip).d.type = T_DIR then pure (-1, ← s.iunlockput ip)
    else
      let s ← (s.setNlink ip ((s.icache ip).d.nlink + 1)).iunlock ip
      s.linkName cwd ip new

/-- The loop of `isdirempty`, from offset `off` on, with `n` entries left. -/
def noEntries (dp : Fin NINODE) (s : Fs NINODE) : ℕ → ℕ → Except Fault Bool
  | 0, _ => pure true
  | n + 1, off => do
    let (r, de) ← s.readi (-1) dp off 16
    if r ≠ 16 then .error (.panic "isdirempty: readi")
    else if (Dirent.load de 0).inum ≠ 0 then pure false
    else noEntries dp s n (off + 16)

def isdirempty (dp : Fin NINODE) (s : Fs NINODE) : Except Fault Bool :=
  s.noEntries dp (((s.icache dp).d.size.toNat - 32 + 15) / 16) 32

/-- `sys_unlink`, from `memset` on -/
def removeEntry (dp ip : Fin NINODE) (off : ℕ) (s : Fs NINODE) : Except Fault (ℤ × Fs NINODE) := do
  let (r, s) ← s.writei (-1) dp zeros off 16
  if r ≠ 16 then .error (.panic "unlink: writei")
  else
    let s ← s.iunlockput dp
    let s ← (s.setNlink ip ((s.icache ip).d.nlink - 1)).iunlockput ip
    pure (0, s)

/-- `sys_unlink`, with `ip` from `dirlookup` -/
def unlinkEntry (dp ip : Fin NINODE) (off : ℕ) (s : Fs NINODE) : Except Fault (ℤ × Fs NINODE) := do
  let s ← s.ilock ip
  if short (s.icache ip).d.nlink < 1 then .error (.panic "unlink: nlink < 1")
  else
    let empty ← if (s.icache ip).d.type = T_DIR then s.isdirempty ip else pure true
    if empty = false then
      let s ← s.iunlockput ip
      pure (-1, ← s.iunlockput dp)
    else s.removeEntry dp ip off

def sysUnlink (cwd : Option (Fin NINODE)) (path : List UInt8) (s : Fs NINODE) :
    Except Fault (ℤ × Fs NINODE) := do
  match ← s.nameiparent cwd path with
  | (none, s) => pure (-1, s)
  | (some (dp, name), s) =>
    let s ← s.ilock dp
    -- Cannot unlink "." or "..".
    if name = dot ∨ name = dotdot then pure (-1, ← s.iunlockput dp)
    else
      match ← s.dirlookup dp name with
      | (none, s) => pure (-1, ← s.iunlockput dp)
      | (some (ip, off), s) => s.unlinkEntry dp ip off

/-- `create`: Create . and .. entries. -/
def createDots (dp ip : Fin NINODE) (s : Fs NINODE) : Except Fault (Fs NINODE) := do
  let s := s.setNlink dp ((s.icache dp).d.nlink + 1)
  let (r, s) ← s.dirlink ip dot (s.icache ip).inum
  if r < 0 then .error (.panic "create dots")
  else
    let (r, s) ← s.dirlink ip dotdot (s.icache dp).inum
    if r < 0 then .error (.panic "create dots") else pure s

/-- `create`, from `ialloc` on -/
def createNew (dp : Fin NINODE) (name : List UInt8) (type major minor : UInt16) (s : Fs NINODE) :
    Except Fault (Option (Fin NINODE) × Fs NINODE) := do
  let (ip, s) ← s.ialloc (s.icache dp).dev type
  let s ← s.ilock ip
  let s := (s.setCopy ip
    { (s.icache ip).d with major := major, minor := minor, nlink := 1 }).iupdate ip
  let (r, s) ← s.dirlink dp name (s.icache ip).inum
  if r < 0 then
    let s ← (s.setCopy ip { (s.icache ip).d with nlink := 0 }).iunlockput ip
    pure (none, ← s.iunlockput dp)
  else
    let s ← if type = T_DIR then s.createDots dp ip else pure s
    pure (some ip, ← s.iunlockput dp)

/-- `create`, of a name that `dirlookup` has found -/
def createFound (ip : Fin NINODE) (type major minor : UInt16) (s : Fs NINODE) :
    Except Fault (Option (Fin NINODE) × Fs NINODE) := do
  let s ← s.ilock ip
  let d := (s.icache ip).d
  if d.type ≠ type ∨ d.major ≠ major ∨ d.minor ≠ minor then pure (none, ← s.iunlockput ip)
  else pure (some ip, s)

def create (cwd : Option (Fin NINODE)) (path : List UInt8) (canexist : Bool)
    (type major minor : UInt16) (s : Fs NINODE) :
    Except Fault (Option (Fin NINODE) × Fs NINODE) := do
  match ← s.nameiparent cwd path with
  | (none, s) => pure (none, s)
  | (some (dp, name), s) =>
    let s ← s.ilock dp
    if canexist = true then
      match ← s.dirlookup dp name with
      | (some (ip, _), s) =>
        let s ← s.iunlockput dp
        s.createFound ip type major minor
      | (none, s) => s.createNew dp name type major minor
    else s.createNew dp name type major minor

/-- `sys_mknod` and `sys_mkdir`, with the type they ask for -/
def sysMake (cwd : Option (Fin NINODE)) (path : List UInt8) (type major minor : UInt16)
    (s : Fs NINODE) : Except Fault (ℤ × Fs NINODE) := do
  match ← s.create cwd path false type major minor with
  | (none, s) => pure (-1, s)
  | (some ip, s) => pure (0, ← s.iunlockput ip)

def sysMknod (cwd : Option (Fin NINODE)) (path : List UInt8) (major minor : UInt16)
    (s : Fs NINODE) : Except Fault (ℤ × Fs NINODE) :=
  s.sysMake cwd path T_DEV major minor

def sysMkdir (cwd : Option (Fin NINODE)) (path : List UInt8) (s : Fs NINODE) :
    Except Fault (ℤ × Fs NINODE) :=
  s.sysMake cwd path T_DIR 0 0

/-- The part of `exec` that works on the file; `r` is how the rest ends. -/
def execFile (cwd : Option (Fin NINODE)) (path : List UInt8) (r : ℤ) (s : Fs NINODE) :
    Except Fault (ℤ × Fs NINODE) := do
  match ← s.namei cwd path with
  | (none, s) => pure (-1, s)
  | (some ip, s) =>
    let s ← s.ilock ip
    pure (r, ← s.iunlockput ip)

/-- The first half of `sys_open`: the inode, locked -/
def openInode (cwd : Option (Fin NINODE)) (path : List UInt8) (omode : UInt32) (s : Fs NINODE) :
    Except Fault (Option (Fin NINODE) × Fs NINODE) :=
  if omode &&& 0x200 ≠ 0 then s.create cwd path true T_FILE 0 0
  else do
    match ← s.namei cwd path with
    | (none, s) => pure (none, s)
    | (some ip, s) =>
      let s ← s.ilock ip
      if (s.icache ip).d.type = T_DIR ∧ omode &&& 3 ≠ 0 then pure (none, ← s.iunlockput ip)
      else pure (some ip, s)

/-- `sys_chdir`: the new current directory, after `iput` of the old one -/
def sysChdir (cwd : Option (Fin NINODE)) (path : List UInt8) (s : Fs NINODE) :
    Except Fault (Option (Fin NINODE) × Fs NINODE) := do
  match ← s.namei cwd path with
  | (none, s) => pure (none, s)
  | (some ip, s) =>
    let s ← s.ilock ip
    if (s.icache ip).d.type ≠ T_DIR then pure (none, ← s.iunlockput ip)
    else
      let s ← s.iunlock ip
      let old ← deref cwd
      pure (some ip, ← s.iput old)

end Fs

/-- The `type` of a `struct file` -/
inductive FdType where
  | closed
  | none
  | pipe
  | inode
  deriving DecidableEq

/-- `struct file`, without its pipe -/
structure File (NINODE : ℕ) where
  type : FdType
  ref : ℤ
  readable : Bool
  writable : Bool
  ip : Option (Fin NINODE)
  off : ℕ

/-- The fields `ofile` and `cwd` of a process -/
structure Task (NINODE NFILE NOFILE : ℕ) where
  ofile : Fin NOFILE → Option (Fin NFILE)
  cwd : Option (Fin NINODE)

/-- What is recorded of the file table -/
inductive FileEvent (NINODE NFILE : ℕ) where
  /-- `filealloc` returns `f` -/
  | alloc (f : Fin NFILE)
  /-- `fileclose` calls `pipeclose` for what was in `f` -/
  | pipeclose (f : Fin NFILE)
  /-- `fileclose` calls `iput(ip)` for what was in `f` -/
  | iput (f : Fin NFILE) (ip : Fin NINODE)
  deriving DecidableEq

/-- The file system, the file table and the processes that have started and not exited; the
record is history only, with the last event first. -/
structure Files (NINODE NFILE NOFILE : ℕ) (P : Type) where
  fs : Fs NINODE
  file : Fin NFILE → File NINODE
  task : P → Option (Task NINODE NFILE NOFILE)
  log : List (FileEvent NINODE NFILE)

/-- `struct stat` -/
structure Stat where
  dev : ℕ
  ino : ℕ
  type : UInt16
  nlink : UInt16
  size : UInt32

namespace Files

@[simps] def setFs (fs : Fs NINODE) (k : Files NINODE NFILE NOFILE P) :
    Files NINODE NFILE NOFILE P :=
  { k with fs := fs }

@[simps] def setFile (f : Fin NFILE) (x : File NINODE) (k : Files NINODE NFILE NOFILE P) :
    Files NINODE NFILE NOFILE P :=
  { k with file := update k.file f x }

@[simps] def record (e : FileEvent NINODE NFILE) (k : Files NINODE NFILE NOFILE P) :
    Files NINODE NFILE NOFILE P :=
  { k with log := e :: k.log }

def filealloc (k : Files NINODE NFILE NOFILE P) :
    Option (Fin NFILE × Files NINODE NFILE NOFILE P) :=
  match (List.finRange NFILE).find? fun f => (k.file f).type = .closed with
  | some f => some (f, (k.setFile f { k.file f with type := .none, ref := 1 }).record (.alloc f))
  | none => none

def filedup (f : Fin NFILE) (k : Files NINODE NFILE NOFILE P) :
    Except Fault (Files NINODE NFILE NOFILE P) :=
  let x := k.file f
  if x.ref < 1 ∨ x.type = .closed then .error (.panic "filedup")
  else pure (k.setFile f { x with ref := x.ref + 1 })

/-- `pipeclose(ff.pipe, ff.writable)`, for what was in `f`; what it does to the pipe is left out. -/
def pipeclose (f : Fin NFILE) (k : Files NINODE NFILE NOFILE P) : Files NINODE NFILE NOFILE P :=
  k.record (.pipeclose f)

/-- `iput(ff.ip)`, for what was in `f` -/
def iput (f : Fin NFILE) (ip : Fin NINODE) (k : Files NINODE NFILE NOFILE P) :
    Except Fault (Files NINODE NFILE NOFILE P) := do
  let s ← k.fs.iput ip
  pure ((k.setFs s).record (.iput f ip))

/-- `fileclose`; what `pipeclose` does is left out. -/
def fileclose (f : Fin NFILE) (k : Files NINODE NFILE NOFILE P) :
    Except Fault (Files NINODE NFILE NOFILE P) :=
  let x := k.file f
  if x.ref < 1 ∨ x.type = .closed then .error (.panic "fileclose")
  else if 0 < x.ref - 1 then pure (k.setFile f { x with ref := x.ref - 1 })
  else
    let k := k.setFile f { x with ref := 0, type := .closed }
    match x.type with
    | .pipe => pure (k.pipeclose f)
    | .inode => do k.iput f (← deref x.ip)
    | _ => .error (.panic "fileclose")

/-- `pipealloc`: the files of the read end and the write end; `page` says whether `kalloc` finds
a page for the pipe. -/
def pipealloc (page : Bool) (k : Files NINODE NFILE NOFILE P) :
    Except Fault (Option (Fin NFILE × Fin NFILE) × Files NINODE NFILE NOFILE P) :=
  match k.filealloc with
  | none => pure (none, k)
  | some (f0, k) =>
    match k.filealloc with
    | none => do pure (none, ← (k.setFile f0 { k.file f0 with type := .none }).fileclose f0)
    | some (f1, k) =>
      if page = true then
        let k := k.setFile f0 { k.file f0 with type := .pipe, readable := true, writable := false }
        pure (some (f0, f1), k.setFile f1
          { k.file f1 with type := .pipe, readable := false, writable := true })
      else do
        let k ← (k.setFile f0 { k.file f0 with type := .none }).fileclose f0
        pure (none, ← (k.setFile f1 { k.file f1 with type := .none }).fileclose f1)

def stati (x : Inode) : Stat := ⟨x.dev, x.inum, x.d.type, x.d.nlink, x.d.size⟩

def filestat (f : Fin NFILE) (k : Files NINODE NFILE NOFILE P) :
    Except Fault ((ℤ × Option Stat) × Files NINODE NFILE NOFILE P) :=
  if (k.file f).type = .inode then do
    let ip ← deref (k.file f).ip
    let s ← k.fs.ilock ip
    pure ((0, some (stati (s.icache ip))), k.setFs (← s.iunlock ip))
  else pure ((-1, none), k)

/-- `f->off += r` if `r > 0` -/
def advance (f : Fin NFILE) (r : ℤ) (k : Files NINODE NFILE NOFILE P) :
    Files NINODE NFILE NOFILE P :=
  if 0 < r then k.setFile f { k.file f with off := ((k.file f).off + r.toNat) % 2 ^ 32 } else k

def fileread (driver : ℤ) (f : Fin NFILE) (n : ℕ) (k : Files NINODE NFILE NOFILE P) :
    Except Fault ((ℤ × Buffer) × Files NINODE NFILE NOFILE P) :=
  let x := k.file f
  if x.readable = false then pure ((-1, zeros), k)
  else
    match x.type with
    | .pipe => pure ((driver, zeros), k)
    | .inode => do
      let ip ← deref x.ip
      let s ← k.fs.ilock ip
      let (r, dst) ← s.readi driver ip x.off n
      pure ((r, dst), (k.setFs (← s.iunlock ip)).advance f r)
    | _ => .error (.panic "fileread")

def filewrite (driver : ℤ) (f : Fin NFILE) (src : Buffer) (n : ℕ)
    (k : Files NINODE NFILE NOFILE P) : Except Fault (ℤ × Files NINODE NFILE NOFILE P) :=
  let x := k.file f
  if x.writable = false then pure (-1, k)
  else
    match x.type with
    | .pipe => pure (driver, k)
    | .inode => do
      let ip ← deref x.ip
      let s ← k.fs.ilock ip
      let (r, s) ← s.writei driver ip src x.off n
      pure (r, (k.setFs (← s.iunlock ip)).advance f r)
    | _ => .error (.panic "filewrite")

end Files

namespace Task

def argfd (fd : ℤ) (t : Task NINODE NFILE NOFILE) : Option (Fin NOFILE × Fin NFILE) :=
  if h : 0 ≤ fd ∧ fd < NOFILE then
    (t.ofile ⟨fd.toNat, by omega⟩).map fun f => (⟨fd.toNat, by omega⟩, f)
  else none

/-- Store to `ofile[fd]`. -/
@[simps] def setFd (fd : Fin NOFILE) (f : Option (Fin NFILE)) (t : Task NINODE NFILE NOFILE) :
    Task NINODE NFILE NOFILE :=
  { t with ofile := update t.ofile fd f }

def fdalloc (f : Fin NFILE) (t : Task NINODE NFILE NOFILE) :
    Option (Fin NOFILE × Task NINODE NFILE NOFILE) :=
  match (List.finRange NOFILE).find? fun fd => (t.ofile fd).isNone with
  | some fd => some (fd, t.setFd fd (some f))
  | none => none

end Task

/-- A system call with its arguments, or the start of a first process. -/
inductive FileCall (P : Type) where
  | start
  | openFile (path : List UInt8) (omode : UInt32)
  | read (fd : ℤ) (n : UInt32) (driver : ℤ)
  | write (fd : ℤ) (src : Buffer) (n : UInt32) (driver : ℤ)
  | dup (fd : ℤ)
  | close (fd : ℤ)
  | fstat (fd : ℤ)
  | link (old new : List UInt8)
  | unlink (path : List UInt8)
  | mkdir (path : List UInt8)
  | mknod (path : List UInt8) (major minor : UInt16)
  | chdir (path : List UInt8)
  | exec (path : List UInt8) (r : ℤ)
  | pipe (page : Bool)
  | fork (child : P) (pid : ℤ)
  | exit

namespace Files

variable [DecidableEq P]

@[simps] def setTask (p : P) (t : Option (Task NINODE NFILE NOFILE))
    (k : Files NINODE NFILE NOFILE P) : Files NINODE NFILE NOFILE P :=
  { k with task := update k.task p t }

/-- `userinit` and `allocIdle`: `p->cwd = namei("/")` -/
def start (p : P) (k : Files NINODE NFILE NOFILE P) :
    Except Fault (ℤ × Files NINODE NFILE NOFILE P) :=
  if (k.task p).isSome = true then pure (-1, k)
  else do
    let (ip, s) ← k.fs.namei none [Fs.slash]
    pure (0, (k.setFs s).setTask p (some ⟨fun _ => none, ip⟩))

def sysOpen (p : P) (t : Task NINODE NFILE NOFILE) (path : List UInt8) (omode : UInt32)
    (k : Files NINODE NFILE NOFILE P) : Except Fault (ℤ × Files NINODE NFILE NOFILE P) := do
  match ← k.fs.openInode t.cwd path omode with
  | (none, s) => pure (-1, k.setFs s)
  | (some ip, s) =>
    match (k.setFs s).filealloc with
    | none => pure (-1, k.setFs (← s.iunlockput ip))
    | some (f, k) =>
      match t.fdalloc f with
      | none => do
        let k ← k.fileclose f
        pure (-1, k.setFs (← k.fs.iunlockput ip))
      | some (fd, t) => do
        let k := k.setFs (← k.fs.iunlock ip)
        pure (fd, (k.setTask p (some t)).setFile f { k.file f with
          type := .inode, ip := some ip, off := 0, readable := decide (omode &&& 1 = 0),
          writable := decide (omode &&& 1 ≠ 0 ∨ omode &&& 2 ≠ 0) })

def sysDup (p : P) (t : Task NINODE NFILE NOFILE) (fd : ℤ) (k : Files NINODE NFILE NOFILE P) :
    Except Fault (ℤ × Files NINODE NFILE NOFILE P) :=
  match t.argfd fd with
  | none => pure (-1, k)
  | some (_, f) =>
    match t.fdalloc f with
    | none => pure (-1, k)
    | some (fd, t) => do pure (fd, ← (k.setTask p (some t)).filedup f)

def sysClose (p : P) (t : Task NINODE NFILE NOFILE) (fd : ℤ) (k : Files NINODE NFILE NOFILE P) :
    Except Fault (ℤ × Files NINODE NFILE NOFILE P) :=
  match t.argfd fd with
  | none => pure (-1, k)
  | some (fd, f) => do pure (0, ← (k.setTask p (some (t.setFd fd none))).fileclose f)

def sysPipe (p : P) (t : Task NINODE NFILE NOFILE) (page : Bool) (k : Files NINODE NFILE NOFILE P) :
    Except Fault (ℤ × Files NINODE NFILE NOFILE P) := do
  match ← k.pipealloc page with
  | (none, k) => pure (-1, k)
  | (some (rf, wf), k) =>
    match t.fdalloc rf with
    | none => do
      let k ← k.fileclose rf
      pure (-1, ← k.fileclose wf)
    | some (fd0, t) =>
      match t.fdalloc wf with
      | none => do
        let k ← (k.setTask p (some (t.setFd fd0 none))).fileclose rf
        pure (-1, ← k.fileclose wf)
      | some (_, t) => pure (0, k.setTask p (some t))

/-- `copyproc`: one round of the loop over the open files of `t`, for the child `q` -/
def forkFd (q : P) (t : Task NINODE NFILE NOFILE) (k : Files NINODE NFILE NOFILE P)
    (fd : Fin NOFILE) : Except Fault (Files NINODE NFILE NOFILE P) :=
  match t.ofile fd with
  | none => pure k
  | some f => do
    let np ← deref (k.task q)
    (k.setTask q (some (np.setFd fd (some f)))).filedup f

/-- `fork`, of a process that gets slot `q`: it fails if the slot is in use. -/
def fork (q : P) (pid : ℤ) (t : Task NINODE NFILE NOFILE) (k : Files NINODE NFILE NOFILE P) :
    Except Fault (ℤ × Files NINODE NFILE NOFILE P) :=
  if (k.task q).isSome = true then pure (-1, k)
  else do
    let k ← (List.finRange NOFILE).foldlM (forkFd q t) (k.setTask q (some ⟨fun _ => none, none⟩))
    let np ← deref (k.task q)
    let cwd ← deref t.cwd
    pure (pid, (k.setFs (k.fs.idup cwd)).setTask q (some { np with cwd := some cwd }))

/-- `exit`: one round of the loop that closes all open files -/
def exitFd (p : P) (k : Files NINODE NFILE NOFILE P) (fd : Fin NOFILE) :
    Except Fault (Files NINODE NFILE NOFILE P) := do
  let t ← deref (k.task p)
  match t.ofile fd with
  | none => pure k
  | some f => do pure ((← k.fileclose f).setTask p (some (t.setFd fd none)))

def exit (p : P) (k : Files NINODE NFILE NOFILE P) :
    Except Fault (ℤ × Files NINODE NFILE NOFILE P) := do
  let k ← (List.finRange NOFILE).foldlM (exitFd p) k
  let t ← deref (k.task p)
  let cwd ← deref t.cwd
  pure (0, (k.setFs (← k.fs.iput cwd)).setTask p none)

/-- The call `c` of process `p`, whose open files are `t`. -/
def call (p : P) (t : Task NINODE NFILE NOFILE) (c : FileCall P)
    (k : Files NINODE NFILE NOFILE P) : Except Fault (ℤ × Files NINODE NFILE NOFILE P) :=
  let lift (x : Except Fault (ℤ × Fs NINODE)) : Except Fault (ℤ × Files NINODE NFILE NOFILE P) := do
    let (r, s) ← x
    pure (r, k.setFs s)
  match c with
  | .start => pure (-1, k)
  | .openFile path omode => k.sysOpen p t path omode
  | .read fd n driver =>
    match t.argfd fd with
    | none => pure (-1, k)
    | some (_, f) => do
      let ((r, _), k) ← k.fileread driver f n.toNat
      pure (r, k)
  | .write fd src n driver =>
    match t.argfd fd with
    | none => pure (-1, k)
    | some (_, f) => k.filewrite driver f src n.toNat
  | .dup fd => k.sysDup p t fd
  | .close fd => k.sysClose p t fd
  | .fstat fd =>
    match t.argfd fd with
    | none => pure (-1, k)
    | some (_, f) => do
      let ((r, _), k) ← k.filestat f
      pure (r, k)
  | .link old new => lift (k.fs.sysLink t.cwd old new)
  | .unlink path => lift (k.fs.sysUnlink t.cwd path)
  | .mkdir path => lift (k.fs.sysMkdir t.cwd path)
  | .mknod path major minor => lift (k.fs.sysMknod t.cwd path major minor)
  | .chdir path => do
    match ← k.fs.sysChdir t.cwd path with
    | (none, s) => pure (-1, k.setFs s)
    | (some ip, s) => pure (0, (k.setFs s).setTask p (some { t with cwd := some ip }))
  | .exec path r => lift (k.fs.execFile t.cwd path r)
  | .pipe page => k.sysPipe p t page
  | .fork q pid => k.fork q pid t
  | .exit => k.exit p

/-- Process `p` makes call `c`; one that has no open files and no directory can only start. -/
def exec (p : P) (c : FileCall P) (k : Files NINODE NFILE NOFILE P) :
    Except Fault (ℤ × Files NINODE NFILE NOFILE P) :=
  match k.task p with
  | some t => k.call p t c
  | none =>
    match c with
    | .start => k.start p
    | _ => .error .null

/-- An inode that was never used -/
def unusedInode : Inode := ⟨0, 0, 0, false, false, .zero⟩

/-- After `iinit` and `fileinit`: no inode is in memory and no file is open. -/
def boot (disk : ℕ → Disk) : Files NINODE NFILE NOFILE P where
  fs := ⟨disk, fun _ => unusedInode⟩
  file _ := ⟨.closed, 0, false, false, none, 0⟩
  task _ := none
  log := []

end Files

section Alloc

variable {k k' : Files NINODE NFILE NOFILE P} {f : Fin NFILE} {t t' : Task NINODE NFILE NOFILE}
  {fd : Fin NOFILE}

theorem Files.filealloc_eq (ha : k.filealloc = some (f, k')) :
    (k.file f).type = .closed ∧
      k' = (k.setFile f { k.file f with type := .none, ref := 1 }).record (.alloc f) := by
  unfold Files.filealloc at ha
  split at ha
  · rename_i g hfind
    cases ha
    exact ⟨by simpa using List.find?_some hfind, rfl⟩
  · cases ha

theorem Files.filealloc_none : k.filealloc = none ↔ ∀ f, (k.file f).type ≠ .closed := by
  have h : (List.finRange NFILE).find? (fun f => (k.file f).type = .closed) = none ↔
      ∀ f, (k.file f).type ≠ .closed := by simp
  rw [← h]
  unfold Files.filealloc
  split
  · next f hf => simp [hf]
  · next hf => simp [hf]

theorem Task.fdalloc_eq (h : t.fdalloc f = some (fd, t')) :
    t.ofile fd = none ∧ t' = t.setFd fd (some f) := by
  unfold Task.fdalloc at h
  split at h
  · next fd' hfind =>
    cases h
    exact ⟨by simpa using List.find?_some hfind, rfl⟩
  · cases h

theorem Task.fdalloc_none : t.fdalloc f = none ↔ ∀ fd, t.ofile fd ≠ none := by
  have h : (List.finRange NOFILE).find? (fun fd => (t.ofile fd).isNone) = none ↔
      ∀ fd, t.ofile fd ≠ none := by simp
  rw [← h]
  unfold Task.fdalloc
  split
  · next fd hfd => simp [hfd]
  · next hfd => simp [hfd]

theorem Files.fileclose_allocated (ht : (k.file f).type = .none) (hr : (k.file f).ref = 1) :
    k.fileclose f = .error (.panic "fileclose") := by
  unfold Files.fileclose
  dsimp only
  rw [if_neg (by rw [hr, ht]; simp), if_neg (by rw [hr]; decide), ht]

end Alloc

end Xv6Shed
