import Xv6Shed.SysFile
import Xv6Shed.UserMemory

/-!
# `exec`

`exec.c` and `sys_exec`. The file is read through `readi`; memory is physical memory, with the
block of the process in it, and pointers to it wrap. Sizes and addresses are words that wrap
too, and a result of `readi` is compared as the word it is converted to. The arguments are
pointers to strings, which exec reads twice: to find out how long they are and to copy them.
-/

namespace Xv6Shed
open Bytes

/-- `struct elfhdr`, the fields that `exec` reads -/
structure Elfhdr where
  magic : UInt32
  entry : UInt32
  phoff : UInt32
  phnum : UInt16

def Elfhdr.load (b : Buffer) : Elfhdr := ⟨get32 b 0, get32 b 24, get32 b 28, get16 b 44⟩

/-- `struct proghdr`, the fields that `exec` reads -/
structure Proghdr where
  type : UInt32
  offset : UInt32
  va : UInt32
  filesz : UInt32
  memsz : UInt32
  deriving DecidableEq

def Proghdr.load (b : Buffer) : Proghdr :=
  ⟨get32 b 0, get32 b 4, get32 b 8, get32 b 16, get32 b 20⟩

/-- `ELF_MAGIC` -/
def ELF_MAGIC : UInt32 := 0x464C457F

/-- `ELF_PROG_LOAD` -/
def ELF_PROG_LOAD : UInt32 := 1

namespace Ram

/-- `*(uint*)a = x` -/
def store32 (a x : UInt32) (m : Ram) : Ram := m.write a (putLE x.toNat) 4

/-- `strlen(a)`, which does not end if no byte of memory is zero -/
def strlen (a : UInt32) (m : Ram) : Except Fault ℕ :=
  match Bytes.first (fun k => m.bytes (a + UInt32.ofNat k) == 0) (2 ^ 32) 0 with
  | some n => pure n
  | none => .error .hang

end Ram

namespace Exec

/-- `readi(ip, dst, off, n)` of one inode: the result and the bytes that are stored at `dst` -/
abbrev Reader : Type := ℕ → ℕ → Except Fault (ℤ × Buffer)

/-- The loop over the program segments, from offset `off` on, with `n` headers left. -/
def sizeLoop (read : Reader) : ℕ → UInt32 → UInt32 → Except Fault (Option UInt32)
  | 0, _, sz => pure (some sz)
  | n + 1, off, sz => do
    let (r, b) ← read off.toNat 32
    if r ≠ 32 then pure none
    else
      let ph := Proghdr.load b
      if ph.type ≠ ELF_PROG_LOAD then sizeLoop read n (off + 32) sz
      else if ph.memsz < ph.filesz then pure none
      else sizeLoop read n (off + 32) (sz + ph.memsz)

/-- The header of the file, and the sum of the sizes of the segments -/
def readHeaders (read : Reader) : Except Fault (Option (Elfhdr × UInt32)) := do
  let (r, b) ← read 0 52
  if UInt32.ofInt r < 52 then pure none
  else
    let elf := Elfhdr.load b
    if elf.magic ≠ ELF_MAGIC then pure none
    else do pure ((← sizeLoop read elf.phnum.toNat elf.phoff 0).map (elf, ·))

/-- The loop over the arguments: `arglen` -/
def argLoop (m : Ram) : List UInt32 → UInt32 → Except Fault UInt32
  | [], arglen => pure arglen
  | a :: argv, arglen => do argLoop m argv (arglen + (UInt32.ofNat (← m.strlen a) + 1))

/-- `(x+3) & ~3` -/
def roundWord (x : UInt32) : UInt32 := (x + 3) &&& ~~~3

/-- `(x+PAGE-1) & ~(PAGE-1)` -/
def roundPage (x : UInt32) : UInt32 := (x + 4095) &&& ~~~4095

/-- The size of the image: segments, arguments and the stack -/
def imageSize (sz arglen : UInt32) (argc : ℕ) : UInt32 :=
  roundPage (sz + (arglen + 4 * (UInt32.ofNat argc + 1)) + 4096)

/-- The loop that loads the segments: whether it has come to its end, and memory -/
def loadLoop (read : Reader) (mem sz : UInt32) : ℕ → UInt32 → Ram → Except Fault (Bool × Ram)
  | 0, _, m => pure (true, m)
  | n + 1, off, m => do
    let (r, b) ← read off.toNat 32
    if r ≠ 32 then pure (false, m)
    else
      let ph := Proghdr.load b
      if ph.type ≠ ELF_PROG_LOAD then loadLoop read mem sz n (off + 32) m
      else if ph.va + ph.memsz > sz then pure (false, m)
      else do
        let (r, b) ← read ph.offset.toNat ph.filesz.toNat
        let m := m.write (mem + ph.va) b r.toNat
        if UInt32.ofInt r ≠ ph.filesz then pure (false, m)
        else
          loadLoop read mem sz n (off + 32)
            (m.memset (mem + ph.va + ph.filesz) 0 (ph.memsz - ph.filesz).toNat)

/-- What `exec` knows of the new image when it is loaded -/
structure Loaded where
  entry : UInt32
  mem : UInt32
  sz : UInt32
  arglen : UInt32

/-- `exec`, from the header of the file to the end of the second loop over the segments, or
`kfree` at the label `bad` -/
def load (read : Reader) (argv : List UInt32) (p : Space) :
    Except Fault (Option Loaded × Space) := do
  match ← readHeaders read with
  | none => pure (none, p)
  | some (elf, sz) =>
    let arglen := roundWord (← argLoop p.ram argv 0)
    let sz := imageSize sz arglen argv.length
    -- Allocate program memory.
    match ← kalloc sz.toInt32.toInt p.free with
    | (none, fl) => pure (none, { p with free := fl })
    | (some v, fl) =>
      let mem := UInt32.ofNat v
      let m := p.ram.memset mem 0 sz.toNat
      match ← loadLoop read mem sz elf.phnum.toNat elf.phoff m with
      | (true, m) => pure (some ⟨elf.entry, mem, sz, arglen⟩, { p with free := fl, ram := m })
      | (false, m) =>
        let fl ← kfree v sz.toInt32.toInt fl
        -- kfree fills the block with junk
        pure (none, { p with free := fl, ram := m.memset mem 1 sz.toNat })

/-- Copy argv strings and pointers to stack: the loop, with arguments `0 .. i - 1` left -/
def copyLoop (argv : List UInt32) (mem argp : UInt32) : ℕ → UInt32 → Ram → Except Fault Ram
  | 0, _, m => pure m
  | i + 1, sp, m => do
    let a := argv.getD i 0
    let len := UInt32.ofNat (← m.strlen a) + 1
    let sp := sp - len
    let m := m.memmove (mem + sp) a len
    copyLoop argv mem argp i sp (m.store32 (mem + argp + 4 * UInt32.ofNat i) sp)

/-- The stack of `main(argc, argv)`: `esp`, and memory -/
def initStack (argv : List UInt32) (l : Loaded) (m : Ram) : Except Fault (UInt32 × Ram) := do
  let argc := UInt32.ofNat argv.length
  let argp := l.sz - l.arglen - 4 * (argc + 1)
  let m := m.store32 (l.mem + argp + 4 * argc) 0
  let m ← copyLoop argv l.mem argp argv.length l.sz m
  -- Stack frame for main(argc, argv), below arguments.
  let m := m.store32 (l.mem + (argp - 4)) argp
  let m := m.store32 (l.mem + (argp - 4 - 4)) argc
  pure (argp - 4 - 4 - 4, m.store32 (l.mem + (argp - 4 - 4 - 4)) 0xffffffff)

/-- Commit to the new image. -/
def commit (argv : List UInt32) (l : Loaded) (p : Space) : Except Fault Space := do
  let (sp, m) ← initStack argv l p.ram
  let fl ← kfree p.mem.toNat p.sz.toInt32.toInt p.free
  let m := m.memset p.mem 1 p.sz.toNat
  pure (Space.setupsegs
    { p with free := fl, ram := m, mem := l.mem, sz := l.sz, esp := sp })

end Exec

/-- The file system and the process that calls `exec` -/
structure Program (NINODE : ℕ) where
  fs : Fs NINODE
  cwd : Option (Fin NINODE)
  space : Space
  /-- `cp->name` -/
  name : List UInt8
  /-- `cp->tf->eip` -/
  eip : UInt32

namespace Program

variable {NINODE : ℕ}

/-- The last element of a path, as `safestrcpy` stores it in `cp->name` -/
def lastName (path : List UInt8) : List UInt8 :=
  let s := path.takeWhile (· != 0)
  ((s.reverse.takeWhile (· != Fs.slash)).reverse).take 15

/-- `exec(path, argv)`; `driver` is what a device answers to a read. -/
def exec (driver : ℤ) (path : List UInt8) (argv : List UInt32) (k : Program NINODE) :
    Except Fault (ℤ × Program NINODE) := do
  match ← k.fs.namei k.cwd path with
  | (none, s) => pure (-1, { k with fs := s })
  | (some ip, s) =>
    let s ← s.ilock ip
    match ← Exec.load (fun off n => s.readi driver ip off n) argv k.space with
    | (none, p) => pure (-1, { k with fs := ← s.iunlockput ip, space := p })
    | (some l, p) =>
      let s ← s.iunlockput ip
      let p ← Exec.commit argv l p
      pure (0, { k with fs := s, space := p, name := lastName path, eip := l.entry })

/-- The loop of `sys_exec` over the array at `uargv`, with room for `n` more pointers -/
def argvLoop (p : Space) : ℕ → UInt32 → Option (List UInt32)
  | 0, _ => none
  | n + 1, uargv =>
    match p.fetchint uargv with
    | none => none
    | some uarg =>
      if uarg = 0 then some []
      else
        match p.fetchstr uarg.toUInt32 with
        | none => none
        | some (a, _) => (argvLoop p n (uargv + 4)).map (a :: ·)

def sysExec (driver : ℤ) (k : Program NINODE) : Except Fault (ℤ × Program NINODE) :=
  match k.space.argstr 0, k.space.argint 1 with
  | some (path, len), some uargv =>
    match argvLoop k.space 20 uargv.toUInt32 with
    | none => pure (-1, k)
    | some argv =>
      k.exec driver ((List.range len).map fun j => k.space.ram.bytes (path + UInt32.ofNat j)) argv
  | _, _ => pure (-1, k)

end Program

end Xv6Shed
