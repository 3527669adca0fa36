import Mathlib.Algebra.Group.Nat.Defs
import Mathlib.Tactic.Simps.Basic
import Xv6Shed.Rq

/-!
# The buffer cache and the disk driver

`bio.c` and `ide.c`, cut at the points where the source takes or drops a lock. `NBUF`
buffers are linked through `prev` and `next` in a ring with `bufhead`; those with a disk
request are linked through `qnext` from `ide_queue`. The contents of a block are of an
arbitrary type `D`.

The controller is given a command by `ide_start_request`, which alone records the buffer in
`started`, and carries it out: it is done when the interrupt arrives.
-/

namespace Xv6Shed
open Function Linked

/-- `&bufhead` or `&buf[i]` -/
inductive BufRef (NBUF : ℕ) where
  | head
  | buf (i : Fin NBUF)
  deriving DecidableEq

/-- `struct buf`, without its links; the flags are `B_BUSY`, `B_VALID` and `B_DIRTY` -/
structure Buf (D : Type) where
  busy : Bool
  valid : Bool
  dirty : Bool
  dev : ℕ
  sector : ℕ
  data : D

/-- What `ide_start_request` tells the controller to do, at a drive and a sector of it. -/
inductive DiskCmd (D : Type) where
  | read (drive lba : ℕ)
  | write (drive lba : ℕ) (data : D)

/-- The globals of `bio.c` and `ide.c`, the controller and the disks. -/
structure Bio (NBUF : ℕ) (D : Type) where
  buf : Fin NBUF → Buf D
  next : BufRef NBUF → Option (BufRef NBUF)
  prev : BufRef NBUF → Option (BufRef NBUF)
  ideQueue : Option (Fin NBUF)
  qnext : Fin NBUF → Option (Fin NBUF)
  disk1Present : Bool
  cmd : Option (DiskCmd D)
  /-- the buffers of all commands that the controller was given, the first one first -/
  started : List (Fin NBUF)
  disk : ℕ → ℕ → D

variable {NBUF : ℕ} {D : Type}

namespace Bio

@[simps] def setBuf (b : Fin NBUF) (x : Buf D) (s : Bio NBUF D) : Bio NBUF D :=
  { s with buf := update s.buf b x }

/-- The stores that put `b` behind `bufhead`, which `binit` and `brelse` share. -/
def pushFront (b : Fin NBUF) (s : Bio NBUF D) : Except Fault (Bio NBUF D) := do
  let s := { s with next := update s.next (.buf b) (s.next .head) }
  let s := { s with prev := update s.prev (.buf b) (some .head) }
  let c ← deref (s.next .head)
  let s := { s with prev := update s.prev c (some (.buf b)) }
  pure { s with next := update s.next .head (some (.buf b)) }

def binit (s : Bio NBUF D) : Except Fault (Bio NBUF D) :=
  let s := { s with prev := update s.prev .head (some .head) }
  let s := { s with next := update s.next .head (some .head) }
  (List.finRange NBUF).foldlM (fun s b => s.pushFront b) s

/-- The loops of `bget`: follow `link` to the first buffer that passes the test; `none` says
that the loop came back to `bufhead`. Past `NBUF + 1` rounds a node repeats. -/
def walk (link : BufRef NBUF → Option (BufRef NBUF)) (test : Fin NBUF → Bool) :
    ℕ → Option (BufRef NBUF) → Except Fault (Option (Fin NBUF))
  | 0, _ => .error .hang
  | _ + 1, none => .error .null
  | _ + 1, some .head => pure none
  | fuel + 1, some (.buf b) =>
    if test b then pure (some b) else walk link test fuel (link (.buf b))

/-- `(b->flags & (B_BUSY|B_VALID)) && b->dev == dev && b->sector == sector` -/
def caches (dev sector : ℕ) (s : Bio NBUF D) (b : Fin NBUF) : Bool :=
  ((s.buf b).busy || (s.buf b).valid) && (s.buf b).dev == dev && (s.buf b).sector == sector

/-- `bget`, from `loop:` to the point where it sleeps or returns; `none` says that it
sleeps. -/
def bget (dev sector : ℕ) (s : Bio NBUF D) : Except Fault (Option (Fin NBUF) × Bio NBUF D) := do
  -- Try for cached block.
  match ← walk s.next (s.caches dev sector) (NBUF + 1) (s.next .head) with
  | some b =>
    if (s.buf b).busy = true then pure (none, s)
    else pure (some b, s.setBuf b { s.buf b with busy := true })
  | none =>
    -- Allocate fresh block.
    match ← walk s.prev (fun b => !(s.buf b).busy) (NBUF + 1) (s.prev .head) with
    | some b =>
      pure (some b, s.setBuf b { s.buf b with
        busy := true, valid := false, dirty := false, dev := dev, sector := sector })
    | none => .error (.panic "bget: no buffers")

/-- `brelse`, under `buf_table_lock` up to the call of `wakeup` -/
def brelse (b : Fin NBUF) (s : Bio NBUF D) : Except Fault (Bio NBUF D) := do
  if (s.buf b).busy = false then .error (.panic "brelse")
  else
    let n ← deref (s.next (.buf b))
    let s := { s with prev := update s.prev n (s.prev (.buf b)) }
    let p ← deref (s.prev (.buf b))
    let s := { s with next := update s.next p (s.next (.buf b)) }
    let s ← s.pushFront b
    pure (s.setBuf b { s.buf b with busy := false })

/-- The drive and sector in the registers that `ide_start_request` sets: the lowest bit of
`dev` and 28 bits of `sector`. -/
def ideAddr (x : Buf D) : ℕ × ℕ := (x.dev % 2, x.sector % 2 ^ 28)

/-- The command for a buffer; a write sends the data along. -/
def request (x : Buf D) : DiskCmd D :=
  if x.dirty then .write (ideAddr x).1 (ideAddr x).2 x.data
  else .read (ideAddr x).1 (ideAddr x).2

def ideStartRequest (b : Fin NBUF) (s : Bio NBUF D) : Bio NBUF D :=
  { s with cmd := some (request (s.buf b)), started := s.started ++ [b] }

/-- The loop of `ide_rw` that looks for the end of the queue, from a queued buffer on. -/
def ideLast (qnext : Fin NBUF → Option (Fin NBUF)) : ℕ → Fin NBUF → Except Fault (Fin NBUF)
  | 0, _ => .error .hang
  | fuel + 1, b =>
    match qnext b with
    | none => pure b
    | some b' => ideLast qnext fuel b'

def ideAppend (b : Fin NBUF) (s : Bio NBUF D) : Except Fault (Bio NBUF D) := do
  let s := { s with qnext := update s.qnext b none }
  match s.ideQueue with
  | none => pure { s with ideQueue := some b }
  | some h => do
    let l ← ideLast s.qnext (NBUF + 1) h
    pure { s with qnext := update s.qnext l (some b) }

/-- `ide_rw(b)`, up to its loop that waits for the request to finish -/
def ideRw (b : Fin NBUF) (s : Bio NBUF D) : Except Fault (Bio NBUF D) := do
  if (s.buf b).busy = false then .error (.panic "ide_rw: buf not busy")
  else if (s.buf b).valid = true ∧ (s.buf b).dirty = false then
    .error (.panic "ide_rw: nothing to do")
  else if (s.buf b).dev ≠ 0 ∧ s.disk1Present = false then
    .error (.panic "ide disk 1 not present")
  else
    let s ← s.ideAppend b
    -- Start disk if necessary.
    if s.ideQueue = some b then pure (s.ideStartRequest b) else pure s

/-- `bwrite`, up to the loop of `ide_rw` -/
def bwrite (b : Fin NBUF) (s : Bio NBUF D) : Except Fault (Bio NBUF D) :=
  if (s.buf b).busy = false then .error (.panic "bwrite")
  else (s.setBuf b { s.buf b with dirty := true }).ideRw b

/-- The disk carries out its command: the data of a sector that was to be read, and the
disks after it. -/
def perform (s : Bio NBUF D) : Option D × (ℕ → ℕ → D) :=
  match s.cmd with
  | none => (none, s.disk)
  | some (.read drive lba) => (some (s.disk drive lba), s.disk)
  | some (.write drive lba data) =>
    (none, update s.disk drive (update (s.disk drive) lba data))

/-- `ide_intr`, once the disk is done with its command; `err` says that `ide_wait_ready(1)` is
negative. -/
def ideIntrWith (err : Bool) (s : Bio NBUF D) : Bio NBUF D :=
  let (sectorData, disk) := s.perform
  let s := { s with disk := disk }
  match s.ideQueue with
  | none => s
  | some b =>
    let x := s.buf b
    let s := s.setBuf b { x with
      -- Read data if needed.
      data := if x.dirty || err then x.data else sectorData.getD x.data
      valid := true
      dirty := false }
    -- Start disk on next buf in queue.
    let s := { s with ideQueue := s.qnext b, cmd := none }
    match s.ideQueue with
    | none => s
    | some b' => s.ideStartRequest b'

/-- `ide_intr` after a command that did not fail -/
def ideIntr (s : Bio NBUF D) : Bio NBUF D := s.ideIntrWith false

end Bio

end Xv6Shed
