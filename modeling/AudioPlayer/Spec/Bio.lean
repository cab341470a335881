import AudioPlayer.Lib.Ring
import AudioPlayer.Spec.Log
import AudioPlayer.Spec.Proc

/-!
# The buffer cache (`kernel/bio.c`)

The buffers are linked in a ring in the order in which they were last used. `bcache.lock`
makes the search of `bget` and the end of `brelse` atomic, and a buffer has a lock of its own
for the process that uses it. Processes wait for that lock, and the disk is read and written
without `bcache.lock`, so each of these is a step of its own.

The pins of `kernel/log.c` are part of the model: `log_write` pins a buffer when its block is
new in the log, and `install_trans` unpins it. What the process that commits reads, copies
and writes in `write_log`, `write_head` and `install_trans` are steps of any process.
-/

namespace AudioPlayer

open Function AudioPlayer.Ring

/-- `NBUF` of `kernel/param.h`. -/
abbrev nbuf : ℕ := maxOpBlocks * 3

abbrev BufId := Fin nbuf

instance : NeZero nbuf := ⟨Nat.succ_ne_zero 29⟩

/-- `struct buf`. Its lock is known by the process that holds it. -/
structure DiskBuf where
  valid : Bool
  dev : ℕ
  blockno : ℕ
  lock : Option Slot
  refcnt : ℕ
  data : Block

structure Bcache where
  buf : BufId → DiskBuf
  links : DLinks BufId

/-- `refcnt++` of a `uint`. -/
def incr (n : ℕ) : ℕ := (n + 1) % 2 ^ 32

/-- `refcnt--` of a `uint`. -/
def decr (n : ℕ) : ℕ := (n + (2 ^ 32 - 1)) % 2 ^ 32

namespace Bcache

/-- `binit`. The buffers are zero. -/
def binit : Bcache where
  buf _ := ⟨false, 0, 0, none, 0, fun _ => 0⟩
  links := (List.finRange nbuf).foldl DLinks.pushFront DLinks.empty

def setBuf (c : Bcache) (b : BufId) (v : DiskBuf) : Bcache :=
  { c with buf := update c.buf b v }

/-- `b->dev == dev && b->blockno == blockno`. -/
def isBlock (c : Bcache) (dev blockno : ℕ) (b : BufId) : Bool :=
  (c.buf b).dev = dev ∧ (c.buf b).blockno = blockno

/-- `bget`, up to `acquiresleep`. It panics when there is no buffer that nobody uses. -/
def bget (c : Bcache) (dev blockno : ℕ) : Option (Bcache × BufId) :=
  match search c.links.next (c.isBlock dev blockno) (nbuf + 1) (c.links.next none) with
  | some b => some (c.setBuf b { c.buf b with refcnt := incr (c.buf b).refcnt }, b)
  | none =>
    match search c.links.prev (fun b => (c.buf b).refcnt = 0) (nbuf + 1) (c.links.prev none) with
    | some b =>
      some (c.setBuf b { c.buf b with dev := dev, blockno := blockno, valid := false, refcnt := 1 }, b)
    | none => none

/-- `brelse` behind `releasesleep`. -/
def drop (c : Bcache) (b : BufId) : Bcache :=
  let c := c.setBuf b { c.buf b with refcnt := decr (c.buf b).refcnt }
  if (c.buf b).refcnt = 0 then { c with links := (c.links.unlink b).pushFront b } else c

def bpin (c : Bcache) (b : BufId) : Bcache :=
  c.setBuf b { c.buf b with refcnt := incr (c.buf b).refcnt }

def bunpin (c : Bcache) (b : BufId) : Bcache :=
  c.setBuf b { c.buf b with refcnt := decr (c.buf b).refcnt }

end Bcache

/-- Where a process is in `bio.c`. -/
inductive Busy
  | idle
  /-- in `bget`: the buffer is found, `acquiresleep` has not returned -/
  | locking (b : BufId)
  /-- in `bread`, with the lock of the buffer -/
  | filling (b : BufId)
  /-- in `brelse`: the lock is released, the reference is not dropped -/
  | dropping (b : BufId)
deriving DecidableEq

/-- What the last user of a buffer did with its contents, a ghost. -/
inductive BufMode
  | clean
  | dirty
  | logged
  | written
deriving DecidableEq

/-- The cache, the disk, and those parts of `struct log` that decide about pins: `tail` is
the variable of `install_trans`. `latest` is a ghost: what was written last to a block. -/
structure BioSys where
  cache : Bcache
  busy : Slot → Busy
  mode : BufId → BufMode
  disk : ℕ → Block
  lh : LogHeader
  outstanding : ℤ
  committing : Option Slot
  tail : ℕ
  latest : ℕ → ℕ → Block

inductive BioStep
  /-- `bread(dev, blockno)` is called -/
  | bget (p : Slot) (dev blockno : ℕ)
  /-- `acquiresleep` returns -/
  | acquire (p : Slot)
  /-- `bread` returns -/
  | fill (p : Slot)
  /-- process `p` stores `data` in the buffer -/
  | modify (p : Slot) (b : BufId) (data : Block)
  | bwrite (p : Slot) (b : BufId)
  | logWrite (p : Slot) (b : BufId)
  /-- `brelse` is called -/
  | brelse (p : Slot) (b : BufId)
  /-- `brelse` returns -/
  | drop (p : Slot)
  | beginOp (p : Slot)
  /-- `end_op`, up to the call of `commit` -/
  | endOp (p : Slot)
  /-- `bunpin(dbuf)` of `install_trans` -/
  | unpin (p : Slot) (b : BufId)
  /-- `log.lh.n = 0` of `commit` -/
  | clearHead (p : Slot)
  /-- the rest of `end_op` -/
  | endCommit (p : Slot)

/-- The sector that `virtio_disk_rw` passes to the device, which does not know of `dev`. The
product is one of 32 bits. -/
def sectorOf (blockno : ℕ) : ℕ := blockno * (bsize / 512) % 2 ^ 32

namespace BioSys

/-- Process `p` is not in `bio.c` and has locked the buffer. -/
def Holds (s : BioSys) (p : Slot) (b : BufId) : Prop :=
  s.busy p = .idle ∧ (s.cache.buf b).lock = some p

instance (s : BioSys) (p : Slot) (b : BufId) : Decidable (s.Holds p b) :=
  inferInstanceAs (Decidable (_ ∧ _))

def setBuf (s : BioSys) (b : BufId) (v : DiskBuf) : BioSys := { s with cache := s.cache.setBuf b v }

def setBusy (s : BioSys) (p : Slot) (v : Busy) : BioSys := { s with busy := update s.busy p v }

def setMode (s : BioSys) (b : BufId) (m : BufMode) : BioSys := { s with mode := update s.mode b m }

def bget (s : BioSys) (p : Slot) (dev blockno : ℕ) : Option BioSys :=
  if s.busy p = .idle then
    (s.cache.bget dev blockno).map fun r => { s with cache := r.1 }.setBusy p (.locking r.2)
  else none

def acquire (s : BioSys) (p : Slot) : Option BioSys :=
  match s.busy p with
  | .locking b =>
    if (s.cache.buf b).lock = none then
      some (((s.setBuf b { s.cache.buf b with lock := some p }).setMode b .clean).setBusy p (.filling b))
    else none
  | _ => none

/-- The end of `bread`: `virtio_disk_rw` reads a buffer that is not valid. -/
def fill (s : BioSys) (p : Slot) : Option BioSys :=
  match s.busy p with
  | .filling b =>
    let s := s.setBusy p .idle
    if (s.cache.buf b).valid then some s
    else
      let data := s.disk (sectorOf (s.cache.buf b).blockno)
      some (s.setBuf b { s.cache.buf b with data := data, valid := true })
  | _ => none

def modify (s : BioSys) (p : Slot) (b : BufId) (data : Block) : Option BioSys :=
  if s.Holds p b then
    let buf := s.cache.buf b
    let latest := update s.latest buf.dev (update (s.latest buf.dev) buf.blockno data)
    some { (s.setBuf b { buf with data := data }).setMode b .dirty with latest := latest }
  else none

def bwrite (s : BioSys) (p : Slot) (b : BufId) : Option BioSys :=
  if s.Holds p b then
    let buf := s.cache.buf b
    some { s.setMode b .written with disk := update s.disk (sectorOf buf.blockno) buf.data }
  else none

/-- `log_write`. It compares the numbers of blocks, not their devices. -/
def logWrite (L : LogArea) (s : BioSys) (p : Slot) (b : BufId) : Option BioSys :=
  if s.Holds p b then
    let blockno := (s.cache.buf b).blockno
    if s.lh.n ≥ logSize ∨ s.lh.n ≥ L.size - 1 then none
    else if s.outstanding < 1 then none
    else
      let cache := if LogSys.logSlot s.lh blockno = s.lh.n then s.cache.bpin b else s.cache
      some { s.setMode b .logged with cache := cache, lh := LogSys.addBlock s.lh blockno }
  else none

/-- `brelse`, up to `releasesleep`. A buffer that was modified was passed to `log_write` or
`bwrite` before. -/
def brelse (s : BioSys) (p : Slot) (b : BufId) : Option BioSys :=
  if s.Holds p b ∧ s.mode b ≠ .dirty then
    some ((s.setBuf b { s.cache.buf b with lock := none }).setBusy p (.dropping b))
  else none

def drop (s : BioSys) (p : Slot) : Option BioSys :=
  match s.busy p with
  | .dropping b => some ({ s with cache := s.cache.drop b }.setBusy p .idle)
  | _ => none

def beginOp (s : BioSys) (p : Slot) : Option BioSys :=
  if s.busy p = .idle ∧ s.committing = none ∧
      ¬ s.lh.n + (s.outstanding + 1) * maxOpBlocks > logSize then
    some { s with outstanding := s.outstanding + 1 }
  else none

def endOp (s : BioSys) (p : Slot) : Option BioSys :=
  if s.busy p = .idle ∧ 1 ≤ s.outstanding ∧ s.committing = none then
    let s := { s with outstanding := s.outstanding - 1 }
    some (if s.outstanding = 0 then { s with committing := some p } else s)
  else none

/-- `bunpin(dbuf)` in `install_trans`: the buffer is that of `bread(log.dev,
log.lh.block[tail])`, and it was written. -/
def unpin (dev : ℕ) (s : BioSys) (p : Slot) (b : BufId) : Option BioSys :=
  if s.Holds p b ∧ s.committing = some p ∧ (s.tail : ℤ) < s.lh.n ∧ (s.cache.buf b).dev = dev ∧
      (s.cache.buf b).blockno = s.lh.block s.tail ∧ s.mode b = .written then
    some { s with cache := s.cache.bunpin b, tail := s.tail + 1 }
  else none

def clearHead (s : BioSys) (p : Slot) : Option BioSys :=
  if s.busy p = .idle ∧ s.committing = some p ∧ (s.tail : ℤ) = s.lh.n then
    some { s with lh := { s.lh with n := 0 }, tail := 0 }
  else none

def endCommit (s : BioSys) (p : Slot) : Option BioSys :=
  if s.busy p = .idle ∧ s.committing = some p ∧ s.lh.n = 0 then some { s with committing := none }
  else none

/-- One step, `none` where the process waits, panics, or would not make it. The log is that
of device `dev`. -/
def step (L : LogArea) (dev : ℕ) (s : BioSys) : BioStep → Option BioSys
  | .bget p dev' blockno => s.bget p dev' blockno
  | .acquire p => s.acquire p
  | .fill p => s.fill p
  | .modify p b data => s.modify p b data
  | .bwrite p b => s.bwrite p b
  | .logWrite p b => s.logWrite L p b
  | .brelse p b => s.brelse p b
  | .drop p => s.drop p
  | .beginOp p => s.beginOp p
  | .endOp p => s.endOp p
  | .unpin p b => s.unpin dev p b
  | .clearHead p => s.clearHead p
  | .endCommit p => s.endCommit p

/-- The machine after `binit`. -/
def boot (disk : ℕ → Block) : BioSys where
  cache := .binit
  busy _ := .idle
  mode _ := .clean
  disk := disk
  lh := ⟨0, fun _ => 0⟩
  outstanding := 0
  committing := none
  tail := 0
  latest _ blockno := disk (sectorOf blockno)

end BioSys

end AudioPlayer
