import AudioPlayer.Spec.Codec
import AudioPlayer.Spec.DiskFormat
import Mathlib.Data.Finset.Card

/-!
# The redo log (`kernel/log.c`)

Blocks of the disk are read through the buffer cache: `cache` is what `bread` returns, a
buffer that is modified is modified there, and `bwrite` copies it to the disk. The ghost
`writes` records the writes to the disk in order. A crash leaves the disk as it is after
some of them.

`LogSys` is the log in memory with the operations that use it.
-/

namespace AudioPlayer

open Bytes

/-- `struct logheader`. A block number is the pattern of its 32 bits. -/
structure LogHeader where
  n : ℤ
  block : ℕ → ℕ

/-- The log area on the disk, `log.start` and `log.size`: the header block and the
`size - 1` blocks behind it. The numbers of its blocks are `int`. -/
structure LogArea where
  start : ℕ
  size : ℕ
  pos : 0 < size
  fits : start + size < 2 ^ 31

def LogArea.Contains (L : LogArea) (b : ℕ) : Prop := L.start ≤ b ∧ b < L.start + L.size

instance (L : LogArea) (b : ℕ) : Decidable (L.Contains b) :=
  inferInstanceAs (Decidable (L.start ≤ b ∧ b < L.start + L.size))

structure LogDisk where
  disk : ℕ → Block
  cache : ℕ → Block
  lh : LogHeader
  writes : List (ℕ × Block)

namespace LogDisk

/-- Modify the buffer of block `b`. -/
def modify (s : LogDisk) (b : ℕ) (data : Block) : LogDisk :=
  { s with cache := Function.update s.cache b data }

/-- `bwrite`. -/
def bwrite (s : LogDisk) (b : ℕ) : LogDisk :=
  { s with
    disk := Function.update s.disk b (s.cache b)
    writes := s.writes ++ [(b, s.cache b)] }

/-- `memmove` of the buffer of block `src` over that of block `dst`, and `bwrite`. -/
def copyBlock (s : LogDisk) (dst src : ℕ) : LogDisk := (s.modify dst (s.cache src)).bwrite dst

variable (L : LogArea)

/-- `install_trans`. The loop does not run for a negative `n`. -/
def installTrans (s : LogDisk) : LogDisk :=
  (List.range s.lh.n.toNat).foldl
    (fun s tail => s.copyBlock (s.lh.block tail) (L.start + tail + 1)) s

/-- `read_head`. -/
def readHead (s : LogDisk) : LogDisk :=
  let buf := s.cache L.start
  let n := int32 (load 4 buf 0)
  { s with lh := ⟨n, fun i => if i < n then load 4 buf (4 + 4 * i) else s.lh.block i⟩ }

/-- The header block that `write_head` makes out of the old one. -/
def headBlock (lh : LogHeader) (buf : Block) : Block :=
  storeWords (store 4 buf 0 (lh.n % 2 ^ 32).toNat) 4 lh.n.toNat lh.block

/-- `write_head`. -/
def writeHead (s : LogDisk) : LogDisk :=
  (s.modify L.start (headBlock s.lh (s.cache L.start))).bwrite L.start

/-- `log.lh.n = 0`. -/
def clearHead (s : LogDisk) : LogDisk := { s with lh := { s.lh with n := 0 } }

/-- `recover_from_log`. -/
def recoverFromLog (s : LogDisk) : LogDisk :=
  (((s.readHead L).installTrans L).clearHead).writeHead L

/-- `write_log`. -/
def writeLog (s : LogDisk) : LogDisk :=
  (List.range s.lh.n.toNat).foldl
    (fun s tail => s.copyBlock (L.start + tail + 1) (s.lh.block tail)) s

/-- `commit`. -/
def commit (s : LogDisk) : LogDisk :=
  if s.lh.n > 0 then
    (((((s.writeLog L).writeHead L).installTrans L).clearHead).writeHead L)
  else s

/-- The machine after a restart: memory is lost, `lh` holds anything. -/
def boot (disk : ℕ → Block) (lh : LogHeader) : LogDisk := ⟨disk, disk, lh, []⟩

end LogDisk

/-! ## Operations -/

/-- `struct log`, and the operations that are between `begin_op` and `end_op`. Each one is
known by the blocks it has passed to `log_write`; `since` are the blocks that were logged
since the last commit. Both are ghosts. `panic` is the message of the call that panicked. -/
structure LogSys where
  log : LogDisk
  outstanding : ℤ
  committing : Bool
  panic : Option String
  ops : List (Finset ℕ)
  since : Finset ℕ

namespace LogSys

variable (L : LogArea)

/-- `begin_op`, `none` while it sleeps. -/
def beginOp (s : LogSys) : Option LogSys :=
  if s.committing then none
  else if s.log.lh.n + (s.outstanding + 1) * maxOpBlocks > logSize then none
  else some { s with outstanding := s.outstanding + 1, ops := s.ops ++ [∅] }

/-- `end_op`, up to the call of `commit`. -/
def endOp (s : LogSys) (op : ℕ) : LogSys :=
  let s := { s with outstanding := s.outstanding - 1, ops := s.ops.eraseIdx op }
  if s.committing then { s with panic := some "log.committing" }
  else if s.outstanding = 0 then { s with committing := true }
  else s

/-- The rest of `end_op`: the last operation commits. -/
def commit (s : LogSys) : LogSys :=
  { s with log := s.log.commit L, committing := false, since := ∅ }

/-- The slot of `log.lh` that `log_write` takes for block `b`. -/
def logSlot (lh : LogHeader) (b : ℕ) : ℕ :=
  ((List.range lh.n.toNat).find? fun i => lh.block i = b).getD lh.n.toNat

/-- `log_write` on the header. -/
def addBlock (lh : LogHeader) (b : ℕ) : LogHeader :=
  let i := logSlot lh b
  ⟨if i = lh.n then lh.n + 1 else lh.n, Function.update lh.block i b⟩

/-- `log_write` of block `b`, whose buffer holds `data`. -/
def logWrite (s : LogSys) (op b : ℕ) (data : Block) : LogSys :=
  if s.log.lh.n ≥ logSize ∨ s.log.lh.n ≥ L.size - 1 then
    { s with panic := some "too big a transaction" }
  else if s.outstanding < 1 then { s with panic := some "log_write outside of trans" }
  else
    { s with
      log := { s.log.modify b data with lh := addBlock s.log.lh b }
      ops := s.ops.modify op (insert b)
      since := insert b s.since }

end LogSys

inductive LogStep
  | beginOp
  /-- operation `op` logs block `b` -/
  | logWrite (op b : ℕ) (data : Block)
  | endOp (op : ℕ)
  | commit

/-- One step of the operations, `none` where it cannot be made. No operation logs more than
`MAXOPBLOCKS` different blocks. -/
def LogSys.step (L : LogArea) (s : LogSys) (a : LogStep) : Option LogSys :=
  if s.panic.isSome then none
  else
    match a with
    | .beginOp => s.beginOp
    | .logWrite op b data =>
      if s.ops[op]?.any fun bs => (insert b bs).card ≤ maxOpBlocks then some (s.logWrite L op b data)
      else none
    | .endOp op => if op < s.ops.length then some (s.endOp op) else none
    | .commit => if s.committing then some (s.commit L) else none

/-- The log after `initlog`. -/
def LogSys.initlog (L : LogArea) (disk : ℕ → Block) (lh : LogHeader) : LogSys :=
  ⟨(LogDisk.boot disk lh).recoverFromLog L, 0, false, none, [], ∅⟩

end AudioPlayer
