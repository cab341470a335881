import AudioPlayer.Spec.Dir
import Mathlib.Algebra.GroupWithZero.Nat
import Mathlib.Data.List.FinRange

/-!
# Inodes in memory (`kernel/fs.c`, `kernel/file.h`)

The table of the inodes in use: who refers to an inode has its entry, and the lock of an entry
protects the copy of the inode that is in it. A system call runs alone here, so that a lock it
would wait for is never released.

A function gives `none` where the source panics or waits for such a lock.
-/

namespace AudioPlayer

/-- `NINODE`. -/
abbrev nInode : ℕ := 50

instance : NeZero nInode := ⟨Nat.succ_ne_zero 49⟩

/-- `ROOTDEV`. -/
abbrev rootDev : ℕ := 1

/-- An entry of the table, which the source has a pointer to. -/
abbrev InodePtr := Fin nInode

/-- `struct inode`, with the copy of the inode on the disk as `din`. -/
structure Inode where
  dev : ℕ
  inum : ℕ
  ref : ℤ
  locked : Bool
  valid : Bool
  din : Dinode

/-- The file system, `itable` and `log.outstanding`. -/
structure Inodes where
  fs : Fs
  inode : InodePtr → Inode
  outstanding : ℤ

namespace Inodes

/-- `*ip = x`. -/
def set (s : Inodes) (ip : InodePtr) (x : Inode) : Inodes :=
  { s with inode := Function.update s.inode ip x }

/-- `begin_op`; there is room in the log. -/
def beginOp (s : Inodes) : Inodes := { s with outstanding := s.outstanding + 1 }

/-- `end_op`. -/
def endOp (s : Inodes) : Inodes := { s with outstanding := s.outstanding - 1 }

/-- `iget`. -/
def iget (s : Inodes) (dev inum : ℕ) : Option (Inodes × InodePtr) :=
  match (List.finRange nInode).find? fun ip =>
      (s.inode ip).ref > 0 ∧ (s.inode ip).dev = dev ∧ (s.inode ip).inum = inum with
  | some ip => some (s.set ip { s.inode ip with ref := (s.inode ip).ref + 1 }, ip)
  | none =>
    -- recycle an entry
    ((List.finRange nInode).find? fun ip => (s.inode ip).ref = 0).map fun empty =>
      (s.set empty { s.inode empty with dev := dev, inum := inum, ref := 1, valid := false }, empty)

/-- `idup`. -/
def idup (s : Inodes) (ip : InodePtr) : Inodes :=
  s.set ip { s.inode ip with ref := (s.inode ip).ref + 1 }

/-- `ilock`. -/
def ilock (s : Inodes) (ip : InodePtr) : Option Inodes :=
  let x := s.inode ip
  if x.ref < 1 ∨ x.locked then none
  else if !x.valid then
    let din := s.fs.readInode x.inum
    if din.type = 0 then none
    else some (s.set ip { x with locked := true, valid := true, din := din })
  else some (s.set ip { x with locked := true })

/-- `iunlock`. -/
def iunlock (s : Inodes) (ip : InodePtr) : Option Inodes :=
  let x := s.inode ip
  if !x.locked ∨ x.ref < 1 then none else some (s.set ip { x with locked := false })

/-- `iput`. The last reference to an inode without links frees it. -/
def iput (s : Inodes) (ip : InodePtr) : Option Inodes :=
  let x := s.inode ip
  if x.ref = 1 ∧ x.valid ∧ x.din.nlink = 0 then
    if x.locked then none
    else
      (s.fs.itrunc x.inum x.din).map fun (fs, din) =>
        let din := { din with type := 0 }
        { s with fs := fs.iupdate x.inum din }.set ip { x with ref := x.ref - 1, valid := false, din := din }
  else some (s.set ip { x with ref := x.ref - 1 })

/-- `iunlockput`. -/
def iunlockput (s : Inodes) (ip : InodePtr) : Option Inodes := (s.iunlock ip).bind fun s => s.iput ip

/-- `readi`, with what it copies out, `none` for -1. -/
def readi (s : Inodes) (ip : InodePtr) (off n : ℕ) (copyout : ℕ → Bool) :
    Option (Inodes × Option (List UInt8)) :=
  (s.fs.readi (s.inode ip).din off n copyout).map fun (fs, din, data) =>
    ({ s with fs := fs }.set ip { s.inode ip with din := din }, data)

/-- `dirlookup`, with the entry of the inode and the offset. -/
def dirlookup (s : Inodes) (dp : InodePtr) (name : List UInt8) : Option (Inodes × Option (InodePtr × ℕ)) :=
  (s.fs.dirlookup (s.inode dp).din name).bind fun (fs, din, found) =>
    let s := { s with fs := fs }.set dp { s.inode dp with din := din }
    match found with
    | none => some (s, none)
    | some (inum, off) => (s.iget (s.inode dp).dev inum).map fun (s, ip) => (s, some (ip, off))

end Inodes

end AudioPlayer
