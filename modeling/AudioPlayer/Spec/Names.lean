import AudioPlayer.Spec.Path

/-!
# Making and removing names (`kernel/fs.c`, `kernel/sysfile.c`)

`create`, `link` and `unlink` on the table of the inodes. Each takes references and locks on its
way, and changes `nlink` of the inodes next to the entries of the directories. `nlink` is a
`short`, kept here as its 16 bits.

The buffers for names are not initialised in the source; nothing reads what was there before.
-/

namespace AudioPlayer

open Bytes

namespace Inodes

/-- `writei`, with its return value. -/
def writei (s : Inodes) (ip : InodePtr) (off : ℕ) (src : List UInt8) (copyin : ℕ → Option ℕ) :
    Option (Inodes × ℤ) :=
  (s.fs.writei (s.inode ip).inum (s.inode ip).din off src copyin).map fun (fs, din, r) =>
    ({ s with fs := fs }.set ip { s.inode ip with din := din }, r)

/-- `itrunc`. -/
def itrunc (s : Inodes) (ip : InodePtr) : Option Inodes :=
  (s.fs.itrunc (s.inode ip).inum (s.inode ip).din).map fun (fs, din) =>
    { s with fs := fs }.set ip { s.inode ip with din := din }

/-- The copy of the inode is changed and written to the disk by `iupdate`. -/
def update (s : Inodes) (ip : InodePtr) (din : Dinode) : Inodes :=
  { s with fs := s.fs.iupdate (s.inode ip).inum din }.set ip { s.inode ip with din := din }

/-- `ip->nlink++; iupdate(ip);` -/
def addLink (s : Inodes) (ip : InodePtr) : Inodes :=
  s.update ip { (s.inode ip).din with nlink := ((s.inode ip).din.nlink + 1) % 2 ^ 16 }

/-- `ip->nlink--; iupdate(ip);` -/
def dropLink (s : Inodes) (ip : InodePtr) : Inodes :=
  s.update ip { (s.inode ip).din with nlink := ((s.inode ip).din.nlink + (2 ^ 16 - 1)) % 2 ^ 16 }

/-- `ialloc`. -/
def ialloc (s : Inodes) (dev type : ℕ) : Option (Inodes × InodePtr) :=
  (s.fs.ialloc type).bind fun (fs, inum) => { s with fs := fs }.iget dev inum

/-- `dirlink`, with its return value. -/
def dirlink (s : Inodes) (dp : InodePtr) (name : List UInt8) (inum : ℕ) : Option (Inodes × ℤ) :=
  (s.dirlookup dp name).bind fun (s, found) =>
    match found with
    | some (ip, _) => (s.iput ip).map fun s => (s, -1)
    | none =>
      (s.fs.linkLoop ((s.inode dp).din.size / direntSize + 1) (s.inode dp).din 0).bind
        fun (fs, din, off) =>
          let s := { s with fs := fs }.set dp { s.inode dp with din := din }
          (s.writei dp off (direntBytes inum (name.takeWhile (· ≠ 0))) fun _ => none).bind
            fun (s, r) => if r ≠ direntSize then none else some (s, 0)

/-- The loop of `isdirempty` from offset `off` on. -/
def emptyLoop (dp : InodePtr) : ℕ → Inodes → ℕ → Option (Inodes × Bool)
  | 0, s, _ => some (s, true)
  | fuel + 1, s, off =>
    if off < (s.inode dp).din.size then
      (s.readi dp off direntSize fun _ => true).bind fun (s, data) =>
        match data with
        | none => none
        | some de =>
          if de.length ≠ direntSize then none
          else if Bytes.load 2 (ofList de) 0 ≠ 0 then some (s, false)
          else emptyLoop dp fuel s (off + direntSize)
    else some (s, true)

/-- `isdirempty`. -/
def isdirempty (s : Inodes) (dp : InodePtr) : Option (Inodes × Bool) :=
  s.emptyLoop dp ((s.inode dp).din.size / direntSize + 1) (2 * direntSize)

/-- `"."`. -/
abbrev dot : List UInt8 := [0x2e]

/-- `".."`. -/
abbrev dotdot : List UInt8 := [0x2e, 0x2e]

/-- A buffer for a name. -/
abbrev nameBuffer : List UInt8 := List.replicate dirSiz 0

/-- The entries of a new directory, in `create`. -/
def createDots (s : Inodes) (dp ip : InodePtr) : Option Inodes :=
  let s := s.addLink dp  -- for ".."
  (s.dirlink ip dot (s.inode ip).inum).bind fun (s, r) =>
    if r < 0 then none
    else (s.dirlink ip dotdot (s.inode dp).inum).bind fun (s, r) => if r < 0 then none else some s

/-- `create` where there is no such entry in the directory `dp`, which is locked. -/
def createNew (s : Inodes) (dp : InodePtr) (name : List UInt8) (type major minor : ℕ) :
    Option (Inodes × InodePtr) :=
  (s.ialloc (s.inode dp).dev type).bind fun (s, ip) =>
    (s.ilock ip).bind fun s =>
      let s := s.update ip { (s.inode ip).din with major := major, minor := minor, nlink := 1 }
      (if type = tDir then s.createDots dp ip else some s).bind fun s =>
        (s.dirlink dp name (s.inode ip).inum).bind fun (s, r) =>
          if r < 0 then none else (s.iunlockput dp).map fun s => (s, ip)

/-- `create`: the inode, which is locked, `none` for 0. -/
def create (s : Inodes) (cwd : InodePtr) (path : KString) (type major minor : ℕ) :
    Option (Inodes × Option InodePtr) :=
  (s.nameiparent cwd path nameBuffer).bind fun (s, dp, name) =>
    match dp with
    | none => some (s, none)
    | some dp =>
      (s.ilock dp).bind fun s =>
        (s.dirlookup dp name).bind fun (s, found) =>
          match found with
          | some (ip, _) =>
            (s.iunlockput dp).bind fun s =>
              (s.ilock ip).bind fun s =>
                if type = tFile ∧ ((s.inode ip).din.type = tFile ∨ (s.inode ip).din.type = tDevice) then
                  some (s, some ip)
                else (s.iunlockput ip).map fun s => (s, none)
          | none => (s.createNew dp name type major minor).map fun (s, ip) => (s, some ip)

/-- `bad` of `sys_link`. -/
def linkBad (s : Inodes) (ip : InodePtr) : Option (Inodes × ℤ) :=
  (s.ilock ip).bind fun s => ((s.dropLink ip).iunlockput ip).map fun s => (s.endOp, -1)

/-- `sys_link`, with its return value. -/
def link (s : Inodes) (cwd : InodePtr) (old new : KString) : Option (Inodes × ℤ) :=
  (s.beginOp.namei cwd old).bind fun (s, ip) =>
    match ip with
    | none => some (s.endOp, -1)
    | some ip =>
      (s.ilock ip).bind fun s =>
        if (s.inode ip).din.type = tDir then (s.iunlockput ip).map fun s => (s.endOp, -1)
        else
          ((s.addLink ip).iunlock ip).bind fun s =>
            (s.nameiparent cwd new nameBuffer).bind fun (s, dp, name) =>
              match dp with
              | none => s.linkBad ip
              | some dp =>
                (s.ilock dp).bind fun s =>
                  (if (s.inode dp).dev ≠ (s.inode ip).dev then some (s, -1)
                  else s.dirlink dp name (s.inode ip).inum).bind fun (s, r) =>
                    (s.iunlockput dp).bind fun s =>
                      if r < 0 then s.linkBad ip else (s.iput ip).map fun s => (s.endOp, 0)

/-- `bad` of `sys_unlink`. -/
def unlinkBad (s : Inodes) (dp : InodePtr) : Option (Inodes × ℤ) :=
  (s.iunlockput dp).map fun s => (s.endOp, -1)

/-- `sys_unlink` where the entry at offset `off` of the directory `dp` goes, which names `ip`. -/
def unlinkEntry (s : Inodes) (dp ip : InodePtr) (off : ℕ) : Option (Inodes × ℤ) :=
  (s.writei dp off (List.replicate direntSize 0) fun _ => none).bind fun (s, r) =>
    if r ≠ direntSize then none
    else
      let s := if (s.inode ip).din.type = tDir then s.dropLink dp else s
      (s.iunlockput dp).bind fun s => ((s.dropLink ip).iunlockput ip).map fun s => (s.endOp, 0)

/-- `sys_unlink`, with its return value. -/
def unlink (s : Inodes) (cwd : InodePtr) (path : KString) : Option (Inodes × ℤ) :=
  (s.beginOp.nameiparent cwd path nameBuffer).bind fun (s, dp, name) =>
    match dp with
    | none => some (s.endOp, -1)
    | some dp =>
      (s.ilock dp).bind fun s =>
        if strncmp dirSiz name dot = 0 ∨ strncmp dirSiz name dotdot = 0 then s.unlinkBad dp
        else
          (s.dirlookup dp name).bind fun (s, found) =>
            match found with
            | none => s.unlinkBad dp
            | some (ip, off) =>
              (s.ilock ip).bind fun s =>
                let nlink := (s.inode ip).din.nlink
                -- `nlink < 1`
                if nlink = 0 ∨ nlink ≥ 2 ^ 15 then none
                else
                  (if (s.inode ip).din.type = tDir then s.isdirempty ip else some (s, true)).bind
                    fun (s, empty) =>
                      if empty then s.unlinkEntry dp ip off
                      else (s.iunlockput ip).bind fun s => s.unlinkBad dp

/-- `sys_mkdir` and `sys_mknod`, which make an inode and give it back. -/
def make (s : Inodes) (cwd : InodePtr) (path : KString) (type major minor : ℕ) : Option (Inodes × ℤ) :=
  (s.beginOp.create cwd path type major minor).bind fun (s, ip) =>
    match ip with
    | none => some (s.endOp, -1)
    | some ip => (s.iunlockput ip).map fun s => (s.endOp, 0)

/-- `sys_mkdir`. -/
def mkdir (s : Inodes) (cwd : InodePtr) (path : KString) : Option (Inodes × ℤ) :=
  s.make cwd path tDir 0 0

/-- `sys_mknod`. The numbers are `int`, and `short` in `create`. -/
def mknod (s : Inodes) (cwd : InodePtr) (path : KString) (major minor : ℕ) : Option (Inodes × ℤ) :=
  s.make cwd path tDevice (major % 2 ^ 16) (minor % 2 ^ 16)

end Inodes

end AudioPlayer
