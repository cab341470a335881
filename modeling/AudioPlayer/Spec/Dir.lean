import AudioPlayer.Spec.Fs

/-!
# Entries of directories (`kernel/fs.c`, `kernel/sysfile.c`)

`dirlink` writes an entry, and `sys_unlink` overwrites one with zeros. The inode of an entry that
`dirlookup` finds is taken from the table of inodes and given back at once; nothing of that is
kept here.
-/

namespace AudioPlayer

open Bytes

namespace Fs

/-- The search of `dirlink` for an empty entry, from offset `off` on. -/
def linkLoop : ℕ → Fs → Dinode → ℕ → Option (Fs × Dinode × ℕ)
  | 0, fs, dp, off => some (fs, dp, off)
  | fuel + 1, fs, dp, off =>
    if off < dp.size then
      (fs.readi dp off direntSize fun _ => true).bind fun (fs, dp, data) =>
        match data with
        | none => none
        | some de =>
          if de.length ≠ direntSize then none
          else if load 2 (ofList de) 0 = 0 then some (fs, dp, off)
          else linkLoop fuel fs dp (off + direntSize)
    else some (fs, dp, off)

/-- `dirlink` on the directory `inum`, with its return value. `strncpy` stops at the first zero of
the name. -/
def dirlink (fs : Fs) (inum : ℕ) (dp : Dinode) (name : List UInt8) (target : ℕ) :
    Option (Fs × Dinode × ℤ) :=
  (fs.dirlookup dp name).bind fun (fs, dp, found) =>
    match found with
    | some _ => some (fs, dp, -1)
    | none =>
      (fs.linkLoop (dp.size / direntSize + 1) dp 0).bind fun (fs, dp, off) =>
        (fs.writei inum dp off (direntBytes target (name.takeWhile (· ≠ 0))) fun _ => none).bind
          fun (fs, dp, r) => if r ≠ direntSize then none else some (fs, dp, 0)

/-- `sys_unlink` removes the entry at offset `off` of the directory `inum`. -/
def clearEntry (fs : Fs) (inum : ℕ) (dp : Dinode) (off : ℕ) : Option (Fs × Dinode) :=
  (fs.writei inum dp off (List.replicate direntSize 0) fun _ => none).bind
    fun (fs, dp, r) => if r ≠ direntSize then none else some (fs, dp)

end Fs

end AudioPlayer
