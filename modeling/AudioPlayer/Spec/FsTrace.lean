import AudioPlayer.Spec.Fs

/-!
# What `writei` does on the way (`kernel/fs.c`, `kernel/file.c`)

The ghost trace of a call of `writei`: the indices it passes to `bmap`, and the blocks it passes
to `log_write`, in order. Where the source panics, the trace ends.
-/

namespace AudioPlayer

open Bytes

inductive FsAccess
  | bmap (bn : ℕ)
  | logWrite (b : ℕ)
  deriving DecidableEq

/-- The blocks that are logged. -/
def FsAccess.logged (trace : List FsAccess) : List ℕ :=
  trace.filterMap fun
    | .bmap _ => none
    | .logWrite b => some b

/-- The bytes that `filewrite` writes in one transaction, `max`. -/
abbrev filewriteMax : ℕ := (maxOpBlocks - 1 - 1 - 2) / 2 * bsize

namespace Fs

/-- `balloc` logs the block of the bitmap, and `bzero` the new block. -/
def ballocTrace (fs : Fs) : List FsAccess :=
  match fs.balloc with
  | none => []
  | some (_, b) => [.logWrite (fs.bblock b), .logWrite b]

/-- `bmap`. -/
def bmapTrace (fs : Fs) (ip : Dinode) (bn : ℕ) : List FsAccess :=
  .bmap bn ::
    if bn < nDirect then
      if ip.addrs bn = 0 then fs.ballocTrace else []
    else if bn - nDirect < nIndirect then
      let bn := bn - nDirect
      if ip.addrs nDirect = 0 then
        fs.ballocTrace ++
          match fs.balloc with
          | none => []
          | some (fs, ind) => entryTrace fs ind bn
      else entryTrace fs (ip.addrs nDirect) bn
    else []
where
  /-- The entry of the indirect block `ind`. -/
  entryTrace (fs : Fs) (ind bn : ℕ) : List FsAccess :=
    if load 4 (fs.blocks ind) (4 * bn) = 0 then
      fs.ballocTrace ++ if fs.balloc.isSome then [.logWrite ind] else []
    else []

/-- The loop of `writei`. A block is logged after the copy into it. -/
def writeLoopTrace (copyin : ℕ → Option ℕ) :
    ℕ → Fs → Dinode → ℕ → List UInt8 → ℕ → List FsAccess
  | 0, _, _, _, _, _ => []
  | fuel + 1, fs, ip, off, src, tot =>
    if src = [] then []
    else
      fs.bmapTrace ip (off / bsize) ++
        match fs.bmap ip (off / bsize) with
        | none => []
        | some (fs, ip, addr) =>
          let m := min src.length (bsize - off % bsize)
          match copyin tot with
          | some _ => []
          | none =>
            .logWrite addr ::
              writeLoopTrace copyin fuel
                (fs.setBlock addr (move (fs.blocks addr) (off % bsize) m (ofList src)))
                ip ((off + m) % 2 ^ 32) (src.drop m) (tot + m)

/-- `writei`, with the `iupdate` at its end. -/
def writeiTrace (fs : Fs) (inum : ℕ) (ip : Dinode) (off : ℕ) (src : List UInt8)
    (copyin : ℕ → Option ℕ) : List FsAccess :=
  if off > ip.size ∨ (off + src.length) % 2 ^ 32 < off then []
  else if (off + src.length) % 2 ^ 32 > maxFile * bsize then []
  else
    fs.writeLoopTrace copyin src.length ip off src 0 ++
      if (fs.writeLoop copyin src.length ip off src 0).isSome then [.logWrite (fs.iblock inum)] else []

end Fs

end AudioPlayer
