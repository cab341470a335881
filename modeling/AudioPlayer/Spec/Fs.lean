import AudioPlayer.Spec.Log
import Mathlib.Data.List.Basic

/-!
# The file system (`kernel/fs.c`)

Blocks, inodes and directories. `blocks` is what `bread` returns: a buffer is modified in
the cache, and `log_write` keeps it there until it is on the disk. The functions on an inode
get and return the copy of it in memory, which its lock protects.

A function gives `none` where the source panics.
-/

namespace AudioPlayer

open Function Bytes

structure Fs where
  sb : Superblock
  blocks : ℕ → Block

namespace Fs

/-- `fsinit`, on memory that holds the log header `lh`. The numbers of the blocks of the log
are `int`; a super block for which they do not fit is left out. -/
def fsinit (disk : ℕ → Block) (lh : LogHeader) : Option Fs :=
  let sb := Superblock.decode (disk 1)
  if sb.magic ≠ fsMagic then none
  else if h : 0 < sb.nlog ∧ sb.logstart + sb.nlog < 2 ^ 31 then
    some ⟨sb, ((LogDisk.boot disk lh).recoverFromLog ⟨sb.logstart, sb.nlog, h.1, h.2⟩).cache⟩
  else none

def setBlock (fs : Fs) (b : ℕ) (data : Block) : Fs :=
  { fs with blocks := update fs.blocks b data }

/-! ## Blocks -/

/-- `BBLOCK`. -/
def bblock (fs : Fs) (b : ℕ) : ℕ := b / bpb + fs.sb.bmapstart

/-- The bit of block `b` in the bitmap. -/
def marked (fs : Fs) (b : ℕ) : Bool := bit (fs.blocks (fs.bblock b)) (b % bpb)

/-- `bzero`. -/
def bzero (fs : Fs) (b : ℕ) : Fs := fs.setBlock b fun _ => 0

/-- `balloc`. -/
def balloc (fs : Fs) : Option (Fs × ℕ) :=
  ((List.range fs.sb.size).find? fun b => !fs.marked b).map fun b =>
    ((fs.setBlock (fs.bblock b) (setBit (fs.blocks (fs.bblock b)) (b % bpb))).bzero b, b)

/-- `bfree`. -/
def bfree (fs : Fs) (b : ℕ) : Option Fs :=
  if !fs.marked b then none
  else some (fs.setBlock (fs.bblock b) (clearBit (fs.blocks (fs.bblock b)) (b % bpb)))

/-! ## Inodes -/

/-- `IBLOCK`. -/
def iblock (fs : Fs) (inum : ℕ) : ℕ := inum / ipb + fs.sb.inodestart

/-- The inode on the disk, as `ilock` reads it. -/
def readInode (fs : Fs) (inum : ℕ) : Dinode :=
  .decode (fs.blocks (fs.iblock inum)) (dinodeSize * (inum % ipb))

/-- `iupdate`. -/
def iupdate (fs : Fs) (inum : ℕ) (ip : Dinode) : Fs :=
  fs.setBlock (fs.iblock inum)
    (move (fs.blocks (fs.iblock inum)) (dinodeSize * (inum % ipb)) dinodeSize ip.encode)

/-- `ialloc`. -/
def ialloc (fs : Fs) (type : ℕ) : Option (Fs × ℕ) :=
  ((List.range fs.sb.ninodes).find? fun inum => inum ≠ 0 ∧ (fs.readInode inum).type = 0).map
    fun inum => (fs.iupdate inum { Dinode.zero with type := type }, inum)

/-- `ip->addrs[i] = addr`. -/
def setAddr (ip : Dinode) (i addr : ℕ) : Dinode :=
  { ip with addrs := update ip.addrs i addr }

/-- `bmap`. -/
def bmap (fs : Fs) (ip : Dinode) (bn : ℕ) : Option (Fs × Dinode × ℕ) :=
  if bn < nDirect then
    if ip.addrs bn = 0 then
      fs.balloc.map fun (fs, addr) => (fs, setAddr ip bn addr, addr)
    else some (fs, ip, ip.addrs bn)
  else if bn - nDirect < nIndirect then
    let bn := bn - nDirect
    (if ip.addrs nDirect = 0 then
      fs.balloc.map fun (fs, addr) => (fs, setAddr ip nDirect addr)
    else some (fs, ip)).bind fun (fs, ip) =>
      let ind := ip.addrs nDirect
      let addr := load 4 (fs.blocks ind) (4 * bn)
      if addr = 0 then
        fs.balloc.map fun (fs, addr) =>
          (fs.setBlock ind (store 4 (fs.blocks ind) (4 * bn) addr), ip, addr)
      else some (fs, ip, addr)
  else none

/-- The first loop of `itrunc`. -/
def truncDirect (fs : Fs) (ip : Dinode) : Option (Fs × Dinode) :=
  (List.range nDirect).foldlM (fun (fs, ip) i =>
    if ip.addrs i ≠ 0 then (fs.bfree (ip.addrs i)).map fun fs => (fs, setAddr ip i 0)
    else some (fs, ip)) (fs, ip)

/-- The second loop of `itrunc`. -/
def truncIndirect (fs : Fs) (ind : ℕ) : Option Fs :=
  (List.range nIndirect).foldlM (fun fs j =>
    let addr := load 4 (fs.blocks ind) (4 * j)
    if addr ≠ 0 then fs.bfree addr else some fs) fs

/-- `itrunc`. -/
def itrunc (fs : Fs) (inum : ℕ) (ip : Dinode) : Option (Fs × Dinode) :=
  (fs.truncDirect ip).bind fun (fs, ip) =>
    (if ip.addrs nDirect ≠ 0 then
      (fs.truncIndirect (ip.addrs nDirect)).bind fun fs =>
        (fs.bfree (ip.addrs nDirect)).map fun fs => (fs, setAddr ip nDirect 0)
    else some (fs, ip)).map fun (fs, ip) =>
      let ip := { ip with size := 0 }
      (fs.iupdate inum ip, ip)

/-- `iput`, where it frees the inode. -/
def ifree (fs : Fs) (inum : ℕ) (ip : Dinode) : Option Fs :=
  (fs.itrunc inum ip).map fun (fs, ip) => fs.iupdate inum { ip with type := 0 }

/-! ## Contents -/

/-- The loop of `readi`, with `n` bytes to go after the first `tot`. It gives up where
`either_copyout` fails. -/
def readLoop (copyout : ℕ → Bool) :
    ℕ → Fs → Dinode → ℕ → ℕ → ℕ → Option (Fs × Dinode × Option (List UInt8))
  | 0, fs, ip, _, _, _ => some (fs, ip, some [])
  | fuel + 1, fs, ip, off, n, tot =>
    if n = 0 then some (fs, ip, some [])
    else
      (fs.bmap ip (off / bsize)).bind fun (fs, ip, addr) =>
        let m := min n (bsize - off % bsize)
        let chunk := slice (fs.blocks addr) (off % bsize) m
        if copyout tot then
          (readLoop copyout fuel fs ip ((off + m) % 2 ^ 32) (n - m) (tot + m)).map
            fun (fs, ip, data) => (fs, ip, data.map (chunk ++ ·))
        else some (fs, ip, none)

/-- `readi`, with what it copies out, `none` for -1. A pass of the loop copies a byte at
least. -/
def readi (fs : Fs) (ip : Dinode) (off n : ℕ) (copyout : ℕ → Bool) :
    Option (Fs × Dinode × Option (List UInt8)) :=
  if off > ip.size ∨ (off + n) % 2 ^ 32 < off then some (fs, ip, some [])
  else
    let n := if (off + n) % 2 ^ 32 > ip.size then ip.size - off else n
    fs.readLoop copyout n ip off n 0

/-- The loop of `writei`, with `src` to be written after the first `tot` bytes. `copyin` says
after how many bytes `either_copyin` fails. It gives the offset and the count at its end. -/
def writeLoop (copyin : ℕ → Option ℕ) :
    ℕ → Fs → Dinode → ℕ → List UInt8 → ℕ → Option (Fs × Dinode × ℕ × ℕ)
  | 0, fs, ip, off, _, tot => some (fs, ip, off, tot)
  | fuel + 1, fs, ip, off, src, tot =>
    if src = [] then some (fs, ip, off, tot)
    else
      (fs.bmap ip (off / bsize)).bind fun (fs, ip, addr) =>
        let m := min src.length (bsize - off % bsize)
        match copyin tot with
        | some k =>
          some (fs.setBlock addr
            (move (fs.blocks addr) (off % bsize) (min k m) (ofList src)), ip, off, tot)
        | none =>
          writeLoop copyin fuel
            (fs.setBlock addr (move (fs.blocks addr) (off % bsize) m (ofList src)))
            ip ((off + m) % 2 ^ 32) (src.drop m) (tot + m)

/-- `writei`, with its return value. -/
def writei (fs : Fs) (inum : ℕ) (ip : Dinode) (off : ℕ) (src : List UInt8) (copyin : ℕ → Option ℕ) :
    Option (Fs × Dinode × ℤ) :=
  if off > ip.size ∨ (off + src.length) % 2 ^ 32 < off then some (fs, ip, -1)
  else if (off + src.length) % 2 ^ 32 > maxFile * bsize then some (fs, ip, -1)
  else
    (fs.writeLoop copyin src.length ip off src 0).map fun (fs, ip, off, tot) =>
      let ip := if off > ip.size then { ip with size := off } else ip
      (fs.iupdate inum ip, ip, tot)

/-! ## Directories -/

/-- The loop of `dirlookup`, from offset `off` on. -/
def lookupLoop (name : List UInt8) : ℕ → Fs → Dinode → ℕ → Option (Fs × Dinode × Option (ℕ × ℕ))
  | 0, fs, dp, _ => some (fs, dp, none)
  | fuel + 1, fs, dp, off =>
    if off < dp.size then
      (fs.readi dp off direntSize fun _ => true).bind fun (fs, dp, data) =>
        match data with
        | none => none
        | some de =>
          if de.length ≠ direntSize then none
          else
            let inum := load 2 (ofList de) 0
            if inum = 0 then lookupLoop name fuel fs dp (off + direntSize)
            else if strncmp dirSiz name (de.drop 2) = 0 then some (fs, dp, some (inum, off))
            else lookupLoop name fuel fs dp (off + direntSize)
    else some (fs, dp, none)

/-- `dirlookup`, with the number of the inode and the offset of the entry. -/
def dirlookup (fs : Fs) (dp : Dinode) (name : List UInt8) :
    Option (Fs × Dinode × Option (ℕ × ℕ)) :=
  if dp.type ≠ tDir then none else fs.lookupLoop name (dp.size / direntSize + 1) dp 0

end Fs

/-! ## Calls -/

/-- The file system with the inodes that are in memory, `itable.inode[].valid`. -/
structure FsState where
  fs : Fs
  icache : ℕ → Option Dinode

/-- The calls on inodes. `type`, `off` and the lengths are those of a C call: `type` is a
`short` other than 0, the others are `uint`. -/
inductive FsCall
  | ialloc (type : ℕ) (h : type ≠ 0 ∧ type < 2 ^ 16)
  | ilock (inum : ℕ)
  | forget (inum : ℕ)
  | writei (inum off : ℕ) (src : List UInt8) (copyin : ℕ → Option ℕ)
      (h : off < 2 ^ 32 ∧ src.length < 2 ^ 32)
  | readi (inum off n : ℕ) (copyout : ℕ → Bool) (h : off < 2 ^ 32 ∧ n < 2 ^ 32)
  | itrunc (inum : ℕ)
  | ifree (inum : ℕ)

namespace FsState

/-- The inode in memory, which `f` works on. -/
def withInode (s : FsState) (inum : ℕ) (f : Dinode → Option (Fs × Option Dinode)) : Option FsState :=
  (s.icache inum).bind fun ip => (f ip).map fun (fs, ip) =>
    ⟨fs, update s.icache inum ip⟩

/-- One call. `ilock` reads an inode that is not in memory, and `forget` is `iput` of a last
reference to one that has links, which leaves the entry of the table for others. -/
def step (s : FsState) : FsCall → Option FsState
  | .ialloc type _ => (s.fs.ialloc type).map fun (fs, _) => { s with fs := fs }
  | .ilock inum =>
    match s.icache inum with
    | some _ => some s
    | none =>
      if inum < s.fs.sb.ninodes ∧ (s.fs.readInode inum).type ≠ 0 then
        some { s with icache := update s.icache inum (some (s.fs.readInode inum)) }
      else none
  | .forget inum => some { s with icache := update s.icache inum none }
  | .writei inum off src copyin _ => s.withInode inum fun ip =>
    (s.fs.writei inum ip off src copyin).map fun (fs, ip, _) => (fs, some ip)
  | .readi inum off n copyout _ => s.withInode inum fun ip =>
    (s.fs.readi ip off n copyout).map fun (fs, ip, _) => (fs, some ip)
  | .itrunc inum => s.withInode inum fun ip =>
    (s.fs.itrunc inum ip).map fun (fs, ip) => (fs, some ip)
  | .ifree inum => s.withInode inum fun ip => (s.fs.ifree inum ip).map fun fs => (fs, none)

end FsState

end AudioPlayer
