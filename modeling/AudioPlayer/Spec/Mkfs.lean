import AudioPlayer.Spec.DiskFormat
import Mathlib.Data.List.Basic

/-!
# `mkfs` (`mkfs/mkfs.c`)

`mkfs` writes the image of a file system with the files it is given. The image is a file of
`nblk` blocks; the ghost `trace` records the inodes that `winode` writes, with the block they
go to, and the indices into `indirect[]`.

A function gives `none` where the program ends with an error: a failed assertion, or a block
that `read` does not find in the image. The calls of the host that `mkfs` makes succeed
otherwise, and the host is little-endian, so that `xshort` and `xint` do nothing.
-/

namespace AudioPlayer

open Bytes

/-- `NINODES`. -/
abbrev nInodes : ℕ := 200

/-- `nbitmap`. -/
abbrev nbitmap : ℕ := fsSize / (bsize * 8) + 1

/-- `ninodeblocks`. -/
abbrev ninodeblocks : ℕ := nInodes / ipb + 1

/-- `nlog`. -/
abbrev nlog : ℕ := logSize

/-- `nmeta`. -/
abbrev nmeta : ℕ := 2 + nlog + ninodeblocks + nbitmap

/-- The super block of `mkfs`. -/
def mkfsSb : Superblock where
  magic := fsMagic
  size := fsSize
  nblocks := fsSize - nmeta
  ninodes := nInodes
  nlog := nlog
  logstart := 2
  inodestart := 2 + nlog
  bmapstart := 2 + nlog + ninodeblocks

inductive MkfsAccess
  | winode (inum bn : ℕ)
  | indirect (i : ℕ)

structure Image where
  disk : ℕ → Block
  nblk : ℕ
  freeinode : ℕ
  freeblock : ℕ
  trace : List MkfsAccess

/-- An input file: its path, and what the calls of `read` return before the end. -/
structure InputFile where
  path : List UInt8
  chunks : List (List UInt8)
  path_nul : 0 ∉ path
  chunks_fit : ∀ chunk ∈ chunks, chunk ≠ [] ∧ chunk.length ≤ bsize

/-- The bytes of the file. -/
def InputFile.content (f : InputFile) : List UInt8 := f.chunks.flatten

namespace Image

/-- The block of the image that a sector is, with its offset as a `uint`. -/
def sector (sec : ℕ) : ℕ := sec * bsize % 2 ^ 32 / bsize

/-- `rsect`. -/
def rsect (im : Image) (sec : ℕ) : Option Block :=
  if sector sec < im.nblk then some (im.disk (sector sec)) else none

/-- `wsect`. -/
def wsect (im : Image) (sec : ℕ) (buf : Block) : Image :=
  { im with
    disk := Function.update im.disk (sector sec) buf
    nblk := max im.nblk (sector sec + 1) }

/-- `IBLOCK`. -/
def iblock (inum : ℕ) : ℕ := inum / ipb + mkfsSb.inodestart

/-- `winode`. -/
def winode (im : Image) (inum : ℕ) (din : Dinode) : Option Image :=
  let bn := iblock inum
  (im.rsect bn).map fun buf =>
    { im.wsect bn (move buf (dinodeSize * (inum % ipb)) dinodeSize din.encode) with
      trace := .winode inum bn :: im.trace }

/-- `rinode`. -/
def rinode (im : Image) (inum : ℕ) : Option Dinode :=
  (im.rsect (iblock inum)).map fun buf => .decode buf (dinodeSize * (inum % ipb))

/-- `ialloc`. -/
def ialloc (im : Image) (type : ℕ) : Option (Image × ℕ) :=
  let inum := im.freeinode
  ({ im with freeinode := im.freeinode + 1 }.winode inum
    { Dinode.zero with type := type, nlink := 1 }).map fun im => (im, inum)

/-- `balloc`. -/
def balloc (im : Image) (used : ℕ) : Option Image :=
  if used < bsize * 8 then
    some (im.wsect mkfsSb.bmapstart ((List.range used).foldl setBit fun _ => 0))
  else none

/-- `din.addrs[i] = freeblock++`. -/
def newAddr (im : Image) (din : Dinode) (i : ℕ) : Image × Dinode :=
  ({ im with freeblock := im.freeblock + 1 },
    { din with addrs := Function.update din.addrs i im.freeblock })

/-- The block for block `fbn` of a file, in the loop of `iappend`. -/
def fileBlock (im : Image) (din : Dinode) (fbn : ℕ) : Option (Image × Dinode × ℕ) :=
  if fbn < nDirect then
    let (im, din) := if din.addrs fbn = 0 then im.newAddr din fbn else (im, din)
    some (im, din, din.addrs fbn)
  else
    let (im, din) := if din.addrs nDirect = 0 then im.newAddr din nDirect else (im, din)
    (im.rsect (din.addrs nDirect)).map fun indirect =>
      let i := fbn - nDirect
      let im := { im with trace := .indirect i :: im.trace }
      if load 4 indirect (4 * i) = 0 then
        let indirect := store 4 indirect (4 * i) im.freeblock
        let im := { im with freeblock := im.freeblock + 1 }
        (im.wsect (din.addrs nDirect) indirect, din, load 4 indirect (4 * i))
      else (im, din, load 4 indirect (4 * i))

/-- A pass of the loop in `iappend`, with the number of bytes it appends. -/
def appendPass (im : Image) (din : Dinode) (off : ℕ) (p : List UInt8) :
    Option (Image × Dinode × ℕ) :=
  let fbn := off / bsize
  if fbn < maxFile then
    (im.fileBlock din fbn).bind fun (im, din, x) =>
      let n1 := min p.length (((fbn + 1) * bsize + 2 ^ 32 - off) % 2 ^ 32)
      (im.rsect x).map fun buf =>
        (im.wsect x (move buf (off - fbn * bsize) n1 (ofList p)), din, n1)
  else none

/-- The loop of `iappend`. A pass appends a byte at least. -/
def appendLoop : ℕ → Image → Dinode → ℕ → List UInt8 → Option (Image × Dinode × ℕ)
  | 0, im, din, off, _ => some (im, din, off)
  | fuel + 1, im, din, off, p =>
    if p = [] then some (im, din, off)
    else
      (im.appendPass din off p).bind fun (im, din, n1) =>
        appendLoop fuel im din ((off + n1) % 2 ^ 32) (p.drop n1)

/-- `iappend`. -/
def iappend (im : Image) (inum : ℕ) (p : List UInt8) : Option Image :=
  (im.rinode inum).bind fun din =>
    (im.appendLoop p.length din din.size p).bind fun (im, din, off) =>
      im.winode inum { din with size := off }

/-- The name of a file without `user/` and without one leading underscore. -/
def shortname (path : List UInt8) : List UInt8 :=
  let name := if strncmp 5 path (ascii "user/") = 0 then path.drop 5 else path
  if name.head? = some 95 then name.tail else name

/-- The body of the loop over the files. -/
def addFile (im : Image) (f : InputFile) : Option Image :=
  let name := if strncmp 5 f.path (ascii "user/") = 0 then f.path.drop 5 else f.path
  -- the assertion that the name has no slash
  if 47 ∈ name then none
  else
    (im.ialloc tFile).bind fun (im, inum) =>
      (im.iappend rootIno (direntBytes inum (shortname f.path))).bind fun im =>
        f.chunks.foldlM (fun im chunk => im.iappend inum chunk) im

/-- The image after the blocks are zeroed and the super block is written. -/
def empty : Image :=
  { disk := fun _ _ => 0, nblk := fsSize, freeinode := 1, freeblock := nmeta, trace := [] : Image }.wsect
    1 mkfsSb.encode

/-- The image with an empty root directory. -/
def withRoot : Option Image :=
  (empty.ialloc tDir).bind fun (im, rootino) =>
    if rootino ≠ rootIno then none
    else
      (im.iappend rootino (direntBytes rootino (ascii "."))).bind fun im =>
        im.iappend rootino (direntBytes rootino (ascii ".."))

/-- The end of `main`: the size of the root directory is rounded up, and the bitmap
written. -/
def finishRoot (im : Image) : Option Image :=
  (im.rinode rootIno).bind fun din =>
    let off := (din.size / bsize + 1) * bsize % 2 ^ 32
    (im.winode rootIno { din with size := off }).bind fun im => im.balloc im.freeblock

/-- `main`. -/
def mkfs (files : List InputFile) : Option Image :=
  (withRoot.bind fun im => files.foldlM addFile im).bind finishRoot

end Image

end AudioPlayer
