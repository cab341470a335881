import AudioPlayer.Spec.Inode
import AudioPlayer.Spec.Kalloc

/-!
# Paths (`kernel/fs.c`)

`skipelem` cuts one element off a path, and `namex` looks the elements up one after another.
The buffer for the name has room for `DIRSIZ` bytes. It is terminated only when the element is
shorter than that, and what is behind the zero stays there from before.
-/

namespace AudioPlayer

/-- `'/'`. -/
abbrev slash : UInt8 := 0x2f

/-- `while(p(*path)) path++;` -/
def KString.skip (path : KString) (p : UInt8 → Bool) : KString where
  bytes := path.bytes.dropWhile p
  nonzero := fun h => path.nonzero ((List.dropWhile_sublist p).subset h)
  fits := lt_of_le_of_lt (List.dropWhile_sublist p).length_le path.fits

/-- `skipelem`: the path behind the element and the buffer with the element. The length fits an
`int`. -/
def skipelem (path : KString) (name : List UInt8) : Option (KString × List UInt8) :=
  let path := path.skip (· == slash)
  if path.bytes = [] then none
  else
    let s := path
    let path := path.skip (· != slash)
    let len := s.bytes.length - path.bytes.length
    let name :=
      if len ≥ dirSiz then s.bytes.take dirSiz ++ name.drop dirSiz
      else s.bytes.take len ++ 0 :: name.drop (len + 1)
    some (path.skip (· == slash), name)

namespace Inodes

/-- The loop of `namex`, with the buffer for the name. Each round takes a byte at least off the
path. -/
def namexLoop (nameiparent : Bool) :
    ℕ → Inodes → InodePtr → KString → List UInt8 → Option (Inodes × Option InodePtr × List UInt8)
  | 0, _, _, _, _ => none
  | fuel + 1, s, ip, path, name =>
    match skipelem path name with
    | none =>
      if nameiparent then (s.iput ip).map fun s => (s, none, name) else some (s, some ip, name)
    | some (path, name) =>
      (s.ilock ip).bind fun s =>
        if (s.inode ip).din.type ≠ tDir then (s.iunlockput ip).map fun s => (s, none, name)
        else if nameiparent ∧ path.bytes = [] then
          -- stop one level early
          (s.iunlock ip).map fun s => (s, some ip, name)
        else
          (s.dirlookup ip name).bind fun (s, next) =>
            match next with
            | none => (s.iunlockput ip).map fun s => (s, none, name)
            | some (next, _) =>
              (s.iunlockput ip).bind fun s => namexLoop nameiparent fuel s next path name

/-- `namex` for a process in the directory `cwd`. -/
def namex (s : Inodes) (cwd : InodePtr) (path : KString) (nameiparent : Bool) (name : List UInt8) :
    Option (Inodes × Option InodePtr × List UInt8) :=
  (if path.bytes.head? = some slash then s.iget rootDev rootIno else some (s.idup cwd, cwd)).bind
    fun (s, ip) => s.namexLoop nameiparent (path.bytes.length + 1) ip path name

/-- `namei`. The buffer on its stack holds what was there before, here zeros. -/
def namei (s : Inodes) (cwd : InodePtr) (path : KString) : Option (Inodes × Option InodePtr) :=
  (s.namex cwd path false (List.replicate dirSiz 0)).map fun (s, ip, _) => (s, ip)

/-- `nameiparent`, with the buffer of its caller. -/
def nameiparent (s : Inodes) (cwd : InodePtr) (path : KString) (name : List UInt8) :
    Option (Inodes × Option InodePtr × List UInt8) :=
  s.namex cwd path true name

end Inodes

end AudioPlayer
