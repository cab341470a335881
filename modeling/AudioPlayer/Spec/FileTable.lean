import AudioPlayer.Spec.ExecCall
import AudioPlayer.Spec.FsTrace
import AudioPlayer.Spec.Names
import AudioPlayer.Spec.Proc

/-!
# The file table (`kernel/file.c`, `kernel/pipe.c`)

`ftable` with the descriptors of the processes, which point into it, and with the ends of the pipes.
What is in a pipe, and who waits for it, is not kept here. A system call runs alone, as for the
table of the inodes.

A function gives `none` where the source panics. What is not a matter of files is an argument of
the call: the data that a process reads or writes and the failures of `copyin` and `copyout`, what a
pipe or a device returns, and whether there is memory.
-/

namespace AudioPlayer

open Function

/-- `NDEV`. -/
abbrev ndev : ℕ := 10

/-- `type` of `struct file`. -/
inductive FileType
  | none
  | pipe
  | inode
  | device
deriving DecidableEq

/-- `struct file`. A pipe is the number of its page. -/
structure KFile where
  type : FileType
  ref : ℤ
  readable : Bool
  writable : Bool
  pipe : ℕ
  ip : InodePtr
  off : ℕ
  major : ℕ

/-- `readopen` and `writeopen` of `struct pipe`. -/
structure PipeEnds where
  readopen : Bool
  writeopen : Bool
deriving DecidableEq

/-- What `struct proc` has of files. -/
structure FileProc where
  state : ProcState
  ofile : Fin nofile → Option FilePtr
  cwd : Option InodePtr

/-- The file system, the files that are open, the pipes and the processes. -/
structure FileSys where
  inodes : Inodes
  file : FilePtr → KFile
  pipe : ℕ → Option PipeEnds
  proc : Slot → FileProc
  initproc : Slot

/-- The process is neither free nor a zombie. -/
def FileProc.alive (p : FileProc) : Bool := p.state ≠ .unused ∧ p.state ≠ .zombie

namespace FileSys

/-- `*f = x`. -/
def setFile (s : FileSys) (f : FilePtr) (x : KFile) : FileSys :=
  { s with file := update s.file f x }

def setProc (s : FileSys) (p : Slot) (x : FileProc) : FileSys :=
  { s with proc := update s.proc p x }

/-- `p->ofile[fd] = f`. -/
def setOfile (s : FileSys) (p : Slot) (fd : Fin nofile) (f : Option FilePtr) : FileSys :=
  s.setProc p { s.proc p with ofile := update (s.proc p).ofile fd f }

/-- `p->cwd = ip`. -/
def setCwd (s : FileSys) (p : Slot) (ip : Option InodePtr) : FileSys :=
  s.setProc p { s.proc p with cwd := ip }

/-- `filealloc`, `none` for a full table. -/
def filealloc (s : FileSys) : Option (FileSys × FilePtr) :=
  ((List.finRange nFile).find? fun f => (s.file f).ref = 0).map fun f =>
    (s.setFile f { s.file f with ref := 1 }, f)

/-- `filedup`. -/
def filedup (s : FileSys) (f : FilePtr) : Option FileSys :=
  if (s.file f).ref < 1 then none
  else some (s.setFile f { s.file f with ref := (s.file f).ref + 1 })

/-- `pipeclose`. The page is freed with the second end. There is no pipe to close in a page that
was freed before. -/
def pipeclose (s : FileSys) (pi : ℕ) (writable : Bool) : Option FileSys :=
  (s.pipe pi).map fun ends =>
    let ends := if writable then { ends with writeopen := false } else { ends with readopen := false }
    { s with
      pipe := update s.pipe pi (if ends.readopen ∨ ends.writeopen then some ends else none) }

/-- `fileclose`. -/
def fileclose (s : FileSys) (f : FilePtr) : Option FileSys :=
  let ff := s.file f
  if ff.ref < 1 then none
  else if ff.ref - 1 > 0 then some (s.setFile f { ff with ref := ff.ref - 1 })
  else
    let s := s.setFile f { ff with ref := 0, type := .none }
    match ff.type with
    | .pipe => s.pipeclose ff.pipe ff.writable
    | .inode | .device => (s.inodes.beginOp.iput ff.ip).map fun t => { s with inodes := t.endOp }
    | .none => some s

/-- `filestat`. `copyout` says whether the result can be copied out. -/
def filestat (s : FileSys) (f : FilePtr) (copyout : Bool) : Option (FileSys × ℤ) :=
  let x := s.file f
  if x.type = .inode ∨ x.type = .device then
    (s.inodes.ilock x.ip).bind fun t =>
      (t.iunlock x.ip).map fun t => ({ s with inodes := t }, if copyout then 0 else -1)
  else some (s, -1)

/-- `fileread`; `r` is what `piperead` or the device returns. A `major` below 0 is above `NDEV`
here. -/
def fileread (s : FileSys) (f : FilePtr) (n : ℤ) (copyout : ℕ → Bool) (r : ℤ) :
    Option (FileSys × ℤ) :=
  let x := s.file f
  if !x.readable then some (s, -1)
  else
    match x.type with
    | .pipe => some (s, r)
    | .device => some (s, if x.major ≥ ndev then -1 else r)
    | .inode =>
      (s.inodes.ilock x.ip).bind fun t =>
        (t.readi x.ip x.off (n % 2 ^ 32).toNat copyout).bind fun (t, data) =>
          let s := { s with inodes := t }.setFile f
            { x with off := (x.off + (data.getD []).length) % 2 ^ 32 }
          (t.iunlock x.ip).map fun t =>
            ({ s with inodes := t }, data.elim (-1) fun data => (data.length : ℤ))
    | .none => none

/-- The loop of `filewrite` from the byte `i` on, with how far it comes. Each round writes a byte at
least. -/
def writeChunks (f : FilePtr) (n : ℕ) (src : ℕ → UInt8) (copyin : ℕ → ℕ → Option ℕ) :
    ℕ → FileSys → ℕ → Option (FileSys × ℕ)
  | 0, s, i => some (s, i)
  | fuel + 1, s, i =>
    if i < n then
      let n1 := min (n - i) filewriteMax
      let x := s.file f
      (s.inodes.beginOp.ilock x.ip).bind fun t =>
        (t.writei x.ip x.off ((List.range n1).map fun j => src (i + j)) (copyin i)).bind fun (t, r) =>
          let off := if r > 0 then (x.off + r.toNat) % 2 ^ 32 else x.off
          (t.iunlock x.ip).bind fun t =>
            let s := { s with inodes := t.endOp }.setFile f { x with off := off }
            if r ≠ n1 then some (s, i) else writeChunks f n src copyin fuel s (i + n1)
    else some (s, i)

/-- `filewrite`; `r` is what `pipewrite` or the device returns. -/
def filewrite (s : FileSys) (f : FilePtr) (n : ℤ) (src : ℕ → UInt8) (copyin : ℕ → ℕ → Option ℕ)
    (r : ℤ) : Option (FileSys × ℤ) :=
  let x := s.file f
  if !x.writable then some (s, -1)
  else
    match x.type with
    | .pipe => some (s, r)
    | .device => some (s, if x.major ≥ ndev then -1 else r)
    | .inode =>
      (s.writeChunks f n.toNat src copyin n.toNat 0).map fun (s, i) =>
        (s, if (i : ℤ) = n then n else -1)
    | .none => none

/-- `pipealloc`. `page` is what `kalloc` gives, which is no page of another pipe. -/
def pipealloc (s : FileSys) (page : Option ℕ) : Option (FileSys × Option (FilePtr × FilePtr)) :=
  match s.filealloc with
  | none => some (s, none)
  | some (s, f0) =>
    match s.filealloc with
    | none => (s.fileclose f0).map fun s => (s, none)
    | some (s, f1) =>
      match page with
      | none => (s.fileclose f0).bind fun s => (s.fileclose f1).map fun s => (s, none)
      | some pi =>
        if (s.pipe pi).isSome then none
        else
          let s := { s with pipe := update s.pipe pi (some ⟨true, true⟩) }
          let s := s.setFile f0
            { s.file f0 with type := .pipe, readable := true, writable := false, pipe := pi }
          let s := s.setFile f1
            { s.file f1 with type := .pipe, readable := false, writable := true, pipe := pi }
          some (s, some (f0, f1))

end FileSys

end AudioPlayer
