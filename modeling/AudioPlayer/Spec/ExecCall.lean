import AudioPlayer.Spec.Exec
import AudioPlayer.Spec.File
import AudioPlayer.Spec.Path

/-!
# `exec` (`kernel/exec.c`)

The whole of `exec`: the inode of the path, which is read in a transaction, the memory of the
process, and what it changes in `struct proc`. A panic is `none`.
-/

namespace AudioPlayer

/-- What `exec` uses of `struct proc`. The page of the trapframe is `trapframe`. -/
structure ExecProc where
  trapframe : ℕ
  pagetable : ℕ
  sz : ℕ
  name : List UInt8
  ofile : Fin nofile → Option FilePtr
  cwd : InodePtr

/-- The file system, the memory and the process that calls `exec`. -/
structure ExecState where
  inodes : Inodes
  heap : Heap
  proc : ExecProc

/-- The loop of `exec` that finds the last element of the path, with `last` so far. -/
def lastElem (last : List UInt8) : List UInt8 → List UInt8
  | [] => last
  | c :: s => lastElem (if c = slash then s else last) s

/-- `safestrcpy(s, t, n)` for a string `t` without zeros. -/
def safestrcpy (s t : List UInt8) (n : ℕ) : List UInt8 :=
  if n = 0 then s
  else
    let copied := (t ++ [0]).take (n - 1)
    copied ++ 0 :: s.drop (copied.length + 1)

namespace ExecState

/-- `readi` of an inode into the memory of the kernel. -/
def reader (ip : InodePtr) : FileReader Inodes := fun s off n =>
  (s.readi ip off n fun _ => true).map fun (s, data) => (s, data.getD [])

/-- `exec` when the new image is complete: it commits to it. -/
def commit (s : ExecState) (path : KString) (image : ExecImage) : Option (ExecState × ℤ) :=
  let p := s.proc
  let name := safestrcpy p.name (lastElem path.bytes path.bytes) 16
  (s.heap.execCommit p.trapframe p.pagetable p.sz image).map fun h =>
    ({ s with
        heap := h
        proc := { p with name := name, pagetable := image.pagetable, sz := image.sz } }, image.argc)

/-- `exec` until it is done with the file: what it has loaded, `none` for -1. -/
def load (s : ExecState) (path : KString) : Option (ExecState × Option ExecImage) :=
  (s.inodes.beginOp.namei s.proc.cwd path).bind fun (inodes, ip) =>
    match ip with
    | none => some ({ s with inodes := inodes.endOp }, none)
    | some ip =>
      (inodes.ilock ip).bind fun inodes =>
        (s.heap.execLoad (reader ip) s.proc.trapframe inodes).bind fun (h, inodes, l) =>
          match l.pagetable, l.ok with
          | some pagetable, true =>
            (inodes.iunlockput ip).map fun inodes =>
              ({ s with inodes := inodes.endOp, heap := h }, some ⟨pagetable, l.sz, l.entry, 0, 0⟩)
          | pagetable, _ =>
            -- bad
            (h.execBad pagetable l.sz).bind fun h =>
              (inodes.iunlockput ip).map fun inodes =>
                ({ s with inodes := inodes.endOp, heap := h }, none)

/-- `exec`, with its return value. -/
def exec (s : ExecState) (path : KString) (argv : List KString) : Option (ExecState × ℤ) :=
  (s.load path).bind fun (s, image) =>
    match image with
    | none => some (s, -1)
    | some image =>
      (s.heap.execStack image.pagetable image.sz argv).bind fun (h, stack) =>
        match stack with
        | none => some ({ s with heap := h }, -1)
        | some (sz, sp) =>
          { s with heap := h }.commit path { image with sz := sz, sp := sp, argc := argv.length }

end ExecState

end AudioPlayer
