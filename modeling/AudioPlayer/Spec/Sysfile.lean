import AudioPlayer.Spec.FileTable

/-!
# The system calls on files (`kernel/sysfile.c`, `kernel/proc.c`)

Every system call that takes or gives back a file or an inode: those of `sysfile.c`, and `fork`,
`exit` and `wait` with what they do to descriptors. A path is `none` where `argstr` fails.
-/

namespace AudioPlayer

/-- The inode that `sys_open` works on, which is locked, `none` for -1. -/
def Inodes.openInode (s : Inodes) (cwd : InodePtr) (path : KString) (omode : ℕ) :
    Option (Inodes × Option InodePtr) :=
  if omode &&& oCreate ≠ 0 then s.create cwd path tFile 0 0
  else
    (s.namei cwd path).bind fun (s, ip) =>
      match ip with
      | none => some (s, none)
      | some ip =>
        (s.ilock ip).bind fun s =>
          if (s.inode ip).din.type = tDir ∧ omode ≠ 0 then (s.iunlockput ip).map fun s => (s, none)
          else some (s, some ip)

namespace FileSys

/-- `argfd`. -/
def argfd (s : FileSys) (p : Slot) (fd : ℤ) : Option (Fin nofile × FilePtr) :=
  if h : 0 ≤ fd ∧ fd < nofile then
    let fd : Fin nofile := ⟨fd.toNat, by omega⟩
    ((s.proc p).ofile fd).map fun f => (fd, f)
  else none

/-- `fdalloc`, `none` for -1. -/
def fdalloc (s : FileSys) (p : Slot) (f : FilePtr) : Option (FileSys × Fin nofile) :=
  ((List.finRange nofile).find? fun fd => (s.proc p).ofile fd = none).map fun fd =>
    (s.setOfile p fd (some f), fd)

/-- A call on the descriptor `fd`, which is checked first. -/
def onFile (s : FileSys) (p : Slot) (fd : ℤ) (call : Fin nofile → FilePtr → Option (FileSys × ℤ)) :
    Option (FileSys × ℤ) :=
  match s.argfd p fd with
  | none => some (s, -1)
  | some (fd, f) => call fd f

/-- `sys_dup`. -/
def sysDup (s : FileSys) (p : Slot) (fd : ℤ) : Option (FileSys × ℤ) :=
  s.onFile p fd fun _ f =>
    match s.fdalloc p f with
    | none => some (s, -1)
    | some (s, fd) => (s.filedup f).map fun s => (s, (fd : ℕ))

/-- `sys_read`. -/
def sysRead (s : FileSys) (p : Slot) (fd n : ℤ) (copyout : ℕ → Bool) (r : ℤ) : Option (FileSys × ℤ) :=
  s.onFile p fd fun _ f => s.fileread f n copyout r

/-- `sys_write`. -/
def sysWrite (s : FileSys) (p : Slot) (fd n : ℤ) (src : ℕ → UInt8) (copyin : ℕ → ℕ → Option ℕ) (r : ℤ) :
    Option (FileSys × ℤ) :=
  s.onFile p fd fun _ f => s.filewrite f n src copyin r

/-- `sys_close`. -/
def sysClose (s : FileSys) (p : Slot) (fd : ℤ) : Option (FileSys × ℤ) :=
  s.onFile p fd fun fd f => ((s.setOfile p fd none).fileclose f).map fun s => (s, 0)

/-- `sys_fstat`. -/
def sysFstat (s : FileSys) (p : Slot) (fd : ℤ) (copyout : Bool) : Option (FileSys × ℤ) :=
  s.onFile p fd fun _ f => s.filestat f copyout

/-- A call on the inodes alone, by a process with its current directory. -/
def onInodes (s : FileSys) (p : Slot) (call : InodePtr → Option (Inodes × ℤ)) : Option (FileSys × ℤ) :=
  (s.proc p).cwd.bind fun cwd => (call cwd).map fun (t, r) => ({ s with inodes := t }, r)

/-- `sys_link`. -/
def sysLink (s : FileSys) (p : Slot) (old new : Option KString) : Option (FileSys × ℤ) :=
  match old, new with
  | some old, some new => s.onInodes p fun cwd => s.inodes.link cwd old new
  | _, _ => some (s, -1)

/-- `sys_unlink`. -/
def sysUnlink (s : FileSys) (p : Slot) (path : Option KString) : Option (FileSys × ℤ) :=
  match path with
  | some path => s.onInodes p fun cwd => s.inodes.unlink cwd path
  | none => some (s, -1)

/-- `sys_mkdir`. -/
def sysMkdir (s : FileSys) (p : Slot) (path : Option KString) : Option (FileSys × ℤ) :=
  match path with
  | some path => s.onInodes p fun cwd => s.inodes.mkdir cwd path
  | none => some ({ s with inodes := s.inodes.beginOp.endOp }, -1)

/-- `sys_mknod`. -/
def sysMknod (s : FileSys) (p : Slot) (path : Option KString) (major minor : ℕ) : Option (FileSys × ℤ) :=
  match path with
  | some path => s.onInodes p fun cwd => s.inodes.mknod cwd path major minor
  | none => some ({ s with inodes := s.inodes.beginOp.endOp }, -1)

/-- `sys_open` gives up and gives the inode back. -/
def openBad (s : FileSys) (ip : InodePtr) : Option (FileSys × ℤ) :=
  (s.inodes.iunlockput ip).map fun t => ({ s with inodes := t.endOp }, -1)

/-- The fields of a file that `sys_open` sets for the inode `ip`. -/
def openedFile (x : KFile) (ip : InodePtr) (din : Dinode) (omode : ℕ) : KFile :=
  let x := if din.type = tDevice then { x with type := .device, major := din.major }
    else { x with type := .inode, off := 0 }
  { x with
    ip := ip
    readable := omode &&& oWronly = 0
    writable := omode &&& oWronly ≠ 0 ∨ omode &&& oRdwr ≠ 0 }

/-- `sys_open` with an inode, which is locked. A `major` below 0 is above `NDEV` here. -/
def openFile (s : FileSys) (p : Slot) (ip : InodePtr) (omode : ℕ) : Option (FileSys × ℤ) :=
  let din := (s.inodes.inode ip).din
  if din.type = tDevice ∧ din.major ≥ ndev then s.openBad ip
  else
    match s.filealloc with
    | none => s.openBad ip
    | some (s, f) =>
      match s.fdalloc p f with
      | none => (s.fileclose f).bind fun s => s.openBad ip
      | some (s, fd) =>
        let s := s.setFile f (openedFile (s.file f) ip din omode)
        (if omode &&& oTrunc ≠ 0 ∧ din.type = tFile then s.inodes.itrunc ip else some s.inodes).bind
          fun t => (t.iunlock ip).map fun t => ({ s with inodes := t.endOp }, (fd : ℕ))

/-- `sys_open`. -/
def sysOpen (s : FileSys) (p : Slot) (path : Option KString) (omode : ℕ) : Option (FileSys × ℤ) :=
  match path with
  | none => some (s, -1)
  | some path =>
    (s.proc p).cwd.bind fun cwd =>
      (s.inodes.beginOp.openInode cwd path omode).bind fun (t, ip) =>
        match ip with
        | none => some ({ s with inodes := t.endOp }, -1)
        | some ip => { s with inodes := t }.openFile p ip omode

/-- `sys_chdir`. -/
def sysChdir (s : FileSys) (p : Slot) (path : Option KString) : Option (FileSys × ℤ) :=
  match path with
  | none => some ({ s with inodes := s.inodes.beginOp.endOp }, -1)
  | some path =>
    (s.proc p).cwd.bind fun cwd =>
      (s.inodes.beginOp.namei cwd path).bind fun (t, ip) =>
        match ip with
        | none => some ({ s with inodes := t.endOp }, -1)
        | some ip =>
          (t.ilock ip).bind fun t =>
            if (t.inode ip).din.type ≠ tDir then
              (t.iunlockput ip).map fun t => ({ s with inodes := t.endOp }, -1)
            else
              (t.iunlock ip).bind fun t =>
                (t.iput cwd).map fun t => ({ s with inodes := t.endOp }.setCwd p (some ip), 0)

/-- The memory that `exec` finds, and the fields of the process for it. -/
structure ExecMem where
  heap : Heap
  trapframe : ℕ
  pagetable : ℕ
  sz : ℕ
  name : List UInt8

/-- `sys_exec`. The memory matters to the files only as far as it runs out. -/
def sysExec (s : FileSys) (p : Slot) (path : Option KString) (m : ExecMem) (fetch : ℕ → Heap.ArgFetch) :
    Option (FileSys × ℤ) :=
  match path with
  | none => some (s, -1)
  | some path =>
    let (h, pages, argv) := m.heap.fetchArgs fetch maxarg 0
    match argv with
    | none => (h.freeArgs pages).map fun _ => (s, -1)
    | some argv =>
      (s.proc p).cwd.bind fun cwd =>
        (ExecState.exec
            ⟨s.inodes, h, ⟨m.trapframe, m.pagetable, m.sz, m.name, (s.proc p).ofile, cwd⟩⟩ path argv).bind
          fun (x, r) => (x.heap.freeArgs pages).map fun _ => ({ s with inodes := x.inodes }, r)

/-- `sys_pipe` gives the two files back. -/
def pipeBad (s : FileSys) (rf wf : FilePtr) : Option (FileSys × ℤ) :=
  (s.fileclose rf).bind fun s => (s.fileclose wf).map fun s => (s, -1)

/-- `sys_pipe`. `copyout` says whether the descriptors can be copied out. -/
def sysPipe (s : FileSys) (p : Slot) (page : Option ℕ) (copyout : Bool) : Option (FileSys × ℤ) :=
  (s.pipealloc page).bind fun (s, files) =>
    match files with
    | none => some (s, -1)
    | some (rf, wf) =>
      match s.fdalloc p rf with
      | none => s.pipeBad rf wf
      | some (s, fd0) =>
        match s.fdalloc p wf with
        | none => (s.setOfile p fd0 none).pipeBad rf wf
        | some (s, fd1) =>
          if copyout then some (s, 0)
          else ((s.setOfile p fd0 none).setOfile p fd1 none).pipeBad rf wf

/-- The loop of `fork` over the descriptors, at `fd`. -/
def forkFile (p np : Slot) (s : FileSys) (fd : Fin nofile) : Option FileSys :=
  match (s.proc p).ofile fd with
  | none => some s
  | some f => (s.filedup f).map fun s => s.setOfile np fd (some f)

/-- `fork`, with the slot of the child for its pid. `mem` says whether there is memory for it. -/
def fork (s : FileSys) (p : Slot) (mem : Bool) : Option (FileSys × ℤ) :=
  match (List.finRange nproc).find? fun np => (s.proc np).state = .unused with
  | none => some (s, -1)
  | some np =>
    if !mem then some (s, -1)
    else
      ((List.finRange nofile).foldlM (forkFile p np) s).bind fun s =>
        (s.proc p).cwd.map fun cwd =>
          let s := { s with inodes := s.inodes.idup cwd }.setCwd np (some cwd)
          (s.setProc np { s.proc np with state := .runnable }, (np : ℕ))

/-- The loop of `exit` over the descriptors, at `fd`. -/
def exitFile (p : Slot) (s : FileSys) (fd : Fin nofile) : Option FileSys :=
  match (s.proc p).ofile fd with
  | none => some s
  | some f => (s.fileclose f).map fun s => s.setOfile p fd none

/-- `exit`. -/
def exit (s : FileSys) (p : Slot) : Option FileSys :=
  if p = s.initproc then none
  else
    ((List.finRange nofile).foldlM (exitFile p) s).bind fun s =>
      (s.proc p).cwd.bind fun cwd =>
        (s.inodes.beginOp.iput cwd).map fun t =>
          let s := { s with inodes := t.endOp }.setCwd p none
          s.setProc p { s.proc p with state := .zombie }

/-- `wait` frees the slot of a child `c` that has exited. -/
def wait (s : FileSys) (c : Slot) : Option FileSys :=
  if (s.proc c).state = .zombie then some (s.setProc c { s.proc c with state := .unused }) else none

end FileSys

/-- A system call with what it depends on apart from the files. -/
inductive FileCall
  | open (path : Option KString) (omode : ℕ)
  | close (fd : ℤ)
  | dup (fd : ℤ)
  | pipe (page : Option ℕ) (copyout : Bool)
  | read (fd n : ℤ) (copyout : ℕ → Bool) (r : ℤ)
  | write (fd n : ℤ) (src : ℕ → UInt8) (copyin : ℕ → ℕ → Option ℕ) (r : ℤ)
  | fstat (fd : ℤ) (copyout : Bool)
  | link (old new : Option KString)
  | unlink (path : Option KString)
  | mkdir (path : Option KString)
  | mknod (path : Option KString) (major minor : ℕ)
  | chdir (path : Option KString)
  | exec (path : Option KString) (m : FileSys.ExecMem) (fetch : ℕ → Heap.ArgFetch)
  | fork (mem : Bool)
  | exit
  | wait (c : Slot)

namespace FileSys

/-- A system call of process `p`, with its return value. `exit` returns nothing, and the pid of
`wait` is left out. -/
def call (s : FileSys) (p : Slot) : FileCall → Option (FileSys × ℤ)
  | .open path omode => s.sysOpen p path omode
  | .close fd => s.sysClose p fd
  | .dup fd => s.sysDup p fd
  | .pipe page copyout => s.sysPipe p page copyout
  | .read fd n copyout r => s.sysRead p fd n copyout r
  | .write fd n src copyin r => s.sysWrite p fd n src copyin r
  | .fstat fd copyout => s.sysFstat p fd copyout
  | .link old new => s.sysLink p old new
  | .unlink path => s.sysUnlink p path
  | .mkdir path => s.sysMkdir p path
  | .mknod path major minor => s.sysMknod p path major minor
  | .chdir path => s.sysChdir p path
  | .exec path m fetch => s.sysExec p path m fetch
  | .fork mem => s.fork p mem
  | .exit => (s.exit p).map fun s => (s, 0)
  | .wait c => (s.wait c).map fun s => (s, 0)

/-- A process that is alive makes a call. -/
def step (s : FileSys) (a : Slot × FileCall) : Option FileSys :=
  if (s.proc a.1).alive then (s.call a.1 a.2).map Prod.fst else none

/-- `userinit`, when the first process is about to run: it is in the root directory, and no file is
open. -/
def boot (fs : Fs) : FileSys where
  inodes := ⟨fs, fun ip => ⟨if ip = 0 then rootDev else 0, if ip = 0 then rootIno else 0,
    if ip = 0 then 1 else 0, false, false, Dinode.zero⟩, 0⟩
  file := fun _ => ⟨.none, 0, false, false, 0, 0, 0, 0⟩
  pipe := fun _ => none
  proc := fun p => ⟨if p = 0 then .runnable else .unused, fun _ => none, if p = 0 then some 0 else none⟩
  initproc := 0

end FileSys

end AudioPlayer
