import AudioPlayer.Lib.Bytes
import AudioPlayer.Spec.Uvm

/-!
# `exec` and its memory (`kernel/exec.c`, `kernel/sysfile.c`)

`exec` builds a page table of its own and gives the old one back at its end, or its own one where
it fails. The file is read by a `FileReader`, which is `readi` of an inode, or a file of given
contents. The arguments are what `fetchaddr` and `fetchstr` find for each of them.

A panic is `none`, and so is a store outside of `ustack`.
-/

namespace AudioPlayer

/-- `readi` into the memory of the kernel, from an offset: what it stores, `none` for a panic. -/
abbrev FileReader (σ : Type) := σ → ℕ → ℕ → Option (σ × List UInt8)

/-- The contents of an inode. -/
structure ExecFile where
  data : Bytes.Mem
  size : ℕ

/-- How many bytes `readi` reads. -/
def ExecFile.readi (f : ExecFile) (off n : ℕ) : ℕ :=
  if off > f.size ∨ (off + n) % 2 ^ 32 < off then 0
  else if off + n > f.size then f.size - off
  else n

/-- A file that does not change while it is read. -/
def ExecFile.reader (f : ExecFile) : FileReader Unit := fun s off n =>
  some (s, Bytes.slice f.data off (f.readi off n))

/-- `MAXARG` of `kernel/param.h`. -/
abbrev maxarg : ℕ := 32

/-- `sizeof(struct elfhdr)`. -/
abbrev elfhdrSize : ℕ := 64

/-- `sizeof(struct proghdr)`. -/
abbrev proghdrSize : ℕ := 56

/-- `ELF_MAGIC`. -/
abbrev elfMagic : ℕ := 0x464C457F

/-- The fields of `struct elfhdr` that `exec` reads. -/
structure Elfhdr where
  magic : ℕ
  entry : ℕ
  phoff : ℕ
  phnum : ℕ

def Elfhdr.ofBytes (b : Bytes.Mem) : Elfhdr where
  magic := Bytes.load 4 b 0
  entry := Bytes.load 8 b 24
  phoff := Bytes.load 8 b 32
  phnum := Bytes.load 2 b 56

/-- The fields of `struct proghdr` that `exec` reads. -/
structure Proghdr where
  type : ℕ
  off : ℕ
  vaddr : ℕ
  filesz : ℕ
  memsz : ℕ

def Proghdr.ofBytes (b : Bytes.Mem) : Proghdr where
  type := Bytes.load 4 b 0
  off := Bytes.load 8 b 8
  vaddr := Bytes.load 8 b 16
  filesz := Bytes.load 8 b 32
  memsz := Bytes.load 8 b 40

section Loadseg

variable {σ : Type} (read : FileReader σ)

/-- The loop of `loadseg` at offset `i` of the segment; `false` for -1. -/
def loadsegLoop (pagetable va offset sz : ℕ) : ℕ → PageMem → σ → ℕ → Option (PageMem × σ × Bool)
  | 0, m, s, _ => some (m, s, true)
  | rounds + 1, m, s, i =>
    let pa := walkaddr m pagetable (va + i)
    -- address should exist
    if pa = 0 then none
    else
      let n := if sz - i < pgsize then sz - i else pgsize
      (read s ((offset + i) % 2 ^ 32) n).bind fun (s, bytes) =>
        let m := writeBytes m pa bytes
        if bytes.length ≠ n then some (m, s, false)
        else loadsegLoop pagetable va offset sz rounds m s (i + pgsize)

/-- `loadseg`. -/
def loadseg (m : PageMem) (pagetable va : ℕ) (s : σ) (offset sz : ℕ) : Option (PageMem × σ × Bool) :=
  loadsegLoop read pagetable va offset sz ((sz + (pgsize - 1)) / pgsize) m s 0

end Loadseg

/-- The loop of `exec` over the arguments: the stack pointer and the pointers in `ustack`, `none`
for `bad`. -/
def pushArgs (pagetable stackbase : ℕ) :
    ℕ → PageMem → ℕ → List KString → PageMem × Option (ℕ × List ℕ)
  | _, m, sp, [] => (m, some (sp, []))
  | argc, m, sp, arg :: argv =>
    if argc ≥ maxarg then (m, none)
    else
      let sp := (sp + 2 ^ 64 - (arg.bytes.length + 1)) % 2 ^ 64
      let sp := sp - sp % 16
      if sp < stackbase then (m, none)
      else
        let out := copyout m pagetable sp (arg.bytes ++ [0])
        if out.2 < 0 then (out.1, none)
        else
          let rest := pushArgs pagetable stackbase (argc + 1) out.1 sp argv
          (rest.1, rest.2.map fun r => (r.1, sp :: r.2))

/-- The bytes of a `uint64`. -/
def uint64Bytes (n : ℕ) : List UInt8 := Bytes.slice (Bytes.store 8 (fun _ => 0) 0 n) 0 8

/-- The user stack of `exec` below `sz`: the arguments and the array of the pointers to them. It
gives the stack pointer, `none` for `bad`. -/
def pushStack (m : PageMem) (pagetable sz : ℕ) (argv : List KString) : Option (PageMem × Option ℕ) :=
  let stackbase := sz - pgsize
  match pushArgs pagetable stackbase 0 m sz argv with
  | (m, none) => some (m, none)
  | (m, some (sp, ustack)) =>
    -- `ustack[argc] = 0`
    if ustack.length ≥ maxarg then none
    else
      let ustack := ustack ++ [0]
      let sp := (sp + 2 ^ 64 - ustack.length * 8) % 2 ^ 64
      let sp := sp - sp % 16
      if sp < stackbase then some (m, none)
      else
        let out := copyout m pagetable sp (ustack.flatMap uint64Bytes)
        if out.2 < 0 then some (out.1, none) else some (out.1, some sp)

/-- The word of `struct trapframe` at `a1`. -/
abbrev trapA1 : Fin 512 := 15

/-- The word of `struct trapframe` at `epc`. -/
abbrev trapEpc : Fin 512 := 3

/-- The word of `struct trapframe` at `sp`. -/
abbrev trapSp : Fin 512 := 6

/-- The new image of a process. -/
structure ExecImage where
  pagetable : ℕ
  sz : ℕ
  entry : ℕ
  sp : ℕ
  argc : ℕ

/-- `exec` where it is done with the file: the page table, if there is one, its size, and whether
everything was loaded. -/
structure ExecLoad where
  pagetable : Option ℕ
  sz : ℕ
  entry : ℕ
  ok : Bool

namespace Heap

section Load

variable {σ : Type} (read : FileReader σ)

/-- The loop of `exec` over the program headers, from the one at `off` on: the size, and whether
everything could be loaded. -/
def loadLoop (pagetable : ℕ) : ℕ → Heap → σ → ℕ → ℕ → Option (Heap × σ × ℕ × Bool)
  | 0, h, s, _, sz => some (h, s, sz, true)
  | n + 1, h, s, off, sz =>
    let next := (off + proghdrSize) % 2 ^ 32
    (read s off proghdrSize).bind fun (s, hdr) =>
      if hdr.length ≠ proghdrSize then some (h, s, sz, false)
      else
        let ph := Proghdr.ofBytes (Bytes.ofList hdr)
        if ph.type ≠ 1 then loadLoop pagetable n h s next sz
        else if ph.memsz < ph.filesz then some (h, s, sz, false)
        else if (ph.vaddr + ph.memsz) % 2 ^ 64 < ph.vaddr then some (h, s, sz, false)
        else
          (h.uvmalloc pagetable sz ((ph.vaddr + ph.memsz) % 2 ^ 64)).bind fun (h, sz1) =>
            if sz1 = 0 then some (h, s, sz, false)
            else if ph.vaddr % pgsize ≠ 0 then some (h, s, sz1, false)
            else
              (loadseg read h.mem pagetable ph.vaddr s (ph.off % 2 ^ 32) (ph.filesz % 2 ^ 32)).bind
                fun (m, s, ok) =>
                  let h := { h with mem := m }
                  if ok then loadLoop pagetable n h s next sz1 else some (h, s, sz1, false)

/-- `exec` up to the end of the program headers. -/
def execLoad (h : Heap) (trapframe : ℕ) (s : σ) : Option (Heap × σ × ExecLoad) :=
  (read s 0 elfhdrSize).bind fun (s, hdr) =>
    let elf := Elfhdr.ofBytes (Bytes.ofList hdr)
    if hdr.length ≠ elfhdrSize then some (h, s, ⟨none, 0, 0, false⟩)
    else if elf.magic ≠ elfMagic then some (h, s, ⟨none, 0, 0, false⟩)
    else
      (h.procPagetable trapframe).bind fun (h, pagetable) =>
        match pagetable with
        | none => some (h, s, ⟨none, 0, 0, false⟩)
        | some pagetable =>
          (loadLoop read pagetable elf.phnum h s (elf.phoff % 2 ^ 32) 0).map fun (h, s, sz, ok) =>
            (h, s, ⟨some pagetable, sz, elf.entry, ok⟩)

end Load

/-- `bad` of `exec`: the new page table is freed. -/
def execBad (h : Heap) (pagetable : Option ℕ) (sz : ℕ) : Option Heap :=
  match pagetable with
  | none => some h
  | some pagetable => h.procFreepagetable pagetable sz

/-- `exec` behind the program headers: the size with the stack, and the stack pointer, `none` for
`bad`. -/
def execStack (h : Heap) (pagetable sz : ℕ) (argv : List KString) : Option (Heap × Option (ℕ × ℕ)) :=
  let sz := pgRoundUp sz
  (h.uvmalloc pagetable sz (sz + 2 * pgsize)).bind fun (h, sz1) =>
    if sz1 = 0 then (h.execBad (some pagetable) sz).map fun h => (h, none)
    else
      (h.uvmclear pagetable (sz1 - 2 * pgsize)).bind fun h =>
        (pushStack h.mem pagetable sz1 argv).bind fun (m, sp) =>
          let h := { h with mem := m }
          match sp with
          | none => (h.execBad (some pagetable) sz1).map fun h => (h, none)
          | some sp => some (h, some (sz1, sp))

/-- `exec` commits to the new image: it sets the registers, and frees the old page table. -/
def execCommit (h : Heap) (trapframe oldpagetable oldsz : ℕ) (image : ExecImage) : Option Heap :=
  let h := h.setPte trapframe trapA1 (.ofNat image.sp)
  let h := h.setPte trapframe trapEpc (.ofNat image.entry)
  let h := h.setPte trapframe trapSp (.ofNat image.sp)
  h.procFreepagetable oldpagetable oldsz

/-- The memory in `exec` of a process: the new image, `none` for -1. The file is missing when `namei`
does not find it. -/
def exec (h : Heap) (trapframe oldpagetable oldsz : ℕ) (f : Option ExecFile) (argv : List KString) :
    Option (Heap × Option ExecImage) :=
  match f with
  | none => some (h, none)
  | some f =>
    (h.execLoad f.reader trapframe ()).bind fun (h, _, l) =>
      match l.pagetable, l.ok with
      | some pagetable, true =>
        (h.execStack pagetable l.sz argv).bind fun (h, stack) =>
          match stack with
          | none => some (h, none)
          | some (sz, sp) =>
            let image : ExecImage := ⟨pagetable, sz, l.entry, sp, argv.length⟩
            (h.execCommit trapframe oldpagetable oldsz image).map fun h => (h, some image)
      | pagetable, _ => (h.execBad pagetable l.sz).map fun h => (h, none)

/-- What `fetchaddr` and `fetchstr` give for an argument. -/
inductive ArgFetch
  | badAddr
  | null
  | badStr
  | str (s : KString) (h : s.bytes.length < pgsize)

/-- The loop of `sys_exec` at argument `i`: the pages it took, and the strings in them, `none`
for `bad`. -/
def fetchArgs (fetch : ℕ → ArgFetch) : ℕ → ℕ → Heap → Heap × List ℕ × Option (List KString)
  | 0, _, h => (h, [], none)
  | n + 1, i, h =>
    match fetch i with
    | .badAddr => (h, [], none)
    | .null => (h, [], some [])
    | .badStr =>
      match h.kalloc with
      | (h, none) => (h, [], none)
      | (h, some page) => (h, [page], none)
    | .str s _ =>
      match h.kalloc with
      | (h, none) => (h, [], none)
      | (h, some page) =>
        let (h, pages, argv) := fetchArgs fetch n (i + 1) h
        (h, page :: pages, argv.map (s :: ·))

/-- The loops of `sys_exec` that free the pages of the arguments. -/
def freeArgs : Heap → List ℕ → Option Heap
  | h, [] => some h
  | h, page :: pages => (h.kfree page).bind fun h => h.freeArgs pages

/-- `sys_exec`. `path` says whether `argstr` succeeds. -/
def sysExec (h : Heap) (trapframe oldpagetable oldsz : ℕ) (path : Bool) (fetch : ℕ → ArgFetch)
    (f : Option ExecFile) : Option (Heap × Option ExecImage) :=
  if !path then some (h, none)
  else
    let (h, pages, argv) := fetchArgs fetch maxarg 0 h
    match argv with
    | none => (h.freeArgs pages).map fun h => (h, none)
    | some argv =>
      (h.exec trapframe oldpagetable oldsz f argv).bind fun (h, image) =>
        (h.freeArgs pages).map fun h => (h, image)

end Heap

end AudioPlayer
