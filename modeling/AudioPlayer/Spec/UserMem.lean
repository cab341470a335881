import AudioPlayer.Lib.Runs
import AudioPlayer.Spec.Exec
import AudioPlayer.Spec.Proc

/-!
# The memory of the processes (`kernel/proc.c`)

The process table of `Spec/Proc.lean` with the trapframe, the page table and the size of each
slot, over the page allocator. A call is one step: its memory is taken and freed here, and its
result decides what happens to the table. A panic is `none`.

`owned` are the pages in use, each as often as it has an owner.
-/

namespace AudioPlayer

open Function Radix

/-- `trapframe`, `pagetable` and `sz` of `struct proc`, `none` for a null pointer. -/
structure UserSpace where
  trapframe : Option ℕ
  pagetable : Option ℕ
  sz : ℕ

/-- The fields of a slot that is not in use. -/
abbrev UserSpace.free : UserSpace := ⟨none, none, 0⟩

namespace Heap

/-- The memory that `freeproc` frees. -/
def freeproc (h : Heap) (p : UserSpace) : Option Heap :=
  (match p.trapframe with
    | some trapframe => h.kfree trapframe
    | none => some h).bind fun h =>
  match p.pagetable with
  | some pagetable => h.procFreepagetable pagetable p.sz
  | none => some h

/-- The memory that `allocproc` takes for a slot. -/
def allocproc (h : Heap) (p : UserSpace) : Option (Heap × Option UserSpace) :=
  match h.kalloc with
  | (h, none) => (h.freeproc { p with trapframe := none }).map fun h => (h, none)
  | (h, some trapframe) =>
    (h.procPagetable trapframe).bind fun (h, pagetable) =>
      let p := { p with trapframe := some trapframe, pagetable := pagetable }
      match pagetable with
      | none => (h.freeproc p).map fun h => (h, none)
      | some _ => some (h, some p)

end Heap

/-- The memory of the machine and of the processes. `kernel` are the pages of the kernel's page
table and of the kernel stacks, `pipes` those of the pipes. -/
structure MemSys where
  heap : Heap
  table : ProcTable
  space : Slot → UserSpace
  kernel : List ℕ
  pipes : List ℕ

inductive MemCall
  | fork (p : Slot)
  | exec (p : Slot) (path : Bool) (fetch : ℕ → Heap.ArgFetch) (file : Option ExecFile)
  /-- `n` is an `int` -/
  | sbrk (p : Slot) (n : ℤ) (h : -2 ^ 31 ≤ n ∧ n < 2 ^ 31)
  | exit (p : Slot) (status : ℤ)
  /-- `copy` says whether the exit status can be copied out -/
  | wait (p : Slot) (copy : Bool)
  | kill (pid : ℤ)
  /-- a pipe is made -/
  | pipealloc
  /-- the last end of a pipe is closed, by `close` or by `exit` -/
  | pipeclose (page : ℕ)
  /-- a page of a process or of a pipe is written -/
  | store (page : ℕ) (c : Fin 512 → Pte)

namespace MemSys

/-- `fork` of process `p`, with its return value. -/
def fork (m : MemSys) (p : Slot) : Option (MemSys × ℤ) :=
  match m.table.findUnused with
  | none => some (m, -1)
  | some np =>
    (m.heap.allocproc (m.space np)).bind fun (h, sp) =>
      match sp with
      | none =>
        (m.table.fork p false false).map fun (t, _) =>
          ({ m with heap := h, table := t, space := update m.space np .free }, -1)
      | some sp =>
        -- neither page table is a null pointer
        (m.space p).pagetable.bind fun old => sp.pagetable.bind fun new =>
          (h.uvmcopy old new (m.space p).sz).bind fun (h, ok) =>
            if ok then
              (m.table.fork p true true).map fun (t, pid) =>
                ({ m with
                    heap := h
                    table := t
                    space := update m.space np { sp with sz := (m.space p).sz } },
                  pid.elim (-1) fun pid => (pid : ℤ))
            else
              (h.freeproc sp).bind fun h =>
                (m.table.fork p true false).map fun (t, _) =>
                  ({ m with heap := h, table := t, space := update m.space np .free }, -1)

/-- `sys_exec` of process `p`, with its return value. -/
def exec (m : MemSys) (p : Slot) (path : Bool) (fetch : ℕ → Heap.ArgFetch) (f : Option ExecFile) :
    Option (MemSys × ℤ) :=
  match (m.space p).trapframe, (m.space p).pagetable with
  | some trapframe, some oldpagetable =>
    (m.heap.sysExec trapframe oldpagetable (m.space p).sz path fetch f).map fun (h, image) =>
      match image with
      | none => ({ m with heap := h }, -1)
      | some image =>
        ({ m with
            heap := h
            space := update m.space p ⟨some trapframe, some image.pagetable, image.sz⟩ },
          image.argc)
  | _, _ => none

/-- `sys_sbrk`. -/
def sbrk (m : MemSys) (p : Slot) (n : ℤ) : Option (MemSys × ℤ) :=
  match (m.space p).pagetable with
  | none => none
  | some pagetable =>
    let addr : ℤ := (m.space p).sz
    (m.heap.growproc pagetable (m.space p).sz n).map fun (h, sz, r) =>
      ({ m with heap := h, space := update m.space p { m.space p with sz := sz } },
        if r < 0 then -1 else addr)

/-- `wait` of process `p`, with its return value: the memory of the child it finds is freed. -/
def wait (m : MemSys) (p : Slot) (copy : Bool) : Option (MemSys × ℤ) :=
  match (List.finRange nproc).find? fun s =>
      (m.table.proc s).parent = some p ∧ (m.table.proc s).state = .zombie with
  | some np =>
    if copy then
      (m.heap.freeproc (m.space np)).bind fun h =>
        (m.table.wait p copy).map fun (t, r) =>
          ({ m with heap := h, table := t, space := update m.space np .free }, r)
    else (m.table.wait p copy).map fun (t, r) => ({ m with table := t }, r)
  | none => (m.table.wait p copy).map fun (t, r) => ({ m with table := t }, r)

/-- A call, with its return value. -/
def call (m : MemSys) : MemCall → Option (MemSys × ℤ)
  | .fork p => m.fork p
  | .exec p path fetch f => m.exec p path fetch f
  | .sbrk p n _ => m.sbrk p n
  | .exit p status => (m.table.exit p status).map fun t => ({ m with table := t }, 0)
  | .wait p copy => m.wait p copy
  | .kill pid => some ({ m with table := (m.table.kill pid).1 }, (m.table.kill pid).2)
  | .pipealloc =>
    match m.heap.kalloc with
    | (h, none) => some ({ m with heap := h }, -1)
    | (h, some page) => some ({ m with heap := h, pipes := page :: m.pipes }, 0)
  | .pipeclose page =>
    (m.heap.kfree page).map fun h => ({ m with heap := h, pipes := m.pipes.erase page }, 0)
  | .store page c => some ({ m with heap := m.heap.setPage page c }, 0)

/-- The pages of a page table. -/
def tables (mem : PageMem) (p : UserSpace) : Multiset ℕ :=
  p.pagetable.elim 0 (nodes sv39 mem 2)

/-- The pages the virtual pages below `PGROUNDUP(sz)` are mapped to. -/
def userPages (mem : PageMem) (p : UserSpace) : Multiset ℕ :=
  p.pagetable.elim 0 fun pagetable =>
    (Multiset.range (pgRoundUp p.sz / pgsize)).map fun k => (leaf mem pagetable k).page

/-- The pages of a process. -/
def spacePages (mem : PageMem) (p : UserSpace) : Multiset ℕ :=
  tables mem p + userPages mem p + p.trapframe.elim 0 fun page => {page}

/-- The pages in use, each as often as it has an owner. -/
def owned (m : MemSys) : Multiset ℕ :=
  (m.kernel : Multiset ℕ) + m.pipes + ∑ p, spacePages m.heap.mem (m.space p)

/-- The pages that are written by a process, or for it: those that it has mapped, the trapframe
and the pipes. -/
def writable (m : MemSys) : Multiset ℕ :=
  (m.pipes : Multiset ℕ) + ∑ p, (userPages m.heap.mem (m.space p) +
    (m.space p).trapframe.elim 0 fun page => {page})

/-- When a call can be made: its process lives, it is not an `exit` of the first process, and
`wait` does not wait. There are process ids left. -/
def Enabled (m : MemSys) : MemCall → Prop
  | .fork p => (m.table.proc p).state.live = true ∧ m.table.nextpid + 1 < 2 ^ 31
  | .exec p _ _ _ => (m.table.proc p).state.live = true
  | .sbrk p _ _ => (m.table.proc p).state.live = true
  | .exit p _ => (m.table.proc p).state.live = true ∧ p ≠ m.table.initproc
  | .wait p copy => (m.table.proc p).state.live = true ∧ (m.table.wait p copy).isSome
  | .kill _ | .pipealloc => True
  | .pipeclose page => page ∈ m.pipes
  | .store page _ => page ∈ m.writable

instance (m : MemSys) : ∀ a, Decidable (m.Enabled a)
  | .fork _ | .exit _ _ | .wait _ _ => inferInstanceAs (Decidable (_ ∧ _))
  | .exec _ _ _ _ | .sbrk _ _ _ => inferInstanceAs (Decidable (_ = _))
  | .kill _ | .pipealloc => inferInstanceAs (Decidable True)
  | .pipeclose page => inferInstanceAs (Decidable (page ∈ m.pipes))
  | .store page _ => inferInstanceAs (Decidable (page ∈ m.writable))

/-- A call during which the calls of `kalloc` return 0 where `refuse` says so. -/
def step (m : MemSys) (a : MemCall × List Bool) : Option MemSys :=
  if m.Enabled a.1 then
    ({ m with heap := { m.heap with refuse := a.2 } }.call a.1).map Prod.fst
  else none

/-- The kernel takes `n` pages for its page table and the kernel stacks. -/
def takeKernel : ℕ → Heap → Option (Heap × List ℕ)
  | 0, h => some (h, [])
  | n + 1, h =>
    match h.kalloc with
    | (_, none) => none
    | (h, some page) => (takeKernel n h).map fun (h, pages) => (h, page :: pages)

/-- `userinit` in slot 0. -/
def userinit (h : Heap) : Option (Heap × UserSpace) :=
  (h.allocproc .free).bind fun (h, sp) =>
    sp.bind fun sp => sp.pagetable.bind fun pagetable =>
      -- `uvminit`
      match h.kalloc with
      | (_, none) => none
      | (h, some page) =>
        let h := h.setPage page (filled 0)
        (h.mappages pagetable 0 pgsize page .user).bind fun (h, r) =>
          if r < 0 then none else some (h, { sp with sz := pgsize })

/-- The machine when the first process has been made, and the kernel has taken `n` pages. -/
def boot (base trampoline n : ℕ) (hbase : kernbase ≤ base) (mem : PageMem) : Option MemSys :=
  (Heap.kinit base trampoline hbase mem).bind fun h =>
    (takeKernel n h).bind fun (h, kernel) =>
      (userinit h).map fun (h, sp) =>
        ⟨h, .boot, update (fun _ => .free) 0 sp, kernel, []⟩

end MemSys

end AudioPlayer
