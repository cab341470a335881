import AudioPlayer.Lib.Radix
import AudioPlayer.Spec.Kalloc

/-!
# User page tables (`kernel/vm.c`, `kernel/proc.c`)

What the kernel does with the page tables and the memory of processes. A panic is `none`. Loops
over the pages of a range count them; the sums are those of `uint64`, and do not wrap around
where the memory is not larger than a machine's.
-/

namespace AudioPlayer

open Radix

/-- `PGROUNDUP(a)`. -/
def pgRoundUp (a : ℕ) : ℕ := (a + (pgsize - 1)) % 2 ^ 64 / pgsize * pgsize

/-- `TRAMPOLINE`. -/
abbrev trampolineVa : ℕ := maxva - pgsize

/-- `TRAPFRAME`. -/
abbrev trapframeVa : ℕ := trampolineVa - pgsize

namespace Pte

/-- An entry of 0. -/
abbrev zero : Pte := ⟨0, false, false, false, false, false, 0⟩

/-- `PA2PTE(pagetable) | PTE_V`. -/
abbrev table (pagetable : ℕ) : Pte := ⟨pagetable, true, false, false, false, false, 0⟩

/-- `PTE_W|PTE_X|PTE_R|PTE_U`. -/
abbrev user : Pte := ⟨0, false, true, true, true, true, 0⟩

/-- `PTE_FLAGS(pte) == PTE_V`. -/
def onlyV (pte : Pte) : Bool := pte.v && !pte.r && !pte.w && !pte.x && !pte.u && pte.upper == 0

/-- `(pte & PTE_V) && (pte & (PTE_R|PTE_W|PTE_X)) == 0`. -/
def isTable (pte : Pte) : Bool := pte.v && !pte.r && !pte.w && !pte.x

end Pte

namespace Heap

/-- The loop of `walk` with `alloc != 0`, from a level down. -/
def walkLevels : ℕ → Heap → ℕ → ℕ → Heap × Option (ℕ × Fin 512)
  | 0, h, pagetable, va => (h, some (pagetable, px 0 va))
  | level + 1, h, pagetable, va =>
    let pte := h.mem pagetable (px (level + 1) va)
    if pte.v then walkLevels level h pte.page va
    else
      match h.kalloc with
      | (h, none) => (h, none)
      | (h, some page) =>
        let h := h.setPage page (filled 0)
        let h := h.setPte pagetable (px (level + 1) va) (.table page)
        walkLevels level h page va

/-- `walk` with `alloc != 0`. -/
def walkAlloc (h : Heap) (pagetable va : ℕ) : Option (Heap × Option (ℕ × Fin 512)) :=
  if va ≥ maxva then none else some (walkLevels 2 h pagetable va)

/-- The loop of `mappages`, with `n` pages to go after this one. -/
def mapLoop (pagetable : ℕ) (perm : Pte) : ℕ → Heap → ℕ → ℕ → Option (Heap × ℤ)
  | n, h, a, pa =>
    (h.walkAlloc pagetable a).bind fun (h, pte) =>
      match pte with
      | none => some (h, -1)
      | some (page, i) =>
        -- remap
        if (h.mem page i).v then none
        else
          let h := h.setPte page i { perm with page := pa, v := true }
          match n with
          | 0 => some (h, 0)
          | n + 1 => mapLoop pagetable perm n h (a + pgsize) (pa + 1)

/-- `mappages`. The physical addresses do not pass `2 ^ 64`, where `pa` would wrap around. -/
def mappages (h : Heap) (pagetable va size pa : ℕ) (perm : Pte) : Option (Heap × ℤ) :=
  if size = 0 then none
  else
    let a := pgRoundDown va
    let last := pgRoundDown (va + size - 1)
    mapLoop pagetable perm ((last - a) / pgsize) h a pa

/-- The loop of `uvmunmap`. -/
def unmapLoop (pagetable : ℕ) (doFree : Bool) : ℕ → Heap → ℕ → Option Heap
  | 0, h, _ => some h
  | n + 1, h, a =>
    if a ≥ maxva then none
    else
      match walk h.mem pagetable a with
      | none => none
      | some (page, i) =>
        let pte := h.mem page i
        -- not mapped, not a leaf
        if !pte.v then none
        else if pte.onlyV then none
        else
          (if doFree then h.kfree pte.page else some h).bind fun h =>
            unmapLoop pagetable doFree n (h.setPte page i .zero) (a + pgsize)

/-- `uvmunmap`. -/
def uvmunmap (h : Heap) (pagetable va npages : ℕ) (doFree : Bool) : Option Heap :=
  if va % pgsize ≠ 0 then none else unmapLoop pagetable doFree npages h va

/-- `uvmcreate`. -/
def uvmcreate (h : Heap) : Heap × Option ℕ :=
  match h.kalloc with
  | (h, none) => (h, none)
  | (h, some pagetable) => (h.setPage pagetable (filled 0), some pagetable)

/-- `uvmdealloc`. -/
def uvmdealloc (h : Heap) (pagetable oldsz newsz : ℕ) : Option (Heap × ℕ) :=
  if newsz ≥ oldsz then some (h, oldsz)
  else if pgRoundUp newsz < pgRoundUp oldsz then
    let npages := (pgRoundUp oldsz - pgRoundUp newsz) / pgsize
    (h.uvmunmap pagetable (pgRoundUp newsz) npages true).map fun h => (h, newsz)
  else some (h, newsz)

/-- The loop of `uvmalloc`, at address `a`. -/
def allocLoop (pagetable oldsz newsz : ℕ) : ℕ → Heap → ℕ → Option (Heap × ℕ)
  | 0, h, _ => some (h, newsz)
  | n + 1, h, a =>
    match h.kalloc with
    | (h, none) => (h.uvmdealloc pagetable a oldsz).map fun (h, _) => (h, 0)
    | (h, some page) =>
      let h := h.setPage page (filled 0)
      (h.mappages pagetable a pgsize page .user).bind fun (h, r) =>
        if r ≠ 0 then
          (h.kfree page).bind fun h => (h.uvmdealloc pagetable a oldsz).map fun (h, _) => (h, 0)
        else allocLoop pagetable oldsz newsz n h (a + pgsize)

/-- `uvmalloc`. -/
def uvmalloc (h : Heap) (pagetable oldsz newsz : ℕ) : Option (Heap × ℕ) :=
  if newsz < oldsz then some (h, oldsz)
  else
    let oldsz := pgRoundUp oldsz
    allocLoop pagetable oldsz newsz ((newsz - oldsz + (pgsize - 1)) / pgsize) h oldsz

/-- `growproc` of a process of size `sz`: the size it has then, and the return value. The sums are
those of a `uint`. -/
def growproc (h : Heap) (pagetable sz : ℕ) (n : ℤ) : Option (Heap × ℕ × ℤ) :=
  let newsz := (((sz % 2 ^ 32 : ℕ) + n) % 2 ^ 32).toNat
  if n > 0 then
    (h.uvmalloc pagetable (sz % 2 ^ 32) newsz).map fun (h, sz1) =>
      if sz1 % 2 ^ 32 = 0 then (h, sz, -1) else (h, sz1 % 2 ^ 32, 0)
  else if n < 0 then
    (h.uvmdealloc pagetable (sz % 2 ^ 32) newsz).map fun (h, sz1) => (h, sz1 % 2 ^ 32, 0)
  else some (h, sz % 2 ^ 32, 0)

/-- The loop of `freewalk` over the entries of a page, which are freed by `free`. -/
def freeEntries (free : Heap → ℕ → Option Heap) (pagetable : ℕ) : List (Fin 512) → Heap → Option Heap
  | [], h => h.kfree pagetable
  | i :: is, h =>
    let pte := h.mem pagetable i
    if pte.isTable then
      (free h pte.page).bind fun h => freeEntries free pagetable is (h.setPte pagetable i .zero)
    -- leaf
    else if pte.v then none
    else freeEntries free pagetable is h

/-- `freewalk`, for a table of the given number of levels. -/
def freewalk : ℕ → Heap → ℕ → Option Heap
  | 0, _, _ => none
  | levels + 1, h, pagetable => freeEntries (freewalk levels) pagetable (List.finRange 512) h

/-- `uvmfree`. -/
def uvmfree (h : Heap) (pagetable sz : ℕ) : Option Heap :=
  (if sz > 0 then h.uvmunmap pagetable 0 (pgRoundUp sz / pgsize) true else some h).bind fun h =>
    freewalk 3 h pagetable

/-- The loop of `uvmcopy`, at address `i`; `false` for -1. -/
def copyLoop (old new : ℕ) : ℕ → Heap → ℕ → Option (Heap × Bool)
  | 0, h, _ => some (h, true)
  | n + 1, h, i =>
    if i ≥ maxva then none
    else
      match walk h.mem old i with
      | none => none
      | some (page, j) =>
        let pte := h.mem page j
        if !pte.v then none
        else
          match h.kalloc with
          | (h, none) => (h.uvmunmap new 0 (i / pgsize) true).map fun h => (h, false)
          | (h, some mem) =>
            let h := h.setPage mem (h.mem pte.page)
            (h.mappages new i pgsize mem { pte with page := 0 }).bind fun (h, r) =>
              if r ≠ 0 then
                (h.kfree mem).bind fun h =>
                  (h.uvmunmap new 0 (i / pgsize) true).map fun h => (h, false)
              else copyLoop old new n h (i + pgsize)

/-- `uvmcopy`. -/
def uvmcopy (h : Heap) (old new sz : ℕ) : Option (Heap × Bool) :=
  copyLoop old new ((sz + (pgsize - 1)) / pgsize) h 0

/-- `uvmclear`. -/
def uvmclear (h : Heap) (pagetable va : ℕ) : Option Heap :=
  if va ≥ maxva then none
  else
    match walk h.mem pagetable va with
    | none => none
    | some (page, i) => some (h.setPte page i { h.mem page i with u := false })

/-- `proc_pagetable`, for a process with the given trapframe. -/
def procPagetable (h : Heap) (trapframe : ℕ) : Option (Heap × Option ℕ) :=
  match h.uvmcreate with
  | (h, none) => some (h, none)
  | (h, some pagetable) =>
    (h.mappages pagetable trampolineVa pgsize h.trampoline
        ⟨0, false, true, false, true, false, 0⟩).bind fun (h, r) =>
      if r < 0 then (h.uvmfree pagetable 0).map fun h => (h, none)
      else
        (h.mappages pagetable trapframeVa pgsize trapframe
            ⟨0, false, true, true, false, false, 0⟩).bind fun (h, r) =>
          if r < 0 then
            (h.uvmunmap pagetable trampolineVa 1 false).bind fun h =>
              (h.uvmfree pagetable 0).map fun h => (h, none)
          else some (h, some pagetable)

/-- `proc_freepagetable`. -/
def procFreepagetable (h : Heap) (pagetable sz : ℕ) : Option Heap :=
  (h.uvmunmap pagetable trampolineVa 1 false).bind fun h =>
    (h.uvmunmap pagetable trapframeVa 1 false).bind fun h => h.uvmfree pagetable sz

end Heap

/-- A page table is a radix tree: how its entries lead to page-table pages. -/
def sv39 : Format ℕ Pte where
  down pte := if pte.v then some pte.page else none
  blank := .zero
  link := .table
  down_blank := rfl
  down_link _ := rfl

/-- The entry of a page table for a virtual page. -/
def leaf (mem : PageMem) (pagetable vpage : ℕ) : Pte :=
  lookup sv39 mem 2 pagetable fun level => px level (vpage * pgsize)

end AudioPlayer
