import AudioPlayer.Spec.Vm
import Mathlib.Data.Multiset.Defs
import Mathlib.Logic.Function.Basic

/-!
# The page allocator (`kernel/kalloc.c`)

Pages are known by their numbers. `kalloc` takes the first page of the free list; it can also be
made to return 0 at any of its calls (`refuse`). `kfree` panics, which is `none`, for a page that
is not the allocator's. Both fill the page with junk, as page-table entries see it.
-/

namespace AudioPlayer

/-- `KERNBASE`, as a page. -/
abbrev kernbase : ℕ := 0x80000

/-- `PHYSTOP`, as a page. -/
abbrev phystop : ℕ := 0x88000

/-- A string in the memory of the kernel, without the zero that ends it. The kernel's memory ends at
`PHYSTOP`. -/
structure KString where
  bytes : List UInt8
  nonzero : 0 ∉ bytes
  fits : bytes.length < (phystop - kernbase) * pgsize

/-- The entries of a page whose bytes are all `c`. -/
def filled (c : ℕ) : Fin 512 → Pte := fun _ => Pte.ofNat (c * 0x0101010101010101)

/-- The allocator and the memory it hands out. `base` is the first page behind the kernel and
`trampoline` the page of `trampoline.S`; `refuse` says which of the next calls of `kalloc`
return 0. -/
structure Heap where
  base : ℕ
  base_ge : kernbase ≤ base
  trampoline : ℕ
  mem : PageMem
  freelist : List ℕ
  refuse : List Bool

namespace Heap

/-- The allocator's range. -/
def pages (h : Heap) : Multiset ℕ := List.range' h.base (phystop - h.base)

/-- A page is written. -/
def setPage (h : Heap) (page : ℕ) (c : Fin 512 → Pte) : Heap :=
  { h with mem := Function.update h.mem page c }

/-- A page-table entry is written. -/
def setPte (h : Heap) (page : ℕ) (i : Fin 512) (pte : Pte) : Heap :=
  h.setPage page (Function.update (h.mem page) i pte)

/-- `kfree`. -/
def kfree (h : Heap) (pa : ℕ) : Option Heap :=
  if h.base ≤ pa ∧ pa < phystop then
    some { h.setPage pa (filled 1) with freelist := pa :: h.freelist }
  else none

/-- `kalloc`. -/
def kalloc (h : Heap) : Heap × Option ℕ :=
  match h.refuse, h.freelist with
  | true :: refuse, _ => ({ h with refuse := refuse }, none)
  | refuse, [] => ({ h with refuse := refuse.tail }, none)
  | refuse, r :: next =>
    ({ h.setPage r (filled 5) with freelist := next, refuse := refuse.tail }, some r)

/-- `freerange`, from page `p` on. -/
def freerange (h : Heap) (p : ℕ) : ℕ → Option Heap
  | 0 => some h
  | n + 1 => (h.kfree p).bind fun h => h.freerange (p + 1) n

/-- `kinit`. -/
def kinit (base trampoline : ℕ) (hbase : kernbase ≤ base) (mem : PageMem) : Option Heap :=
  freerange ⟨base, hbase, trampoline, mem, [], []⟩ base (phystop - base)

end Heap

end AudioPlayer
