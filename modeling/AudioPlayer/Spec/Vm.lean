import Mathlib.Algebra.Group.Nat.Defs
import Mathlib.Algebra.GroupWithZero.Nat
import Mathlib.Logic.Function.Basic

/-!
# Page tables and copies from and to user space (`kernel/vm.c`, `kernel/riscv.h`)

A physical page is named by its number, its address divided by `PGSIZE`. `PageMem` is
physical memory as page-table pages see it, in words of 64 bits; `byteAt` reads a byte of it.
`copyin` gets the bytes of memory separately. None of this has to come from the kernel: the
functions are defined for any contents. A buffer of the kernel is a list of bytes.
-/

namespace AudioPlayer

abbrev pgsize : ℕ := 4096

/-- `MAXVA`, one bit less than Sv39 has. -/
abbrev maxva : ℕ := 2 ^ 38

/-- `PGROUNDDOWN(a)`. -/
def pgRoundDown (a : ℕ) : ℕ := a / pgsize * pgsize

/-- `PX(level, va)`, the index into a page-table page. -/
def px (level va : ℕ) : Fin 512 := ⟨va / 2 ^ (12 + 9 * level) % 512, Nat.mod_lt _ (by decide)⟩

/-- `pte_t`: the number of the page it refers to and its flags, the bits 5 to 9 as `upper`. `PTE2PA`
keeps the lower 52 bits of the page; the entries here are taken to have no others. -/
structure Pte where
  page : ℕ
  v : Bool
  r : Bool
  w : Bool
  x : Bool
  u : Bool
  upper : Fin 32
deriving DecidableEq

/-- A `pte_t` with the bits of a number. -/
def Pte.ofNat (n : ℕ) : Pte :=
  ⟨n / 2 ^ 10, n.testBit 0, n.testBit 1, n.testBit 2, n.testBit 3, n.testBit 4,
    ⟨n / 2 ^ 5 % 32, Nat.mod_lt _ (by decide)⟩⟩

/-- The number with the bits of a `pte_t`. -/
def Pte.toNat (pte : Pte) : ℕ :=
  pte.v.toNat + 2 * pte.r.toNat + 4 * pte.w.toNat + 8 * pte.x.toNat + 16 * pte.u.toNat +
    32 * pte.upper + 2 ^ 10 * pte.page

/-- The entries of every page, seen as a page-table page. -/
abbrev PageMem := ℕ → Fin 512 → Pte

instance neZero_512 : NeZero 512 := ⟨Nat.succ_ne_zero 511⟩

instance neZero_32 : NeZero 32 := ⟨Nat.succ_ne_zero 31⟩

/-! ## Bytes -/

/-- The place of a byte among the words of its page. -/
def wordAt (pa : ℕ) : Fin 512 := ⟨pa % pgsize / 8, by
  have : pa % pgsize < 4096 := Nat.mod_lt _ (by decide)
  omega⟩

/-- The byte at a physical address. -/
def byteAt (m : PageMem) (pa : ℕ) : UInt8 :=
  UInt8.ofNat ((m (pa / pgsize) (wordAt pa)).toNat / 256 ^ (pa % 8))

/-- The number `n` with another byte `k`. -/
def setDigit (n k : ℕ) (b : UInt8) : ℕ :=
  n / 256 ^ (k + 1) * 256 ^ (k + 1) + b.toNat * 256 ^ k + n % 256 ^ k

/-- A byte is written at a physical address. -/
def setByte (m : PageMem) (pa : ℕ) (b : UInt8) : PageMem :=
  Function.update m (pa / pgsize) (Function.update (m (pa / pgsize)) (wordAt pa)
    (.ofNat (setDigit (m (pa / pgsize) (wordAt pa)).toNat (pa % 8) b)))

/-- `memmove` into memory. -/
def writeBytes (m : PageMem) (pa : ℕ) : List UInt8 → PageMem
  | [] => m
  | b :: bs => writeBytes (setByte m pa b) (pa + 1) bs

/-! ## Walks -/

/-- `walk` with `alloc = 0`, for `va < MAXVA`: the page and index of the entry for `va`. -/
def walk (m : PageMem) (pagetable va : ℕ) : Option (ℕ × Fin 512) :=
  let pte := m pagetable (px 2 va)
  if pte.v then
    let pte := m pte.page (px 1 va)
    if pte.v then some (pte.page, px 0 va) else none
  else none

/-- `walkaddr`: the physical address of a page the user may access, 0 for any other. -/
def walkaddr (m : PageMem) (pagetable va : ℕ) : ℕ :=
  if va ≥ maxva then 0
  else
    match walk m pagetable va with
    | none => 0
    | some (p, i) =>
      let pte := m p i
      if !pte.v then 0 else if !pte.u then 0 else pte.page * pgsize

/-! ## Copies -/

/-- `memmove` out of memory. -/
def bytesAt (mem : ℕ → UInt8) (pa n : ℕ) : List UInt8 := (List.range n).map fun i => mem (pa + i)

/-- The loop of `copyin`: what it stored, from the start of `dst` on, and what it returns. Every
round copies a byte at least, so `len` rounds are enough. -/
def copyinLoop (m : PageMem) (mem : ℕ → UInt8) (pagetable : ℕ) : ℕ → ℕ → ℕ → List UInt8 × ℤ
  | 0, _, _ => ([], 0)
  | fuel + 1, srcva, len =>
    if len > 0 then
      let va0 := pgRoundDown srcva
      let pa0 := walkaddr m pagetable va0
      if pa0 = 0 then ([], -1)
      else
        let n := min (pgsize - (srcva - va0)) len
        let rest := copyinLoop m mem pagetable fuel ((va0 + pgsize) % 2 ^ 64) (len - n)
        (bytesAt mem (pa0 + (srcva - va0)) n ++ rest.1, rest.2)
    else ([], 0)

/-- `copyin`. -/
def copyin (m : PageMem) (mem : ℕ → UInt8) (pagetable srcva len : ℕ) : List UInt8 × ℤ :=
  copyinLoop m mem pagetable len srcva len

/-- The loop of `copyout`, with the memory it leaves behind. -/
def copyoutLoop (pagetable : ℕ) : ℕ → PageMem → ℕ → List UInt8 → PageMem × ℤ
  | 0, m, _, _ => (m, 0)
  | fuel + 1, m, dstva, src =>
    if src.length > 0 then
      let va0 := pgRoundDown dstva
      let pa0 := walkaddr m pagetable va0
      if pa0 = 0 then (m, -1)
      else
        let n := min (pgsize - (dstva - va0)) src.length
        copyoutLoop pagetable fuel (writeBytes m (pa0 + (dstva - va0)) (src.take n))
          ((va0 + pgsize) % 2 ^ 64) (src.drop n)
    else (m, 0)

/-- `copyout` of the bytes of `src`. -/
def copyout (m : PageMem) (pagetable dstva : ℕ) (src : List UInt8) : PageMem × ℤ :=
  copyoutLoop pagetable src.length m dstva src

/-- The inner loop of `copyinstr`, over `n` bytes from `p` on: what it stored, and `got_null`. -/
def copystrPage (mem : ℕ → UInt8) : ℕ → ℕ → List UInt8 × Bool
  | 0, _ => ([], false)
  | n + 1, p =>
    if mem p = 0 then ([0], true)
    else
      let rest := copystrPage mem n (p + 1)
      (mem p :: rest.1, rest.2)

/-- The loop of `copyinstr`. -/
def copyinstrLoop (m : PageMem) (mem : ℕ → UInt8) (pagetable : ℕ) : ℕ → ℕ → ℕ → List UInt8 × ℤ
  | 0, _, _ => ([], -1)
  | fuel + 1, srcva, max =>
    if max > 0 then
      let va0 := pgRoundDown srcva
      let pa0 := walkaddr m pagetable va0
      if pa0 = 0 then ([], -1)
      else
        let n := min (pgsize - (srcva - va0)) max
        let page := copystrPage mem n (pa0 + (srcva - va0))
        if page.2 then (page.1, 0)
        else
          let rest := copyinstrLoop m mem pagetable fuel ((va0 + pgsize) % 2 ^ 64) (max - n)
          (page.1 ++ rest.1, rest.2)
    else ([], -1)

/-- `copyinstr`. -/
def copyinstr (m : PageMem) (mem : ℕ → UInt8) (pagetable srcva max : ℕ) : List UInt8 × ℤ :=
  copyinstrLoop m mem pagetable max srcva max

end AudioPlayer
