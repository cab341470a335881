import AudioPlayer.Lib.Bytes
import AudioPlayer.Lib.Runs
import Mathlib.Algebra.GroupWithZero.Nat

/-!
# The heap of a program (`user/umalloc.c`)

The memory of the program is bytes, and a pointer is the address of one. A block has a header of
16 bytes in front of it; the free ones are linked in a circle through `base`. Each loop has a number
of rounds that it may take, and a call that does not return within them is `none`.

What `sbrk` answers is an input: it fails, or hands out bytes that lie some way above all those it
handed out before. `obtained` records them, in headers.
-/

namespace AudioPlayer

open Bytes Runs

/-- `sizeof(Header)`. -/
abbrev headerSize : ℕ := 16

/-- The program: where `base` is, where its memory ends at first, and how many headers `sbrk` hands
out in total. -/
structure Program where
  base : ℕ
  brk : ℕ
  quota : ℕ
  base_pos : 0 < base
  base_lt : base + headerSize ≤ brk
  brk_lt : brk < 2 ^ 64

/-- The memory, `freep`, the end of what `sbrk` has handed out, and where it did so. -/
structure Umalloc where
  mem : Mem
  freep : ℕ
  top : ℕ
  obtained : List (ℕ × ℕ)

/-- `p->s.ptr`. -/
def ptrOf (m : Mem) (p : ℕ) : ℕ := load 8 m p

/-- `p->s.size`. -/
def unitsOf (m : Mem) (p : ℕ) : ℕ := load 4 m (p + 8)

/-- `p->s.ptr = q`. -/
def setPtr (m : Mem) (p q : ℕ) : Mem := store 8 m p q

/-- `p->s.size = n`, a `uint`. -/
def setUnits (m : Mem) (p n : ℕ) : Mem := store 4 m (p + 8) n

/-- `p + n` for a `Header *`. -/
def headerAdd (p n : ℕ) : ℕ := (p + headerSize * n) % 2 ^ 64

namespace Umalloc

/-- The loop of `free`: the block behind which `bp` is to be linked. -/
def place (m : Mem) (bp : ℕ) : ℕ → ℕ → Option ℕ
  | 0, _ => none
  | fuel + 1, p =>
    if p < bp ∧ bp < ptrOf m p then some p
    else if p ≥ ptrOf m p ∧ (p < bp ∨ bp < ptrOf m p) then some p
    else place m bp fuel (ptrOf m p)

/-- `free` joins `bp` with the block behind it. -/
def joinUpper (m : Mem) (bp p : ℕ) : Mem :=
  if headerAdd bp (unitsOf m bp) = ptrOf m p then
    let m := setUnits m bp (unitsOf m bp + unitsOf m (ptrOf m p))
    setPtr m bp (ptrOf m (ptrOf m p))
  else setPtr m bp (ptrOf m p)

/-- `free` joins the block `p` in front of `bp` with it. -/
def joinLower (m : Mem) (bp p : ℕ) : Mem :=
  if headerAdd p (unitsOf m p) = bp then
    let m := setUnits m p (unitsOf m p + unitsOf m bp)
    setPtr m p (ptrOf m bp)
  else setPtr m p bp

/-- `free`. -/
def free (s : Umalloc) (fuel ap : ℕ) : Option Umalloc :=
  let bp := (ap + 2 ^ 64 - headerSize) % 2 ^ 64
  (place s.mem bp fuel s.freep).map fun p =>
    { s with mem := joinLower (joinUpper s.mem bp p) bp p, freep := p }

/-- The number of headers that were obtained. -/
def units (s : Umalloc) : ℕ := (s.obtained.map Prod.snd).sum

/-- `sbrk` of `nu` headers, with the start of the bytes, `none` for -1. Its argument is a positive
`int`. `gap` is its answer: how far above the others the bytes lie. -/
def sbrk (c : Program) (s : Umalloc) (nu : ℕ) (gap : Option ℕ) : Option (Umalloc × Option ℕ) :=
  if nu = 0 ∨ nu * headerSize ≥ 2 ^ 31 then none
  else
    match gap with
    | none => some (s, none)
    | some gap =>
      let p := s.top + gap
      if p + nu * headerSize ≥ 2 ^ 64 ∨ s.units + nu > c.quota then some (s, none)
      else some ({ s with top := p + nu * headerSize, obtained := (p, nu) :: s.obtained }, some p)

/-- `morecore`, with what it returns, `none` for 0. -/
def morecore (c : Program) (s : Umalloc) (fuel nu : ℕ) (gap : Option ℕ) : Option (Umalloc × Option ℕ) :=
  let nu := if nu < 4096 then 4096 else nu
  (s.sbrk c nu gap).bind fun (s, p) =>
    match p with
    | none => some (s, none)
    | some hp =>
      ({ s with mem := setUnits s.mem hp nu }.free fuel (headerAdd hp 1)).map fun s => (s, some s.freep)

/-- `malloc` takes `nunits` headers of the block `p` behind `prevp`. -/
def take (s : Umalloc) (nunits prevp p : ℕ) : Umalloc × ℕ :=
  if unitsOf s.mem p = nunits then
    ({ s with mem := setPtr s.mem prevp (ptrOf s.mem p), freep := prevp }, headerAdd p 1)
  else
    let m := setUnits s.mem p (unitsOf s.mem p - nunits)
    let p := headerAdd p (unitsOf m p)
    ({ s with mem := setUnits m p nunits, freep := prevp }, headerAdd p 1)

/-- The loop of `malloc` at the block `p` behind `prevp`, with the answers of `sbrk`. -/
def search (c : Program) (nunits : ℕ) : ℕ → Umalloc → ℕ → ℕ → List (Option ℕ) → Option (Umalloc × ℕ)
  | 0, _, _, _, _ => none
  | fuel + 1, s, prevp, p, gaps =>
    if unitsOf s.mem p ≥ nunits then some (s.take nunits prevp p)
    else if p = s.freep then
      (s.morecore c fuel nunits (gaps.headD none)).bind fun (s, p) =>
        match p with
        | none => some (s, 0)
        | some p => search c nunits fuel s p (ptrOf s.mem p) gaps.tail
    else search c nunits fuel s p (ptrOf s.mem p) gaps

/-- `malloc`, with its result. -/
def malloc (c : Program) (s : Umalloc) (fuel nbytes : ℕ) (gaps : List (Option ℕ)) : Option (Umalloc × ℕ) :=
  let nunits := ((nbytes + headerSize - 1) / headerSize + 1) % 2 ^ 32
  let s :=
    if s.freep = 0 then
      { s with mem := setUnits (setPtr s.mem c.base c.base) c.base 0, freep := c.base }
    else s
  s.search c nunits fuel s.freep (ptrOf s.mem s.freep) gaps

end Umalloc

/-! ## Programs that use it -/

/-- A program with the pointers it holds, and how many bytes it asked for. -/
structure UserHeap where
  heap : Umalloc
  live : List (ℕ × ℕ)

/-- What a program does: it calls `malloc`, as all callers do with a size that is not close to
2^31, it calls `free` on a pointer that it holds, or it writes a byte of its own. -/
inductive HeapCall
  | malloc (nbytes : ℕ) (h : nbytes < 2 ^ 31 - 32) (gaps : List (Option ℕ))
  | free (ap : ℕ)
  | write (a : ℕ) (b : UInt8)

namespace UserHeap

/-- `base` and `freep` are zero, and nothing was obtained. -/
def boot (c : Program) (mem : Mem) : UserHeap := ⟨⟨mem, 0, c.brk, []⟩, []⟩

/-- One call, which may take `fuel` rounds of each loop. -/
def step (c : Program) (s : UserHeap) : ℕ × HeapCall → Option UserHeap
  | (fuel, .malloc nbytes _ gaps) =>
    (s.heap.malloc c fuel nbytes gaps).map fun (heap, p) =>
      if p = 0 then { s with heap := heap } else ⟨heap, (p, nbytes) :: s.live⟩
  | (fuel, .free ap) =>
    if ap ∈ s.live.map Prod.fst then
      (s.heap.free fuel ap).map fun heap => ⟨heap, s.live.eraseP fun x => x.1 = ap⟩
    else none
  | (_, .write a b) =>
    if ∃ x ∈ s.live, x.1 ≤ a ∧ a < x.1 + x.2 then
      some { s with heap := { s.heap with mem := Function.update s.heap.mem a b } }
    else none

end UserHeap

end AudioPlayer
