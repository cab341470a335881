import AudioPlayer.Lib.Bytes
import Mathlib.Algebra.Group.Int.Defs

/-!
# Copies in memory (`kernel/string.c`, `user/ulib.c`)

Both libraries have a `memmove` that may be given overlapping ranges. The kernel's copies
upwards unless the destination starts inside the source, the user's copies upwards only if
the source is the higher one. Pointers are 64 bits wide.
-/

namespace AudioPlayer

open Bytes

/-- A pointer moved by `k`. -/
def ptrAdd (p : ℕ) (k : ℤ) : ℕ := ((p + k) % 2 ^ 64).toNat

/-- `while(n-- > 0) *d++ = *s++;` -/
def copyUp : ℕ → Mem → ℕ → ℕ → Mem
  | 0, m, _, _ => m
  | n + 1, m, d, s => copyUp n (Function.update m d (m s)) (ptrAdd d 1) (ptrAdd s 1)

/-- `while(n-- > 0) *--d = *--s;` -/
def copyDown : ℕ → Mem → ℕ → ℕ → Mem
  | 0, m, _, _ => m
  | n + 1, m, d, s =>
    let d := ptrAdd d (-1)
    let s := ptrAdd s (-1)
    copyDown n (Function.update m d (m s)) d s

/-- `memmove` of the kernel, with the pointer it returns. -/
def Kstring.memmove (m : Mem) (dst src n : ℕ) : Mem × ℕ :=
  if n = 0 then (m, dst)
  else if src < dst ∧ ptrAdd src n > dst then (copyDown n m (ptrAdd dst n) (ptrAdd src n), dst)
  else (copyUp n m dst src, dst)

/-- `memmove` of the user library, with the pointer it returns; `n` is an `int`. -/
def Ulib.memmove (m : Mem) (vdst vsrc : ℕ) (n : ℤ) : Mem × ℕ :=
  if vsrc > vdst then (copyUp n.toNat m vdst vsrc, vdst)
  else (copyDown n.toNat m (ptrAdd vdst n) (ptrAdd vsrc n), vdst)

end AudioPlayer
