import AudioPlayer.Spec.System
import AudioPlayer.Spec.Codec
import AudioPlayer.Spec.Vm

/-!
# `sys_writeDecodedAudio` with its arguments (`kernel/sound_card.c`, `kernel/syscall.c`)

`Kernel.sysWriteDecodedAudio` begins behind the `copyin`. Here is the call as a process makes
it, with any register contents and any page table: the test of `size`, the `copyin` into the
buffer on the kernel's stack, and the rest.
-/

namespace AudioPlayer

open Runs

/-- What a call finds: the argument registers, the page table, and memory. -/
structure UserArgs where
  a0 : ℕ
  a1 : ℕ
  pagetable : ℕ
  ptes : PageMem
  mem : ℕ → UInt8

/-- `argint(1, &size)`. -/
def UserArgs.size (A : UserArgs) : ℤ := int32 A.a1

/-- `argaddr(0, &buf_addr)`. -/
def UserArgs.bufAddr (A : UserArgs) : ℕ := A.a0 % 2 ^ 64

/-- Where a call has got to. -/
inductive Progress
  | returned (v : ℤ)
  | searching (w : Search)

/-- A call: the bytes stored into `buf`, from index 0 on, and the state it leaves. -/
structure WriteCall where
  stored : List UInt8
  result : Option (Kernel × Progress)

/-- `sys_writeDecodedAudio` up to its search loop. The signed `size` is the unsigned length of
the `copyin`. -/
def Kernel.callWriteDecodedAudio (L : Layout) (k : Kernel) (A : UserArgs) : WriteCall :=
  if A.size > 2048 then ⟨[], some (k, .returned (-1))⟩
  else
    let copied := copyin A.ptes A.mem A.pagetable A.bufAddr (A.size % 2 ^ 64).toNat
    if copied.2 < 0 then ⟨copied.1, some (k, .returned (-1))⟩
    else
      ⟨copied.1, (k.sysWriteDecodedAudio L copied.1).map fun r =>
        (r.1, match r.2 with
          | none => .returned 0
          | some w => .searching w)⟩

/-- A pass of the search loop comes to the branch that copies a whole node out of `buf`. -/
def Kernel.fillsNode (k : Kernel) (w : Search) : Prop :=
  ∃ i, k.flag i = 0 ∧ ¬ bufsize > w.buf.length - w.readAlready

instance (k : Kernel) (w : Search) : Decidable (k.fillsNode w) :=
  inferInstanceAs (Decidable (∃ _, _ ∧ _))

/-- The steps of the sound system, with writes as processes make them. -/
inductive UserStep
  | write (p : ℕ) (A : UserArgs)
  | search (p : ℕ)
  | finish
  | clear
  | setPlay (play : ℤ)
  | intr

namespace Sys

/-- The calls of a system in which process `p` has come to `r`. -/
def progress (s : Sys) (p : ℕ) (r : Kernel × Progress) : Sys :=
  ⟨r.1, Function.update s.calls p (match r.2 with
    | .returned _ => none
    | .searching w => some w)⟩

/-- One step. -/
def userStep (L : Layout) (s : Sys) : UserStep → Option Sys
  | .write p A =>
    if (s.calls p).isSome then none
    else (s.kernel.callWriteDecodedAudio L A).result.map (s.progress p)
  | .search p => s.step L (.search p)
  | .finish => s.step L .finish
  | .clear => s.step L .clear
  | .setPlay play => s.step L (.setPlay play)
  | .intr => s.step L .intr

end Sys

end AudioPlayer
