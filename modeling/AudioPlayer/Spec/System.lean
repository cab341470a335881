import AudioPlayer.Spec.SoundCard
import AudioPlayer.Lib.Runs

/-!
# The sound system as a step function

Processes make sound system calls, and the device raises completion interrupts, in
any order. A call is one step, except that a write call that has filled its node
takes one step for each pass of its search loop: `Sys.calls` holds the calls that
are in that loop, by process.

A step that cannot be taken gives `none`: a process that is in a call makes no
other, `add_sound_node` may never return, and `soundintr` panics on an empty queue.
-/

namespace AudioPlayer

open Runs

/-- The driver's state and the write calls that are searching for a free node. -/
structure Sys where
  kernel : Kernel
  calls : ℕ → Option Search

inductive Step
  /-- process `p` calls `writeDecodedAudio` and its `copyin` reads `buf` -/
  | write (p : ℕ) (buf : List UInt8)
  /-- the call of process `p` makes one pass of its search loop -/
  | search (p : ℕ)
  | finish
  | clear
  | setPlay (play : ℤ)
  | intr

namespace Sys

/-- The state after a write call or a search pass of process `p`. -/
def after (s : Sys) (p : ℕ) (r : Kernel × Option Search) : Sys :=
  ⟨r.1, Function.update s.calls p r.2⟩

variable (L : Layout)

/-- One step of the system. -/
def step (s : Sys) : Step → Option Sys
  | .write p buf =>
    -- a larger `size` is refused before anything is touched
    if (s.calls p).isSome ∨ 2048 < buf.length then none
    else (s.kernel.sysWriteDecodedAudio L buf).map (s.after p)
  | .search p => (s.calls p).bind fun w => (s.kernel.searchPass L w).map (s.after p)
  | .finish => (s.kernel.sysFinishWriteAudio L).map fun k => { s with kernel := k }
  | .clear => some { s with kernel := s.kernel.sysClearSoundCardBuffer }
  | .setPlay play => some { s with kernel := (s.kernel.sysSetPlay play).1 }
  | .intr =>
    -- the device raises the interrupt, then the handler runs
    ({ s.kernel with dev := s.kernel.dev.raise }.soundintr L).map fun k => { s with kernel := k }

/-- One step of the system with its device: an interrupt only comes while the device
may raise one. -/
def devStep (s : Sys) : Step → Option Sys
  | .intr => if s.kernel.dev.pending = 0 then none else s.step L .intr
  | a => s.step L a

/-- The system at boot: no call has been made. -/
def boot : Sys := ⟨.boot L, fun _ => none⟩

end Sys

/-- One layout, for runs on fixed inputs. -/
def Layout.sample : Layout := ⟨0x80030000, 0x80020000⟩

end AudioPlayer
