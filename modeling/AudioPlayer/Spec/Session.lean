import AudioPlayer.Spec.System

/-!
# The player's protocol

The protocol of the player: `clear`, then the writes of one process, then at most
one `finish`, then nothing but `setPlay` until the next `clear`; completion
interrupts come at any time. `Session.step` restricts the system to these steps and
records, since the last `clear`, the bytes written and the payloads that became the
head of the queue. The writer is process 0.
-/

namespace AudioPlayer

open Links Blocks Runs

/-- The payload that a call makes the head of a queue that was empty. -/
def newHead (k k' : Kernel) : List Data :=
  if k.soundQueueHead = none then (k'.soundQueueHead.map k'.data).toList else []

structure Session where
  sys : Sys
  finished : Bool
  written : List UInt8
  heads : List Data

inductive Act
  | write (buf : List UInt8)
  | search
  | finish
  | setPlay (play : ℤ)
  | clear
  | intr
deriving DecidableEq

/-- The bytes an action hands to the sound card. -/
def Act.bytes : Act → List UInt8
  | .write buf => buf
  | _ => []

namespace Session

/-- After a call: the system's new state, and the payload that became the head. -/
def call (t : Session) (s : Sys) : Session :=
  { t with sys := s, heads := t.heads ++ newHead t.sys.kernel s.kernel }

variable (L : Layout)

def step (t : Session) : Act → Option Session
  | .write buf =>
    if t.finished then none
    else (t.sys.step L (.write 0 buf)).map fun s => { t.call s with written := t.written ++ buf }
  | .search => (t.sys.step L (.search 0)).map t.call
  | .finish =>
    if t.finished ∨ (t.sys.calls 0).isSome then none
    else (t.sys.step L .finish).map fun s => { t.call s with finished := true }
  | .setPlay play => (t.sys.step L (.setPlay play)).map fun s => { t with sys := s }
  | .clear =>
    -- a call that is still searching goes on with its bytes left
    (t.sys.step L .clear).map fun s =>
      ⟨s, false, (s.calls 0).elim [] fun w => w.buf.drop w.readAlready.toNat, []⟩
  | .intr =>
    (t.sys.step L .intr).map fun s =>
      { t with sys := s, heads := t.heads ++ (s.kernel.soundQueueHead.map s.kernel.data).toList }

/-- The actions that are possible: one call at a time, no write after `finish`, and an
interrupt only for a head node. -/
def Allows (t : Session) : Act → Prop
  | .write buf => t.finished = false ∧ t.sys.calls 0 = none ∧ buf.length ≤ 2048
  | .search => (t.sys.calls 0).isSome
  | .finish => t.finished = false ∧ t.sys.calls 0 = none
  | .setPlay _ | .clear => True
  | .intr => t.sys.kernel.soundQueueHead ≠ none

/-- `clear`, made in any state `k`, with no call under way. -/
def start (k : Kernel) : Session := ⟨⟨k.sysClearSoundCardBuffer, fun _ => none⟩, false, [], []⟩

end Session

/-! ## Changing files

The player closes a file (`apCloseAudio`: kill the reader, `clear`), opens the next one
(`apOpenAudio`: `clear`) and starts a reader for it (`apReadDecode`). `kill` only marks
the old reader, which dies when its call returns to user space: a call that is in its
search loop goes on. The new reader is process 0, the old one process 1. -/

/-- How far the player is. -/
inductive Phase
  | killed
  | closed
  | opened
  | playing
deriving DecidableEq

structure Handover where
  session : Session
  phase : Phase

inductive Move
  /-- the old reader makes a pass of its search loop -/
  | old
  /-- the player's next `clearSoundCardBuffer` -/
  | clear
  /-- the player starts the new reader -/
  | fork
  /-- a step of the new reader -/
  | reader (a : Act)
  | setPlay (play : ℤ)
  | intr

/-- The actions of a reader. -/
def Act.ofReader : Act → Bool
  | .write _ | .search | .finish => true
  | _ => false

/-- The bytes of the new file that a move hands to the sound card. -/
def Move.bytes : Move → List UInt8
  | .reader a => a.bytes
  | _ => []

namespace Handover

/-- The old reader is killed in a state of its own session. -/
def kill (t : Session) : Handover :=
  ⟨⟨⟨t.sys.kernel, Function.update (fun _ => none) 1 (t.sys.calls 0)⟩, false, [], []⟩, .killed⟩

variable (L : Layout)

def step (u : Handover) : Move → Option Handover
  | .old => (u.session.sys.step L (.search 1)).map fun s => { u with session := u.session.call s }
  | .clear =>
    match u.phase with
    | .killed => (u.session.step L .clear).map (⟨·, .closed⟩)
    | .closed => (u.session.step L .clear).map (⟨·, .opened⟩)
    | _ => none
  | .fork => if u.phase = .opened then some { u with phase := .playing } else none
  | .reader a =>
    if u.phase = .playing ∧ a.ofReader then (u.session.step L a).map (⟨·, u.phase⟩) else none
  | .setPlay play => (u.session.step L (.setPlay play)).map (⟨·, u.phase⟩)
  | .intr => (u.session.step L .intr).map (⟨·, u.phase⟩)

end Handover

end AudioPlayer
