import AudioPlayer.Spec.Proc
import AudioPlayer.Lib.Runs
import AudioPlayer.Lib.RingBuffer

/-!
# Pipes (`kernel/pipe.c`)

One pipe, from `pipealloc` to the `kfree` of its page, and the calls that processes make on it.
A call begins outside of the pipe's lock, takes it, and moves one byte in a step. It gives the
lock up where it sleeps, and it may wake up at any time: it looks at the pipe again then. The
buffers of the calls are mapped.

`held` counts the descriptors that a process has for an end. An end is closed when the last of
them is (`fileclose`), and a process in a call closes none.
-/

namespace AudioPlayer

open Function

/-- `PIPESIZE`. -/
abbrev pipeSize : ℕ := 512

/-- `struct pipe`. The counters are `uint`s. -/
structure Pipe where
  data : ℕ → UInt8
  nread : ℕ
  nwrite : ℕ
  readopen : Bool
  writeopen : Bool

namespace Pipe

/-- The bytes in the pipe. -/
def buffered (pi : Pipe) : List UInt8 :=
  RingBuffer.contents pipeSize (2 ^ 32) pi.data pi.nread pi.nwrite

/-- `pi->data[pi->nwrite++ % PIPESIZE] = ch`. -/
def put (pi : Pipe) (ch : UInt8) : Pipe :=
  { pi with
    data := update pi.data (pi.nwrite % pipeSize) ch
    nwrite := (pi.nwrite + 1) % 2 ^ 32 }

/-- `ch = pi->data[pi->nread++ % PIPESIZE]`. -/
def get (pi : Pipe) : UInt8 × Pipe :=
  (pi.data (pi.nread % pipeSize), { pi with nread := (pi.nread + 1) % 2 ^ 32 })

/-- Is the end open that is, or is not, for writing? -/
def isOpen (pi : Pipe) (writable : Bool) : Bool := if writable then pi.writeopen else pi.readopen

/-- The first lines of `pipeclose`. -/
def shut (pi : Pipe) (writable : Bool) : Pipe :=
  if writable then { pi with writeopen := false } else { pi with readopen := false }

end Pipe

/-- Where a process is. -/
inductive PipeCall
  | idle
  /-- at the head of the loop of `pipewrite`, with `i` bytes written; `id` is a ghost, the number
  of the call -/
  | write (id : ℕ) (n : ℤ) (src : ℕ → UInt8) (i : ℕ)
  /-- at the head of the first loop of `piperead` -/
  | read (id : ℕ) (n : ℤ)
  /-- at the head of its second loop, with the bytes `got` copied out -/
  | copy (id : ℕ) (n : ℤ) (got : List UInt8)

/-- A `pipewrite` that has returned, from the round `i` of its loop. -/
structure WriteReturn where
  id : ℕ
  src : ℕ → UInt8
  i : ℕ
  ret : ℤ

/-- A `piperead` that has returned, what it copied out and the pipe it left. -/
structure ReadReturn where
  id : ℕ
  n : ℤ
  got : List UInt8
  ret : ℤ
  empty : Bool
  writeopen : Bool

/-- The pipe, its lock, the processes and their descriptors. The rest are ghosts: how often the
page was freed, how many calls have begun, the bytes accepted from writers and delivered to readers,
each with the number of the call, and the calls that have returned. -/
structure PipeSys where
  pipe : Pipe
  lock : Option Slot
  calls : Slot → PipeCall
  held : Bool → Slot → ℕ
  freed : ℕ
  begun : ℕ
  accepted : List (ℕ × UInt8)
  delivered : List (ℕ × UInt8)
  writes : List WriteReturn
  reads : List ReadReturn

inductive PipeStep
  /-- process `p` calls `pipewrite` for `n` bytes of its memory -/
  | write (p : Slot) (n : ℤ) (src : ℕ → UInt8)
  | read (p : Slot) (n : ℤ)
  /-- the call of process `p` gets the lock, at its start or when it wakes up -/
  | acquire (p : Slot)
  /-- the call of process `p` goes once through its loop; `killed` is what it finds in `killed` -/
  | run (p : Slot) (killed : Bool)
  /-- process `q` gets another descriptor from `p`, by `dup` or `fork` -/
  | dup (writable : Bool) (p q : Slot)
  | close (writable : Bool) (p : Slot)

namespace PipeSys

/-- A process begins a call. -/
def begin (s : PipeSys) (p : Slot) (c : PipeCall) : PipeSys :=
  { s with calls := update s.calls p c, begun := s.begun + 1 }

/-- A `pipewrite` returns. -/
def endWrite (s : PipeSys) (p : Slot) (r : WriteReturn) : PipeSys :=
  { s with lock := none, calls := update s.calls p .idle, writes := r :: s.writes }

/-- A `piperead` returns. -/
def endRead (s : PipeSys) (p : Slot) (id : ℕ) (n : ℤ) (got : List UInt8) (ret : ℤ) : PipeSys :=
  { s with
    lock := none
    calls := update s.calls p .idle
    reads := ⟨id, n, got, ret, s.pipe.nread = s.pipe.nwrite, s.pipe.writeopen⟩ :: s.reads }

/-- One round of the loop of `pipewrite`. -/
def pipewrite (s : PipeSys) (p : Slot) (killed : Bool) (id : ℕ) (n : ℤ) (src : ℕ → UInt8) (i : ℕ) :
    PipeSys :=
  if i < n then
    if s.pipe.readopen = false ∨ killed = true then s.endWrite p ⟨id, src, i, -1⟩
    else if s.pipe.nwrite = (s.pipe.nread + pipeSize) % 2 ^ 32 then
      -- the pipe is full: sleep
      { s with lock := none }
    else
      { s with
        pipe := s.pipe.put (src i)
        calls := update s.calls p (.write id n src (i + 1))
        accepted := s.accepted ++ [(id, src i)] }
  else s.endWrite p ⟨id, src, i, i⟩

/-- One round of the first loop of `piperead`. -/
def pipereadWait (s : PipeSys) (p : Slot) (killed : Bool) (id : ℕ) (n : ℤ) : PipeSys :=
  if s.pipe.nread = s.pipe.nwrite ∧ s.pipe.writeopen = true then
    -- the pipe is empty: sleep
    if killed then s.endRead p id n [] (-1) else { s with lock := none }
  else { s with calls := update s.calls p (.copy id n []) }

/-- One round of the second loop of `piperead`. -/
def pipereadCopy (s : PipeSys) (p : Slot) (id : ℕ) (n : ℤ) (got : List UInt8) : PipeSys :=
  if got.length < n then
    if s.pipe.nread = s.pipe.nwrite then s.endRead p id n got got.length
    else
      { s with
        pipe := s.pipe.get.2
        calls := update s.calls p (.copy id n (got ++ [s.pipe.get.1]))
        delivered := s.delivered ++ [(id, s.pipe.get.1)] }
  else s.endRead p id n got got.length

/-- `pipeclose`. -/
def pipeclose (s : PipeSys) (writable : Bool) : PipeSys :=
  let pi := s.pipe.shut writable
  { s with
    pipe := pi
    freed := if pi.readopen = false ∧ pi.writeopen = false then s.freed + 1 else s.freed }

/-- A process has one descriptor less for an end. -/
def release (s : PipeSys) (writable : Bool) (p : Slot) : PipeSys :=
  { s with
    held := update s.held writable
      (update (s.held writable) p (s.held writable p - 1)) }

/-- One step, `none` where it cannot be made. -/
def step (s : PipeSys) : PipeStep → Option PipeSys
  | .write p n src =>
    match s.calls p with
    | .idle =>
      if 0 < s.held true p then some (s.begin p (.write s.begun n src 0)) else none
    | _ => none
  | .read p n =>
    match s.calls p with
    | .idle =>
      if 0 < s.held false p then some (s.begin p (.read s.begun n)) else none
    | _ => none
  | .acquire p =>
    match s.calls p with
    | .idle => none
    | _ => if s.lock = none then some { s with lock := some p } else none
  | .run p killed =>
    if s.lock = some p then
      match s.calls p with
      | .idle => none
      | .write id n src i => some (s.pipewrite p killed id n src i)
      | .read id n => some (s.pipereadWait p killed id n)
      | .copy id n got => some (s.pipereadCopy p id n got)
    else none
  | .dup writable p q =>
    if 0 < s.held writable p then
      some { s with
        held := update s.held writable
          (update (s.held writable) q (s.held writable q + 1)) }
    else none
  | .close writable p =>
    match s.calls p with
    | .idle =>
      if 0 < s.held writable p then
        let s := s.release writable p
        -- the last descriptor closes the end, under the lock
        if ∀ q, s.held writable q = 0 then
          if s.lock = none then some (s.pipeclose writable) else none
        else some s
      else none
    | _ => none

/-- What `pipealloc` leaves, with a descriptor for each end in process `p`. -/
def alloc (p : Slot) : PipeSys where
  pipe := ⟨fun _ => 0, 0, 0, true, true⟩
  lock := none
  calls := fun _ => .idle
  held := fun _ q => if q = p then 1 else 0
  freed := 0
  begun := 0
  accepted := []
  delivered := []
  writes := []
  reads := []

end PipeSys

end AudioPlayer
