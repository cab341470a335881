import AudioPlayer.Spec.Proc
import AudioPlayer.Lib.Runs
import AudioPlayer.Lib.RingBuffer

/-!
# Console input (`kernel/console.c`)

`cons` is a ring of 128 characters with three free-running indices: readers take from `r`, what
is committed ends at `w`, and what is being edited ends at `e`. `consoleintr` runs under the
console's lock, `consoleread` gives the lock up where it sleeps. The buffers of the readers are
mapped. The echo is left out.

`LineEditor` is what the console is for: rules for editing a line, on lists.
-/

namespace AudioPlayer

/-- `INPUT_BUF`. -/
abbrev inputBuf : ℕ := 128

/-- `C(x)`, Control-x. -/
def ctrl (x : Char) : UInt8 := UInt8.ofNat (x.toNat - '@'.toNat)

def newline : UInt8 := UInt8.ofNat '\n'.toNat

def carriageReturn : UInt8 := UInt8.ofNat '\r'.toNat

/-! ## The editing rules -/

/-- All that was committed so far, how much of it readers have taken, and the line being
edited. -/
structure LineEditor where
  committed : List UInt8
  taken : ℕ
  line : List UInt8

namespace LineEditor

/-- The characters that take up room. -/
def used (d : LineEditor) : ℕ := d.committed.length - d.taken + d.line.length

/-- A line ends with a newline or an end of file, or when there is no more room. -/
def add (d : LineEditor) (ch : UInt8) : LineEditor :=
  let d := { d with line := d.line ++ [ch] }
  if ch = newline ∨ ch = ctrl 'D' ∨ d.used = inputBuf then
    { d with committed := d.committed ++ d.line, line := [] }
  else d

/-- One typed character. -/
def type (d : LineEditor) (ch : UInt8) : LineEditor :=
  if ch = ctrl 'P' then d
  else if ch = ctrl 'U' then { d with line := [] }
  else if ch = ctrl 'H' ∨ ch = 0x7f then { d with line := d.line.dropLast }
  else if ch ≠ 0 ∧ d.used < inputBuf then d.add (if ch = carriageReturn then newline else ch)
  else d

end LineEditor

/-- A character is typed, or a reader takes one. -/
inductive ConsEvent
  | typed (ch : UInt8)
  | taken

def LineEditor.event (d : LineEditor) : ConsEvent → LineEditor
  | .typed ch => d.type ch
  | .taken => { d with taken := d.taken + 1 }

/-- The rules applied to all events, oldest first. -/
def LineEditor.run (es : List ConsEvent) : LineEditor := es.foldl event ⟨[], 0, []⟩

/-! ## The code -/

/-- `cons`. The indices are `uint`s. -/
structure Cons where
  buf : ℕ → UInt8
  r : ℕ
  w : ℕ
  e : ℕ

namespace Cons

/-- The committed characters that nobody has read. -/
def ready (c : Cons) : List UInt8 := RingBuffer.contents inputBuf (2 ^ 32) c.buf c.r c.w

/-- The characters that are being edited. -/
def line (c : Cons) : List UInt8 := RingBuffer.contents inputBuf (2 ^ 32) c.buf c.w c.e

/-- `cons.e--`. -/
def erase (c : Cons) : Cons := { c with e := (c.e + 2 ^ 32 - 1) % 2 ^ 32 }

/-- The loop of `C('U')`, which ends at `cons.w` at the latest. -/
def killLine : ℕ → Cons → Cons
  | 0, c => c
  | fuel + 1, c =>
    if c.e ≠ c.w ∧ c.buf ((c.e + 2 ^ 32 - 1) % 2 ^ 32 % inputBuf) ≠ newline then
      killLine fuel c.erase
    else c

/-- `consoleintr`. -/
def consoleintr (c : Cons) (ch : UInt8) : Cons :=
  if ch = ctrl 'P' then c
  else if ch = ctrl 'U' then killLine ((c.e + 2 ^ 32 - c.w) % 2 ^ 32) c
  else if ch = ctrl 'H' ∨ ch = 0x7f then if c.e ≠ c.w then c.erase else c
  else if ch ≠ 0 ∧ (c.e + 2 ^ 32 - c.r) % 2 ^ 32 < inputBuf then
    let ch := if ch = carriageReturn then newline else ch
    let c := { c with
      buf := Function.update c.buf (c.e % inputBuf) ch
      e := (c.e + 1) % 2 ^ 32 }
    if ch = newline ∨ ch = ctrl 'D' ∨ c.e = (c.r + inputBuf) % 2 ^ 32 then { c with w := c.e } else c
  else c

end Cons

/-- Where a process is: in no call, or at the head of the loops of `consoleread` with `n` bytes
to go. `got` is what it has copied out, and the ghost `id` is the number of the call. -/
inductive ConsCall
  | idle
  | reading (id : ℕ) (target n : ℤ) (got : List UInt8)

/-- A `consoleread` that has returned; `eof` says that it took an end of file, as its first
character. -/
structure ConsRead where
  id : ℕ
  target : ℤ
  ret : ℤ
  got : List UInt8
  eof : Bool

/-- The characters that a read took: those it copied out, and the end of file. -/
def ConsRead.took (r : ConsRead) : List UInt8 := if r.eof then r.got ++ [ctrl 'D'] else r.got

/-- The console, its lock and the processes, with ghosts for all events, for the number of reads
that have begun, for the characters that readers have taken, each with the number of its read, and
for the reads that have returned. -/
structure ConsSys where
  cons : Cons
  lock : Option Slot
  calls : Slot → ConsCall
  events : List ConsEvent
  begun : ℕ
  taken : List (ℕ × UInt8)
  reads : List ConsRead

inductive ConsStep
  | typed (ch : UInt8)
  | read (p : Slot) (n : ℤ)
  /-- the call of process `p` gets the lock, at its start or when it wakes up -/
  | acquire (p : Slot)
  /-- the call of process `p` goes once through its loop -/
  | run (p : Slot) (killed : Bool)

namespace ConsSys

/-- A `consoleread` returns. -/
def endRead (s : ConsSys) (p : Slot) (r : ConsRead) : ConsSys :=
  { s with lock := none, calls := Function.update s.calls p .idle, reads := r :: s.reads }

/-- The read `id` takes the character at `cons.r`. -/
def take (s : ConsSys) (id : ℕ) : ConsSys :=
  { s with
    cons := { s.cons with r := (s.cons.r + 1) % 2 ^ 32 }
    events := s.events ++ [.taken]
    taken := s.taken ++ [(id, s.cons.buf (s.cons.r % inputBuf))] }

/-- One round of the loop of `consoleread`. -/
def consoleread (s : ConsSys) (p : Slot) (killed : Bool) (id : ℕ) (target n : ℤ) (got : List UInt8) :
    ConsSys :=
  if n > 0 then
    if s.cons.r = s.cons.w then
      -- wait until there is input
      if killed then s.endRead p ⟨id, target, -1, got, false⟩ else { s with lock := none }
    else
      let c := s.cons.buf (s.cons.r % inputBuf)
      if c = ctrl 'D' then
        if n < target then
          -- `cons.r++` and `cons.r--`: save it for next time
          { s with
            cons := { s.cons with r := ((s.cons.r + 1) % 2 ^ 32 + 2 ^ 32 - 1) % 2 ^ 32 } }.endRead p
            ⟨id, target, target - n, got, false⟩
        else (s.take id).endRead p ⟨id, target, target - n, got, true⟩
      else if c = newline then (s.take id).endRead p ⟨id, target, target - (n - 1), got ++ [c], false⟩
      else { s.take id with
        calls := Function.update s.calls p (.reading id target (n - 1) (got ++ [c])) }
  else s.endRead p ⟨id, target, target - n, got, false⟩

/-- One step, `none` where it cannot be made. -/
def step (s : ConsSys) : ConsStep → Option ConsSys
  | .typed ch =>
    if s.lock = none then
      some { s with cons := s.cons.consoleintr ch, events := s.events ++ [.typed ch] }
    else none
  | .read p n =>
    match s.calls p with
    | .idle =>
      some { s with
        calls := Function.update s.calls p (.reading s.begun n n []), begun := s.begun + 1 }
    | _ => none
  | .acquire p =>
    match s.calls p with
    | .idle => none
    | _ => if s.lock = none then some { s with lock := some p } else none
  | .run p killed =>
    if s.lock = some p then
      match s.calls p with
      | .idle => none
      | .reading id target n got => some (s.consoleread p killed id target n got)
    else none

/-- The console at boot. -/
def boot : ConsSys := ⟨⟨fun _ => 0, 0, 0, 0⟩, none, fun _ => .idle, [], 0, [], []⟩

end ConsSys

end AudioPlayer
