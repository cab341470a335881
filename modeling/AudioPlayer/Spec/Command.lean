import AudioPlayer.Spec.DiskFormat
import AudioPlayer.Spec.Player

/-!
# Commands (`user/aplay.c`)

A command is read by `gets` into a buffer and cut into words by `parsecmd`, which works in place:
it overwrites the spaces, and finds the words by the zeros in front of them. Pointers into the
buffer are offsets. Where `parsecmd` leaves its memory, it gives the reason as an error.
-/

namespace AudioPlayer

open Bytes

/-- `MAXARGS`. -/
abbrev maxargs : ℕ := 3

/-- `MAX_CM_LEN`. -/
abbrev maxCmLen : ℕ := 100

/-- The loop of `gets` with room for `n` characters: what it stores of the input. -/
def getsLoop : ℕ → List UInt8 → List UInt8
  | 0, _ => []
  | _ + 1, [] => []
  | n + 1, c :: input => if c = 10 ∨ c = 13 then [c] else c :: getsLoop n input

/-- `gets`, without the final zero. -/
def gets (input : List UInt8) (max : ℕ) : List UInt8 := getsLoop (max - 1) input

/-- `getcmd` with a buffer of `MAX_CM_LEN` bytes, `none` for -1. -/
def getcmd (input : List UInt8) : Option Mem :=
  let buf := ofList (gets input maxCmLen)
  if buf 0 = 0 then none else some buf

/-- `strcmp` of the string at offset `p` of a buffer of `size` bytes with `q`, `none` where it
reads behind the buffer. -/
def strcmp (size : ℕ) (m : Mem) : ℕ → List UInt8 → Option ℤ
  | p, [] => if p < size then some (m p).toNat else none
  | p, c :: q =>
    if p < size then
      if m p ≠ 0 ∧ m p = c then strcmp size m (p + 1) q else some ((m p).toNat - c.toNat)
    else none

/-- How `parsecmd` goes wrong. -/
inductive ParseFault
  /-- a byte behind the buffer is read or written -/
  | buffer
  /-- a pointer is stored behind `argv` -/
  | argv
  /-- `strcmp` is called with a null pointer -/
  | null

/-- `struct cmd`, as `parsecmd` leaves it. -/
structure ParsedCmd where
  type : Command
  argv : List ℕ
  argc : ℕ

/-- The names in the order of the comparisons in `parsecmd`. -/
def commandNames : List (List UInt8 × Command) :=
  [(ascii "help", .help), (ascii "open", .open), (ascii "volume", .volume), (ascii "speed", .speed),
   (ascii "pause", .pause), (ascii "resume", .resume), (ascii "stop", .stop), (ascii "quit", .quit)]

/-- The comparisons of `parsecmd`. -/
def commandType (size : ℕ) (m : Mem) (name : ℕ) : List (List UInt8 × Command) → Option Command
  | [] => some .error
  | (s, type) :: names =>
    (strcmp size m name s).bind fun r => if r = 0 then some type else commandType size m name names

/-- The loop of `parsecmd` at offset `c`, with as many bytes of the buffer to go as the first
argument says. -/
def parseLoop : ℕ → Mem → ℕ → List ℕ → Except ParseFault (Mem × List ℕ)
  | 0, _, _, _ => .error .buffer
  | n + 1, m, c, argv =>
    if m c = 10 then .ok (Function.update m c 0, argv)
    else if m c = 32 then parseLoop n (Function.update m c 0) (c + 1) argv
    else if c = 0 ∨ m (c - 1) = 0 then
      if argv.length < maxargs then parseLoop n m (c + 1) (argv ++ [c]) else .error .argv
    else parseLoop n m (c + 1) argv

/-- `parsecmd` on a buffer of `size` bytes. -/
def parsecmd (size : ℕ) (m : Mem) : Except ParseFault (Mem × ParsedCmd) :=
  match parseLoop size m 0 [] with
  | .error fault => .error fault
  | .ok (m, argv) =>
    match argv with
    | [] => .error .null
    | name :: _ =>
      match commandType size m name commandNames with
      | none => .error .buffer
      | some type => .ok (m, ⟨type, argv, argv.length⟩)

end AudioPlayer
