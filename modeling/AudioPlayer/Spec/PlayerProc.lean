import AudioPlayer.Spec.Proc
import AudioPlayer.Spec.Player

/-!
# The player in the process table

The player process with the process table it lives in: each `kill`, `fork` and `exit` that
a command makes is made on the table, in the order of the source. Between the commands
every other process, the readers included, makes steps of its own.
-/

namespace AudioPlayer

namespace Player

/-- Does the command call `apCloseAudio`? -/
def closes (p : Player) (c : Cmd) : Bool :=
  match c.type with
  | .open => c.argv.length = 2 && p.apinfo.hasOpened
  | .stop | .quit => p.apinfo.hasOpened
  | _ => false

/-- Does the command call `apReadDecode`, which forks the reader? -/
def forks (p : Player) (c : Cmd) (e : Outcome) : Bool :=
  match c.type with
  | .open =>
    let p := if p.apinfo.hasOpened then p.apCloseAudio.1 else p
    c.argv.length = 2 && 0 ≤ (p.apOpenAudio (arg c 1) e).2
  | _ => false

/-- Does the command call `exit`? -/
def exits (c : Cmd) : Bool :=
  match c.type with
  | .quit => true
  | _ => false

end Player

/-- The player in slot `slot` of the process table. The ghost `forked` counts the readers it
has forked. -/
structure PlayerProc where
  player : Player
  slot : Slot
  table : ProcTable
  forked : ℕ

inductive PlayerProc.Event
  /-- a command, with what its system calls find; `mem` and `copy` say whether there is
  memory for a new process -/
  | cmd (c : Cmd) (e : Outcome) (mem copy : Bool)
  | sound (a : Step)
  | proc (a : ProcStep)

namespace PlayerProc

/-- The table after `apCloseAudio`, if the command calls it. -/
def closed (m : PlayerProc) (c : Cmd) : ProcTable :=
  if m.player.closes c then (m.table.kill m.player.apinfo.readDecPid).1 else m.table

/-- `runcmd` in the process table. -/
def runcmd (m : PlayerProc) (c : Cmd) (e : Outcome) (mem copy : Bool) : Option PlayerProc :=
  if m.player.forks c e then
    ((m.closed c).fork m.slot mem copy).map fun (t, pid) =>
      { m with
        player := m.player.runcmd c { e with fork := pid }
        table := t
        forked := m.forked + if pid.isSome then 1 else 0 }
  else if Player.exits c then
    ((m.closed c).exit m.slot 0).map fun t =>
      { m with player := m.player.runcmd c e, table := t }
  else some { m with player := m.player.runcmd c e, table := m.closed c }

/-- One event, `none` where it cannot take place. The player makes no other calls on the
table than those of its commands. -/
def step (L : Layout) (m : PlayerProc) : Event → Option PlayerProc
  | .cmd c e mem copy =>
    if m.player.exited then none else m.runcmd c e mem copy
  | .sound a => (m.player.sys.step L a).map fun s => { m with player := { m.player with sys := s } }
  | .proc a =>
    match a with
    | .sched _ _ => (m.table.step a).map fun t => { m with table := t }
    | _ =>
      if a.actor = m.slot then none else (m.table.step a).map fun t => { m with table := t }

end PlayerProc

end AudioPlayer
