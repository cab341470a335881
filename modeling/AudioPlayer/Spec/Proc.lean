import Mathlib.Data.Fintype.Card
import Mathlib.Data.Fin.Basic
import Mathlib.Algebra.GroupWithZero.Nat

/-!
# The process table (`kernel/proc.c`)

The slots of `proc[NPROC]` with the fields that `fork`, `exit`, `wait` and `kill` use.
Each call runs under the locks of the table and is one step. Which runnable process runs
next, and who wakes up whom, is left open: a process that is alive goes to sleep, wakes up
and is scheduled at any time (`ProcStep.sched`).

A call gives `none` where it does not return: `exit` of `initproc` panics, `wait` sleeps
until a child has exited, and the counter of process ids is an `int` whose overflow is
undefined.
-/

namespace AudioPlayer

/-- `NPROC` of `kernel/param.h`. -/
abbrev nproc : ℕ := 64

abbrev Slot := Fin nproc

instance : NeZero nproc := ⟨Nat.succ_ne_zero 63⟩

/-- `enum procstate`. -/
inductive ProcState
  | unused
  | used
  | sleeping
  | runnable
  | running
  | zombie
deriving DecidableEq

/-- `struct proc`. -/
structure Proc where
  state : ProcState
  killed : Bool
  xstate : ℤ
  pid : ℕ
  parent : Option Slot

structure ProcTable where
  proc : Slot → Proc
  nextpid : ℕ
  initproc : Slot

namespace ProcTable

def set (t : ProcTable) (s : Slot) (p : Proc) : ProcTable :=
  { t with proc := Function.update t.proc s p }

/-- `freeproc`. -/
def freeproc (t : ProcTable) (s : Slot) : ProcTable := t.set s ⟨.unused, false, 0, 0, none⟩

/-- `allocpid`. -/
def allocpid (t : ProcTable) : Option (ProcTable × ℕ) :=
  if t.nextpid + 1 < 2 ^ 31 then some ({ t with nextpid := t.nextpid + 1 }, t.nextpid) else none

/-- The first slot that `allocproc` finds. -/
def findUnused (t : ProcTable) : Option Slot :=
  (List.finRange nproc).find? fun s => (t.proc s).state = .unused

/-- `allocproc`. The slot is given back if `mem` says that a page is missing. -/
def allocproc (t : ProcTable) (mem : Bool) : Option (ProcTable × Option Slot) :=
  match t.findUnused with
  | none => some (t, none)
  | some s =>
    t.allocpid.map fun (t, pid) =>
      let t := t.set s { t.proc s with pid := pid, state := .used }
      if mem then (t, some s) else (t.freeproc s, none)

/-- `fork` of process `p`, with the pid of the child or `none` for -1. The memory of the
child can be missing for `allocproc` or for `uvmcopy`. -/
def fork (t : ProcTable) (p : Slot) (mem copy : Bool) : Option (ProcTable × Option ℕ) :=
  (t.allocproc mem).map fun (t, np) =>
    match np with
    | none => (t, none)
    | some s =>
      if copy then
        (t.set s { t.proc s with parent := some p, state := .runnable }, some (t.proc s).pid)
      else (t.freeproc s, none)

/-- `reparent`. -/
def reparent (t : ProcTable) (p : Slot) : ProcTable :=
  { t with proc := fun s =>
      if (t.proc s).parent = some p then { t.proc s with parent := some t.initproc } else t.proc s }

/-- `exit` of process `p`. -/
def exit (t : ProcTable) (p : Slot) (status : ℤ) : Option ProcTable :=
  if p = t.initproc then none
  else
    let t := t.reparent p
    some (t.set p { t.proc p with xstate := status, state := .zombie })

/-- `wait` of process `p`, with its return value. `copy` says whether the exit status can be
copied out. -/
def wait (t : ProcTable) (p : Slot) (copy : Bool) : Option (ProcTable × ℤ) :=
  match (List.finRange nproc).find? fun s =>
      (t.proc s).parent = some p ∧ (t.proc s).state = .zombie with
  | some s => if copy then some (t.freeproc s, (t.proc s).pid) else some (t, -1)
  | none =>
    -- no point in waiting without children
    if (∀ s, (t.proc s).parent ≠ some p) ∨ (t.proc p).killed then some (t, -1) else none

/-- `kill`, with its return value. -/
def kill (t : ProcTable) (pid : ℤ) : ProcTable × ℤ :=
  match (List.finRange nproc).find? fun s => ((t.proc s).pid : ℤ) = pid with
  | none => (t, -1)
  | some s =>
    let q := t.proc s
    let state := if q.state = .sleeping then .runnable else q.state
    (t.set s { q with killed := true, state := state }, 0)

end ProcTable

/-- A state a live process is in between two calls. -/
def ProcState.live : ProcState → Bool
  | .sleeping | .runnable | .running => true
  | _ => false

inductive ProcStep
  | fork (p : Slot) (mem copy : Bool)
  | exit (p : Slot) (status : ℤ)
  | wait (p : Slot) (copy : Bool)
  | kill (p : Slot) (pid : ℤ)
  /-- process `p` goes to sleep, is woken up or is scheduled -/
  | sched (p : Slot) (state : ProcState)

/-- The process that makes a step. -/
def ProcStep.actor : ProcStep → Slot
  | .fork p _ _ | .exit p _ | .wait p _ | .kill p _ | .sched p _ => p

/-- One step of a process. Calls are made by the processes that run. -/
def ProcTable.step (t : ProcTable) (a : ProcStep) : Option ProcTable :=
  match a with
  | .sched p state =>
    if (t.proc p).state.live ∧ state.live then some (t.set p { t.proc p with state := state })
    else none
  | .fork p mem copy =>
    if (t.proc p).state = .running then (t.fork p mem copy).map Prod.fst else none
  | .exit p status => if (t.proc p).state = .running then t.exit p status else none
  | .wait p copy => if (t.proc p).state = .running then (t.wait p copy).map Prod.fst else none
  | .kill p pid => if (t.proc p).state = .running then some (t.kill pid).1 else none

/-- The slots in use whose parent is `p`. -/
def ProcTable.children (t : ProcTable) (p : Slot) : Finset Slot :=
  Finset.univ.filter fun s => (t.proc s).state ≠ .unused ∧ (t.proc s).parent = some p

/-- The table when `userinit` has made the first process. -/
def ProcTable.boot : ProcTable where
  proc s := if s = 0 then ⟨.runnable, false, 0, 1, none⟩ else ⟨.unused, false, 0, 0, none⟩
  nextpid := 2
  initproc := 0

/-! ## Who was killed -/

/-- The table with a history of it. A process is `blamed` if, since it was created, a `kill`
has named its pid or it has taken an unexpected trap; `births` are the `killed` flags of the
forked processes when they start; `hits` says of every `kill` that returned 0 whether there was a
process with that pid. -/
structure KillLog where
  table : ProcTable
  blamed : Slot → Bool
  births : List Bool
  hits : List Bool

inductive KillStep
  | call (a : ProcStep)
  /-- process `p` takes an unexpected trap -/
  | trap (p : Slot)

namespace KillLog

/-- A process with the given pid. -/
def Named (t : ProcTable) (pid : ℤ) (s : Slot) : Prop :=
  (t.proc s).state ≠ .unused ∧ ((t.proc s).pid : ℤ) = pid

instance (t : ProcTable) (pid : ℤ) (s : Slot) : Decidable (Named t pid s) :=
  inferInstanceAs (Decidable (_ ∧ _))

/-- The history after a `fork` that left table `t`. -/
def forked (m : KillLog) (t : ProcTable) (child : Option ℕ) : KillLog :=
  match m.table.findUnused, child with
  | some s, some _ =>
    { m with
      table := t
      blamed := Function.update m.blamed s false
      births := (t.proc s).killed :: m.births }
  | _, _ => { m with table := t }

/-- The history after a `kill`. -/
def killed (m : KillLog) (pid : ℤ) : KillLog :=
  let r := m.table.kill pid
  { m with
    table := r.1
    blamed := fun s => m.blamed s || decide (Named m.table pid s)
    hits := if r.2 = 0 then decide (∃ s, Named m.table pid s) :: m.hits else m.hits }

/-- One step; what is not a `fork` or a `kill` leaves the history alone. -/
def step (m : KillLog) : KillStep → Option KillLog
  | .call (.fork p mem copy) =>
    if (m.table.proc p).state = .running then
      (m.table.fork p mem copy).map fun r => m.forked r.1 r.2
    else none
  | .call (.kill p pid) => if (m.table.proc p).state = .running then some (m.killed pid) else none
  | .call a => (m.table.step a).map fun t => { m with table := t }
  | .trap p =>
    -- `p->killed = 1` in `usertrap`
    if (m.table.proc p).state = .running then
      some { m with
        table := m.table.set p { m.table.proc p with killed := true }
        blamed := Function.update m.blamed p true }
    else none

/-- The history at boot. -/
def boot : KillLog := ⟨.boot, fun _ => false, [], []⟩

end KillLog

end AudioPlayer
