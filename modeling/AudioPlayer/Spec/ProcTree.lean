import AudioPlayer.Spec.Proc
import AudioPlayer.Lib.Runs

/-!
# The process tree, lock by lock (`kernel/proc.c`)

In `Spec/Proc.lean` a call is one step. Here a step is what runs under one `p->lock`, so that the
calls of several processes interleave: `fork` takes a slot, sets the parent and makes the child
runnable in three steps, and `exit` and `wait` go from slot to slot, with `wait_lock` in their
hands. Scheduling is as in `Spec/Proc.lean`; that includes the wakeups.
-/

namespace AudioPlayer

/-- Where a process is between two steps of its call. -/
inductive TreePc
  | user
  /-- `fork`: `allocproc` looks at slot `i` next -/
  | alloc (i : ℕ)
  /-- `fork`: the child has its memory, and no parent yet -/
  | adopt (child : Slot)
  /-- `fork`: the child has its parent, and is not runnable yet -/
  | publish (child : Slot)
  /-- `exit`, with `wait_lock`: `reparent` looks at slot `i` next -/
  | reparent (status : ℤ) (i : ℕ)
  /-- `wait`, without `wait_lock`: at its start, or asleep -/
  | wait
  /-- `wait`, with `wait_lock`: it looks at slot `i` next -/
  | reap (i : ℕ) (havekids : Bool)
  /-- `kill`: it looks at slot `i` next -/
  | kill (pid : ℤ) (i : ℕ)
deriving DecidableEq

/-- What a `wait` has returned: the pid and the status of a child, with the parent the child had;
or -1, and whether the caller had no child, a `kill` had named it, or the copy failed. -/
inductive WaitResult
  | reaped (caller : Slot) (pid : ℕ) (status : ℤ) (parent : Option Slot)
  | failed (noChild killed copyFailed : Bool)

/-- The pid a `wait` has returned. -/
def WaitResult.pid : WaitResult → Option ℕ
  | .reaped _ pid _ _ => some pid
  | .failed _ _ _ => none

/-- The pids the `wait`s have returned. -/
def returned (results : List WaitResult) : List ℕ := results.filterMap WaitResult.pid

/-- The table, the holder of `wait_lock` and the places of the processes. The rest are ghosts:
the pids and the statuses of all processes that have exited, the pids that a `kill` has found,
and the results of all `wait`s. -/
structure TreeSys where
  table : ProcTable
  waitLock : Option Slot
  pc : Slot → TreePc
  exits : List (ℕ × ℤ)
  kills : List ℕ
  results : List WaitResult

inductive TreeCall
  | fork
  | exit (status : ℤ)
  | wait
  | kill (pid : ℤ)
deriving DecidableEq

def TreeCall.isExit : TreeCall → Bool
  | .exit _ => true
  | _ => false

inductive TreeStep
  /-- process `p` makes a call -/
  | call (p : Slot) (c : TreeCall)
  /-- the call of process `p` goes on; `ok` says whether there is memory for a child, or whether
  the exit status can be copied out -/
  | run (p : Slot) (ok : Bool)
  /-- process `p` goes to sleep, is woken up or is scheduled -/
  | sched (p : Slot) (state : ProcState)

namespace TreeSys

/-- Process `p` goes on to `c`. -/
def goto (s : TreeSys) (p : Slot) (c : TreePc) : TreeSys :=
  { s with pc := Function.update s.pc p c }

/-- A slot is written. -/
def write (s : TreeSys) (c : Slot) (pr : Proc) : TreeSys := { s with table := s.table.set c pr }

/-- A `wait` gives `wait_lock` up and returns. -/
def waitReturns (s : TreeSys) (p : Slot) (r : WaitResult) : TreeSys :=
  { s.goto p .user with waitLock := none, results := r :: s.results }

/-- `fork` at one slot: `allocproc` and, behind it, the copy of the memory. -/
def runAlloc (s : TreeSys) (p : Slot) (i : ℕ) (ok : Bool) : Option TreeSys :=
  if h : i < nproc then
    let c : Slot := ⟨i, h⟩
    if (s.table.proc c).state = .unused then
      s.table.allocpid.map fun (t, pid) =>
        let t := t.set c { t.proc c with pid := pid, state := .used }
        if ok then { s with table := t }.goto p (.adopt c)
        else { s with table := t.freeproc c }.goto p .user
    else some (s.goto p (.alloc (i + 1)))
  else some (s.goto p .user)

/-- `fork` under `wait_lock`. -/
def runAdopt (s : TreeSys) (p c : Slot) : Option TreeSys :=
  if s.waitLock = none then
    some ((s.write c { s.table.proc c with parent := some p }).goto p (.publish c))
  else none

/-- The end of `fork`. -/
def runPublish (s : TreeSys) (p c : Slot) : TreeSys :=
  (s.write c { s.table.proc c with state := .runnable }).goto p .user

/-- `exit` at one slot of `reparent`, and behind the last one. -/
def runReparent (s : TreeSys) (p : Slot) (status : ℤ) (i : ℕ) : TreeSys :=
  if h : i < nproc then
    let c : Slot := ⟨i, h⟩
    if (s.table.proc c).parent = some p then
      (s.write c { s.table.proc c with parent := some s.table.initproc }).goto p
        (.reparent status (i + 1))
    else s.goto p (.reparent status (i + 1))
  else
    { (s.write p { s.table.proc p with xstate := status, state := .zombie }).goto p .user with
      waitLock := none
      exits := ((s.table.proc p).pid, status) :: s.exits }

/-- `wait` at one slot, and behind the last one. -/
def runReap (s : TreeSys) (p : Slot) (i : ℕ) (havekids ok : Bool) : TreeSys :=
  if h : i < nproc then
    let c : Slot := ⟨i, h⟩
    let np := s.table.proc c
    if np.parent = some p then
      if np.state = .zombie then
        if ok then
          { s with table := s.table.freeproc c }.waitReturns p
            (.reaped p np.pid np.xstate np.parent)
        else s.waitReturns p (.failed false false true)
      else s.goto p (.reap (i + 1) true)
    else s.goto p (.reap (i + 1) havekids)
  else if havekids = false ∨ (s.table.proc p).killed = true then
    -- no point in waiting without children
    s.waitReturns p (.failed (decide (∀ c, (s.table.proc c).parent ≠ some p))
      (decide ((s.table.proc p).pid ∈ s.kills)) false)
  else { (s.write p { s.table.proc p with state := .sleeping }).goto p .wait with waitLock := none }

/-- `kill` at one slot. -/
def runKill (s : TreeSys) (p : Slot) (pid : ℤ) (i : ℕ) : TreeSys :=
  if h : i < nproc then
    let c : Slot := ⟨i, h⟩
    let q := s.table.proc c
    if (q.pid : ℤ) = pid then
      let state := if q.state = .sleeping then .runnable else q.state
      { (s.write c { q with killed := true, state := state }).goto p .user with
        kills := q.pid :: s.kills }
    else s.goto p (.kill pid (i + 1))
  else s.goto p .user

/-- The next step of the call of process `p`. -/
def run (s : TreeSys) (p : Slot) (ok : Bool) : Option TreeSys :=
  match s.pc p with
  | .user => none
  | .alloc i => s.runAlloc p i ok
  | .adopt c => s.runAdopt p c
  | .publish c => some (s.runPublish p c)
  | .reparent status i => some (s.runReparent p status i)
  | .wait =>
    if s.waitLock = none then some { s.goto p (.reap 0 false) with waitLock := some p } else none
  | .reap i havekids => some (s.runReap p i havekids ok)
  | .kill pid i => some (s.runKill p pid i)

/-- A process makes a call. `exit` of the first process panics; otherwise `exit` begins when it
gets `wait_lock`. -/
def call (s : TreeSys) (p : Slot) : TreeCall → Option TreeSys
  | .fork => some (s.goto p (.alloc 0))
  | .exit status =>
    if p = s.table.initproc then none
    else if s.waitLock = none then some { s.goto p (.reparent status 0) with waitLock := some p }
    else none
  | .wait => some (s.goto p .wait)
  | .kill pid => some (s.goto p (.kill pid 0))

/-- One step, `none` where it cannot be made. `usertrap` makes a process that has been killed exit
in place of its call. A process that is killed while it waits for `wait_lock` in `exit` goes on with
its own status. -/
def step (s : TreeSys) : TreeStep → Option TreeSys
  | .call p c =>
    if (s.table.proc p).state = .running ∧ s.pc p = .user ∧
        ((s.table.proc p).killed = true → c.isExit = true) then s.call p c
    else none
  | .run p ok => if (s.table.proc p).state = .running then s.run p ok else none
  | .sched p state =>
    if (s.table.proc p).state.live ∧ state.live then
      some (s.write p { s.table.proc p with state := state })
    else none

/-- The first process, at its start. -/
def boot : TreeSys := ⟨.boot, none, fun _ => .user, [], [], []⟩

end TreeSys

end AudioPlayer
