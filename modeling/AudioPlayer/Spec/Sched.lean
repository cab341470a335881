import AudioPlayer.Spec.Proc
import Mathlib.Data.Finset.Basic
import Mathlib.Logic.Function.Basic

/-!
# Threads, the scheduler and sleep locks (`kernel/proc.c`, `kernel/sleeplock.c`)

Every CPU runs its scheduler or, after `swtch`, the kernel thread of a process. The steps of the
CPUs interleave in any order. A step is a statement, or a few of them that read and write only data
of the CPU itself (as those of `push_off`, and `myproc` with the statement that calls it) or data
whose lock the CPU has (as `lk->locked = 0; lk->pid = 0`). `acquire` is three steps, `push_off`, the
check and the swap, and `release` is two, the one that gives the lock up and `pop_off`.

`holder` is the CPU that has a spin lock (`lk->locked` with `lk->cpu`). A CPU that has to spin
cannot take its step. A check that fails is a panic, after which nothing runs.

Beside sleep locks, threads use spin locks in sections of the form

    acquire(lk); … sleep(chan, lk); … wakeup(chan); … release(lk);

as `kernel/pipe.c`, `kernel/log.c` and the drivers do. What such a section does, and when, is left
open. `exit` and `wait` are sections of `wait_lock`. Within a section, `p->lock` is taken, but no other
lock: `kalloc` under `p->lock`, `bpin` under `log.lock` and `acquiresleep` under `itable.lock` are left
out. An interrupt arrives where the interrupts of a CPU are on; its handler runs sections as well, and
gives up the CPU (`yield`) if it interrupted a thread.
-/

namespace AudioPlayer

/-- `NCPU` of `kernel/param.h`. -/
abbrev ncpu : ℕ := 8

abbrev CpuId := Fin ncpu

/-- What a thread can sleep on, or hold the lock of: a sleep lock or another object. -/
inductive Obj (L : Type)
  | sleep (l : L)
  | other (n : ℕ)
deriving DecidableEq

/-- The spin locks: `p->lock` and those of the objects. -/
inductive Lk (L : Type)
  | proc (p : Slot)
  | obj (o : Obj L)
deriving DecidableEq

/-- The arguments of `sleep(chan, lk)`, or of `wakeup(chan)` by a thread that holds `lk`. -/
inductive Wait (L : Type)
  /-- `acquiresleep`, `releasesleep` -/
  | sleep (l : L)
  | other (chan lk : ℕ)
deriving DecidableEq

namespace Wait

variable {L : Type}

def chan : Wait L → Obj L
  | .sleep l => .sleep l
  | .other n _ => .other n

def lk : Wait L → Obj L
  | .sleep l => .sleep l
  | .other _ n => .other n

end Wait

/-- Where a thread calls `sched`. A new thread comes out of it in `forkret`. -/
inductive Switch (L : Type)
  | sleep (w : Wait L)
  | yield
  | exit
  | forkret
deriving DecidableEq

/-- What a thread does to a process whose lock it takes. -/
inductive ProcOp
  | kill
  /-- `allocproc`, with the outcome of its allocations and of `uvmcopy` -/
  | alloc (mem : Bool)
  /-- `fork`, with the new process -/
  | allocated
  /-- `fork`: `np->state = RUNNABLE` -/
  | ready
  /-- `wait`, in a section of the lock `n` -/
  | reap (n : ℕ)
deriving DecidableEq

/-- The next statement of a thread, where `p` is the thread itself. -/
inductive ThreadPc (L : Type)
  /-- outside of the functions below -/
  | user
  /-- `acquire(lk)` -/
  | enter (o : Obj L)
  /-- `acquiresleep`: `while (lk->locked)`; a section: open -/
  | inside (o : Obj L)
  /-- `acquiresleep`: `lk->locked = 1; lk->pid = myproc()->pid` -/
  | lockSet (l : L)
  /-- `release(lk)` -/
  | leave (o : Obj L)
  /-- `sleep`: `acquire(&p->lock)` -/
  | sleepLock (w : Wait L)
  /-- `sleep`: `release(lk)` -/
  | sleepUnlock (w : Wait L)
  /-- `sleep`: `p->chan = chan; p->state = SLEEPING` -/
  | sleepSet (w : Wait L)
  /-- `sched()` -/
  | sched (k : Switch L)
  /-- after `swtch` -/
  | switched (k : Switch L)
  /-- `release(&p->lock)`, after which `sleep` takes its lock again -/
  | unlock (o : Option (Obj L))
  /-- `releasesleep`: `acquire(&lk->lk)` -/
  | relLock (l : L)
  /-- `releasesleep`: `lk->locked = 0; lk->pid = 0` -/
  | relSet (l : L)
  /-- `wakeup`: the loop at `proc[i]`, with `acquire(&p->lock)` -/
  | wake (w : Wait L) (i : ℕ)
  /-- `wakeup`: the test of `p->state` and `p->chan` -/
  | wakeTest (w : Wait L) (i : Slot)
  /-- `wakeup`: `release(&p->lock)` -/
  | wakeDone (w : Wait L) (i : Slot)
  /-- `holdingsleep`: `acquire(&lk->lk)`; `check`: called by `brelse` or `iunlock` -/
  | heldLock (l : L) (check : Bool)
  /-- `holdingsleep`: `r = lk->locked && (lk->pid == myproc()->pid)` -/
  | heldTest (l : L) (check : Bool)
  /-- `holdingsleep`: `release(&lk->lk)` -/
  | heldDone (l : L) (r check : Bool)
  /-- `brelse`, `iunlock`: the check, before `releasesleep` -/
  | heldCheck (l : L) (r : Bool)
  /-- `yield`: `acquire(&p->lock)` -/
  | yieldLock
  /-- `yield`: `p->state = RUNNABLE` -/
  | yieldSet
  /-- `exit`: `acquire(&p->lock)` -/
  | exitLock (n : ℕ)
  /-- `exit`: `p->state = ZOMBIE` -/
  | exitSet (n : ℕ)
  /-- `exit`: `release(&wait_lock)` -/
  | exitUnlock (n : ℕ)
  /-- `acquire(&proc[i].lock)` -/
  | procLock (op : ProcOp) (i : Slot)
  /-- what is done to `proc[i]` -/
  | procDo (op : ProcOp) (i : Slot)
  /-- `release(&proc[i].lock)` -/
  | procDone (op : ProcOp) (i : Slot)
deriving DecidableEq

/-- The next statement of the loop of `scheduler`, where `p` is `proc[i]`, or of a handler that
interrupted it before `proc[i]`. -/
inductive SchedPc
  /-- `intr_on()` -/
  | top
  /-- `acquire(&p->lock)` -/
  | scan (i : Slot)
  /-- `if(p->state == RUNNABLE)` -/
  | pick (i : Slot)
  /-- in `swtch`: the CPU runs the thread of `proc[i]` -/
  | away (i : Slot)
  /-- `c->proc = 0` -/
  | back (i : Slot)
  /-- `release(&p->lock)` -/
  | next (i : Slot)
  /-- a handler, outside of sections -/
  | irq (i : Slot)
  /-- a handler: `acquire(lk)` -/
  | irqEnter (i : Slot) (n : ℕ)
  /-- a handler in a section -/
  | irqInside (i : Slot) (n : ℕ)
  /-- a handler: `release(lk)` -/
  | irqLeave (i : Slot) (n : ℕ)
  /-- a handler in `wakeup`: the loop at `proc[j]`, with `acquire(&p->lock)` -/
  | irqWake (i : Slot) (chan n : ℕ) (j : ℕ)
  /-- a handler in `wakeup`: the test -/
  | irqTest (i : Slot) (chan n : ℕ) (j : Slot)
  /-- a handler in `wakeup`: `release(&p->lock)` -/
  | irqDone (i : Slot) (chan n : ℕ) (j : Slot)
deriving DecidableEq

/-- What a statement does to the spin locks, and the statement after it. -/
inductive Stmt (L Pc : Type)
  | acquire (lk : Lk L) (next : Pc)
  | release (lk : Lk L) (next : Pc)
  | goto (next : Pc)
  /-- The statement reads or writes other data. -/
  | act

section

variable {L : Type}

/-- After `wakeup`. -/
def Wait.woken : Wait L → ThreadPc L
  | .sleep l => .leave (.sleep l)
  | .other _ n => .inside (.other n)

/-- After the lock of `proc[i]` is released. -/
def ProcOp.next (i : Slot) : ProcOp → ThreadPc L
  | .allocated => .procLock .ready i
  | .reap n => .inside (.other n)
  | .kill | .alloc _ | .ready => .user

def ThreadPc.stmt (p : Slot) : ThreadPc L → Stmt L (ThreadPc L)
  | .enter o => .acquire (.obj o) (.inside o)
  | .leave o => .release (.obj o) .user
  | .sleepLock w => .acquire (.proc p) (.sleepUnlock w)
  | .sleepUnlock w => .release (.obj w.lk) (.sleepSet w)
  | .unlock none => .release (.proc p) .user
  | .unlock (some o) => .release (.proc p) (.enter o)
  | .relLock l => .acquire (.obj (.sleep l)) (.relSet l)
  | .wake w i =>
    if h : i < nproc then
      if i = p then .goto (.wake w (i + 1)) else .acquire (.proc ⟨i, h⟩) (.wakeTest w ⟨i, h⟩)
    else .goto w.woken
  | .wakeDone w i => .release (.proc i) (.wake w (i + 1))
  | .heldLock l check => .acquire (.obj (.sleep l)) (.heldTest l check)
  | .heldDone l r check => .release (.obj (.sleep l)) (if check then .heldCheck l r else .user)
  | .yieldLock => .acquire (.proc p) .yieldSet
  | .exitLock n => .acquire (.proc p) (.exitSet n)
  | .exitUnlock n => .release (.obj (.other n)) (.sched .exit)
  | .procLock op i => .acquire (.proc i) (.procDo op i)
  | .procDone op i => .release (.proc i) (op.next i)
  | .user | .inside _ | .lockSet _ | .sleepSet _ | .sched _ | .switched _ | .relSet _
  | .wakeTest .. | .heldTest ..
  | .heldCheck .. | .yieldSet | .exitSet _ | .procDo .. => .act

/-- The loop goes on after `proc[i]`. -/
def SchedPc.after (i : Slot) : SchedPc := if h : i.1 + 1 < nproc then .scan ⟨i.1 + 1, h⟩ else .top

def SchedPc.stmt : SchedPc → Stmt L SchedPc
  | .scan i => .acquire (.proc i) (.pick i)
  | .next i => .release (.proc i) (.after i)
  | .irqEnter i n => .acquire (.obj (.other n)) (.irqInside i n)
  | .irqLeave i n => .release (.obj (.other n)) (.irq i)
  | .irqWake i chan n j =>
    -- there is no process on the CPU, so that none is left out
    if h : j < nproc then .acquire (.proc ⟨j, h⟩) (.irqTest i chan n ⟨j, h⟩) else .goto (.irqInside i n)
  | .irqDone i chan n j => .release (.proc j) (.irqWake i chan n (j + 1))
  | .top | .pick _ | .away _ | .back _ | .irq _ | .irqInside .. | .irqTest .. => .act

end

/-- Where a CPU is in `acquire` or `release`. -/
inductive SpinPc
  | out
  /-- `acquire`, after `push_off`: `if(holding(lk))` -/
  | check
  /-- `acquire`: the loop of `__sync_lock_test_and_set` -/
  | swap
  /-- `release`, after the lock was given up: `pop_off` -/
  | pop
deriving DecidableEq

/-- `struct cpu`, with the interrupt flag of the CPU and its scheduler. -/
structure CpuState where
  proc : Option Slot
  noff : ℕ
  intena : Bool
  intr : Bool
  pc : SchedPc
  spin : SpinPc
deriving DecidableEq

/-- `struct proc` with its thread. `intena` is the local variable of `sched`, and `trap` is the
statement that an interrupt came before, while its handler runs. Two fields are not in the code:
`intr` is the interrupt flag that the thread set last, and `has` are the sleep locks that it has got
and not given back. -/
structure Thread (L : Type) where
  state : ProcState
  chan : Option (Obj L)
  pc : ThreadPc L
  trap : Option (ThreadPc L)
  intena : Bool
  intr : Bool
  has : Finset L

/-- `struct sleeplock`. The process stands for its pid. -/
structure Sleeplock where
  locked : Bool
  pid : Option Slot
deriving DecidableEq

/-- The function whose check fails. -/
inductive Panic
  | acquire
  | release
  | popOff
  | sched
  /-- `exit`: "zombie exit" -/
  | exit
  /-- `brelse` or `iunlock` -/
  | notHeld
deriving DecidableEq

structure SchedSys (L : Type) where
  holder : Lk L → Option CpuId
  cpu : CpuId → CpuState
  thread : Slot → Thread L
  lock : L → Sleeplock
  panicked : Option Panic

/-- What a thread starts outside of the functions above, or in a section. -/
inductive SchedCall (L : Type)
  | acquiresleep (l : L)
  | holdingsleep (l : L)
  /-- `brelse`, `iunlock` -/
  | releasesleep (l : L)
  | yield
  | kill (i : Slot)
  | fork (i : Slot) (mem : Bool)
  | acquire (n : ℕ)
  /-- `intr_on`, `intr_off` -/
  | intr (on : Bool)
  | sleep (chan : ℕ)
  | wakeup (chan : ℕ)
  | wait (i : Slot)
  | exit
  | release
  /-- an interrupt arrives -/
  | trap
  /-- the handler returns -/
  | sret

/-- What happens to a CPU that runs its scheduler. -/
inductive IrqCall
  | trap
  | acquire (n : ℕ)
  | wakeup (chan : ℕ)
  | release
  | sret

/-- The next statement of a CPU, or what its thread or a handler starts. -/
inductive SchedStep (L : Type)
  | run (c : CpuId)
  | call (c : CpuId) (k : SchedCall L)
  | irq (c : CpuId) (k : IrqCall)

/-- `push_off`. -/
def CpuState.pushOff (x : CpuState) : CpuState :=
  { x with noff := x.noff + 1, intena := if x.noff = 0 then x.intr else x.intena, intr := false }

/-- `pop_off`, after its checks. -/
def CpuState.popOff (x : CpuState) : CpuState :=
  { x with noff := x.noff - 1, intr := if x.noff - 1 = 0 ∧ x.intena then true else x.intr }

namespace SchedSys

variable {L : Type} [DecidableEq L]

def setCpu (s : SchedSys L) (c : CpuId) (x : CpuState) : SchedSys L :=
  { s with cpu := Function.update s.cpu c x }

def setThread (s : SchedSys L) (p : Slot) (t : Thread L) : SchedSys L :=
  { s with thread := Function.update s.thread p t }

def setLock (s : SchedSys L) (l : L) (x : Sleeplock) : SchedSys L :=
  { s with lock := Function.update s.lock l x }

def setHolder (s : SchedSys L) (lk : Lk L) (c : Option CpuId) : SchedSys L :=
  { s with holder := Function.update s.holder lk c }

/-- `panic`. -/
def panic (s : SchedSys L) (k : Panic) : SchedSys L := { s with panicked := some k }

def setSpin (s : SchedSys L) (c : CpuId) (x : SpinPc) : SchedSys L :=
  s.setCpu c { s.cpu c with spin := x }

/-- The scheduler of `c` goes on with `pc`. -/
def jump (s : SchedSys L) (c : CpuId) (pc : SchedPc) : SchedSys L := s.setCpu c { s.cpu c with pc := pc }

/-- The thread `p` goes on with `pc`. -/
def goto (s : SchedSys L) (p : Slot) (pc : ThreadPc L) : SchedSys L :=
  s.setThread p { s.thread p with pc := pc }

/-- `pop_off`, at the end of `release`. -/
def popOff (s : SchedSys L) (c : CpuId) : SchedSys L :=
  if (s.cpu c).intr ∨ (s.cpu c).noff < 1 then s.panic .popOff
  else s.setCpu c { (s.cpu c).popOff with spin := .out }

/-- `sched`, up to `swtch`. -/
def sched (s : SchedSys L) (c : CpuId) (p : Slot) (k : Switch L) : SchedSys L :=
  if s.holder (.proc p) ≠ some c ∨ (s.cpu c).noff ≠ 1 ∨ (s.thread p).state = .running ∨
    (s.cpu c).intr then
    s.panic .sched
  else
    (s.setThread p { s.thread p with intena := (s.cpu c).intena, pc := .switched k }).jump c (.back p)

/-- The rest of `sched` and what its caller does up to `release(&p->lock)`. -/
def switched (s : SchedSys L) (c : CpuId) (p : Slot) : Switch L → SchedSys L
  | .sleep w =>
    (s.setCpu c { s.cpu c with intena := (s.thread p).intena }).setThread p
      { s.thread p with chan := none, pc := .unlock (some w.lk) }
  | .yield => (s.setCpu c { s.cpu c with intena := (s.thread p).intena }).goto p (.unlock none)
  | .forkret => s.setThread p { s.thread p with intr := (s.cpu c).intena, pc := .unlock none }
  | .exit => s.panic .exit

/-- What an operation does to its process, and how the caller goes on. -/
def procOp (t : Thread L) : ProcOp → Thread L × ProcOp
  | .kill => (if t.state = .sleeping then { t with state := .runnable } else t, .kill)
  | .alloc mem =>
    if t.state = .unused then
      if mem then ({ t with state := .used, pc := .switched .forkret, trap := none }, .allocated)
      else ({ t with chan := none }, .alloc mem)
    else (t, .alloc mem)
  | .ready => ({ t with state := .runnable }, .ready)
  | .reap n => (if t.state = .zombie then { t with state := .unused, chan := none } else t, .reap n)
  | .allocated => (t, .allocated)

/-- `wakeup`: one process. -/
def wakeOne (s : SchedSys L) (chan : Obj L) (i : Slot) : SchedSys L :=
  let t := s.thread i
  if t.state = .sleeping ∧ t.chan = some chan then s.setThread i { t with state := .runnable } else s

/-- A statement of the thread `p` on the CPU `c` that reads or writes more than the spin locks. -/
def act (s : SchedSys L) (c : CpuId) (p : Slot) : ThreadPc L → Option (SchedSys L)
  | .inside (.sleep l) =>
    some (s.goto p (if (s.lock l).locked then .sleepLock (.sleep l) else .lockSet l))
  | .lockSet l =>
    some ((s.setLock l ⟨true, some p⟩).setThread p
      { s.thread p with has := insert l (s.thread p).has, pc := .leave (.sleep l) })
  | .sleepSet w =>
    some (s.setThread p
      { s.thread p with chan := some w.chan, state := .sleeping, pc := .sched (.sleep w) })
  | .sched k => some (s.sched c p k)
  | .switched k => some (s.switched c p k)
  | .relSet l =>
    some ((s.setLock l ⟨false, none⟩).setThread p
      { s.thread p with has := (s.thread p).has.erase l, pc := .wake (.sleep l) 0 })
  | .wakeTest w i => some ((s.wakeOne w.chan i).goto p (.wakeDone w i))
  | .heldTest l check =>
    some (s.goto p (.heldDone l ((s.lock l).locked && (s.lock l).pid = some p) check))
  | .heldCheck l r => some (if r then s.goto p (.relLock l) else s.panic .notHeld)
  | .yieldSet => some (s.setThread p { s.thread p with state := .runnable, pc := .sched .yield })
  | .exitSet n => some (s.setThread p { s.thread p with state := .zombie, pc := .exitUnlock n })
  | .procDo op i =>
    let (t, op) := procOp (s.thread i) op
    some ((s.setThread i t).goto p (.procDone op i))
  | _ => none

/-- A statement of the scheduler of `c` that reads or writes more than the spin locks. -/
def actCpu (s : SchedSys L) (c : CpuId) : SchedPc → Option (SchedSys L)
  | .top => some (s.setCpu c { s.cpu c with intr := true, pc := .scan 0 })
  | .pick i =>
    if (s.thread i).state = .runnable then
      some ((s.setThread i { s.thread i with state := .running }).setCpu c
        { s.cpu c with proc := some i, pc := .away i })
    else some (s.jump c (.next i))
  | .back i => some (s.setCpu c { s.cpu c with proc := none, pc := .next i })
  | .irqTest i chan n j => some ((s.wakeOne (.other chan) j).jump c (.irqDone i chan n j))
  | _ => none

/-- A step of the CPU `c` at the statement `st`, after which it goes on with `next`; `none`: it spins. -/
def perform {Pc : Type} (s : SchedSys L) (c : CpuId) (next : Pc → SchedSys L → SchedSys L)
    (act : Option (SchedSys L)) (st : Stmt L Pc) : Option (SchedSys L) :=
  match (s.cpu c).spin, st with
  | .out, .acquire _ _ => some (s.setCpu c { (s.cpu c).pushOff with spin := .check })
  | .check, .acquire lk _ => some (if s.holder lk = some c then s.panic .acquire else s.setSpin c .swap)
  | .swap, .acquire lk pc =>
    if s.holder lk = none then some (next pc ((s.setHolder lk (some c)).setSpin c .out)) else none
  | .out, .release lk pc =>
    some (if s.holder lk = some c then next pc ((s.setHolder lk none).setSpin c .pop)
      else s.panic .release)
  | .pop, _ => some (s.popOff c)
  | .out, .goto pc => some (next pc s)
  | .out, .act => act
  | _, _ => none

/-- A step of the CPU `c`, in its scheduler or in its thread. -/
def runCpu (s : SchedSys L) (c : CpuId) : Option (SchedSys L) :=
  match (s.cpu c).pc with
  | .away p =>
    s.perform c (fun pc s => s.goto p pc) (s.act c p (s.thread p).pc) ((s.thread p).pc.stmt p)
  | pc => s.perform c (fun pc s => s.jump c pc) (s.actCpu c pc) pc.stmt

/-- A thread starts a call. It gives back all sleep locks before it exits. -/
def call (s : SchedSys L) (c : CpuId) (p : Slot) : ThreadPc L → SchedCall L → Option (SchedSys L)
  | .user, .acquiresleep l => some (s.goto p (.enter (.sleep l)))
  | .user, .holdingsleep l => some (s.goto p (.heldLock l false))
  | .user, .releasesleep l => some (s.goto p (.heldLock l true))
  | .user, .yield => some (s.goto p .yieldLock)
  | .user, .kill i => some (s.goto p (.procLock .kill i))
  | .user, .fork i mem => some (s.goto p (.procLock (.alloc mem) i))
  | .user, .acquire n => some (s.goto p (.enter (.other n)))
  | .user, .intr on =>
    some ((s.setCpu c { s.cpu c with intr := on }).setThread p { s.thread p with intr := on })
  | .inside (.other n), .sleep chan => some (s.goto p (.sleepLock (.other chan n)))
  | .inside (.other n), .wakeup chan => some (s.goto p (.wake (.other chan n) 0))
  | .inside (.other n), .wait i => some (s.goto p (.procLock (.reap n) i))
  | .inside (.other n), .exit => if (s.thread p).has = ∅ then some (s.goto p (.exitLock n)) else none
  | .inside (.other n), .release => some (s.goto p (.leave (.other n)))
  | pc, .trap =>
    if (s.cpu c).intr then
      some ((s.setCpu c { s.cpu c with intr := false }).setThread p
        { s.thread p with pc := .user, trap := some pc, intr := false })
    else none
  | _, _ => none

/-- The handler that interrupted a thread starts a call, or returns. -/
def trapCall (s : SchedSys L) (c : CpuId) (p : Slot) (ret : ThreadPc L) :
    ThreadPc L → SchedCall L → Option (SchedSys L)
  | .user, .yield => some (s.goto p .yieldLock)
  | .user, .acquire n => some (s.goto p (.enter (.other n)))
  | .user, .sret =>
    some ((s.setCpu c { s.cpu c with intr := true }).setThread p
      { s.thread p with pc := ret, trap := none, intr := true })
  | .inside (.other n), .wakeup chan => some (s.goto p (.wake (.other chan n) 0))
  | .inside (.other n), .release => some (s.goto p (.leave (.other n)))
  | _, _ => none

/-- An interrupt of the scheduler of `c`. -/
def irq (s : SchedSys L) (c : CpuId) : SchedPc → IrqCall → Option (SchedSys L)
  | .scan i, .trap =>
    if (s.cpu c).intr then some (s.setCpu c { s.cpu c with intr := false, pc := .irq i }) else none
  | .irq i, .acquire n => some (s.jump c (.irqEnter i n))
  | .irq i, .sret => some (s.setCpu c { s.cpu c with intr := true, pc := .scan i })
  | .irqInside i n, .wakeup chan => some (s.jump c (.irqWake i chan n 0))
  | .irqInside i n, .release => some (s.jump c (.irqLeave i n))
  | _, _ => none

def step (s : SchedSys L) (e : SchedStep L) : Option (SchedSys L) :=
  if s.panicked.isSome then none
  else
    match e with
    | .run c => s.runCpu c
    | .call c k =>
      if (s.cpu c).spin = .out then
        match (s.cpu c).pc with
        | .away p =>
          match (s.thread p).trap with
          | none => s.call c p (s.thread p).pc k
          | some ret => s.trapCall c p ret (s.thread p).pc k
        | _ => none
      else none
    | .irq c k => if (s.cpu c).spin = .out then s.irq c (s.cpu c).pc k else none

/-- The CPUs enter `scheduler`. There is one process, which `userinit` made. -/
def boot (initproc : Slot) : SchedSys L where
  holder _ := none
  cpu _ := ⟨none, 0, false, false, .top, .out⟩
  thread p := ⟨if p = initproc then .runnable else .unused, none, .switched .forkret, none, false,
    false, ∅⟩
  lock _ := ⟨false, none⟩
  panicked := none

end SchedSys

end AudioPlayer
