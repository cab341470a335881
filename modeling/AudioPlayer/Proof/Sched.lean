import AudioPlayer.Lib.Runs
import AudioPlayer.Spec.Sched

/-!
# Spin locks, CPUs and threads

What a CPU holds is determined by the statement that it comes to next (`held`), whether it runs its
scheduler, a handler or a thread. `Core` says that the spin locks and the nesting of `push_off` agree
with this, that a thread runs on one CPU at most, and that the state of a process says where its
thread is. Every step keeps it. None of the checks of `acquire`, `release`, `pop_off` and `sched`
fails in such a state (`perform_cases`).
-/

namespace AudioPlayer

open List Option
open Function (update update_eq_self update_idem update_of_ne update_self)

section

variable {L : Type} {pc : ThreadPc L}

/-- The lock that the caller of the operation has. -/
def ProcOp.outer : ProcOp → List (Lk L)
  | .reap n => [.obj (.other n)]
  | .kill | .alloc _ | .allocated | .ready => []

/-- The spin locks that the thread `p` has before a statement, the last one first. -/
def ThreadPc.locks (p : Slot) : ThreadPc L → List (Lk L)
  | .user | .enter _ | .relLock _ | .heldLock .. | .heldCheck .. | .yieldLock => []
  | .inside o | .leave o => [.obj o]
  | .sleepLock w | .wake w _ => [.obj w.lk]
  | .sleepUnlock w => [.proc p, .obj w.lk]
  | .sleepSet _ | .sched _ | .switched _ | .unlock _ | .yieldSet => [.proc p]
  | .lockSet l | .relSet l | .heldTest l _ | .heldDone l .. => [.obj (.sleep l)]
  | .wakeTest w i | .wakeDone w i => [.proc i, .obj w.lk]
  | .exitLock n => [.obj (.other n)]
  | .exitSet n | .exitUnlock n => [.proc p, .obj (.other n)]
  | .procLock op _ => op.outer
  | .procDo op i | .procDone op i => .proc i :: op.outer

def SchedPc.locks : SchedPc → List (Lk L)
  | .top | .scan _ | .away _ | .irq _ | .irqEnter .. => []
  | .pick i | .back i | .next i => [.proc i]
  | .irqInside _ n | .irqLeave _ n | .irqWake _ _ n _ => [.obj (.other n)]
  | .irqTest _ _ n j | .irqDone _ _ n j => [.proc j, .obj (.other n)]

/-- The state of a process whose thread is on a CPU, by its next statement. `none`: no thread comes
there. -/
def ThreadPc.expects : ThreadPc L → Option ProcState
  | .sched (.sleep _) => some .sleeping
  | .sched .yield => some .runnable
  | .sched .exit | .exitUnlock _ => some .zombie
  | .sched .forkret | .switched .exit => none
  | _ => some .running

/-- Neither in `sched` from `sleep` nor just out of `sched`. -/
def ThreadPc.quiet : ThreadPc L → Bool
  | .sched (.sleep _) | .switched _ => false
  | _ => true

/-- `c->proc`, by the next statement of the scheduler. -/
def SchedPc.proc : SchedPc → Option Slot
  | .away i | .back i => some i
  | _ => none

/-! ## The statements -/

theorem ThreadPc.locks_nodup (p : Slot) (pc : ThreadPc L) : (pc.locks p).Nodup := by
  cases pc with
  | procLock op i | procDo op i | procDone op i => cases op <;> simp [locks, ProcOp.outer]
  | _ => simp [locks]

theorem SchedPc.locks_nodup (pc : SchedPc) : (pc.locks : List (Lk L)).Nodup := by
  cases pc <;> simp [locks]

/-- What the statements on spin locks have in common. -/
structure ThreadPc.Follows (pc pc' : ThreadPc L) : Prop where
  expects : pc'.expects = pc.expects
  quiet : pc.quiet = true
  quiet' : pc'.quiet = true

/-- What a statement does to the spin locks of its thread. -/
theorem ThreadPc.stmt_spec (p : Slot) (pc : ThreadPc L) :
    match pc.stmt p with
    | .acquire lk pc' => pc'.locks p = lk :: pc.locks p ∧ Follows pc pc'
    | .release lk pc' => (lk :: pc'.locks p).Perm (pc.locks p) ∧ Follows pc pc'
    | .goto pc' => pc'.locks p = pc.locks p ∧ Follows pc pc'
    | .act => True := by
  cases pc with
  | unlock o => cases o <;> exact ⟨.refl _, rfl, rfl, rfl⟩
  | wake w i =>
    rw [stmt]
    by_cases hi : i < nproc
    · rw [dif_pos hi]
      by_cases hp : i = p
      · rw [if_pos hp]
        exact ⟨rfl, rfl, rfl, rfl⟩
      · rw [if_neg hp]
        exact ⟨rfl, rfl, rfl, rfl⟩
    · rw [dif_neg hi]
      cases w <;> exact ⟨rfl, rfl, rfl, rfl⟩
  | sleepUnlock | exitUnlock => exact ⟨.swap .., rfl, rfl, rfl⟩
  | heldDone l r check => cases check <;> exact ⟨.refl _, rfl, rfl, rfl⟩
  | procDone op i => cases op <;> exact ⟨.refl _, rfl, rfl, rfl⟩
  | leave | wakeDone => exact ⟨.refl _, rfl, rfl, rfl⟩
  | enter | sleepLock | relLock | heldLock | yieldLock | exitLock | procLock =>
      exact ⟨rfl, rfl, rfl, rfl⟩
  | _ => trivial

/-- A thread that does not have its own lock is in the state `RUNNING`. -/
theorem ThreadPc.expects_running {p : Slot} (h : .proc p ∉ pc.locks p) :
    pc.expects = some .running := by
  cases pc with
  | sched | switched | exitUnlock => exact absurd mem_cons_self h
  | _ => rfl

theorem ThreadPc.quiet_of_locks {p : Slot} (h : pc.locks p = []) : pc.quiet = true := by
  cases pc with
  | sched | switched => cases h
  | _ => rfl

theorem ThreadPc.expects_live {st : ProcState} (h : pc.expects = some st) :
    st ≠ .unused ∧ st ≠ .used := by
  cases pc with
  | sched k | switched k => cases k <;> cases h <;> exact ⟨nofun, nofun⟩
  | _ =>
    cases h
    exact ⟨nofun, nofun⟩

theorem SchedPc.ne_away {pc : SchedPc} (h : pc.proc = none) (p : Slot) : pc ≠ .away p := by
  intro heq
  rw [heq] at h
  cases h

theorem SchedPc.stmt_spec (pc : SchedPc) :
    match (pc.stmt : Stmt L SchedPc) with
    | .acquire lk pc' => (pc'.locks : List (Lk L)) = lk :: pc.locks ∧ pc.proc = none ∧ pc'.proc = none
    | .release lk pc' => (lk :: pc'.locks).Perm pc.locks ∧ pc.proc = none ∧ pc'.proc = none
    | .goto pc' => (pc'.locks : List (Lk L)) = pc.locks ∧ pc.proc = none ∧ pc'.proc = none
    | .act => True := by
  cases pc with
  | next i =>
    rw [stmt, after]
    by_cases hi : i.1 + 1 < nproc
    · rw [dif_pos hi]
      exact ⟨.refl _, rfl, rfl⟩
    · rw [dif_neg hi]
      exact ⟨.refl _, rfl, rfl⟩
  | irqWake i chan n j =>
    rw [stmt]
    by_cases hj : j < nproc
    · rw [dif_pos hj]
      exact ⟨rfl, rfl, rfl⟩
    · rw [dif_neg hj]
      exact ⟨rfl, rfl, rfl⟩
  | scan | irqEnter => exact ⟨rfl, rfl, rfl⟩
  | irqLeave | irqDone => exact ⟨.refl _, rfl, rfl⟩
  | _ => trivial

end

/-- The `push_off` of a lock that the CPU does not have yet, or not any more. -/
def SpinPc.pending : SpinPc → ℕ
  | .out => 0
  | _ => 1

namespace CpuState

/-- The interrupt flag outside of all locks: the last `pop_off` will restore it. -/
def flag (x : CpuState) : Bool := if x.noff = 0 then x.intr else x.intena

theorem flag_popOff {x : CpuState} (hnoff : x.noff ≠ 0) (hintr : x.intr = false) :
    x.popOff.flag = x.flag ∧ (x.popOff.noff ≠ 0 → x.popOff.intr = false) := by
  unfold popOff flag
  dsimp only
  rw [if_neg hnoff]
  by_cases hlast : x.noff - 1 = 0
  · rw [if_pos hlast]
    refine ⟨?_, absurd hlast⟩
    cases hi : x.intena <;> simp [hlast, hintr]
  · rw [if_neg hlast, if_neg fun hand => hlast hand.1]
    exact ⟨rfl, fun _ => hintr⟩

end CpuState

namespace SchedSys

variable {L : Type} {s s' : SchedSys L} {c : CpuId} {p : Slot} {t : Thread L} {x : CpuState}
  {op : ProcOp} {i : Slot} {k : Switch L} {b : Bool}

/-- The spin locks that a CPU has before its next statement. -/
def held (s : SchedSys L) (c : CpuId) : List (Lk L) :=
  match (s.cpu c).pc with
  | .away p => (s.thread p).pc.locks p
  | pc => pc.locks

theorem held_away (h : (s.cpu c).pc = .away p) : s.held c = (s.thread p).pc.locks p := by
  unfold held
  rw [h]

theorem held_scheduler (h : ∀ p, (s.cpu c).pc ≠ .away p) : s.held c = (s.cpu c).pc.locks := by
  unfold held
  split
  · exact absurd ‹_› (h _)
  · rfl

/-- The thread keeps its interrupt flag: on the CPU, or in the variable of `sched` where it is just out
of it. -/
def FlagKept (x : CpuState) (t : Thread L) : Prop :=
  match t.pc with
  | .switched .forkret => True
  | .switched _ => t.intena = t.intr
  | _ => x.flag = t.intr

/-- A thread on the CPU `x`. -/
structure OnCpu (x : CpuState) (t : Thread L) : Prop where
  state : t.pc.expects = some t.state
  chan : ∀ w, t.pc = .sched (.sleep w) → t.chan = some w.chan
  flag : FlagKept x t

/-- A thread on no CPU. -/
def Parked (t : Thread L) : Prop :=
  match t.state with
  | .running => False
  | .sleeping => ∃ w, t.pc = .switched (.sleep w) ∧ t.chan = some w.chan ∧ t.intena = t.intr
  | .runnable =>
    t.pc = .switched .forkret ∨
      ((∃ w, t.pc = .switched (.sleep w)) ∨ t.pc = .switched .yield) ∧ t.intena = t.intr
  | .used => t.pc = .switched .forkret
  | .zombie => t.pc = .switched .exit
  | .unused => ∃ k, t.pc = .switched k

/-- The spin locks of a CPU, the nesting of `push_off` on it, and its thread. -/
structure CpuOk (s : SchedSys L) (c : CpuId) : Prop where
  holder : ∀ lk, s.holder lk = some c ↔ lk ∈ s.held c
  noff : (s.cpu c).noff = (s.held c).length + (s.cpu c).spin.pending
  intr : (s.cpu c).noff ≠ 0 → (s.cpu c).intr = false
  proc : (s.cpu c).proc = (s.cpu c).pc.proc
  on : ∀ p, (s.cpu c).pc = .away p → OnCpu (s.cpu c) (s.thread p)

structure Core (s : SchedSys L) : Prop where
  cpu : ∀ c, CpuOk s c
  one : ∀ c c' p, (s.cpu c).pc = .away p → (s.cpu c').pc = .away p → c = c'
  off : ∀ p, (∀ c, (s.cpu c).pc ≠ .away p) → Parked (s.thread p)
  trap : ∀ p ret, (s.thread p).trap = some ret → ret.locks p = []
  calm : s.panicked = none

/-! ## What a step leaves alone -/

theorem eq_update {α β : Type} [DecidableEq α] {f g : α → β} {a : α} {b : β} (h : g = update f a b) :
    g a = b ∧ ∀ x ≠ a, g x = f x := by
  rw [h]
  exact ⟨update_self .., fun x hx => update_of_ne hx ..⟩

theorem CpuOk.congr (h : CpuOk s c) (hcpu : s'.cpu c = s.cpu c)
    (hthread : ∀ p, (s.cpu c).pc = .away p → s'.thread p = s.thread p)
    (hholder : ∀ lk, s'.holder lk = some c ↔ s.holder lk = some c) : CpuOk s' c := by
  have hheld : s'.held c = s.held c := by
    unfold held
    rw [hcpu]
    cases hpc : (s.cpu c).pc with
    | away p => exact congrArg (fun t : Thread L => t.pc.locks p) (hthread p hpc)
    | _ => rfl
  constructor
  · intro lk
    rw [hholder, hheld, h.holder]
  · rw [hcpu, hheld, h.noff]
  · rw [hcpu]
    exact h.intr
  · rw [hcpu]
    exact h.proc
  · intro p hp
    rw [hcpu] at hp ⊢
    rw [hthread p hp]
    exact h.on p hp

/-- A step of `c` changes its own state and threads that are on no other CPU. -/
theorem Core.change (h : Core s) (c : CpuId) (hcpu : ∀ c' ≠ c, s'.cpu c' = s.cpu c')
    (hthread : ∀ c' p, c' ≠ c → (s.cpu c').pc = .away p → s'.thread p = s.thread p)
    (hholder : ∀ c' lk, c' ≠ c → (s'.holder lk = some c' ↔ s.holder lk = some c'))
    (hc : CpuOk s' c) (hone : ∀ c' p, c' ≠ c → (s'.cpu c).pc = .away p → (s.cpu c').pc ≠ .away p)
    (hoff : ∀ p, (∀ c, (s'.cpu c).pc ≠ .away p) → Parked (s'.thread p))
    (htrap : ∀ p ret, (s'.thread p).trap = some ret → ret.locks p = []) (hcalm : s'.panicked = none) :
    Core s' := by
  refine ⟨?_, ?_, hoff, htrap, hcalm⟩
  · intro c'
    by_cases hne : c' = c
    · rw [hne]
      exact hc
    · exact (h.cpu c').congr (hcpu c' hne) (fun p => hthread c' p hne) (fun lk => hholder c' lk hne)
  · intro c1 c2 p h1 h2
    by_cases hne1 : c1 = c
    · by_cases hne2 : c2 = c
      · rw [hne1, hne2]
      · rw [hne1] at h1
        rw [hcpu c2 hne2] at h2
        exact absurd h2 (hone c2 p hne2 h1)
    · rw [hcpu c1 hne1] at h1
      by_cases hne2 : c2 = c
      · rw [hne2] at h2
        exact absurd h1 (hone c1 p hne1 h2)
      · rw [hcpu c2 hne2] at h2
        exact h.one c1 c2 p h1 h2

/-- A step of `c` changes its own state and the thread `p`, which no other CPU runs. -/
theorem Core.move (h : Core s) (hcpu : s'.cpu = update s.cpu c x)
    (hthread : s'.thread = update s.thread p t) (halone : ∀ c' ≠ c, (s.cpu c').pc ≠ .away p)
    (hbefore : ∀ q, (s.cpu c).pc = .away q → q = p)
    (hother : ∀ c' lk, c' ≠ c → (s'.holder lk = some c' ↔ s.holder lk = some c'))
    (hholder : ∀ lk, s'.holder lk = some c ↔ lk ∈ s'.held c)
    (hnoff : x.noff = (s'.held c).length + x.spin.pending)
    (hintr : x.noff ≠ 0 → x.intr = false) (hproc : x.proc = x.pc.proc)
    (hafter : x.pc = .away p ∧ OnCpu x t ∨ (∀ q, x.pc ≠ .away q) ∧ Parked t)
    (htrap : ∀ ret, t.trap = some ret → ret.locks p = []) (hcalm : s'.panicked = none) : Core s' := by
  obtain ⟨hx, hcpu'⟩ := eq_update hcpu
  obtain ⟨ht, hne⟩ := eq_update hthread
  have honly : ∀ q, (s'.cpu c).pc = .away q → q = p ∧ OnCpu x t := by
    intro q hq
    rw [hx] at hq
    obtain ⟨hpc, hon⟩ | ⟨hpc, -⟩ := hafter
    · exact ⟨SchedPc.away.inj (hq.symm.trans hpc), hon⟩
    · exact absurd hq (hpc q)
  refine h.change c hcpu' ?_ hother
    ⟨hholder, by rw [hx, hnoff], by rw [hx]; exact hintr, by rw [hx, hproc], ?_⟩
    ?_ ?_ ?_ hcalm
  · intro c' q hc' hq
    apply hne
    rintro rfl
    exact halone c' hc' hq
  · intro q hq
    obtain ⟨rfl, hon⟩ := honly q hq
    rw [hx, ht]
    exact hon
  · intro c' q hc' hq
    obtain ⟨rfl, -⟩ := honly q hq
    exact halone c' hc'
  · intro q hq
    by_cases hqp : q = p
    · obtain ⟨hpc, -⟩ | ⟨-, hparked⟩ := hafter
      · exact absurd (by rw [hx, hpc, hqp]) (hq c)
      · rw [hqp, ht]
        exact hparked
    · rw [hne q hqp]
      apply h.off
      intro c' hc'
      by_cases hcc : c' = c
      · rw [hcc] at hc'
        exact hqp (hbefore q hc')
      · exact hq c' (by rw [hcpu' c' hcc]; exact hc')
  · intro q ret hret
    by_cases hqp : q = p
    · rw [hqp, ht] at hret
      rw [hqp]
      exact htrap ret hret
    · rw [hne q hqp] at hret
      exact h.trap q ret hret

theorem Core.alone (h : Core s) (hc : (s.cpu c).pc = .away p) :
    (∀ c' ≠ c, (s.cpu c').pc ≠ .away p) ∧ ∀ q, (s.cpu c).pc = .away q → q = p :=
  ⟨fun c' hc' hp => hc' (h.one c' c p hp hc), fun _ hq => SchedPc.away.inj (hq.symm.trans hc)⟩

/-- A statement of the thread `p` on `c` that changes only its own data and spin locks. -/
theorem Core.thread (h : Core s) (hc : (s.cpu c).pc = .away p)
    (hcpu : s'.cpu = update s.cpu c x) (hthread : s'.thread = update s.thread p t)
    (hpc : x.pc = .away p) (hproc : x.proc = some p)
    (hother : ∀ c' lk, c' ≠ c → (s'.holder lk = some c' ↔ s.holder lk = some c'))
    (hholder : ∀ lk, s'.holder lk = some c ↔ lk ∈ t.pc.locks p)
    (hnoff : x.noff = (t.pc.locks p).length + x.spin.pending) (hintr : x.noff ≠ 0 → x.intr = false)
    (hon : OnCpu x t) (htrap : ∀ ret, t.trap = some ret → ret.locks p = [])
    (hcalm : s'.panicked = none) : Core s' := by
  have hheld : s'.held c = t.pc.locks p := by
    rw [held_away (by rw [hcpu, update_self, hpc]), hthread, update_self]
  obtain ⟨halone, hbefore⟩ := h.alone hc
  refine h.move hcpu hthread halone hbefore hother ?_ ?_ hintr (by rw [hproc, hpc]; rfl)
    (Or.inl ⟨hpc, hon⟩)
    htrap hcalm
  · rw [hheld]
    exact hholder
  · rw [hheld]
    exact hnoff

/-- A statement of the scheduler of `c`, or of a handler on it. -/
theorem Core.scheduler (h : Core s) (hc : ∀ p, (s.cpu c).pc ≠ .away p)
    (hcpu : s'.cpu = update s.cpu c x) (hthread : s'.thread = s.thread)
    (hpc : ∀ p, x.pc ≠ .away p) (hproc : x.proc = x.pc.proc)
    (hother : ∀ c' lk, c' ≠ c → (s'.holder lk = some c' ↔ s.holder lk = some c'))
    (hholder : ∀ lk, s'.holder lk = some c ↔ lk ∈ x.pc.locks)
    (hnoff : x.noff = (x.pc.locks : List (Lk L)).length + x.spin.pending)
    (hintr : x.noff ≠ 0 → x.intr = false) (hcalm : s'.panicked = none) : Core s' := by
  obtain ⟨hx, hcpu'⟩ := eq_update hcpu
  have hheld : s'.held c = x.pc.locks := by
    rw [held_scheduler (by rw [hx]; exact hpc), hx]
  refine h.change c hcpu' ?_ hother ⟨?_, ?_, ?_, ?_, ?_⟩ ?_ ?_ ?_ hcalm
  · intro c' p _ _
    rw [hthread]
  · intro lk
    rw [hheld]
    exact hholder lk
  · rw [hheld, hx]
    exact hnoff
  · rw [hx]
    exact hintr
  · rw [hx]
    exact hproc
  · intro p hp
    rw [hx] at hp
    exact absurd hp (hpc p)
  · intro c' p _ hp
    rw [hx] at hp
    exact absurd hp (hpc p)
  · intro p hp
    rw [hthread]
    apply h.off
    intro c' hc'
    by_cases hcc : c' = c
    · rw [hcc] at hc'
      exact hc p hc'
    · apply hp c'
      rw [hcpu' c' hcc]
      exact hc'
  · rw [hthread]
    exact h.trap

/-! ## Spin locks -/

theorem held_nodup (s : SchedSys L) (c : CpuId) : (s.held c).Nodup := by
  unfold held
  split
  · exact ThreadPc.locks_nodup ..
  · exact SchedPc.locks_nodup _

theorem FlagKept.quiet (h : FlagKept x t) (hq : t.pc.quiet = true) :
    x.flag = t.intr := by
  unfold FlagKept at h
  split at h
  · rename_i hpc
    rw [hpc] at hq
    cases hq
  · rename_i hpc
    rw [hpc] at hq
    cases hq
  · exact h

theorem OnCpu.of_quiet (hq : t.pc.quiet = true)
    (hstate : t.pc.expects = some t.state) (hflag : x.flag = t.intr) : OnCpu x t := by
  refine ⟨hstate, ?_, ?_⟩
  · intro w hw
    rw [hw] at hq
    cases hq
  · unfold FlagKept
    split
    · trivial
    · rename_i hpc
      rw [hpc] at hq
      cases hq
    · exact hflag

variable {pc pc' : ThreadPc L}

/-- A statement of a thread that leaves its spin locks alone. -/
theorem Core.own (h : Core s) (hc : (s.cpu c).pc = .away p) (hcpu : s'.cpu = s.cpu)
    (hthread : s'.thread = update s.thread p t) (hholder : s'.holder = s.holder)
    (hcalm : s'.panicked = s.panicked) (hlocks : t.pc.locks p = (s.thread p).pc.locks p)
    (htrap : t.trap = (s.thread p).trap) (hon : OnCpu (s.cpu c) t) : Core s' := by
  have hok := h.cpu c
  have hheld := held_away hc
  refine h.thread (x := s.cpu c) hc ?_ hthread hc
    (hok.proc.trans (by rw [hc]; rfl)) ?_ ?_ ?_ hok.intr hon ?_ ?_
  · rw [update_eq_self, hcpu]
  · intro c' k _
    rw [hholder]
  · intro k
    rw [hholder, hlocks, ← hheld]
    exact hok.holder k
  · rw [hlocks, ← hheld]
    exact hok.noff
  · rw [htrap]
    exact h.trap p
  · rw [hcalm]
    exact h.calm

theorem Core.ownQuiet (h : Core s) (hc : (s.cpu c).pc = .away p) (hpc : (s.thread p).pc = pc)
    (hcpu : s'.cpu = s.cpu) (hthread : s'.thread = update s.thread p t) (hholder : s'.holder = s.holder)
    (hcalm : s'.panicked = s.panicked) (hlocks : t.pc.locks p = pc.locks p)
    (htrap : t.trap = (s.thread p).trap)
    (hintr : t.intr = (s.thread p).intr) (hquiet : pc.quiet = true) (hquiet' : t.pc.quiet = true)
    (hstate : t.pc.expects = some t.state) : Core s' := by
  rw [← hpc] at hlocks hquiet
  apply h.own hc hcpu hthread hholder hcalm hlocks htrap
  apply OnCpu.of_quiet hquiet' hstate
  rw [hintr]
  exact ((h.cpu c).on p hc).flag.quiet hquiet

/-- A thread goes on with another statement, with the same spin locks. -/
theorem Core.goto (h : Core s) (hc : (s.cpu c).pc = .away p) (hpc : (s.thread p).pc = pc)
    (hlocks : pc'.locks p = pc.locks p) (hfollows : pc.Follows pc') : Core (s.goto p pc') := by
  have hstate := ((h.cpu c).on p hc).state
  rw [hpc, ← hfollows.expects] at hstate
  exact h.ownQuiet (t := { s.thread p with pc := pc' }) hc hpc rfl rfl rfl rfl hlocks rfl rfl
    hfollows.quiet
    hfollows.quiet' hstate

/-- A part of `acquire` or `release` that leaves the spin locks alone. -/
theorem Core.spin (h : Core s) (hpc : x.pc = (s.cpu c).pc) (hproc : x.proc = (s.cpu c).proc)
    (hnoff : x.noff = (s.held c).length + x.spin.pending) (hintr : x.noff ≠ 0 → x.intr = false)
    (hflag : x.flag = (s.cpu c).flag) : Core (s.setCpu c x) := by
  obtain ⟨hx, hne⟩ := eq_update (rfl : (s.setCpu c x).cpu = update s.cpu c x)
  have hok := h.cpu c
  have hheld : (s.setCpu c x).held c = s.held c := by
    unfold held
    rw [hx, hpc]
    rfl
  have hpc' : ∀ c', ((s.setCpu c x).cpu c').pc = (s.cpu c').pc := by
    intro c'
    by_cases hcc : c' = c
    · rw [hcc, hx, hpc]
    · rw [hne c' hcc]
  refine h.change c hne (fun _ _ _ _ => rfl) (fun _ _ _ => Iff.rfl)
    ⟨?_, ?_, ?_, ?_, ?_⟩ ?_ ?_ h.trap h.calm
  · rw [hheld]
    exact hok.holder
  · rw [hheld, hx]
    exact hnoff
  · rw [hx]
    exact hintr
  · rw [hpc', hx, hproc]
    exact hok.proc
  · intro p hp
    rw [hpc'] at hp
    obtain ⟨hstate, hchan, hkept⟩ := hok.on p hp
    refine ⟨hstate, hchan, ?_⟩
    unfold FlagKept at hkept ⊢
    rwa [hx, hflag]
  · intro c' p hc' hp
    rw [hpc'] at hp
    exact (h.alone hp).1 c' hc'
  · intro p hp
    simp only [hpc'] at hp
    exact h.off p hp

theorem cpu_jump {s1 : SchedSys L} (h : s1.cpu = update s.cpu c x) (pc : SchedPc) :
    (s1.jump c pc).cpu = update s.cpu c { x with pc := pc } := by
  unfold jump setCpu
  dsimp only
  rw [h, update_self, update_idem]

/-- A CPU without spin locks, outside of `acquire` and `release`. -/
theorem Core.noff_eq_zero (h : Core s) (hheld : s.held c = []) (hspin : (s.cpu c).spin = .out) :
    (s.cpu c).noff = 0 := by
  rw [(h.cpu c).noff, hheld, hspin]
  rfl

/-- A scheduler or its handler goes on with another statement, with the same spin locks. -/
theorem Core.jump (h : Core s) {pc : SchedPc} (hpc : (s.cpu c).pc = pc) (hc : ∀ p, pc ≠ .away p)
    (hproc : x.pc.proc = none) (hlocks : (x.pc.locks : List (Lk L)) = pc.locks) (hxproc : x.proc = none)
    (hnoff : x.noff = (s.cpu c).noff) (hspin : x.spin = (s.cpu c).spin)
    (hintr : x.noff ≠ 0 → x.intr = false) :
    Core (s.setCpu c x) := by
  rw [← hpc] at hc hlocks
  have hok := h.cpu c
  have hheld := held_scheduler hc
  refine h.scheduler hc rfl rfl (SchedPc.ne_away hproc) (hxproc.trans hproc.symm)
    (fun _ _ _ => Iff.rfl) ?_ ?_ hintr h.calm
  · intro k
    rw [hlocks, ← hheld]
    exact hok.holder k
  · rw [hlocks, ← hheld, hnoff, hspin]
    exact hok.noff

/-- A scheduler without spin locks changes its interrupt flag. -/
theorem Core.jumpIntr (h : Core s) {pc pc' : SchedPc} (hpc : (s.cpu c).pc = pc) (hc : pc.proc = none)
    (hproc : pc'.proc = none) (hnone : (pc.locks : List (Lk L)) = [])
    (hlocks : (pc'.locks : List (Lk L)) = [])
    (hspin : (s.cpu c).spin = .out) : Core (s.setCpu c { s.cpu c with intr := b, pc := pc' }) := by
  have hzero := h.noff_eq_zero (by rw [held_scheduler (hpc ▸ SchedPc.ne_away hc), hpc, hnone]) hspin
  exact h.jump hpc (SchedPc.ne_away hc) hproc (hlocks.trans hnone.symm)
    ((h.cpu c).proc.trans (by rw [hpc, hc])) rfl rfl (absurd hzero)

/-! ## Another process -/

theorem Parked.wake (h : Parked t) (hs : t.state = .sleeping) :
    Parked { t with state := .runnable } := by
  unfold Parked at h
  rw [hs] at h
  obtain ⟨w, hpc, -, hintena⟩ := h
  exact Or.inr ⟨Or.inl ⟨w, hpc⟩, hintena⟩

/-- The lock of a process that another CPU runs is free or with that CPU, unless it is `RUNNING`. -/
theorem Core.running_of_lock (h : Core s) {c' : CpuId} (hlock : .proc i ∈ s.held c)
    (hc' : (s.cpu c').pc = .away i) (hne : c' ≠ c) : (s.thread i).state = .running := by
  have hnot : .proc i ∉ (s.thread i).pc.locks i := by
    intro hmem
    rw [← held_away hc', ← (h.cpu c').holder, ((h.cpu c).holder _).2 hlock] at hmem
    exact hne (some.inj hmem).symm
  have hstate := ((h.cpu c').on i hc').state
  rw [ThreadPc.expects_running hnot] at hstate
  exact (some.inj hstate).symm

/-- A CPU that has the lock of a process changes it: only a process whose thread is on no CPU
changes. -/
theorem Core.setProc (h : Core s) (hlock : .proc i ∈ s.held c)
    (hself : (s.cpu c).pc = .away i → (s.thread i).state = .running)
    (hrun : (s.thread i).state = .running → t = s.thread i) (hpark : Parked (s.thread i) → Parked t)
    (htrap : ∀ ret, t.trap = some ret → (s.thread i).trap = some ret) :
    Core (s.setThread i t) ∧
      ∀ c' q, (s.cpu c').pc = .away q → (s.setThread i t).thread q = s.thread q := by
  by_cases hon : ∃ c', (s.cpu c').pc = .away i
  · obtain ⟨c', hc'⟩ := hon
    have hrunning : (s.thread i).state = .running := by
      by_cases hcc : c' = c
      · rw [hcc] at hc'
        exact hself hc'
      · exact h.running_of_lock hlock hc' hcc
    have hsame : s.setThread i t = s := by
      unfold setThread
      rw [hrun hrunning, update_eq_self]
    rw [hsame]
    exact ⟨h, fun _ _ _ => rfl⟩
  · obtain ⟨hnew, hold⟩ := eq_update (rfl : (s.setThread i t).thread = update s.thread i t)
    have hne : ∀ c' q, (s.cpu c').pc = .away q → (s.setThread i t).thread q = s.thread q := by
      intro c' q hq
      apply hold
      intro heq
      rw [heq] at hq
      exact hon ⟨c', hq⟩
    refine ⟨⟨?_, h.one, ?_, ?_, h.calm⟩, hne⟩
    · intro c'
      exact (h.cpu c').congr rfl (hne c') (fun _ => Iff.rfl)
    · intro q hq
      by_cases hqi : q = i
      · rw [hqi] at hq ⊢
        rw [hnew]
        exact hpark (h.off i hq)
      · rw [hold q hqi]
        exact h.off q hq
    · intro q ret hret
      by_cases hqi : q = i
      · rw [hqi, hnew] at hret
        rw [hqi]
        exact h.trap i ret (htrap ret hret)
      · rw [hold q hqi] at hret
        exact h.trap q ret hret

theorem procOp_parked (h : Parked t) (hready : op = .ready → t.state = .used) :
    Parked (procOp t op).1 := by
  cases op with
  | kill =>
    by_cases hs : t.state = .sleeping
    · rw [procOp, if_pos hs]
      exact h.wake hs
    · rw [procOp, if_neg hs]
      exact h
  | alloc mem =>
    by_cases hs : t.state = .unused
    · rw [procOp, if_pos hs]
      cases mem with
      | true => exact rfl
      | false =>
        unfold Parked at h ⊢
        rw [hs] at h
        rw [if_neg Bool.false_ne_true, hs]
        exact h
    · rw [procOp, if_neg hs]
      exact h
  | ready =>
    unfold Parked at h
    rw [hready rfl] at h
    exact Or.inl h
  | reap n =>
    by_cases hs : t.state = .zombie
    · unfold Parked at h
      rw [hs] at h
      rw [procOp, if_pos hs]
      exact ⟨.exit, h⟩
    · rw [procOp, if_neg hs]
      exact h
  | allocated => exact h

theorem procOp_running (h : t.state = .running) (hready : op ≠ .ready) :
    (procOp t op).1 = t := by
  cases op with
  | ready => exact absurd rfl hready
  | _ => simp [procOp, h]

theorem procOp_trap {ret : ThreadPc L} (h : (procOp t op).1.trap = some ret) :
    t.trap = some ret := by
  cases op with
  | alloc mem =>
    rw [procOp] at h
    split at h
    · cases mem with
      | true => cases h
      | false => exact h
    · exact h
  | kill | reap =>
    rw [procOp] at h
    split at h <;> exact h
  | ready | allocated => exact h

theorem procOp_outer (t : Thread L) (op : ProcOp) :
    ((procOp t op).2.outer : List (Lk L)) = op.outer := by
  cases op with
  | alloc mem => cases mem <;> rw [procOp] <;> split <;> rfl
  | _ => rfl

theorem Core.procOp (h : Core s) (hc : (s.cpu c).pc = .away p)
    (hpc : (s.thread p).pc = .procDo op i) (hready : op = .ready → (s.thread i).state = .used) :
    Core (s.setThread i (SchedSys.procOp (s.thread i) op).1) ∧
      ∀ c' q, (s.cpu c').pc = .away q →
        (s.setThread i (SchedSys.procOp (s.thread i) op).1).thread q = s.thread q := by
  have hheld := held_away hc
  rw [hpc] at hheld
  apply h.setProc (c := c)
  · rw [hheld]
    exact mem_cons_self
  · intro hi
    rw [hc] at hi
    cases hi
    have hstate := ((h.cpu c).on p hc).state
    rw [hpc] at hstate
    exact (some.inj hstate).symm
  · intro hrunning
    apply procOp_running hrunning
    intro heq
    rw [hready heq] at hrunning
    cases hrunning
  · intro hparked
    exact procOp_parked hparked hready
  · intro ret hret
    exact procOp_trap hret

theorem Core.procDo (h : Core s) (hc : (s.cpu c).pc = .away p)
    (hpc : (s.thread p).pc = .procDo op i) (hready : op = .ready → (s.thread i).state = .used) :
    Core ((s.setThread i (SchedSys.procOp (s.thread i) op).1).goto p
      (.procDone (SchedSys.procOp (s.thread i) op).2 i)) := by
  obtain ⟨h', hsame⟩ := h.procOp hc hpc hready
  have hpc' := congrArg Thread.pc (hsame c p hc)
  rw [hpc] at hpc'
  exact h'.goto hc hpc' (congrArg (Lk.proc i :: ·) (procOp_outer _ op)) ⟨rfl, rfl, rfl⟩

/-! ## Switching -/

/-- A thread that is off its CPU is in the state that it had in `sched`. -/
theorem parked_sched (hpc : t.pc = .sched k) (hstate : t.pc.expects = some t.state)
    (hchan : ∀ w, t.pc = .sched (.sleep w) → t.chan = some w.chan) (hb : b = t.intr) :
    Parked { t with intena := b, pc := .switched k } := by
  rw [hpc] at hstate
  unfold Parked
  cases k with
  | sleep w =>
    rw [← some.inj hstate]
    exact ⟨w, rfl, hchan w hpc, hb⟩
  | yield =>
    rw [← some.inj hstate]
    exact Or.inr ⟨Or.inr rfl, hb⟩
  | exit => rw [← some.inj hstate]
  | forkret => cases hstate

/-- `sched` switches to the scheduler of the CPU: none of its checks fails. -/
theorem Core.sched_eq (h : Core s) (hc : (s.cpu c).pc = .away p)
    (hpc : (s.thread p).pc = .sched k) (hspin : (s.cpu c).spin = .out) :
    s.sched c p k =
      (s.setThread p
        { s.thread p with intena := (s.cpu c).intena, pc := .switched k }).jump c (.back p) := by
  have hok := h.cpu c
  have hheld := held_away hc
  rw [hpc] at hheld
  have hmem : .proc p ∈ s.held c := by
    rw [hheld]
    exact mem_cons_self
  have hone : (s.cpu c).noff = 1 := by
    rw [hok.noff, hheld, hspin]
    rfl
  unfold SchedSys.sched
  rw [if_neg]
  rintro (hlock | hnoff | hstate | hintr)
  · exact hlock ((hok.holder _).2 hmem)
  · exact hnoff hone
  · have hexpects := (hok.on p hc).state
    rw [hpc, hstate] at hexpects
    cases k <;> cases hexpects
  · rw [hok.intr (by rw [hone]; exact one_ne_zero)] at hintr
    cases hintr

theorem Core.sched (h : Core s) (hc : (s.cpu c).pc = .away p) (hpc : (s.thread p).pc = .sched k)
    (hspin : (s.cpu c).spin = .out) : Core (s.sched c p k) := by
  have hok := h.cpu c
  have hon := hok.on p hc
  have hheld := held_away hc
  rw [hpc] at hheld
  have hflag : (s.cpu c).intena = (s.thread p).intr := by
    have hkept := hon.flag
    unfold FlagKept CpuState.flag at hkept
    rwa [hpc, hok.noff, hheld, hspin] at hkept
  have hparked := parked_sched hpc hon.state hon.chan hflag
  rw [h.sched_eq hc hpc hspin]
  set t : Thread L := { s.thread p with intena := (s.cpu c).intena, pc := .switched k }
  have hsame : (s.setThread p t).cpu = update s.cpu c (s.cpu c) := (update_eq_self c s.cpu).symm
  have hx := cpu_jump hsame (.back p)
  -- the lock of the process goes from the thread to the scheduler
  have hheld' : ((s.setThread p t).jump c (.back p)).held c = s.held c := by
    unfold held at hheld ⊢
    rw [hheld, hx, update_self]
    rfl
  obtain ⟨halone, hbefore⟩ := h.alone hc
  refine h.move hx rfl halone hbefore (fun _ _ _ => Iff.rfl) ?_ ?_ hok.intr
    (hok.proc.trans (by rw [hc]; rfl))
    (Or.inr ⟨fun q => nofun, hparked⟩) (h.trap p) h.calm
  · rw [hheld']
    exact hok.holder
  · rw [hheld']
    exact hok.noff

/-- A thread that a scheduler picks is just out of `sched`, and not for the last time. -/
theorem Parked.pick (h : Parked t) (hs : t.state = .runnable) (x : CpuState) (p : Slot) :
    t.pc.locks p = [.proc p] ∧ OnCpu x { t with state := .running } := by
  unfold Parked at h
  rw [hs] at h
  obtain hpc | ⟨⟨w, hpc⟩ | hpc, hintena⟩ := h
  · rw [hpc]
    exact ⟨rfl, rfl, fun _ hw => (nomatch hw), trivial⟩
  · rw [hpc]
    exact ⟨rfl, rfl, fun _ hw => (nomatch hw), hintena⟩
  · rw [hpc]
    exact ⟨rfl, rfl, fun _ hw => (nomatch hw), hintena⟩

theorem Core.pick (h : Core s) (hc : (s.cpu c).pc = .pick i) (hs : (s.thread i).state = .runnable) :
    Core ((s.setThread i { s.thread i with state := .running }).setCpu c
      { s.cpu c with proc := some i, pc := .away i }) := by
  have hok := h.cpu c
  have hheld : s.held c = [.proc i] := by
    rw [held_scheduler (by rw [hc]; exact SchedPc.ne_away rfl), hc]
    rfl
  have hlock : .proc i ∈ s.held c := by
    rw [hheld]
    exact mem_cons_self
  have hoff : ∀ c', (s.cpu c').pc ≠ .away i := by
    intro c' hc'
    by_cases hcc : c' = c
    · rw [hcc, hc] at hc'
      cases hc'
    · have hrunning := h.running_of_lock hlock hc' hcc
      rw [hs] at hrunning
      cases hrunning
  obtain ⟨hlocks, hon⟩ := (h.off i hoff).pick hs { s.cpu c with proc := some i, pc := .away i } i
  set t : Thread L := { s.thread i with state := .running }
  set x : CpuState := { s.cpu c with proc := some i, pc := .away i }
  have hx : ((s.setThread i t).setCpu c x).cpu c = x := update_self ..
  have ht : ((s.setThread i t).setCpu c x).thread i = t := update_self ..
  have hheld' : ((s.setThread i t).setCpu c x).held c = s.held c := by
    rw [held_away (p := i) (by rw [hx]), ht, hheld]
    exact hlocks
  refine h.move (x := x) (t := t) rfl rfl (fun c' _ => hoff c') ?_
    (fun _ _ _ => Iff.rfl) ?_ ?_ hok.intr rfl
    (Or.inl ⟨rfl, hon⟩) (h.trap i) h.calm
  · intro q hq
    rw [hc] at hq
    cases hq
  · rw [hheld']
    exact hok.holder
  · rw [hheld']
    exact hok.noff

/-- A thread comes out of `sched`. -/
theorem Core.back (h : Core s) (hc : (s.cpu c).pc = .away p)
    (hpc : (s.thread p).pc = .switched k) {o : Option (Obj L)} (htpc : t.pc = .unlock o)
    (htrap : t.trap = (s.thread p).trap) (hstate : t.state = (s.thread p).state) (hb : b = t.intr)
    (hcpu : s'.cpu = update s.cpu c { s.cpu c with intena := b })
    (hthread : s'.thread = update s.thread p t) (hholder : s'.holder = s.holder)
    (hcalm : s'.panicked = s.panicked) : Core s' := by
  have hok := h.cpu c
  have hheld := held_away hc
  rw [hpc] at hheld
  refine h.thread hc hcpu hthread hc (hok.proc.trans (by rw [hc]; rfl)) ?_ ?_ ?_ hok.intr ?_ ?_ ?_
  · intro c' lk _
    rw [hholder]
  · intro lk
    rw [hholder, htpc, hok.holder, hheld]
    rfl
  · rw [htpc]
    exact hok.noff.trans (by rw [hheld]; rfl)
  · apply OnCpu.of_quiet
    · rw [htpc]
      rfl
    · have hold := (hok.on p hc).state
      rw [hpc] at hold
      rw [htpc, hstate, ← hold]
      cases k with
      | exit => cases hold
      | _ => rfl
    · have hne : (s.cpu c).noff ≠ 0 := by
        rw [hok.noff, hheld]
        simp [ThreadPc.locks]
      exact (if_neg hne).trans hb
  · rw [htrap]
    exact h.trap p
  · rw [hcalm]
    exact h.calm

/-- A thread without spin locks changes its interrupt flag. -/
theorem Core.setIntr (h : Core s) (hc : (s.cpu c).pc = .away p)
    (hspin : (s.cpu c).spin = .out) (hold : (s.thread p).pc.locks p = []) (hnew : t.pc.locks p = [])
    (hstate : t.state = (s.thread p).state)
    (hb : b = t.intr) (htrap : ∀ ret, t.trap = some ret → ret.locks p = []) :
    Core ((s.setCpu c { s.cpu c with intr := b }).setThread p t) := by
  have hok := h.cpu c
  have hheld := held_away hc
  have hzero := h.noff_eq_zero (hheld.trans hold) hspin
  refine h.thread (x := { s.cpu c with intr := b }) hc rfl rfl hc (hok.proc.trans (by rw [hc]; rfl))
    (fun _ _ _ => Iff.rfl) ?_ ?_ (absurd hzero) ?_ htrap h.calm
  · intro lk
    rw [hnew, ← hold, ← hheld]
    exact hok.holder lk
  · rw [hnew, ← hold, ← hheld]
    exact hok.noff
  · have hstate' := (hok.on p hc).state
    rw [ThreadPc.expects_running (by rw [hold]; exact not_mem_nil)] at hstate'
    apply OnCpu.of_quiet
    · exact ThreadPc.quiet_of_locks hnew
    · rw [ThreadPc.expects_running (by rw [hnew]; exact not_mem_nil), hstate']
      rw [hstate]
    · exact (if_pos hzero).trans hb

theorem Core.trapCall (h : Core s) (hc : (s.cpu c).pc = .away p) (hspin : (s.cpu c).spin = .out)
    {k : SchedCall L} {ret : ThreadPc L}
    (htrap : (s.thread p).trap = some ret) (hrun : s.trapCall c p ret (s.thread p).pc k = some s') :
    Core s' := by
  generalize hpc : (s.thread p).pc = pc at hrun
  unfold SchedSys.trapCall at hrun
  split at hrun
  case h_3 =>
    cases hrun
    exact h.setIntr hc hspin (by rw [hpc]; rfl) (h.trap p ret htrap) rfl rfl
      (fun _ hret => nomatch hret)
  case h_6 => cases hrun
  all_goals
    cases hrun
    exact h.goto hc hpc rfl ⟨rfl, rfl, rfl⟩

theorem Core.irq (h : Core s) {k : IrqCall} (hspin : (s.cpu c).spin = .out)
    (hrun : s.irq c (s.cpu c).pc k = some s') : Core s' := by
  have hproc := (h.cpu c).proc
  generalize hpc : (s.cpu c).pc = pc at hrun hproc
  unfold SchedSys.irq at hrun
  split at hrun
  case h_1 =>
    split at hrun
    · cases hrun
      exact h.jumpIntr hpc rfl rfl rfl rfl hspin
    · cases hrun
  case h_3 =>
    cases hrun
    exact h.jumpIntr hpc rfl rfl rfl rfl hspin
  case h_6 => cases hrun
  all_goals
    cases hrun
    exact h.jump hpc (SchedPc.ne_away rfl) rfl rfl hproc rfl rfl (h.cpu c).intr

theorem boot_core (initproc : Slot) : Core (boot initproc : SchedSys L) := by
  constructor
  · intro c
    refine ⟨?_, rfl, absurd rfl, rfl, ?_⟩
    · intro lk
      exact ⟨fun heq => (nomatch heq), fun hmem => (nomatch hmem)⟩
    · intro p hp
      cases hp
  · intro c c' p hc
    cases hc
  · intro p _
    unfold Parked boot
    dsimp only
    by_cases hp : p = initproc
    · rw [if_pos hp]
      exact Or.inl rfl
    · rw [if_neg hp]
      exact ⟨.forkret, rfl⟩
  · intro p ret hret
    cases hret
  · rfl

/-- A thread that is not just out of `sched` is on a CPU. -/
theorem Core.exists_cpu (h : Core s) (hpc : ∀ k, (s.thread p).pc ≠ .switched k) :
    ∃ c, (s.cpu c).pc = .away p := by
  by_contra hoff
  have hparked := h.off p (not_exists.1 hoff)
  unfold Parked at hparked
  split at hparked
  · exact hparked
  · obtain ⟨w, hw, -⟩ := hparked
    exact hpc _ hw
  · obtain hw | ⟨⟨w, hw⟩ | hw, -⟩ := hparked
    · exact hpc _ hw
    · exact hpc _ hw
    · exact hpc _ hw
  · exact hpc _ hparked
  · exact hpc _ hparked
  · obtain ⟨k, hk⟩ := hparked
    exact hpc k hk

/-- Where interrupts are on, the thread has no spin locks. -/
theorem Core.locks_of_intr (h : Core s) (hc : (s.cpu c).pc = .away p) (hintr : (s.cpu c).intr = true) :
    (s.thread p).pc.locks p = [] := by
  have hzero : (s.cpu c).noff = 0 := by
    by_contra hne
    rw [(h.cpu c).intr hne] at hintr
    cases hintr
  rw [(h.cpu c).noff] at hzero
  rw [← held_away hc]
  exact length_eq_zero_iff.1 (Nat.eq_zero_of_add_eq_zero_right hzero)

/-- Two threads do not have the same spin lock. -/
theorem Core.excl (h : Core s) {q : Slot} {lk : Lk L} (hc : (s.cpu c).pc = .away p)
    (hp : lk ∈ (s.thread p).pc.locks p) (hq : lk ∈ (s.thread q).pc.locks q)
    (hpc : ∀ k, (s.thread q).pc ≠ .switched k) : q = p := by
  obtain ⟨c', hc'⟩ := h.exists_cpu hpc
  rw [← held_away hc, ← (h.cpu c).holder] at hp
  rw [← held_away hc', ← (h.cpu c').holder, hp] at hq
  rw [← some.inj hq, hc] at hc'
  exact (SchedPc.away.inj hc').symm

theorem Core.running (h : Core s) (hc : (s.cpu c).pc = .away p) {pc : ThreadPc L}
    (hpc : (s.thread p).pc = pc)
    (hexpects : pc.expects = some .running) : (s.thread p).state = .running := by
  have hstate := ((h.cpu c).on p hc).state
  rw [hpc, hexpects] at hstate
  exact (some.inj hstate).symm

/-- The locks that a statement asks for. -/
theorem not_held_of_acquire (hc : (s.cpu c).pc = .away p) (lk : Lk L) (pc : ThreadPc L)
    (hstmt : (s.thread p).pc.stmt p = .acquire lk pc) : lk ∉ s.held c := by
  have hspec := ThreadPc.stmt_spec p (s.thread p).pc
  rw [hstmt] at hspec
  rw [held_away hc]
  exact (nodup_cons.1 (hspec.1 ▸ pc.locks_nodup p)).1

theorem held_of_release (hc : (s.cpu c).pc = .away p) (lk : Lk L) (pc : ThreadPc L)
    (hstmt : (s.thread p).pc.stmt p = .release lk pc) : lk ∈ s.held c := by
  have hspec := ThreadPc.stmt_spec p (s.thread p).pc
  rw [hstmt] at hspec
  rw [held_away hc]
  exact hspec.1.mem_iff.1 mem_cons_self

theorem not_held_of_acquire' (hc : ∀ p, (s.cpu c).pc ≠ .away p) (lk : Lk L) (pc : SchedPc)
    (hstmt : (s.cpu c).pc.stmt = .acquire lk pc) : lk ∉ s.held c := by
  have hspec := SchedPc.stmt_spec (L := L) (s.cpu c).pc
  rw [hstmt] at hspec
  rw [held_scheduler hc]
  exact (nodup_cons.1 (hspec.1 ▸ pc.locks_nodup)).1

theorem held_of_release' (hc : ∀ p, (s.cpu c).pc ≠ .away p) (lk : Lk L) (pc : SchedPc)
    (hstmt : (s.cpu c).pc.stmt = .release lk pc) : lk ∈ s.held c := by
  have hspec := SchedPc.stmt_spec (L := L) (s.cpu c).pc
  rw [hstmt] at hspec
  rw [held_scheduler hc]
  exact hspec.1.mem_iff.1 mem_cons_self

variable [DecidableEq L] {lk : Lk L}

theorem Core.holder_acquire (h : Core s) (hnone : s.holder lk = none) :
    (∀ c' k, c' ≠ c → (update s.holder lk (some c) k = some c' ↔ s.holder k = some c')) ∧
      ∀ k, update s.holder lk (some c) k = some c ↔ k ∈ lk :: s.held c := by
  constructor
  · intro c' k hc'
    by_cases hk : k = lk
    · rw [hk, update_self, hnone]
      exact ⟨fun heq => absurd (some.inj heq).symm hc', fun heq => absurd heq (some_ne_none c').symm⟩
    · rw [update_of_ne hk]
  · intro k
    rw [mem_cons]
    by_cases hk : k = lk
    · rw [hk, update_self]
      exact ⟨fun _ => Or.inl rfl, fun _ => rfl⟩
    · rw [update_of_ne hk, (h.cpu c).holder]
      exact ⟨Or.inr, fun hor => hor.resolve_left hk⟩

theorem Core.holder_release (h : Core s) {rest : List (Lk L)} (hperm : (lk :: rest).Perm (s.held c)) :
    (∀ c' k, c' ≠ c → (update s.holder lk none k = some c' ↔ s.holder k = some c')) ∧
      ∀ k, update s.holder lk none k = some c ↔ k ∈ rest := by
  have hlk : s.holder lk = some c := ((h.cpu c).holder lk).2 (hperm.mem_iff.1 mem_cons_self)
  have hnot : lk ∉ rest := (nodup_cons.1 (hperm.nodup_iff.2 (held_nodup s c))).1
  constructor
  · intro c' k hc'
    by_cases hk : k = lk
    · rw [hk, update_self, hlk]
      exact ⟨fun heq => absurd heq (some_ne_none c').symm, fun heq => absurd (some.inj heq).symm hc'⟩
    · rw [update_of_ne hk]
  · intro k
    by_cases hk : k = lk
    · rw [hk, update_self]
      exact ⟨fun heq => absurd heq (some_ne_none c).symm, fun hmem => absurd hmem hnot⟩
    · rw [update_of_ne hk, (h.cpu c).holder, ← hperm.mem_iff, mem_cons]
      exact ⟨fun hor => hor.resolve_left hk, Or.inr⟩

/-! ## The statements of a thread on spin locks -/

/-- **What a step does at a statement.** The panics of `acquire`, `release` and `pop_off` do not
happen. -/
theorem Core.perform_cases (h : Core s) {Pc : Type} {next : Pc → SchedSys L → SchedSys L}
    {act : Option (SchedSys L)} {st : Stmt L Pc} (hnot : ∀ lk pc, st = .acquire lk pc → lk ∉ s.held c)
    (hhas : ∀ lk pc, st = .release lk pc → lk ∈ s.held c) (hrun : s.perform c next act st = some s') :
    (∃ x, s' = s.setCpu c x ∧ Core s') ∨
    (∃ lk pc, st = .acquire lk pc ∧ (s.cpu c).spin = .swap ∧ s.holder lk = none ∧
      s' = next pc ((s.setHolder lk (some c)).setSpin c .out)) ∨
    (∃ lk pc, st = .release lk pc ∧ (s.cpu c).spin = .out ∧
      s' = next pc ((s.setHolder lk none).setSpin c .pop)) ∨
    (∃ pc, st = .goto pc ∧ s' = next pc s) ∨ st = .act ∧ (s.cpu c).spin = .out ∧ act = some s' := by
  have hok := h.cpu c
  unfold perform at hrun
  split at hrun
  · rename_i hspin
    cases hrun
    refine Or.inl ⟨_, rfl, h.spin rfl rfl ?_ (fun _ => rfl) (if_neg (Nat.succ_ne_zero _))⟩
    have hnoff := hok.noff
    rw [hspin] at hnoff
    exact congrArg (· + 1) hnoff
  · rename_i lk pc hspin
    cases hrun
    have hfree : ¬ s.holder lk = some c := fun hlk => hnot lk pc rfl ((hok.holder lk).1 hlk)
    rw [if_neg hfree]
    refine Or.inl ⟨_, rfl, h.spin rfl rfl ?_ hok.intr rfl⟩
    have hnoff := hok.noff
    rw [hspin] at hnoff
    exact hnoff
  · rename_i lk pc hspin
    obtain ⟨hfree, ⟨⟩⟩ := ite_none_right_eq_some.1 hrun
    exact Or.inr (Or.inl ⟨lk, pc, rfl, hspin, hfree, rfl⟩)
  · rename_i lk pc hspin
    cases hrun
    rw [if_pos ((hok.holder lk).2 (hhas lk pc rfl))]
    exact Or.inr (Or.inr (Or.inl ⟨lk, pc, rfl, hspin, rfl⟩))
  · rename_i hspin
    cases hrun
    have hnoff := hok.noff
    rw [hspin] at hnoff
    have hne : (s.cpu c).noff ≠ 0 := by
      rw [hnoff]
      exact Nat.succ_ne_zero _
    obtain ⟨hflag, hintr⟩ := CpuState.flag_popOff hne (hok.intr hne)
    have hchecks : ¬((s.cpu c).intr = true ∨ (s.cpu c).noff < 1) := by
      rw [hok.intr hne]
      rintro (hon | hlt)
      · cases hon
      · exact hne (Nat.lt_one_iff.1 hlt)
    unfold SchedSys.popOff
    rw [if_neg hchecks]
    exact Or.inl ⟨_, rfl, h.spin rfl rfl (Nat.sub_eq_of_eq_add hnoff) hintr hflag⟩
  · rename_i pc hspin
    cases hrun
    exact Or.inr (Or.inr (Or.inr (Or.inl ⟨pc, rfl, rfl⟩)))
  · exact Or.inr (Or.inr (Or.inr (Or.inr ⟨rfl, ‹_›, hrun⟩)))
  · cases hrun

theorem Core.threadAcquire (h : Core s) (hc : (s.cpu c).pc = .away p)
    (hstmt : (s.thread p).pc.stmt p = .acquire lk pc') (hspin : (s.cpu c).spin = .swap)
    (hfree : s.holder lk = none) : Core (((s.setHolder lk (some c)).setSpin c .out).goto p pc') := by
  have hspec := ThreadPc.stmt_spec p (s.thread p).pc
  rw [hstmt] at hspec
  obtain ⟨hlocks, hfollows⟩ := hspec
  have hheld := held_away hc
  obtain ⟨hother, hholder⟩ := h.holder_acquire (c := c) hfree
  have hok := h.cpu c
  have hon := hok.on p hc
  refine h.thread (x := { s.cpu c with spin := .out })
    (t := { s.thread p with pc := pc' }) hc rfl rfl hc
    (hok.proc.trans (by rw [hc]; rfl)) hother ?_ ?_ hok.intr ?_ (h.trap p) h.calm
  · intro k
    dsimp only
    rw [hlocks, ← hheld]
    exact hholder k
  · dsimp only
    rw [hlocks, length_cons, ← hheld, hok.noff, hspin]
    rfl
  · exact OnCpu.of_quiet hfollows.quiet' (hfollows.expects.trans hon.state)
      (hon.flag.quiet hfollows.quiet)

theorem Core.threadRelease (h : Core s) (hc : (s.cpu c).pc = .away p)
    (hstmt : (s.thread p).pc.stmt p = .release lk pc') (hspin : (s.cpu c).spin = .out) :
    Core (((s.setHolder lk none).setSpin c .pop).goto p pc') := by
  have hspec := ThreadPc.stmt_spec p (s.thread p).pc
  rw [hstmt] at hspec
  obtain ⟨hperm, hfollows⟩ := hspec
  rw [← held_away hc] at hperm
  obtain ⟨hother, hholder⟩ := h.holder_release hperm
  have hok := h.cpu c
  have hon := hok.on p hc
  refine h.thread (x := { s.cpu c with spin := .pop })
    (t := { s.thread p with pc := pc' }) hc rfl rfl hc
    (hok.proc.trans (by rw [hc]; rfl)) hother hholder ?_ hok.intr ?_ (h.trap p) h.calm
  · dsimp only
    rw [hok.noff, ← hperm.length_eq, hspin]
    rfl
  · exact OnCpu.of_quiet hfollows.quiet' (hfollows.expects.trans hon.state)
      (hon.flag.quiet hfollows.quiet)

/-! ## The statements of a scheduler -/

theorem Core.cpuAcquire (h : Core s) {pc : SchedPc} (hstmt : (s.cpu c).pc.stmt = .acquire lk pc)
    (hspin : (s.cpu c).spin = .swap) (hfree : s.holder lk = none) :
    Core (((s.setHolder lk (some c)).setSpin c .out).jump c pc) := by
  have hspec := SchedPc.stmt_spec (L := L) (s.cpu c).pc
  rw [hstmt] at hspec
  obtain ⟨hlocks, hproc, hproc'⟩ := hspec
  have hheld := held_scheduler (SchedPc.ne_away hproc)
  obtain ⟨hother, hholder⟩ := h.holder_acquire (c := c) hfree
  have hok := h.cpu c
  refine h.scheduler (SchedPc.ne_away hproc) (cpu_jump (x := { s.cpu c with spin := .out }) rfl pc) rfl
    (SchedPc.ne_away hproc') ((hok.proc.trans hproc).trans hproc'.symm) hother ?_ ?_ hok.intr h.calm
  · intro k
    dsimp only
    rw [hlocks, ← hheld]
    exact hholder k
  · dsimp only
    rw [hlocks, length_cons, ← hheld, hok.noff, hspin]
    rfl

theorem Core.cpuRelease (h : Core s) {pc : SchedPc} (hstmt : (s.cpu c).pc.stmt = .release lk pc)
    (hspin : (s.cpu c).spin = .out) : Core (((s.setHolder lk none).setSpin c .pop).jump c pc) := by
  have hspec := SchedPc.stmt_spec (L := L) (s.cpu c).pc
  rw [hstmt] at hspec
  obtain ⟨hperm, hproc, hproc'⟩ := hspec
  rw [← held_scheduler (SchedPc.ne_away hproc)] at hperm
  obtain ⟨hother, hholder⟩ := h.holder_release hperm
  have hok := h.cpu c
  refine h.scheduler (SchedPc.ne_away hproc) (cpu_jump (x := { s.cpu c with spin := .pop }) rfl pc) rfl
    (SchedPc.ne_away hproc') ((hok.proc.trans hproc).trans hproc'.symm) hother hholder ?_
    hok.intr h.calm
  dsimp only
  rw [hok.noff, ← hperm.length_eq, hspin]
  rfl

theorem cpu_wakeOne (s : SchedSys L) (chan : Obj L) (i : Slot) : (s.wakeOne chan i).cpu = s.cpu := by
  unfold wakeOne
  dsimp only
  split <;> rfl

theorem Core.wakeOne (h : Core s) (chan : Obj L) (hlock : .proc i ∈ s.held c)
    (hself : (s.cpu c).pc = .away i → (s.thread i).state = .running) :
    Core (s.wakeOne chan i) ∧
      ∀ c' q, (s.cpu c').pc = .away q → (s.wakeOne chan i).thread q = s.thread q := by
  unfold SchedSys.wakeOne
  dsimp only
  split
  · rename_i hsleep
    apply h.setProc hlock hself
    · intro hrunning
      rw [hsleep.1] at hrunning
      cases hrunning
    · intro hparked
      exact hparked.wake hsleep.1
    · intro ret hret
      exact hret
  · exact ⟨h, fun _ _ _ => rfl⟩

/-! ## Steps -/

/-- A statement that reads or writes more than the spin locks. -/
theorem Core.act (h : Core s) (hc : (s.cpu c).pc = .away p) (hspin : (s.cpu c).spin = .out)
    (hready : ∀ i, (s.thread p).pc = .procDo .ready i → (s.thread i).state = .used)
    (hcheck : ∀ l, (s.thread p).pc ≠ .heldCheck l false)
    (hrun : s.act c p (s.thread p).pc = some s') : Core s' := by
  have hon := (h.cpu c).on p hc
  generalize hpc : (s.thread p).pc = pc at hrun
  cases pc with
  | inside o =>
    cases o with
    | other n => cases hrun
    | sleep l =>
      cases hrun
      split <;> exact h.goto hc hpc rfl ⟨rfl, rfl, rfl⟩
  | lockSet l =>
    cases hrun
    have hstate := hon.state
    rw [hpc] at hstate
    exact h.ownQuiet
      (t := { s.thread p with has := insert l (s.thread p).has, pc := .leave (.sleep l) }) hc
      hpc rfl rfl rfl rfl rfl rfl rfl rfl rfl hstate
  | sleepSet w =>
    cases hrun
    refine h.own (t := { s.thread p with
        chan := some w.chan, state := .sleeping, pc := .sched (.sleep w) }) hc
      rfl rfl rfl rfl (by rw [hpc]; rfl) rfl ⟨rfl, ?_, ?_⟩
    · intro w' hw
      cases hw
      rfl
    · have hflag := hon.flag
      unfold FlagKept at hflag
      rw [hpc] at hflag
      exact hflag
  | sched k =>
    cases hrun
    exact h.sched hc hpc hspin
  | switched k =>
    cases hrun
    have hflag := hon.flag
    unfold FlagKept at hflag
    rw [hpc] at hflag
    cases k with
    | sleep w =>
      exact h.back (t := { s.thread p with chan := none, pc := .unlock (some w.lk) }) hc hpc rfl rfl
        rfl hflag
        rfl rfl rfl rfl
    | yield =>
      exact h.back (t := { s.thread p with pc := .unlock none }) hc hpc rfl rfl rfl hflag rfl
        rfl rfl rfl
    | forkret =>
      refine h.back (b := (s.cpu c).intena)
        (t := { s.thread p with intr := (s.cpu c).intena, pc := .unlock none }) hc hpc rfl rfl rfl
        rfl ?_ rfl rfl rfl
      exact (update_eq_self c s.cpu).symm
    | exit =>
      have hstate := hon.state
      rw [hpc] at hstate
      cases hstate
  | relSet l =>
    cases hrun
    have hstate := hon.state
    rw [hpc] at hstate
    exact h.ownQuiet
      (t := { s.thread p with has := (s.thread p).has.erase l, pc := .wake (.sleep l) 0 }) hc
      hpc rfl rfl rfl rfl rfl rfl rfl rfl rfl hstate
  | wakeTest w i =>
    cases hrun
    have hheld := held_away hc
    rw [hpc] at hheld
    have hself : (s.cpu c).pc = .away i → (s.thread i).state = .running := by
      intro hi
      rw [hc] at hi
      cases hi
      have hstate := hon.state
      rw [hpc] at hstate
      exact (some.inj hstate).symm
    obtain ⟨h', hsame⟩ := h.wakeOne w.chan (by rw [hheld]; exact mem_cons_self) hself
    have hpc' := congrArg Thread.pc (hsame c p hc)
    rw [hpc] at hpc'
    have hc' : ((s.wakeOne w.chan i).cpu c).pc = .away p := by
      rw [cpu_wakeOne]
      exact hc
    exact h'.goto hc' hpc' rfl ⟨rfl, rfl, rfl⟩
  | heldTest l check =>
    cases hrun
    exact h.goto hc hpc rfl ⟨rfl, rfl, rfl⟩
  | heldCheck l r =>
    cases r with
    | false => exact absurd hpc (hcheck l)
    | true =>
      cases hrun
      exact h.goto hc hpc rfl ⟨rfl, rfl, rfl⟩
  | yieldSet =>
    cases hrun
    exact h.ownQuiet (t := { s.thread p with state := .runnable, pc := .sched .yield }) hc
      hpc rfl rfl rfl rfl rfl rfl rfl rfl rfl rfl
  | exitSet n =>
    cases hrun
    exact h.ownQuiet (t := { s.thread p with state := .zombie, pc := .exitUnlock n }) hc
      hpc rfl rfl rfl rfl rfl rfl rfl rfl rfl rfl
  | procDo op i =>
    cases hrun
    apply h.procDo hc hpc
    intro hop
    rw [hop] at hpc
    exact hready i hpc
  | _ => cases hrun

theorem Core.call (h : Core s) (hc : (s.cpu c).pc = .away p) (hspin : (s.cpu c).spin = .out)
    {k : SchedCall L} (hrun : s.call c p (s.thread p).pc k = some s') : Core s' := by
  generalize hpc : (s.thread p).pc = pc at hrun
  unfold SchedSys.call at hrun
  split at hrun
  case h_12 =>
    split at hrun
    · cases hrun
      exact h.goto hc hpc rfl ⟨rfl, rfl, rfl⟩
    · cases hrun
  case h_8 on =>
    cases hrun
    exact h.setIntr hc hspin (by rw [hpc]; rfl) (t := { s.thread p with intr := on })
      (by dsimp only; rw [hpc]; rfl) rfl rfl (h.trap p)
  case h_14 =>
    split at hrun
    · cases hrun
      have hold := h.locks_of_intr hc ‹_›
      apply h.setIntr (t := { s.thread p with pc := .user, trap := some pc, intr := false }) hc
        hspin hold rfl rfl rfl
      intro ret hret
      cases hret
      rw [← hpc]
      exact hold
    · cases hrun
  case h_15 => cases hrun
  all_goals
    cases hrun
    exact h.goto hc hpc rfl ⟨rfl, rfl, rfl⟩

theorem Core.actCpu (h : Core s) (hc : ∀ p, (s.cpu c).pc ≠ .away p) (hspin : (s.cpu c).spin = .out)
    (hrun : s.actCpu c (s.cpu c).pc = some s') : Core s' := by
  have hproc := (h.cpu c).proc
  generalize hpc : (s.cpu c).pc = pc at hrun hproc hc
  cases pc with
  | top =>
    cases hrun
    exact h.jumpIntr hpc rfl rfl rfl rfl hspin
  | pick i =>
    dsimp only [SchedSys.actCpu] at hrun
    split at hrun
    · cases hrun
      exact h.pick hpc ‹_›
    · cases hrun
      exact h.jump hpc hc rfl rfl hproc rfl rfl (h.cpu c).intr
  | back i =>
    cases hrun
    exact h.jump hpc hc rfl rfl rfl rfl rfl (h.cpu c).intr
  | irqTest i chan n j =>
    cases hrun
    have hnot : ∀ p, (s.cpu c).pc ≠ .away p := hpc ▸ hc
    obtain ⟨h', -⟩ := h.wakeOne (c := c) (i := j) (.other chan)
      (by rw [held_scheduler hnot, hpc]; exact mem_cons_self) (fun hj => absurd hj (hnot j))
    have hcpu := congrFun (cpu_wakeOne s (.other chan) j) c
    refine h'.jump ((congrArg CpuState.pc hcpu).trans hpc) hc rfl rfl ?_ rfl rfl (h'.cpu c).intr
    rw [hcpu]
    exact hproc
  | _ => cases hrun

theorem Core.runThread (h : Core s) (hc : (s.cpu c).pc = .away p)
    (hready : ∀ i, (s.thread p).pc = .procDo .ready i → (s.thread i).state = .used)
    (hcheck : (s.cpu c).spin = .out → ∀ l, (s.thread p).pc ≠ .heldCheck l false)
    (hrun : s.perform c (fun pc s => s.goto p pc) (s.act c p (s.thread p).pc) ((s.thread p).pc.stmt p) =
      some s') : Core s' := by
  have hspec := ThreadPc.stmt_spec p (s.thread p).pc
  obtain ⟨x, -, h'⟩ | ⟨lk, pc, hstmt, hspin, hfree, rfl⟩ | ⟨lk, pc, hstmt, hspin, rfl⟩ |
    ⟨pc, hstmt, rfl⟩ |
    ⟨-, hspin, hact⟩ := h.perform_cases (not_held_of_acquire hc) (held_of_release hc) hrun
  · exact h'
  · exact h.threadAcquire hc hstmt hspin hfree
  · exact h.threadRelease hc hstmt hspin
  · rw [hstmt] at hspec
    exact h.goto hc rfl hspec.1 hspec.2
  · exact h.act hc hspin hready (hcheck hspin) hact

theorem Core.runScheduler (h : Core s) (hc : ∀ p, (s.cpu c).pc ≠ .away p)
    (hrun : s.perform c (fun pc s => s.jump c pc) (s.actCpu c (s.cpu c).pc) (s.cpu c).pc.stmt =
      some s') :
    Core s' := by
  have hspec := SchedPc.stmt_spec (L := L) (s.cpu c).pc
  obtain ⟨x, -, h'⟩ | ⟨lk, pc, hstmt, hspin, hfree, rfl⟩ | ⟨lk, pc, hstmt, hspin, rfl⟩ |
    ⟨pc, hstmt, rfl⟩ |
    ⟨-, hspin, hact⟩ := h.perform_cases (not_held_of_acquire' hc) (held_of_release' hc) hrun
  · exact h'
  · exact h.cpuAcquire hstmt hspin hfree
  · exact h.cpuRelease hstmt hspin
  · rw [hstmt] at hspec
    obtain ⟨hlocks, hproc, hproc'⟩ := hspec
    exact h.jump rfl hc hproc' hlocks ((h.cpu c).proc.trans hproc) rfl rfl (h.cpu c).intr
  · exact h.actCpu hc hspin hact

/-- Every step keeps `Core`, if `fork` makes only new processes runnable and no check of `brelse` and
`iunlock` fails. -/
theorem Core.step (h : Core s) {e : SchedStep L}
    (hready : ∀ c p i, (s.cpu c).pc = .away p → (s.thread p).pc = .procDo .ready i →
      (s.thread i).state = .used)
    (hcheck : ∀ c p l, e = .run c → (s.cpu c).spin = .out → (s.cpu c).pc = .away p →
      (s.thread p).pc ≠ .heldCheck l false)
    (hrun : s.step e = some s') : Core s' := by
  unfold SchedSys.step at hrun
  rw [if_neg (by rw [h.calm]; exact Bool.false_ne_true)] at hrun
  cases e with
  | run c =>
    dsimp only at hrun
    unfold SchedSys.runCpu at hrun
    split at hrun
    · rename_i p hc
      exact h.runThread hc (hready c p · hc) (fun hspin l => hcheck c p l rfl hspin hc) hrun
    · exact h.runScheduler ‹_› hrun
  | call c k =>
    obtain ⟨hspin, hrun⟩ := ite_none_right_eq_some.1 hrun
    split at hrun
    · rename_i p hc
      split at hrun
      · exact h.call hc hspin hrun
      · rename_i ret htrap
        exact h.trapCall hc hspin htrap hrun
    · cases hrun
  | irq c k =>
    obtain ⟨hspin, hrun⟩ := ite_none_right_eq_some.1 hrun
    exact h.irq hspin hrun

end SchedSys

end AudioPlayer
