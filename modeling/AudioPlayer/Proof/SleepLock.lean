import AudioPlayer.Proof.Sched

/-!
# Sleep locks

A thread has a sleep lock from the time `acquiresleep` sets it until `releasesleep` clears it.
`Sleeps` says who has which lock, what a thread knows at each statement of the functions of
`kernel/sleeplock.c`, and that no wakeup is lost: a thread that sleeps on a lock, or is about to,
sees the lock taken, or a thread in `releasesleep` has yet to come to it in the loop of `wakeup`.
-/

namespace AudioPlayer

open List Option Runs
open Function (update update_comm update_eq_self update_of_ne update_self)

section

variable {L : Type} {pc pc' : ThreadPc L}

/-- The statements of an interrupt handler. -/
def ThreadPc.handler : ThreadPc L → Bool
  | .user | .enter (.other _) | .inside (.other _) | .leave (.other _) | .yieldLock | .yieldSet => true
  | .sched .yield | .switched .yield | .unlock none => true
  | .wake (.other ..) _ | .wakeTest (.other ..) _ | .wakeDone (.other ..) _ => true
  | _ => false

/-- The process that `fork` is about to make runnable. -/
def ThreadPc.claims : ThreadPc L → Option Slot
  | .procLock .allocated i | .procDo .allocated i | .procDone .allocated i => some i
  | .procLock .ready i | .procDo .ready i => some i
  | _ => none

/-- The lock that a thread has looked at, before it gives up the spin lock, and whether it was
taken. -/
def ThreadPc.tested : ThreadPc L → Option (L × Bool)
  | .sleepLock (.sleep l) | .sleepUnlock (.sleep l) => some (l, true)
  | .lockSet l => some (l, false)
  | _ => none

/-- The lock that a thread sleeps on. -/
def ThreadPc.sleeping : ThreadPc L → Option L
  | .sleepSet (.sleep l) | .sched (.sleep (.sleep l)) | .switched (.sleep (.sleep l)) => some l
  | _ => none

/-- The lock whose sleepers a thread wakes up, and the process that comes next. -/
def ThreadPc.waking : ThreadPc L → Option (L × ℕ)
  | .wake (.sleep l) i => some (l, i)
  | .wakeTest (.sleep l) i => some (l, i)
  | .wakeDone (.sleep l) i => some (l, i + 1)
  | _ => none

/-- What a thread with the sleep locks `has` knows at a statement. -/
def ThreadPc.Knows (has : Finset L) : ThreadPc L → Prop
  | .relLock l | .relSet l => l ∈ has
  | .heldDone l r _ | .heldCheck l r => r = true ↔ l ∈ has
  | _ => True

/-- The statement of the thread itself, not of a handler that interrupted it. -/
def Thread.base (t : Thread L) : ThreadPc L := t.trap.getD t.pc

/-- The thread sleeps on `l`, or will without looking at the lock again. -/
def Thread.Bound (l : L) (t : Thread L) : Prop :=
  t.pc.sleeping = some l ∧ ∀ k, t.pc = .switched k → t.state = .sleeping

/-- What the statements on spin locks keep. -/
structure ThreadPc.Steps (p : Slot) (pc pc' : ThreadPc L) : Prop where
  handler : pc.handler = true → pc'.handler = true
  knows : ∀ has, Knows has pc → Knows has pc'
  claims : pc'.claims = none ∨ pc'.claims = pc.claims
  tested : pc'.tested = none ∨ pc'.tested = pc.tested
  sleeping : ∀ l, pc'.sleeping = some l → pc.tested = some (l, true)
  waking : ∀ l i (q : Slot), pc.waking = some (l, i) → q ≠ p → i ≤ q.1 →
    ∃ j, pc'.waking = some (l, j) ∧ j ≤ q.1

/-- A statement without a word on the loop of `wakeup`. -/
theorem ThreadPc.Steps.of_awake {p : Slot}
    (handler : pc.handler = true → pc'.handler = true) (knows : ∀ has, Knows has pc → Knows has pc')
    (claims : pc'.claims = none ∨ pc'.claims = pc.claims)
    (tested : pc'.tested = none ∨ pc'.tested = pc.tested)
    (sleeping : ∀ l, pc'.sleeping = some l → pc.tested = some (l, true)) (waking : pc.waking = none) :
    Steps p pc pc' := by
  refine ⟨handler, knows, claims, tested, sleeping, ?_⟩
  intro l i q hl
  rw [waking] at hl
  cases hl

theorem ThreadPc.sleeping_of_none (h : pc'.sleeping = none) (l : L)
    (hl : pc'.sleeping = some l) : pc.tested = some (l, true) := by
  rw [h] at hl
  cases hl

/-- A statement that leads out of all of this. -/
theorem ThreadPc.Steps.of_plain {p : Slot}
    (handler : pc.handler = true → pc'.handler = true) (knows : ∀ has, Knows has pc → Knows has pc')
    (claims : pc'.claims = none) (tested : pc'.tested = none) (sleeping : pc'.sleeping = none)
    (waking : pc.waking = none) : Steps p pc pc' :=
  .of_awake handler knows (Or.inl claims) (Or.inl tested) (sleeping_of_none sleeping) waking

theorem ThreadPc.stmt_steps (p : Slot) (pc : ThreadPc L) :
    match pc.stmt p with
    | .acquire _ pc' | .release _ pc' | .goto pc' => Steps p pc pc'
    | .act => True := by
  cases pc with
  | enter o => cases o <;> exact .of_plain id (fun _ _ => trivial) rfl rfl rfl rfl
  | leave | yieldLock => exact .of_plain (fun _ => rfl) (fun _ _ => trivial) rfl rfl rfl rfl
  | sleepLock w =>
    cases w with
    | sleep l =>
      exact .of_awake id (fun _ _ => trivial) (Or.inl rfl) (Or.inr rfl) (sleeping_of_none rfl) rfl
    | other chan n => exact .of_plain id (fun _ _ => trivial) rfl rfl rfl rfl
  | sleepUnlock w =>
    -- from here on, the thread does not look at the lock before it sleeps
    cases w with
    | sleep l =>
      refine .of_awake id (fun _ _ => trivial) (Or.inl rfl) (Or.inl rfl) ?_ rfl
      intro l' hl'
      cases hl'
      rfl
    | other chan n => exact .of_plain id (fun _ _ => trivial) rfl rfl rfl rfl
  | unlock o =>
    cases o with
    | none => exact .of_plain (fun _ => rfl) (fun _ _ => trivial) rfl rfl rfl rfl
    | some o => exact .of_plain Bool.noConfusion (fun _ _ => trivial) rfl rfl rfl rfl
  | relLock => exact .of_plain id (fun _ => id) rfl rfl rfl rfl
  | heldLock => exact .of_plain id (fun _ _ => trivial) rfl rfl rfl rfl
  | wake w i =>
    rw [stmt]
    cases w with
    | other chan n => split_ifs <;> exact .of_plain id (fun _ _ => trivial) rfl rfl rfl rfl
    | sleep l =>
      split_ifs with hi hp
      · -- the loop leaves out the thread itself
        refine ⟨id, fun _ _ => trivial, Or.inl rfl, Or.inl rfl, sleeping_of_none rfl, ?_⟩
        rintro _ _ q ⟨⟩ hne hle
        have hiq : i ≠ q.1 := fun hiq => hne (Fin.ext (hiq.symm.trans hp))
        exact ⟨i + 1, rfl, by omega⟩
      · refine ⟨id, fun _ _ => trivial, Or.inl rfl, Or.inl rfl, sleeping_of_none rfl, ?_⟩
        rintro _ _ q ⟨⟩ - hle
        exact ⟨i, rfl, hle⟩
      · -- the loop is at its end
        refine ⟨id, fun _ _ => trivial, Or.inl rfl, Or.inl rfl, sleeping_of_none rfl, ?_⟩
        rintro _ _ q ⟨⟩ - hle
        exact absurd (lt_of_le_of_lt hle q.2) hi
  | wakeDone w i =>
    cases w with
    | other chan n => exact .of_plain id (fun _ _ => trivial) rfl rfl rfl rfl
    | sleep l =>
      refine ⟨id, fun _ _ => trivial, Or.inl rfl, Or.inl rfl, sleeping_of_none rfl, ?_⟩
      rintro _ _ q ⟨⟩ - hle
      exact ⟨i.1 + 1, rfl, hle⟩
  | heldDone l r check =>
    cases check with
    | false => exact .of_plain (fun _ => rfl) (fun _ _ => trivial) rfl rfl rfl rfl
    | true => exact .of_plain id (fun _ => id) rfl rfl rfl rfl
  | exitLock | exitUnlock => exact .of_plain id (fun _ _ => trivial) rfl rfl rfl rfl
  | procLock op i =>
    cases op <;> exact .of_awake id (fun _ _ => trivial) (Or.inr rfl) (Or.inl rfl)
      (sleeping_of_none rfl) rfl
  | procDone op i =>
    cases op with
    | allocated =>
      exact .of_awake id (fun _ _ => trivial) (Or.inr rfl) (Or.inl rfl) (sleeping_of_none rfl) rfl
    | _ => exact .of_plain (fun _ => rfl) (fun _ _ => trivial) rfl rfl rfl rfl
  | _ => trivial

end

namespace SchedSys

variable {L : Type} {s s' : SchedSys L} {c : CpuId} {p : Slot} {pc pc' : ThreadPc L} {t : Thread L}
  {i : Slot} {l : L}

/-- A handler runs handler statements, and the interrupted thread knows what it knew. -/
structure Local (t : Thread L) : Prop where
  handler : ∀ ret, t.trap = some ret → t.pc.handler = true
  knows : t.base.Knows t.has

structure Sleeps (s : SchedSys L) : Prop where
  pid : ∀ l p, l ∈ (s.thread p).has ↔ (s.lock l).pid = some p
  locked : ∀ l, (s.lock l).locked = (s.lock l).pid.isSome
  thread : ∀ p, Local (s.thread p)
  used : ∀ p i, (s.thread p).base.claims = some i → (s.thread i).state = .used
  one : ∀ p q i, (s.thread p).base.claims = some i → (s.thread q).base.claims = some i → p = q
  tested : ∀ l b p, (s.thread p).pc.tested = some (l, b) → (s.lock l).locked = b
  bound : ∀ l p, (s.thread p).Bound l →
    (s.lock l).locked = true ∨ ∃ q i, (s.thread q).pc.waking = some (l, i) ∧ i ≤ p.1

theorem Local.trap_eq_none (h : Local t) (hpc : t.pc.handler = false) : t.trap = none := by
  cases htrap : t.trap with
  | none => rfl
  | some ret =>
    rw [h.handler ret htrap] at hpc
    cases hpc

theorem base_of_none (h : t.trap = none) : t.base = t.pc := by
  unfold Thread.base
  rw [h]
  rfl

theorem base_of_some {ret : ThreadPc L} (h : t.trap = some ret) : t.base = ret := by
  unfold Thread.base
  rw [h]
  rfl

theorem bound_cases (h : t.Bound l) :
    t.pc = .sleepSet (.sleep l) ∨ t.pc = .sched (.sleep (.sleep l)) ∨
      t.pc = .switched (.sleep (.sleep l)) ∧ t.state = .sleeping := by
  have hs := h.1
  cases hpc : t.pc with
  | sleepSet w =>
    rw [hpc] at hs
    cases w <;> cases hs
    exact Or.inl rfl
  | sched k =>
    rw [hpc] at hs
    cases k with
    | sleep w =>
      cases w <;> cases hs
      exact Or.inr (Or.inl rfl)
    | _ => cases hs
  | switched k =>
    rw [hpc] at hs
    cases k with
    | sleep w =>
      cases w <;> cases hs
      exact Or.inr (Or.inr ⟨rfl, h.2 _ hpc⟩)
    | _ => cases hs
  | _ =>
    rw [hpc] at hs
    cases hs

/-- A thread in the loop of `wakeup` does not sleep. -/
theorem waking_of_bound {l l' : L} {i : ℕ} (h : t.Bound l) : t.pc.waking ≠ some (l', i) := by
  obtain hpc | hpc | ⟨hpc, -⟩ := bound_cases h <;> rw [hpc] <;> nofun

/-- One thread changes, and the locks do not. -/
theorem Sleeps.change (h : Sleeps s) (hthread : s'.thread = update s.thread p t)
    (hlock : s'.lock = s.lock) (hhas : t.has = (s.thread p).has) (hlocal : Local t)
    (hclaims : ∀ i, t.base.claims = some i → (s.thread p).base.claims = some i ∨
      i ≠ p ∧ (s.thread i).state = .used ∧ ∀ q, (s.thread q).base.claims ≠ some i)
    (hstate : ∀ q, (s.thread q).base.claims = some p → t.state = .used)
    (htested : ∀ l b, t.pc.tested = some (l, b) → (s.lock l).locked = b)
    (hbound : ∀ l, t.Bound l → (s.lock l).locked = true ∨ (s.thread p).Bound l)
    (hwaking : ∀ l i q, (s.thread p).pc.waking = some (l, i) → q ≠ p → (s.thread q).Bound l → i ≤ q.1 →
      ∃ j, t.pc.waking = some (l, j) ∧ j ≤ q.1) : Sleeps s' := by
  obtain ⟨ht, hne⟩ := eq_update hthread
  -- what a thread claims it has claimed before, or it is new
  have hclaimed : ∀ q i, (s'.thread q).base.claims = some i → (s.thread q).base.claims = some i ∨
      q = p ∧ i ≠ p ∧ (s.thread i).state = .used ∧ ∀ q, (s.thread q).base.claims ≠ some i := by
    intro q i hq
    by_cases hqp : q = p
    · rw [hqp, ht] at hq
      rw [hqp]
      exact (hclaims i hq).imp_right fun hnew => ⟨rfl, hnew⟩
    · rw [hne q hqp] at hq
      exact Or.inl hq
  constructor
  · intro l q
    rw [hlock, ← h.pid]
    by_cases hqp : q = p
    · rw [hqp, ht, hhas]
    · rw [hne q hqp]
  · rw [hlock]
    exact h.locked
  · intro q
    by_cases hqp : q = p
    · rw [hqp, ht]
      exact hlocal
    · rw [hne q hqp]
      exact h.thread q
  · intro q i hq
    obtain hold | ⟨-, hip, hused, -⟩ := hclaimed q i hq
    · by_cases hip : i = p
      · rw [hip] at hold ⊢
        rw [ht]
        exact hstate q hold
      · rw [hne i hip]
        exact h.used q i hold
    · rw [hne i hip]
      exact hused
  · intro q1 q2 i h1 h2
    obtain h1 | ⟨hq1, -, -, hnone⟩ := hclaimed q1 i h1
    · obtain h2 | ⟨-, -, -, hnone⟩ := hclaimed q2 i h2
      · exact h.one q1 q2 i h1 h2
      · exact absurd h1 (hnone q1)
    · obtain h2 | ⟨hq2, -⟩ := hclaimed q2 i h2
      · exact absurd h2 (hnone q2)
      · rw [hq1, hq2]
  · intro l b q hq
    rw [hlock]
    by_cases hqp : q = p
    · rw [hqp, ht] at hq
      exact htested l b hq
    · rw [hne q hqp] at hq
      exact h.tested l b q hq
  · intro l q hq
    rw [hlock]
    have hbefore : (s.lock l).locked = true ∨ (s.thread q).Bound l := by
      by_cases hqp : q = p
      · rw [hqp] at hq ⊢
        rw [ht] at hq
        exact hbound l hq
      · rw [hne q hqp] at hq
        exact Or.inr hq
    obtain hlocked | hq' := hbefore
    · exact Or.inl hlocked
    obtain hlocked | ⟨r, i, hr, hi⟩ := h.bound l q hq'
    · exact Or.inl hlocked
    · right
      by_cases hrp : r = p
      · -- the loop that is to come to `q` is the one of the thread that moves
        rw [hrp] at hr
        have hqp : q ≠ p := by
          intro heq
          rw [heq] at hq'
          exact waking_of_bound hq' hr
        obtain ⟨j, hj, hle⟩ := hwaking l i q hr hqp hq' hi
        exact ⟨p, j, by rw [ht]; exact hj, hle⟩
      · exact ⟨r, i, by rw [hne r hrp]; exact hr, hi⟩

/-- A thread moves, in a handler or outside of handlers. -/
theorem Sleeps.own (h : Sleeps s) (hpc : (s.thread p).pc = pc)
    (hthread : s'.thread = update s.thread p t) (hlock : s'.lock = s.lock)
    (hhas : t.has = (s.thread p).has) (htrap : t.trap = (s.thread p).trap)
    (hhandler : ∀ ret, (s.thread p).trap = some ret → pc.handler = true → t.pc.handler = true)
    (hknows : pc.Knows t.has → t.pc.Knows t.has)
    (hclaims : t.pc.claims = none ∨ t.pc.claims = pc.claims)
    (hstate : (s.thread p).state = .used → t.state = .used)
    (htested : ∀ l b, t.pc.tested = some (l, b) → (s.lock l).locked = b)
    (hbound : ∀ l, t.Bound l → (s.lock l).locked = true ∨ (s.thread p).Bound l)
    (hwaking : ∀ l i q, pc.waking = some (l, i) → q ≠ p → (s.thread q).Bound l → i ≤ q.1 →
      ∃ j, t.pc.waking = some (l, j) ∧ j ≤ q.1) : Sleeps s' := by
  subst hpc
  refine h.change hthread hlock hhas ⟨?_, ?_⟩ ?_
    (fun q hq => hstate (h.used q p hq)) htested hbound hwaking
  · rw [htrap]
    intro ret hret
    exact hhandler ret hret ((h.thread p).handler ret hret)
  · have hold := (h.thread p).knows
    rw [← hhas] at hold
    unfold Thread.base at hold ⊢
    rw [htrap]
    cases htrap' : (s.thread p).trap with
    | none =>
      rw [htrap'] at hold
      exact hknows hold
    | some ret =>
      rw [htrap'] at hold
      exact hold
  · intro i hi
    left
    unfold Thread.base at hi ⊢
    rw [htrap] at hi
    cases htrap' : (s.thread p).trap with
    | none =>
      rw [htrap'] at hi
      obtain hnone | hsame := hclaims
      · exact absurd (hnone.symm.trans hi) (some_ne_none i).symm
      · exact hsame.symm.trans hi
    | some ret =>
      rw [htrap'] at hi
      exact hi

theorem Sleeps.goto (h : Sleeps s) (hpc : (s.thread p).pc = pc)
    (hthread : s'.thread = (s.goto p pc').thread)
    (hlock : s'.lock = s.lock) (hsteps : pc.Steps p pc') : Sleeps s' := by
  have htaken : ∀ l b, pc.tested = some (l, b) → (s.lock l).locked = b := by
    rw [← hpc]
    exact fun l b => h.tested l b p
  refine h.own (t := { s.thread p with pc := pc' }) hpc hthread hlock rfl rfl
    (fun _ _ => hsteps.handler)
    (hsteps.knows _) hsteps.claims id ?_ (fun l hl => Or.inl (htaken l true (hsteps.sleeping l hl.1)))
    (fun l i q hl hq _ => hsteps.waking l i q hl hq)
  intro l b hl
  obtain hnone | hsame := hsteps.tested
  · exact absurd (hnone.symm.trans hl) (some_ne_none _).symm
  · exact htaken l b (hsame.symm.trans hl)

/-- A thread on a CPU is not one that `fork` makes. -/
theorem Core.not_used (h : Core s) (hc : (s.cpu c).pc = .away p) : (s.thread p).state ≠ .used :=
  (ThreadPc.expects_live ((h.cpu c).on p hc).state).2

/-- A statement after which the thread does not sleep and does not wake up anyone. -/
theorem Sleeps.plain (h : Sleeps s) (hcore : Core s) (hc : (s.cpu c).pc = .away p)
    (hpc : (s.thread p).pc = pc)
    (hthread : s'.thread = update s.thread p t) (hlock : s'.lock = s.lock)
    (hhas : t.has = (s.thread p).has) (htrap : t.trap = (s.thread p).trap)
    (hhandler : ∀ ret, (s.thread p).trap = some ret → pc.handler = true → t.pc.handler = true)
    (hknows : pc.Knows t.has → t.pc.Knows t.has) (hclaims : t.pc.claims = none)
    (htested : t.pc.tested = none)
    (hsleeping : t.pc.sleeping = none) (hwaking : pc.waking = none) : Sleeps s' := by
  refine h.own hpc hthread hlock hhas htrap hhandler hknows (Or.inl hclaims)
    (fun hu => absurd hu (hcore.not_used hc))
    ?_ ?_ ?_
  · intro l b hl
    rw [htested] at hl
    cases hl
  · intro l hl
    have hl' := hl.1
    rw [hsleeping] at hl'
    cases hl'
  · intro l i q hl
    rw [hwaking] at hl
    cases hl

/-- A process that nobody is about to make runnable changes its state, and does not go to sleep. -/
theorem Sleeps.setState (h : Sleeps s)
    (hthread : s'.thread = update s.thread i t) (hlock : s'.lock = s.lock)
    (hpc : t.pc = (s.thread i).pc) (htrap : t.trap = (s.thread i).trap)
    (hhas : t.has = (s.thread i).has)
    (hnone : ∀ q, (s.thread q).base.claims ≠ some i) (hawake : t.state ≠ .sleeping) : Sleeps s' := by
  have hbase : t.base = (s.thread i).base := by
    unfold Thread.base
    rw [hpc, htrap]
  refine h.change hthread hlock hhas ⟨?_, ?_⟩ ?_ (fun q hq => absurd hq (hnone q)) ?_ ?_ ?_
  · rw [htrap, hpc]
    exact (h.thread i).handler
  · rw [hbase, hhas]
    exact (h.thread i).knows
  · intro j hj
    rw [hbase] at hj
    exact Or.inl hj
  · intro l b hl
    rw [hpc] at hl
    exact h.tested l b i hl
  · intro l hl
    refine Or.inr ⟨hpc ▸ hl.1, ?_⟩
    intro k hk
    exact absurd (hl.2 k (hpc.trans hk)) hawake
  · intro l j q hl _ _ hle
    exact ⟨j, by rw [hpc]; exact hl, hle⟩

/-- Nobody is about to make a process runnable that is not `USED`. -/
theorem Sleeps.not_claims (h : Sleeps s) (hi : (s.thread i).state ≠ .used) (q : Slot) :
    (s.thread q).base.claims ≠ some i := by
  intro hq
  exact hi (h.used q i hq)

theorem Sleeps.sched (h : Sleeps s) (hcore : Core s) (hc : (s.cpu c).pc = .away p) {k : Switch L}
    (hpc : (s.thread p).pc = .sched k) (hspin : (s.cpu c).spin = .out) : Sleeps (s.sched c p k) := by
  rw [hcore.sched_eq hc hpc hspin]
  refine h.own (t := { s.thread p with intena := (s.cpu c).intena, pc := .switched k }) hpc rfl rfl
    rfl rfl ?_
    (fun _ => trivial) (Or.inl rfl) id nofun ?_ nofun
  · intro _ _ hhandler
    cases k <;> first | rfl | cases hhandler
  · intro l hl
    refine Or.inr ⟨?_, ?_⟩
    · have hsleep := hl.1
      rw [hpc]
      cases k with
      | sleep w => cases w <;> exact hsleep
      | _ => cases hsleep
    · intro k' hk'
      rw [hpc] at hk'
      cases hk'

theorem Sleeps.switched (h : Sleeps s) (hcore : Core s) (hc : (s.cpu c).pc = .away p) {k : Switch L}
    (hpc : (s.thread p).pc = .switched k) : Sleeps (s.switched c p k) := by
  cases k with
  | exit =>
    have hstate := ((hcore.cpu c).on p hc).state
    rw [hpc] at hstate
    cases hstate
  | sleep w =>
    exact h.plain (t := { s.thread p with chan := none, pc := .unlock (some w.lk) }) hcore hc hpc
      rfl rfl rfl rfl
      nofun (fun _ => trivial) rfl rfl rfl rfl
  | yield =>
    exact h.plain (t := { s.thread p with pc := .unlock none }) hcore hc hpc rfl rfl rfl rfl
      (fun _ _ _ => rfl)
      (fun _ => trivial) rfl rfl rfl rfl
  | forkret =>
    exact h.plain (t := { s.thread p with intr := (s.cpu c).intena, pc := .unlock none }) hcore hc
      hpc rfl rfl rfl
      rfl (fun _ _ _ => rfl) (fun _ => trivial) rfl rfl rfl rfl

/-! ## Making processes -/

theorem setThread_self (s : SchedSys L) (i : Slot) : s.setThread i (s.thread i) = s := by
  unfold setThread
  rw [update_eq_self]

/-- `allocproc` gives a new stack to a process that does not run. -/
theorem Sleeps.alloc (h : Sleeps s) (hcore : Core s) (hi : (s.thread i).state = .unused) :
    Sleeps (s.setThread i
      { s.thread i with state := .used, pc := .switched .forkret, trap := none }) := by
  refine h.change (t := { s.thread i with state := .used, pc := .switched .forkret, trap := none })
    rfl rfl rfl
    ⟨nofun, trivial⟩ nofun (fun _ _ => rfl) nofun ?_ ?_
  · intro l hl
    cases hl.1
  · intro l j q hl
    have hne : ∀ k, (s.thread i).pc ≠ .switched k := by
      intro k hk
      rw [hk] at hl
      cases hl
    obtain ⟨c', hc'⟩ := hcore.exists_cpu hne
    exact absurd hi (ThreadPc.expects_live ((hcore.cpu c').on i hc').state).1

theorem Sleeps.procOp (h : Sleeps s) (hcore : Core s) (op : ProcOp) (i : Slot) (hop : op ≠ .ready) :
    Sleeps (s.setThread i (SchedSys.procOp (s.thread i) op).1) := by
  cases op with
  | ready => exact absurd rfl hop
  | allocated =>
    rw [SchedSys.procOp, setThread_self]
    exact h
  | kill =>
    rw [SchedSys.procOp]
    by_cases hs : (s.thread i).state = .sleeping
    · rw [if_pos hs]
      exact h.setState (t := { s.thread i with state := .runnable }) rfl rfl rfl rfl rfl
        (h.not_claims (by rw [hs]; exact ProcState.noConfusion)) ProcState.noConfusion
    · rw [if_neg hs, setThread_self]
      exact h
  | reap n =>
    rw [SchedSys.procOp]
    by_cases hs : (s.thread i).state = .zombie
    · rw [if_pos hs]
      exact h.setState (t := { s.thread i with state := .unused, chan := none }) rfl rfl rfl rfl rfl
        (h.not_claims (by rw [hs]; exact ProcState.noConfusion)) ProcState.noConfusion
    · rw [if_neg hs, setThread_self]
      exact h
  | alloc mem =>
    rw [SchedSys.procOp]
    by_cases hs : (s.thread i).state = .unused
    · rw [if_pos hs]
      cases mem with
      | true => exact h.alloc hcore hs
      | false =>
        exact h.setState (t := { s.thread i with chan := none }) rfl rfl rfl rfl rfl
          (h.not_claims (by rw [hs]; exact ProcState.noConfusion))
          (by rw [hs]; exact ProcState.noConfusion)
    · rw [if_neg hs, setThread_self]
      exact h

theorem base_goto (h : t.trap = none) (pc : ThreadPc L) : Thread.base { t with pc := pc } = pc :=
  base_of_none (t := { t with pc := pc }) h

/-- `fork` claims a process that it has allocated. -/
theorem Sleeps.claim (h : Sleeps s) (hhandler : (s.thread p).pc.handler = false)
    (hwaking : (s.thread p).pc.waking = none) (hp : (s.thread p).state ≠ .used) (hip : i ≠ p)
    (hi : (s.thread i).state = .used) (hnone : ∀ q, (s.thread q).base.claims ≠ some i) :
    Sleeps (s.goto p (.procDone .allocated i)) := by
  have htrap := (h.thread p).trap_eq_none hhandler
  have hbase := base_goto htrap (.procDone .allocated i)
  refine h.change (t := { s.thread p with pc := .procDone .allocated i }) rfl rfl rfl
    ⟨?_, ?_⟩ ?_ ?_ nofun ?_ ?_
  · intro ret hret
    rw [htrap] at hret
    cases hret
  · rw [hbase]
    trivial
  · intro j hj
    rw [hbase] at hj
    cases hj
    exact Or.inr ⟨hip, hi, hnone⟩
  · intro q hq
    exact absurd (h.used q p hq) hp
  · intro l hl
    cases hl.1
  · intro l j q hl
    rw [hwaking] at hl
    cases hl

/-- `fork` gives up its claim and makes the process runnable. -/
theorem Sleeps.ready (h : Sleeps s) (hpc : (s.thread p).pc = .procDo .ready i) (hip : i ≠ p) :
    Sleeps ((s.setThread i { s.thread i with state := .runnable }).goto p (.procDone .ready i)) := by
  have htrap := (h.thread p).trap_eq_none (by rw [hpc]; rfl)
  have hclaim : (s.thread p).base.claims = some i := by
    rw [base_of_none htrap, hpc]
    rfl
  have h' : Sleeps (s.goto p (.procDone .ready i)) :=
    h.goto hpc rfl rfl (.of_plain nofun (fun _ _ => trivial) rfl rfl rfl rfl)
  obtain ⟨hself, hne⟩ := eq_update (rfl : (s.goto p (.procDone .ready i)).thread = update s.thread p _)
  refine h'.setState (i := i) (t := { s.thread i with state := .runnable }) ?_ rfl ?_ ?_ ?_ ?_
    ProcState.noConfusion
  · unfold SchedSys.goto setThread
    dsimp only
    rw [update_of_ne hip.symm]
    exact update_comm hip _ _ s.thread
  · rw [hne i hip]
  · rw [hne i hip]
  · rw [hne i hip]
  · intro q hq
    by_cases hqp : q = p
    · rw [hqp, hself, base_goto htrap] at hq
      cases hq
    · rw [hne q hqp] at hq
      exact hqp (h.one q p i hq hclaim)

theorem Sleeps.procDo (h : Sleeps s) (hcore : Core s) (hc : (s.cpu c).pc = .away p) {op : ProcOp}
    (hpc : (s.thread p).pc = .procDo op i) (hready : op = .ready → (s.thread i).state = .used) :
    Sleeps ((s.setThread i (SchedSys.procOp (s.thread i) op).1).goto p
      (.procDone (SchedSys.procOp (s.thread i) op).2 i)) := by
  have hrunning := hcore.running hc hpc rfl
  obtain ⟨-, hsame⟩ := hcore.procOp hc hpc hready
  have hp := hsame c p hc
  have hpc' := (congrArg Thread.pc hp).trans hpc
  cases op with
  | ready =>
    apply h.ready hpc
    intro heq
    have hused := hready rfl
    rw [heq, hrunning] at hused
    cases hused
  | kill =>
    exact (h.procOp hcore .kill i ProcOp.noConfusion).goto hpc' rfl rfl
      (.of_plain id (fun _ _ => trivial) rfl rfl rfl rfl)
  | reap n =>
    exact (h.procOp hcore (.reap n) i ProcOp.noConfusion).goto hpc' rfl rfl
      (.of_plain id (fun _ _ => trivial) rfl rfl rfl rfl)
  | allocated =>
    exact (h.procOp hcore .allocated i ProcOp.noConfusion).goto hpc' rfl rfl
      (.of_awake id (fun _ _ => trivial) (Or.inr rfl) (Or.inl rfl) (ThreadPc.sleeping_of_none rfl) rfl)
  | alloc mem =>
    have h' := h.procOp hcore (.alloc mem) i ProcOp.noConfusion
    by_cases hnew : (s.thread i).state = .unused ∧ mem = true
    · obtain ⟨hunused, rfl⟩ := hnew
      have hproc : SchedSys.procOp (s.thread i) (.alloc true) =
          ({ s.thread i with state := .used, pc := .switched .forkret, trap := none }, .allocated) := by
        rw [SchedSys.procOp, if_pos hunused]
        rfl
      rw [hproc] at h' hp ⊢
      dsimp only at h' hp ⊢
      set t : Thread L := { s.thread i with state := .used, pc := .switched .forkret, trap := none }
      obtain ⟨hi, hne⟩ := eq_update (rfl : (s.setThread i t).thread = update s.thread i t)
      apply h'.claim
      · rw [hp, hpc]
        rfl
      · rw [hp, hpc]
        rfl
      · rw [hp, hrunning]
        exact ProcState.noConfusion
      · intro heq
        rw [heq, hrunning] at hunused
        cases hunused
      · rw [hi]
      · intro q hq
        by_cases hqi : q = i
        · rw [hqi, hi] at hq
          cases hq
        · rw [hne q hqi] at hq
          rw [h.used q i hq] at hunused
          cases hunused
    · have hproc : (SchedSys.procOp (s.thread i) (.alloc mem)).2 = .alloc mem := by
        rw [SchedSys.procOp]
        by_cases hunused : (s.thread i).state = .unused
        · rw [if_pos hunused, if_neg fun hmem => hnew ⟨hunused, hmem⟩]
        · rw [if_neg hunused]
      rw [hproc]
      exact h'.goto hpc' rfl rfl (.of_plain id (fun _ _ => trivial) rfl rfl rfl rfl)

/-- `holdingsleep` is right. -/
theorem Sleeps.holdingsleep (h : Sleeps s) (l : L) (p : Slot) :
    ((s.lock l).locked && decide ((s.lock l).pid = some p)) = true ↔ l ∈ (s.thread p).has := by
  rw [Bool.and_eq_true, decide_eq_true_iff, h.locked, h.pid]
  refine ⟨And.right, fun hpid => ⟨?_, hpid⟩⟩
  rw [hpid]
  rfl

/-! ## What a step leaves alone -/

theorem Sleeps.congr (h : Sleeps s) (hthread : s'.thread = s.thread) (hlock : s'.lock = s.lock) :
    Sleeps s' := by
  constructor
  · rw [hthread, hlock]
    exact h.pid
  · rw [hlock]
    exact h.locked
  · rw [hthread]
    exact h.thread
  · rw [hthread]
    exact h.used
  · rw [hthread]
    exact h.one
  · rw [hthread, hlock]
    exact h.tested
  · rw [hthread, hlock]
    exact h.bound

/-- A thread without spin locks does not sleep and does not wake up anyone. -/
theorem plain_of_locks {pc : ThreadPc L} (h : pc.locks p = []) :
    pc.tested = none ∧ pc.sleeping = none ∧ pc.waking = none := by
  cases pc with
  | lockSet | sleepLock | sleepUnlock | sleepSet | sched | switched | wake | wakeTest | wakeDone =>
      cases h
  | _ => exact ⟨rfl, rfl, rfl⟩

theorem Sleeps.trapCall (h : Sleeps s) (hcore : Core s) {k : SchedCall L} {ret : ThreadPc L}
    (htrap : (s.thread p).trap = some ret) (hrun : s.trapCall c p ret (s.thread p).pc k = some s') :
    Sleeps s' := by
  generalize hpc : (s.thread p).pc = pc at hrun
  unfold SchedSys.trapCall at hrun
  split at hrun
  case h_3 =>
    cases hrun
    have hbase := base_of_some htrap
    obtain ⟨htested, hsleeping, -⟩ := plain_of_locks (hcore.trap p ret htrap)
    refine h.change (t := { s.thread p with pc := ret, trap := none, intr := true }) rfl rfl rfl
      ⟨nofun, ?_⟩ ?_ ?_ ?_
      ?_ ?_
    · have hknows := (h.thread p).knows
      rw [hbase] at hknows
      exact hknows
    · intro i hi
      rw [hbase]
      exact Or.inl hi
    · intro q hq
      exact h.used q p hq
    · intro l b hl
      rw [htested] at hl
      cases hl
    · intro l hl
      have hsleep := hl.1
      rw [hsleeping] at hsleep
      cases hsleep
    · intro l i q hl
      rw [hpc] at hl
      cases hl
  case h_6 => cases hrun
  all_goals
    -- what a handler does next is again a statement of a handler
    cases hrun
    exact h.goto hpc rfl rfl (.of_plain (fun _ => rfl) (fun _ _ => trivial) rfl rfl rfl rfl)

theorem Sleeps.irq (h : Sleeps s) {pc : SchedPc} {k : IrqCall} (hrun : s.irq c pc k = some s') :
    Sleeps s' := by
  unfold SchedSys.irq at hrun
  split at hrun
  case h_1 =>
    split at hrun
    · cases hrun
      exact h.congr rfl rfl
    · cases hrun
  case h_6 => cases hrun
  all_goals
    cases hrun
    exact h.congr rfl rfl

/-- What holds in every state of the system. -/
structure Sound (s : SchedSys L) : Prop where
  core : Core s
  sleeps : Sleeps s

theorem boot_sound (initproc : Slot) : Sound (boot initproc : SchedSys L) := by
  refine ⟨boot_core initproc, ?_⟩
  constructor
  · intro l p
    exact ⟨fun hmem => absurd hmem (Finset.notMem_empty l), nofun⟩
  · intro l
    rfl
  · intro p
    exact ⟨nofun, trivial⟩
  · intro p i hi
    cases hi
  · intro p q i hi
    cases hi
  · intro l b p hl
    cases hl
  · intro l p hl
    cases hl.1

/-- A thread that has looked at a lock has its spin lock. -/
theorem Core.tested_ne (h : Core s) (hc : (s.cpu c).pc = .away p)
    (hlk : .obj (.sleep l) ∈ (s.thread p).pc.locks p) {q : Slot} (hq : q ≠ p) (b : Bool) :
    (s.thread q).pc.tested ≠ some (l, b) := by
  intro htest
  generalize hpc : (s.thread q).pc = pc at htest
  have hmem : .obj (.sleep l) ∈ pc.locks q ∧ ∀ k, pc ≠ .switched k := by
    cases pc with
    | lockSet l' =>
      cases htest
      exact ⟨mem_singleton_self _, nofun⟩
    | sleepLock w =>
      cases w <;> cases htest
      exact ⟨mem_singleton_self _, nofun⟩
    | sleepUnlock w =>
      cases w <;> cases htest
      exact ⟨mem_cons_of_mem _ (mem_singleton_self _), nofun⟩
    | _ => cases htest
  rw [← hpc] at hmem
  exact hq (h.excl hc hlk hmem.1 hmem.2)

/-- A thread at a statement that no handler comes to knows what it should. -/
theorem Sleeps.knows (h : Sleeps s) (hpc : (s.thread p).pc = pc) (hhandler : pc.handler = false) :
    pc.Knows (s.thread p).has ∧ (s.thread p).base = pc := by
  subst hpc
  have hbase := base_of_none ((h.thread p).trap_eq_none hhandler)
  exact ⟨hbase ▸ (h.thread p).knows, hbase⟩

/-- `acquiresleep` looks at the lock. -/
theorem Sleeps.lockTest (h : Sleeps s) {b : Bool} (hpc : (s.thread p).pc = .inside (.sleep l))
    (hb : (s.lock l).locked = b) (htested : pc'.tested = some (l, b)) (hclaims : pc'.claims = none)
    (hknows : pc'.Knows (s.thread p).has) (hsleeping : pc'.sleeping = none) :
    Sleeps (s.goto p pc') := by
  have htrap := (h.thread p).trap_eq_none (by rw [hpc]; rfl)
  refine h.own (t := { s.thread p with pc := pc' }) hpc rfl rfl rfl rfl ?_ (fun _ => hknows)
    (Or.inl hclaims) id ?_
    ?_ nofun
  · intro ret hret
    rw [htrap] at hret
    cases hret
  · intro l' b' hl'
    obtain ⟨rfl, rfl⟩ := Prod.mk.inj (some.inj (htested.symm.trans hl'))
    exact hb
  · intro l' hl'
    have hsleep := hl'.1
    rw [hsleeping] at hsleep
    cases hsleep

/-- The check of `brelse` or `iunlock` fails. -/
def Caught (s : SchedSys L) : Prop :=
  ∃ c p l, (s.cpu c).pc = .away p ∧ (s.thread p).pc = .heldCheck l false ∧ l ∉ (s.thread p).has

section

variable [DecidableEq L]

/-- A thread takes the lock `l` or gives it back. -/
theorem Sleeps.setLock (h : Sleeps s) {x : Sleeplock}
    (hthread : s'.thread = update s.thread p t) (hlock : s'.lock = update s.lock l x)
    (htrap : t.trap = none) (hknows : t.pc.Knows t.has) (hclaims : t.pc.claims = none)
    (hstate : (s.thread p).state ≠ .used)
    (hhas : ∀ l' ≠ l, (l' ∈ t.has ↔ l' ∈ (s.thread p).has)) (hself : l ∈ t.has ↔ x.pid = some p)
    (hothers : ∀ q ≠ p, (l ∈ (s.thread q).has ↔ x.pid = some q)) (hx : x.locked = x.pid.isSome)
    (htested : t.pc.tested = none) (hsleeping : t.pc.sleeping = none)
    (hwaking : (s.thread p).pc.waking = none)
    (hothers' : ∀ q ≠ p, ∀ b, (s.thread q).pc.tested ≠ some (l, b))
    (hwaking' : x.locked = true ∨ t.pc.waking = some (l, 0)) : Sleeps s' := by
  obtain ⟨ht, hne⟩ := eq_update hthread
  obtain ⟨hl, hlne⟩ := eq_update hlock
  have hbase : t.base = t.pc := base_of_none htrap
  have hold : ∀ q i, (s'.thread q).base.claims = some i →
      q ≠ p ∧ (s.thread q).base.claims = some i := by
    intro q i hq
    by_cases hqp : q = p
    · rw [hqp, ht, hbase, hclaims] at hq
      cases hq
    · rw [hne q hqp] at hq
      exact ⟨hqp, hq⟩
  constructor
  · intro l' q
    by_cases hll : l' = l
    · rw [hll, hl]
      by_cases hqp : q = p
      · rw [hqp, ht]
        exact hself
      · rw [hne q hqp]
        exact hothers q hqp
    · rw [hlne l' hll, ← h.pid]
      by_cases hqp : q = p
      · rw [hqp, ht]
        exact hhas l' hll
      · rw [hne q hqp]
  · intro l'
    by_cases hll : l' = l
    · rw [hll, hl]
      exact hx
    · rw [hlne l' hll]
      exact h.locked l'
  · intro q
    by_cases hqp : q = p
    · rw [hqp, ht]
      refine ⟨?_, by rw [hbase]; exact hknows⟩
      intro ret hret
      rw [htrap] at hret
      cases hret
    · rw [hne q hqp]
      exact h.thread q
  · intro q i hq
    have hused := h.used q i (hold q i hq).2
    have hip : i ≠ p := by
      intro heq
      rw [heq] at hused
      exact hstate hused
    rw [hne i hip]
    exact hused
  · intro q1 q2 i h1 h2
    exact h.one q1 q2 i (hold q1 i h1).2 (hold q2 i h2).2
  · intro l' b q hq
    have hqp : q ≠ p := by
      intro heq
      rw [heq, ht, htested] at hq
      cases hq
    rw [hne q hqp] at hq
    by_cases hll : l' = l
    · rw [hll] at hq
      exact absurd hq (hothers' q hqp b)
    · rw [hlne l' hll]
      exact h.tested l' b q hq
  · intro l' q hq
    have hqp : q ≠ p := by
      intro heq
      have hsleep := hq.1
      rw [heq, ht, hsleeping] at hsleep
      cases hsleep
    rw [hne q hqp] at hq
    by_cases hll : l' = l
    · -- the loop of `wakeup` starts at the first process
      rw [hll, hl]
      obtain hlocked | hzero := hwaking'
      · exact Or.inl hlocked
      · exact Or.inr ⟨p, 0, by rw [ht]; exact hzero, Nat.zero_le _⟩
    · rw [hlne l' hll]
      obtain hlocked | ⟨r, i, hr, hi⟩ := h.bound l' q hq
      · exact Or.inl hlocked
      · have hrp : r ≠ p := by
          intro heq
          rw [heq, hwaking] at hr
          cases hr
        exact Or.inr ⟨r, i, by rw [hne r hrp]; exact hr, hi⟩

/-- `acquiresleep` takes the lock. Nobody has taken it since it was looked at: that takes its spin
lock. -/
theorem Sleeps.lockSet (h : Sleeps s) (hcore : Core s) (hc : (s.cpu c).pc = .away p)
    (hpc : (s.thread p).pc = .lockSet l) :
    Sleeps ((s.setLock l ⟨true, some p⟩).setThread p
      { s.thread p with has := insert l (s.thread p).has, pc := .leave (.sleep l) }) := by
  have htrap := (h.thread p).trap_eq_none (by rw [hpc]; rfl)
  have hfree := h.tested l false p (by rw [hpc]; rfl)
  rw [h.locked, isSome_eq_false_iff, isNone_iff_eq_none] at hfree
  refine h.setLock (l := l) (x := ⟨true, some p⟩)
    (t := { s.thread p with has := insert l (s.thread p).has, pc := .leave (.sleep l) }) rfl rfl
      htrap trivial rfl
    (hcore.not_used hc) ?_ ?_ ?_ rfl rfl rfl (by rw [hpc]; rfl) ?_ (Or.inl rfl)
  · intro l' hl'
    exact ⟨fun hmem => (Finset.mem_insert.1 hmem).resolve_left hl', Finset.mem_insert_of_mem⟩
  · exact ⟨fun _ => rfl, fun _ => Finset.mem_insert_self ..⟩
  · intro q hq
    rw [h.pid, hfree]
    exact ⟨nofun, fun heq => absurd (some.inj heq).symm hq⟩
  · intro q hq
    exact hcore.tested_ne hc (by rw [hpc]; exact mem_singleton_self _) hq

theorem Sleeps.relSet (h : Sleeps s) (hcore : Core s) (hc : (s.cpu c).pc = .away p)
    (hpc : (s.thread p).pc = .relSet l) :
    Sleeps ((s.setLock l ⟨false, none⟩).setThread p
      { s.thread p with has := (s.thread p).has.erase l, pc := .wake (.sleep l) 0 }) := by
  have htrap := (h.thread p).trap_eq_none (by rw [hpc]; rfl)
  have hknows := (h.thread p).knows
  rw [base_of_none htrap, hpc] at hknows
  have hpid := (h.pid l p).1 hknows
  refine h.setLock (l := l) (x := ⟨false, none⟩)
    (t := { s.thread p with has := (s.thread p).has.erase l, pc := .wake (.sleep l) 0 }) rfl rfl
      htrap trivial rfl
    (hcore.not_used hc) ?_ ?_ ?_ rfl rfl rfl (by rw [hpc]; rfl) ?_ (Or.inr rfl)
  · intro l' hl'
    exact ⟨Finset.mem_of_mem_erase, Finset.mem_erase_of_ne_of_mem hl'⟩
  · exact ⟨fun hmem => absurd hmem (Finset.notMem_erase l _), nofun⟩
  · intro q hq
    rw [h.pid, hpid]
    exact ⟨fun heq => absurd (some.inj heq).symm hq, nofun⟩
  · intro q hq
    exact hcore.tested_ne hc (by rw [hpc]; exact mem_singleton_self _) hq

/-! ## Waking up -/

theorem Sleeps.wakeOne (h : Sleeps s) (chan : Obj L) (i : Slot) : Sleeps (s.wakeOne chan i) := by
  unfold SchedSys.wakeOne
  dsimp only
  split
  · rename_i hsleep
    exact h.setState (t := { s.thread i with state := .runnable }) rfl rfl rfl rfl rfl
      (h.not_claims (by rw [hsleep.1]; nofun)) nofun
  · exact h

/-- The loop of `wakeup` does not leave a sleeper behind. -/
theorem not_bound_wakeOne (hcore : Core s) (hc : (s.cpu c).pc = .away p)
    (hpc : (s.thread p).pc = .wakeTest (.sleep l) i) :
    ¬ ((s.wakeOne (.sleep l) i).thread i).Bound l := by
  have hlk : Lk.proc i ∈ (s.thread p).pc.locks p := by
    rw [hpc]
    exact mem_cons_self
  have hpci : ((s.wakeOne (.sleep l) i).thread i).pc = (s.thread i).pc := by
    unfold SchedSys.wakeOne
    dsimp only
    split
    · unfold setThread
      dsimp only
      rw [update_self]
    · rfl
  -- a thread that is still on its way to sleep has its own lock
  have hway : ∀ pc, (s.thread i).pc = pc → Lk.proc i ∈ pc.locks i → (∀ k, pc ≠ .switched k) →
      pc.sleeping = some l → False := by
    intro pc hi hmem hne hsleep
    rw [← hi] at hmem hne
    have heq := hcore.excl hc hlk hmem hne
    rw [heq, hpc] at hi
    rw [← hi] at hsleep
    cases hsleep
  intro hbound
  obtain hi | hi | ⟨hi, hstate⟩ := bound_cases hbound
  · exact hway _ (hpci.symm.trans hi) mem_cons_self (fun k => nofun) rfl
  · exact hway _ (hpci.symm.trans hi) mem_cons_self (fun k => nofun) rfl
  · rw [hpci] at hi
    by_cases hwoken : (s.thread i).state = .sleeping ∧ (s.thread i).chan = some (.sleep l)
    · have hnew : (s.wakeOne (.sleep l) i).thread i = { s.thread i with state := .runnable } := by
        unfold SchedSys.wakeOne
        dsimp only
        rw [if_pos hwoken]
        exact update_self ..
      rw [hnew] at hstate
      cases hstate
    · have hold : s.wakeOne (.sleep l) i = s := if_neg hwoken
      rw [hold] at hstate
      -- the process is on no CPU, so that its channel is the lock
      have hoff : ∀ c', (s.cpu c').pc ≠ .away i := by
        intro c' hc'
        have hexpects := ((hcore.cpu c').on i hc').state
        rw [hi, hstate] at hexpects
        cases hexpects
      have hparked := hcore.off i hoff
      unfold Parked at hparked
      rw [hstate] at hparked
      obtain ⟨w, hw, hchan, -⟩ := hparked
      rw [hi] at hw
      cases hw
      exact hwoken ⟨hstate, hchan⟩

theorem Sleeps.wakeTest (h : Sleeps s) (hcore : Core s) (hc : (s.cpu c).pc = .away p) {w : Wait L}
    (hpc : (s.thread p).pc = .wakeTest w i) : Sleeps ((s.wakeOne w.chan i).goto p (.wakeDone w i)) := by
  have hheld := held_away hc
  rw [hpc] at hheld
  have hself : (s.cpu c).pc = .away i → (s.thread i).state = .running := by
    intro hi
    rw [hc] at hi
    cases hi
    exact hcore.running hc hpc rfl
  obtain ⟨-, hsame⟩ := hcore.wakeOne w.chan (by rw [hheld]; exact mem_cons_self) hself
  have hpc' := congrArg Thread.pc (hsame c p hc)
  rw [hpc] at hpc'
  have h' := h.wakeOne w.chan i
  cases w with
  | other chan n =>
    exact h'.goto hpc' rfl rfl (.of_plain id (fun _ _ => trivial) rfl rfl rfl rfl)
  | sleep l =>
    refine h'.own (t := { (s.wakeOne (.sleep l) i).thread p with pc := .wakeDone (.sleep l) i })
      hpc' rfl rfl rfl rfl
      nofun (fun _ => trivial) (Or.inl rfl) id nofun ?_ ?_
    · intro l' hl'
      cases hl'.1
    · intro l' j q hl' _ hbound hle
      cases hl'
      refine ⟨i.1 + 1, rfl, ?_⟩
      have hqi : q ≠ i := by
        intro heq
        rw [heq] at hbound
        exact not_bound_wakeOne hcore hc hpc hbound
      exact lt_of_le_of_ne hle fun heq => hqi (Fin.ext heq.symm)

/-! ## Steps -/

theorem Sleeps.act (h : Sleeps s) (hcore : Core s) (hc : (s.cpu c).pc = .away p)
    (hspin : (s.cpu c).spin = .out) (hcheck : ∀ l, (s.thread p).pc ≠ .heldCheck l false)
    (hrun : s.act c p (s.thread p).pc = some s') : Sleeps s' := by
  generalize hpc : (s.thread p).pc = pc at hrun
  cases pc with
  | inside o =>
    cases o with
    | other n => cases hrun
    | sleep l =>
      cases hrun
      split
      · exact h.lockTest hpc ‹_› rfl rfl trivial rfl
      · exact h.lockTest hpc (Bool.not_eq_true _ ▸ ‹_›) rfl rfl trivial rfl
  | lockSet l =>
    cases hrun
    exact h.lockSet hcore hc hpc
  | sleepSet w =>
    cases hrun
    refine h.own (t := { s.thread p with
        chan := some w.chan, state := .sleeping, pc := .sched (.sleep w) }) hpc rfl rfl rfl rfl
      nofun (fun _ => trivial) (Or.inl rfl) (fun hused => absurd hused (hcore.not_used hc))
      nofun ?_ nofun
    intro l hl
    refine Or.inr ⟨?_, ?_⟩
    · have hsleep := hl.1
      rw [hpc]
      cases w <;> exact hsleep
    · intro k hk
      rw [hpc] at hk
      cases hk
  | sched k =>
    cases hrun
    exact h.sched hcore hc hpc hspin
  | switched k =>
    cases hrun
    exact h.switched hcore hc hpc
  | relSet l =>
    cases hrun
    exact h.relSet hcore hc hpc
  | wakeTest w i =>
    cases hrun
    exact h.wakeTest hcore hc hpc
  | heldTest l check =>
    cases hrun
    exact h.plain (t := { s.thread p with pc := .heldDone l _ check }) hcore hc hpc rfl rfl rfl
      rfl nofun
      (fun _ => h.holdingsleep l p) rfl rfl rfl rfl
  | heldCheck l r =>
    cases r with
    | false => exact absurd hpc (hcheck l)
    | true =>
      cases hrun
      exact h.plain (t := { s.thread p with pc := .relLock l }) hcore hc hpc rfl rfl rfl rfl nofun
        (fun hknows => hknows.1 rfl) rfl rfl rfl rfl
  | yieldSet =>
    cases hrun
    exact h.plain (t := { s.thread p with state := .runnable, pc := .sched .yield }) hcore hc hpc
      rfl rfl rfl rfl
      (fun _ _ _ => rfl) (fun _ => trivial) rfl rfl rfl rfl
  | exitSet n =>
    cases hrun
    exact h.plain (t := { s.thread p with state := .zombie, pc := .exitUnlock n }) hcore hc hpc rfl
      rfl rfl rfl nofun
      (fun _ => trivial) rfl rfl rfl rfl
  | procDo op i =>
    cases hrun
    apply h.procDo hcore hc hpc
    intro hop
    rw [hop] at hpc
    apply h.used p i
    rw [base_of_none ((h.thread p).trap_eq_none (by rw [hpc]; rfl)), hpc]
    rfl
  | _ => cases hrun

theorem Sleeps.call (h : Sleeps s) (hcore : Core s) (hc : (s.cpu c).pc = .away p) {k : SchedCall L}
    (htrap : (s.thread p).trap = none) (hrun : s.call c p (s.thread p).pc k = some s') : Sleeps s' := by
  have hnone : ∀ ret pc', (s.thread p).trap = some ret → (pc' : ThreadPc L).handler = true := by
    intro ret pc' hret
    rw [htrap] at hret
    cases hret
  -- a call goes on at a statement outside of all loops
  have hcall : ∀ pc pc' : ThreadPc L, (s.thread p).pc = pc → pc.waking = none → pc'.claims = none →
      pc'.tested = none → pc'.sleeping = none → pc'.Knows (s.thread p).has → Sleeps (s.goto p pc') := by
    intro pc pc' hpc hwaking hclaims htested hsleeping hknows
    exact h.plain (t := { s.thread p with pc := pc' }) hcore hc hpc rfl rfl rfl rfl
      (fun ret hret _ => hnone ret _ hret)
      (fun _ => hknows) hclaims htested hsleeping hwaking
  generalize hpc : (s.thread p).pc = pc at hrun
  unfold SchedSys.call at hrun
  split at hrun
  case h_12 =>
    split at hrun
    · cases hrun
      exact hcall _ _ hpc rfl rfl rfl rfl trivial
    · cases hrun
  case h_8 on =>
    cases hrun
    refine h.plain (t := { s.thread p with intr := on }) hcore hc rfl rfl rfl rfl rfl
      (fun _ _ => id) id ?_ ?_ ?_
      (by rw [hpc]; rfl) <;> dsimp only <;> rw [hpc] <;> rfl
  case h_14 =>
    split at hrun
    · cases hrun
      have hold := hcore.locks_of_intr hc ‹_›
      have hbase : (s.thread p).base = pc := by
        rw [base_of_none htrap, hpc]
      refine h.change (t := { s.thread p with pc := .user, trap := some pc, intr := false }) rfl rfl rfl
        ⟨fun _ _ => rfl, ?_⟩ ?_ ?_ nofun ?_ ?_
      · have hknows := (h.thread p).knows
        rw [hbase] at hknows
        exact hknows
      · intro i hi
        rw [hbase]
        exact Or.inl hi
      · intro q hq
        exact h.used q p hq
      · intro l hl
        cases hl.1
      · intro l i q hl
        rw [(plain_of_locks hold).2.2] at hl
        cases hl
    · cases hrun
  case h_15 => cases hrun
  all_goals
    cases hrun
    exact hcall _ _ hpc rfl rfl rfl rfl trivial

theorem Sleeps.actCpu (h : Sleeps s) {pc : SchedPc} (hrun : s.actCpu c pc = some s') : Sleeps s' := by
  cases pc with
  | top | back i =>
    cases hrun
    exact h.congr rfl rfl
  | pick i =>
    dsimp only [SchedSys.actCpu] at hrun
    split at hrun
    · rename_i hrunnable
      cases hrun
      exact h.setState (i := i) (t := { s.thread i with state := .running }) rfl rfl rfl rfl rfl
        (h.not_claims (by rw [hrunnable]; nofun)) nofun
    · cases hrun
      exact h.congr rfl rfl
  | irqTest i chan n j =>
    cases hrun
    exact (h.wakeOne (.other chan) j).congr rfl rfl
  | _ => cases hrun

theorem Sleeps.runCpu (h : Sleeps s) (hcore : Core s)
    (hcheck : ∀ p l, (s.cpu c).spin = .out → (s.cpu c).pc = .away p →
      (s.thread p).pc ≠ .heldCheck l false)
    (hrun : s.runCpu c = some s') : Sleeps s' := by
  unfold SchedSys.runCpu at hrun
  split at hrun
  · rename_i p hc
    have hsteps := ThreadPc.stmt_steps p (s.thread p).pc
    obtain ⟨x, rfl, -⟩ | ⟨lk, pc, hstmt, -, -, rfl⟩ | ⟨lk, pc, hstmt, -, rfl⟩ | ⟨pc, hstmt, rfl⟩ |
      ⟨-, hspin, hact⟩ := hcore.perform_cases (not_held_of_acquire hc) (held_of_release hc) hrun
    · exact h.congr rfl rfl
    · rw [hstmt] at hsteps
      exact h.goto rfl rfl rfl hsteps
    · rw [hstmt] at hsteps
      exact h.goto rfl rfl rfl hsteps
    · rw [hstmt] at hsteps
      exact h.goto rfl rfl rfl hsteps
    · exact h.act hcore hc hspin (fun l => hcheck p l hspin hc) hact
  · rename_i hc
    obtain ⟨x, rfl, -⟩ | ⟨lk, pc, -, -, -, rfl⟩ | ⟨lk, pc, -, -, rfl⟩ | ⟨pc, -, rfl⟩ | ⟨-, -, hact⟩ :=
      hcore.perform_cases (not_held_of_acquire' hc) (held_of_release' hc) hrun
    · exact h.congr rfl rfl
    · exact h.congr rfl rfl
    · exact h.congr rfl rfl
    · exact h.congr rfl rfl
    · exact h.actCpu hact

theorem Sleeps.step (h : Sleeps s) (hcore : Core s) {e : SchedStep L}
    (hcheck : ∀ c p l, e = .run c → (s.cpu c).spin = .out → (s.cpu c).pc = .away p →
      (s.thread p).pc ≠ .heldCheck l false)
    (hrun : s.step e = some s') : Sleeps s' := by
  unfold SchedSys.step at hrun
  rw [if_neg (by rw [hcore.calm]; exact Bool.false_ne_true)] at hrun
  cases e with
  | run c => exact h.runCpu hcore (fun p l => hcheck c p l rfl) hrun
  | call c k =>
    obtain ⟨hspin, hrun⟩ := ite_none_right_eq_some.1 hrun
    split at hrun
    · rename_i p hc
      split at hrun
      · exact h.call hcore hc ‹_› hrun
      · exact h.trapCall hcore ‹_› hrun
    · cases hrun
  | irq c k =>
    obtain ⟨-, hrun⟩ := ite_none_right_eq_some.1 hrun
    exact h.irq hrun

/-- Every step keeps `Sound`, or it is the panic of a thread that gives back a lock it does not have. -/
theorem Sound.step (h : Sound s) {e : SchedStep L} (hrun : s.step e = some s') :
    Sound s' ∨ s.Caught ∧ s' = s.panic .notHeld := by
  by_cases hbad : ∃ c p l, e = .run c ∧ (s.cpu c).spin = .out ∧ (s.cpu c).pc = .away p ∧
      (s.thread p).pc = .heldCheck l false
  · obtain ⟨c, p, l, rfl, hspin, hc, hpc⟩ := hbad
    have hknows := (h.sleeps.knows hpc rfl).1
    refine Or.inr ⟨⟨c, p, l, hc, hpc, fun hmem => Bool.false_ne_true (hknows.2 hmem)⟩, ?_⟩
    unfold SchedSys.step at hrun
    rw [if_neg (by rw [h.core.calm]; exact Bool.false_ne_true)] at hrun
    simp only [SchedSys.runCpu, hc, perform, hspin, hpc] at hrun
    exact (some.inj hrun).symm
  · have hcheck : ∀ c p l, e = .run c → (s.cpu c).spin = .out → (s.cpu c).pc = .away p →
        (s.thread p).pc ≠ .heldCheck l false :=
      fun c p l he hspin hc hpc => hbad ⟨c, p, l, he, hspin, hc, hpc⟩
    refine Or.inl ⟨h.core.step ?_ hcheck hrun, h.sleeps.step h.core hcheck hrun⟩
    intro c p i _ hpc
    apply h.sleeps.used p i
    rw [(h.sleeps.knows hpc rfl).2]
    rfl

/-- **What a run leads to**: a sound state, or one in which the check of `brelse` or `iunlock` has just
failed. -/
theorem sound_or_caught {initproc : Slot} {as : List (SchedStep L)}
    (hrun : exec step (boot initproc) as = some s) :
    ∃ s0, Sound s0 ∧ (s = s0 ∨ s0.Caught ∧ s = s0.panic .notHeld) := by
  have hkeep : ∀ (s : SchedSys L) (e : SchedStep L) (s' : SchedSys L),
      (∃ s0, Sound s0 ∧ (s = s0 ∨ s0.Caught ∧ s = s0.panic .notHeld)) → s.step e = some s' →
      ∃ s0, Sound s0 ∧ (s' = s0 ∨ s0.Caught ∧ s' = s0.panic .notHeld) := by
    rintro s e s' ⟨s0, h, rfl | ⟨-, rfl⟩⟩ hstep
    · obtain h' | hcaught := h.step hstep
      · exact ⟨s', h', Or.inl rfl⟩
      · exact ⟨s, h, Or.inr hcaught⟩
    · cases hstep
  exact exec_inv hkeep ⟨_, boot_sound initproc, Or.inl rfl⟩ hrun

/-- The panic changes nothing that a sound state speaks of. -/
theorem sound_of_run {initproc : Slot} {as : List (SchedStep L)}
    (hrun : exec step (boot initproc) as = some s) :
    ∃ s0 k, Sound s0 ∧ s = { s0 with panicked := k } := by
  obtain ⟨s0, h, rfl | ⟨-, rfl⟩⟩ := sound_or_caught hrun
  · exact ⟨s, s.panicked, h, rfl⟩
  · exact ⟨s0, some .notHeld, h, rfl⟩

end

end SchedSys

end AudioPlayer
