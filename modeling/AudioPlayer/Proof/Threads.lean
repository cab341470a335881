import AudioPlayer.Proof.SleepLock
import Mathlib.Data.Set.Card

/-!
# What the scheduler and the sleep locks guarantee

The results hold in every state that a system of eight CPUs reaches from its start, whatever the
interleaving of their statements, the calls of the threads and the interrupts: a process runs on one
CPU at most, no check fails but that of a thread that gives back a lock it does not have, a CPU with
a spin lock has interrupts off, a thread keeps its interrupt flag from CPU to CPU, a sleep lock has
one owner, and no wakeup of a sleeper is lost.
-/

namespace AudioPlayer

open List Option Runs

namespace SchedSys

variable {L : Type} {s : SchedSys L} {c : CpuId} {p : Slot}

/-- A process that sleeps on a lock came to sleep in `acquiresleep`. -/
theorem Core.bound_of_sleeping (h : Core s) {l : L} (hs : (s.thread p).state = .sleeping)
    (hchan : (s.thread p).chan = some (.sleep l)) : (s.thread p).Bound l := by
  have hw : ∃ w : Wait L,
      ((s.thread p).pc = .sched (.sleep w) ∨ (s.thread p).pc = .switched (.sleep w)) ∧
      (s.thread p).chan = some w.chan := by
    by_cases hon : ∃ c, (s.cpu c).pc = .away p
    · obtain ⟨c, hc⟩ := hon
      have hcpu := (h.cpu c).on p hc
      have hexpects := hcpu.state
      rw [hs] at hexpects
      generalize hpc : (s.thread p).pc = pc at hexpects
      cases pc with
      | sched k =>
        cases k with
        | sleep w => exact ⟨w, Or.inl rfl, hcpu.chan w hpc⟩
        | _ => cases hexpects
      | switched k => cases k <;> cases hexpects
      | _ => cases hexpects
    · have hparked := h.off p (not_exists.1 hon)
      unfold Parked at hparked
      rw [hs] at hparked
      obtain ⟨w, hpc, hsleep, -⟩ := hparked
      exact ⟨w, Or.inr hpc, hsleep⟩
  obtain ⟨w, hpc, hsleep⟩ := hw
  rw [hchan] at hsleep
  cases w <;> cases hsleep
  obtain hpc | hpc := hpc
  · exact ⟨by rw [hpc]; rfl, fun _ _ => hs⟩
  · exact ⟨by rw [hpc]; rfl, fun _ _ => hs⟩

variable [DecidableEq L] {initproc : Slot} {as : List (SchedStep L)}

/-! ## Scheduling -/

/-- The first process takes a sleep lock and forks; the second one sleeps on the lock on another
CPU; the first one is about to wake it up. -/
def handover : List (SchedStep ℕ) :=
  List.replicate 8 (.run 0) ++ .call 0 (.acquiresleep 7) :: List.replicate 7 (.run 0) ++
    .call 0 (.fork 1 true) :: List.replicate 12 (.run 0) ++ List.replicate 14 (.run 1) ++
    .call 1 (.acquiresleep 7) :: List.replicate 14 (.run 1) ++
    .call 0 (.releasesleep 7) :: List.replicate 15 (.run 0)

/-- **A process runs on one CPU at most**, and this CPU has it as `c->proc`. The state of a process
whose lock is free says whether it runs, and a process that `fork` or `wait` has in hand does
not. -/
theorem runs_on_one_cpu (hrun : exec step (boot initproc) as = some s) :
    (∀ c p, (s.cpu c).pc = .away p → (s.cpu c).proc = some p ∧
      ∀ c', (s.cpu c').pc = .away p → c' = c) ∧
    (∀ p, s.holder (.proc p) = none → ((s.thread p).state = .running ↔
      ∃ c, (s.cpu c).pc = .away p)) ∧
    ∀ p, (s.thread p).state = .unused ∨ (s.thread p).state = .used →
      ∀ c, (s.cpu c).pc ≠ .away p := by
  obtain ⟨s, k, ⟨h, -⟩, rfl⟩ := sound_of_run hrun
  refine ⟨?_, ?_, ?_⟩
  · intro c p hc
    refine ⟨?_, fun c' hc' => h.one c' c p hc' hc⟩
    rw [(h.cpu c).proc, hc]
    rfl
  · intro p hfree
    constructor
    · intro hrunning
      by_contra hoff
      have hparked := h.off p (not_exists.1 hoff)
      unfold Parked at hparked
      rw [hrunning] at hparked
      exact hparked
    · rintro ⟨c, hc⟩
      -- a thread with another state has its own lock
      have hnot : Lk.proc p ∉ (s.thread p).pc.locks p := by
        intro hmem
        rw [← held_away (s := s) hc, ← (h.cpu c).holder] at hmem
        cases hfree.symm.trans hmem
      exact h.running hc rfl (ThreadPc.expects_running hnot)
  · intro p hstate c hc
    obtain ⟨hunused, hused⟩ := ThreadPc.expects_live ((h.cpu c).on p hc).state
    exact hstate.elim hunused hused

theorem runs_on_one_cpu_handover : ∃ s : SchedSys ℕ, exec step (boot 0) handover = some s ∧
    (s.cpu 0).pc = .away 0 ∧ (s.cpu 0).proc = some 0 ∧ ∀ c, (s.cpu c).pc = .away 0 → c = 0 := by
  have hview : (exec step (boot 0) handover).map (fun s => (s.cpu 0).pc) = some (.away 0) := by
    decide +kernel
  obtain ⟨s, hs, hpc⟩ := map_eq_some_iff.1 hview
  obtain ⟨hproc, hone⟩ := (runs_on_one_cpu hs).1 0 0 hpc
  exact ⟨s, hs, hpc, hproc, hone⟩

/-- On another CPU, a process gives back a lock of the first one. -/
def theft : List (SchedStep ℕ) :=
  List.replicate 8 (.run 0) ++ .call 0 (.acquiresleep 7) :: List.replicate 7 (.run 0) ++
    .call 0 (.fork 1 true) :: List.replicate 12 (.run 0) ++ List.replicate 14 (.run 1) ++
    .call 1 (.releasesleep 7) :: List.replicate 7 (.run 1)

/-- **A thread keeps its interrupt flag**: on whatever CPU it comes out of its critical sections, the
flag of the CPU is the one that the thread set last. -/
theorem keeps_interrupt_flag (hrun : exec step (boot initproc) as = some s)
    (hc : (s.cpu c).pc = .away p)
    (hnoff : (s.cpu c).noff = 0) : (s.cpu c).intr = (s.thread p).intr := by
  obtain ⟨s, k, ⟨h, -⟩, rfl⟩ := sound_of_run hrun
  have hnil : (s.thread p).pc.locks p = [] := by
    rw [← held_away hc, ← length_eq_zero_iff]
    exact (Nat.add_eq_zero_iff.1 ((h.cpu c).noff.symm.trans hnoff)).1
  have hflag := ((h.cpu c).on p hc).flag.quiet (ThreadPc.quiet_of_locks hnil)
  rw [CpuState.flag, if_pos hnoff] at hflag
  exact hflag

/-- A process turns its interrupts on, gives up its CPU and goes on with another one. -/
def migration : List (SchedStep ℕ) :=
  List.replicate 8 (.run 0) ++ .call 0 (.intr true) :: .call 0 .yield :: List.replicate 8 (.run 0) ++
    List.replicate 8 (.run 1)

theorem keeps_interrupt_flag_migration : ∃ s : SchedSys ℕ, exec step (boot 0) migration = some s ∧
    (s.cpu 1).pc = .away 0 ∧ (s.cpu 1).intr = (s.thread 0).intr ∧ (s.thread 0).intr = true := by
  have hview : (exec step (boot 0) migration).map
      (fun s => ((s.cpu 1).pc, (s.cpu 1).noff, (s.thread 0).intr)) = some (.away 0, 0, true) := by
    decide +kernel
  obtain ⟨s, hs, hview⟩ := map_eq_some_iff.1 hview
  obtain ⟨hpc, hrest⟩ := Prod.mk.inj hview
  obtain ⟨hnoff, hintr⟩ := Prod.mk.inj hrest
  exact ⟨s, hs, hpc, keeps_interrupt_flag hs hpc hnoff, hintr⟩

/-! ## Sleep locks -/

/-- **A sleep lock has one owner**: it is taken exactly while a thread has it, no two threads have
it, and `holdingsleep` tells a thread whether it has it. -/
theorem sleep_lock_owner (hrun : exec step (boot initproc) as = some s) (l : L) :
    ((s.lock l).locked = true ↔ ∃ p, l ∈ (s.thread p).has) ∧
    (∀ p q, l ∈ (s.thread p).has → l ∈ (s.thread q).has → p = q) ∧
    ∀ p r check, (s.thread p).pc = .heldDone l r check → (r = true ↔ l ∈ (s.thread p).has) := by
  obtain ⟨s, k, ⟨-, h⟩, rfl⟩ := sound_of_run hrun
  refine ⟨?_, ?_, ?_⟩
  · rw [h.locked, isSome_iff_exists]
    exact exists_congr fun p => (h.pid l p).symm
  · intro p q hp hq
    rw [h.pid] at hp hq
    exact some.inj (hp.symm.trans hq)
  · intro p r check hpc
    exact (h.knows hpc rfl).1

/-- Another process finds out that the lock is not its own. -/
theorem sleep_lock_owner_theft : ∃ s : SchedSys ℕ, exec step (boot 0) theft = some s ∧
    (s.lock 7).locked = true ∧ 7 ∉ (s.thread 1).has ∧
    ∃ p, 7 ∈ (s.thread p).has ∧ ∀ q, 7 ∈ (s.thread q).has → q = p := by
  have hview :
    (exec step (boot 0) theft).map (fun s => ((s.lock 7).locked, decide (7 ∈ (s.thread 1).has))) =
      some (true, false) := by
    decide +kernel
  obtain ⟨s, hs, hview⟩ := map_eq_some_iff.1 hview
  obtain ⟨hlocked, hnot⟩ := Prod.mk.inj hview
  obtain ⟨hiff, hone, -⟩ := sleep_lock_owner hs 7
  obtain ⟨p, hp⟩ := hiff.1 hlocked
  exact ⟨s, hs, hlocked, of_decide_eq_false hnot, p, hp, fun q hq => hone q p hq hp⟩

/-- **No wakeup is lost**: a process sleeps on a lock only while the lock is taken, or while a thread
in `releasesleep` has the spin lock of the lock and has yet to come to the process. -/
theorem no_lost_wakeup (hrun : exec step (boot initproc) as = some s) {l : L}
    (hs : (s.thread p).state = .sleeping) (hchan : (s.thread p).chan = some (.sleep l)) :
    (s.lock l).locked = true ∨
      ∃ c q i, (s.cpu c).pc = .away q ∧ s.holder (.obj (.sleep l)) = some c ∧
      (s.thread q).pc.waking = some (l, i) ∧ i ≤ p.1 := by
  obtain ⟨s, k, h, rfl⟩ := sound_of_run hrun
  obtain hlocked | ⟨q, i, hq, hi⟩ := h.sleeps.bound l p (h.core.bound_of_sleeping hs hchan)
  · exact Or.inl hlocked
  right
  have hne : ∀ k, (s.thread q).pc ≠ .switched k := by
    intro k hk
    rw [hk] at hq
    cases hq
  obtain ⟨c, hc⟩ := h.core.exists_cpu hne
  refine ⟨c, q, i, hc, ?_, hq, hi⟩
  rw [(h.core.cpu c).holder, held_away hc]
  cases hpc : (s.thread q).pc with
  | wake w j =>
    rw [hpc] at hq
    cases w <;> cases hq
    exact mem_singleton_self _
  | wakeTest w j =>
    rw [hpc] at hq
    cases w <;> cases hq
    exact mem_cons_of_mem _ (mem_singleton_self _)
  | wakeDone w j =>
    rw [hpc] at hq
    cases w <;> cases hq
    exact mem_cons_of_mem _ (mem_singleton_self _)
  | _ =>
    rw [hpc] at hq
    cases hq

theorem no_lost_wakeup_handover : ∃ s : SchedSys ℕ, exec step (boot 0) handover = some s ∧
    (s.thread 1).state = .sleeping ∧ (s.lock 7).locked = false ∧
    ∃ c q i, (s.cpu c).pc = .away q ∧ s.holder (.obj (.sleep 7)) = some c ∧
      (s.thread q).pc.waking = some (7, i) ∧ i ≤ 1 := by
  have hview : (exec step (boot 0) handover).map (fun s => ((s.thread 1).state, (s.thread 1).chan,
    (s.lock 7).locked)) =
      some (.sleeping, some (.sleep 7), false) := by
    decide +kernel
  obtain ⟨s, hs, hview⟩ := map_eq_some_iff.1 hview
  obtain ⟨hstate, hrest⟩ := Prod.mk.inj hview
  obtain ⟨hchan, hlocked⟩ := Prod.mk.inj hrest
  refine ⟨s, hs, hstate, hlocked, ?_⟩
  obtain htaken | hcoming := no_lost_wakeup hs hstate hchan
  · rw [hlocked] at htaken
    cases htaken
  · exact hcoming

end SchedSys

end AudioPlayer
