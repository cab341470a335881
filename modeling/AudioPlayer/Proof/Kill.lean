import AudioPlayer.Proof.Proc
import AudioPlayer.Lib.Runs

/-!
# Who is killed

`kill` looks for a slot with the pid it is given, whether the slot is in use or not, and a slot
that is not in use has pid 0. So `kill(0)` marks an unused slot, and the next process in it starts
killed: `allocproc` does not reset the flag. `kill_exact_iff`: without such calls a process is
killed only by its own pid or by its own trap.
-/

namespace AudioPlayer

open Function Runs ProcTable List Option

namespace KillLog

/-- What a slot holds, and whether its process is blamed. -/
structure SlotOK (pr : Proc) (blamed : Bool) : Prop where
  unused : pr.state = .unused → pr.killed = false ∧ pr.pid = 0
  inUse : pr.state ≠ .unused → 0 < pr.pid ∧ (pr.killed = true → blamed = true)

theorem SlotOK.mono {pr : Proc} {b b' : Bool} (h : SlotOK pr b) (hb : b = true → b' = true) :
    SlotOK pr b' :=
  ⟨h.unused, fun hu => ⟨(h.inUse hu).1, fun hk => hb ((h.inUse hu).2 hk)⟩⟩

/-- The parent and the exit status do not matter. -/
theorem SlotOK.congr {pr pr' : Proc} {b : Bool} (h : SlotOK pr b) (hk : pr'.killed = pr.killed)
    (hp : pr'.pid = pr.pid) (hs : pr'.state = .unused ↔ pr.state = .unused) : SlotOK pr' b := by
  refine ⟨fun hu => ?_, fun hu => ?_⟩
  · rw [hk, hp]
    exact h.unused (hs.1 hu)
  · rw [hk, hp]
    exact h.inUse (mt hs.2 hu)

theorem slotOK_free (b : Bool) : SlotOK ⟨.unused, false, 0, 0, none⟩ b :=
  ⟨fun _ => ⟨rfl, rfl⟩, fun h => absurd rfl h⟩

/-- The property of the history: a process is killed only if it is blamed, no process starts
killed, and `kill` returns 0 only if it finds a process. -/
structure Exact (m : KillLog) : Prop where
  killed : ∀ s, (m.table.proc s).state ≠ .unused → (m.table.proc s).killed = true → m.blamed s = true
  births : ∀ b ∈ m.births, b = false
  hits : ∀ b ∈ m.hits, b = true

/-- The invariant: the slots that are not in use are blank. -/
structure OK (m : KillLog) : Prop where
  slots : ∀ s, SlotOK (m.table.proc s) (m.blamed s)
  next : 0 < m.table.nextpid
  births : ∀ b ∈ m.births, b = false
  hits : ∀ b ∈ m.hits, b = true

/-- No `kill(0)` is made while a slot is not in use. -/
def NoKillZero (m : KillLog) : KillStep → Prop
  | .call (.kill _ pid) => pid = 0 → ∀ s, (m.table.proc s).state ≠ .unused
  | _ => True

variable {m m' : KillLog}

theorem OK.exact (h : m.OK) : m.Exact := ⟨fun s hu => ((h.slots s).inUse hu).2, h.births, h.hits⟩

theorem ok_boot : boot.OK := by
  refine ⟨fun s => ?_, by decide, by decide, by decide⟩
  by_cases hs : s = 0
  · subst hs
    exact ⟨fun h => absurd h (by decide), fun _ => ⟨by decide, fun h => absurd h (by decide)⟩⟩
  · have hproc : boot.table.proc s = ⟨.unused, false, 0, 0, none⟩ := if_neg hs
    rw [hproc]
    exact slotOK_free _

/-- Writing one slot, with the blame of no other process taken back. -/
theorem slots_update {f : Slot → Proc} {b b' : Slot → Bool} (h : ∀ s, SlotOK (f s) (b s)) (s : Slot)
    {pr : Proc} (hs : SlotOK pr (b' s)) (hb : ∀ u ≠ s, b u = true → b' u = true) :
    ∀ u, SlotOK (update f s pr u) (b' u) := by
  intro u
  by_cases hu : u = s
  · subst hu
    rw [update_self]
    exact hs
  · rw [update_of_ne hu]
    exact (h u).mono (hb u hu)

theorem ok_fork (hm : m.OK) {p : Slot} {mem copy : Bool} {t : ProcTable} {r : Option ℕ}
    (h : m.table.fork p mem copy = some (t, r)) : (m.forked t r).OK := by
  rcases fork_spec h with ⟨rfl, hfind, rfl⟩ | ⟨s, hfind, ⟨rfl, -, rfl⟩ | ⟨rfl, -, -, rfl⟩⟩
  · unfold forked
    rw [hfind]
    exact ⟨hm.slots, hm.next, hm.births, hm.hits⟩
  · unfold forked
    rw [hfind]
    exact ⟨slots_update hm.slots s (slotOK_free _) fun _ _ => id, Nat.succ_pos _, hm.births, hm.hits⟩
  · -- the slot was blank, so the child is not killed
    obtain ⟨hkilled, -⟩ := (hm.slots s).unused (findUnused_spec hfind)
    unfold forked
    rw [hfind]
    refine ⟨slots_update hm.slots s ⟨fun hu => ?_, fun _ => ⟨hm.next, fun hk => ?_⟩⟩ ?_, Nat.succ_pos _,
      ?_, hm.hits⟩
    · cases hu
    · exact absurd (hkilled.symm.trans hk) (by decide)
    · intro u hu hb
      exact (update_of_ne hu _ _).trans hb
    · intro b hb
      rcases mem_cons.1 hb with rfl | hb
      · simpa [ProcTable.set] using hkilled
      · exact hm.births b hb

theorem ok_kill (hm : m.OK) {pid : ℤ} (hzero : pid = 0 → ∀ s, (m.table.proc s).state ≠ .unused) :
    (m.killed pid).OK := by
  have hblame : ∀ u, m.blamed u = true → (m.blamed u || decide (Named m.table pid u)) = true := by
    intro u hu
    rw [hu, Bool.true_or]
  unfold KillLog.killed
  rcases kill_spec m.table pid with ⟨hret, htable, -⟩ | ⟨s, state, hret, hpid, hstate, htable⟩
  · refine ⟨?_, ?_, hm.births, ?_⟩
    · simp only [htable]
      exact fun u => (hm.slots u).mono (hblame u)
    · simp only [htable]
      exact hm.next
    · simp only [hret]
      exact hm.hits
  · -- a slot that is not in use has pid 0
    have hused : (m.table.proc s).state ≠ .unused := by
      intro hunused
      refine hzero ?_ s hunused
      rw [← hpid, ((hm.slots s).unused hunused).2]
      rfl
    have hnamed : Named m.table pid s := ⟨hused, hpid⟩
    have hused' : state ≠ .unused := by
      rcases hstate with rfl | ⟨-, rfl⟩
      · exact hused
      · decide
    refine ⟨?_, ?_, hm.births, ?_⟩
    · simp only [htable]
      refine slots_update hm.slots s ⟨fun hu => absurd hu hused', fun _ => ⟨?_, fun _ => ?_⟩⟩
        fun u _ => hblame u
      · exact ((hm.slots s).inUse hused).1
      · rw [decide_eq_true hnamed, Bool.or_true]
    · simp only [htable]
      exact hm.next
    · simp only [hret, if_true]
      intro b hb
      rcases mem_cons.1 hb with rfl | hb
      · exact decide_eq_true ⟨s, hnamed⟩
      · exact hm.hits b hb

/-- A step that only moves a slot between states in use, and changes parents and exit codes. -/
theorem ok_table (hm : m.OK) {t : ProcTable} (hslots : ∀ s, SlotOK (t.proc s) (m.blamed s))
    (hnext : t.nextpid = m.table.nextpid) : OK { m with table := t } :=
  ⟨hslots, by rw [hnext]; exact hm.next, hm.births, hm.hits⟩

/-- **A step without such a `kill(0)` keeps the invariant.** -/
theorem ok_step (hm : m.OK) {a : KillStep} (ha : m.NoKillZero a) (h : m.step a = some m') : m'.OK := by
  cases a with
  | trap p =>
    obtain ⟨hrun, h⟩ := ite_none_right_eq_some.1 h
    rw [← some.inj h]
    have hused : (m.table.proc p).state ≠ .unused := by rw [hrun]; decide
    refine ⟨slots_update hm.slots p ⟨fun hu => absurd hu hused, fun _ => ⟨?_, fun _ => ?_⟩⟩ ?_, hm.next,
      hm.births, hm.hits⟩
    · exact ((hm.slots p).inUse hused).1
    · exact update_self ..
    · intro u hu hb
      exact (update_of_ne hu _ _).trans hb
  | call a =>
    cases a with
    | fork p mem copy =>
      obtain ⟨-, h⟩ := ite_none_right_eq_some.1 h
      obtain ⟨⟨t, r⟩, ht, rfl⟩ := map_eq_some_iff.1 h
      exact ok_fork hm ht
    | kill p pid =>
      obtain ⟨-, h⟩ := ite_none_right_eq_some.1 h
      rw [← some.inj h]
      exact ok_kill hm ha
    | exit p status =>
      obtain ⟨t, ht, rfl⟩ := map_eq_some_iff.1 h
      obtain ⟨hrun, ht⟩ := ite_none_right_eq_some.1 ht
      obtain ⟨-, rfl⟩ := exit_spec ht
      refine ok_table hm ?_ rfl
      have hreparent : ∀ s, SlotOK (((m.table.reparent p)).proc s) (m.blamed s) := by
        intro s
        rw [reparent_proc]
        exact (hm.slots s).congr rfl rfl Iff.rfl
      refine slots_update hreparent p ((hm.slots p).congr ?_ ?_ ?_) fun _ _ => id
      · rw [reparent_proc]
      · rw [reparent_proc]
      · simp [hrun]
    | wait p copy =>
      obtain ⟨t, ht, rfl⟩ := map_eq_some_iff.1 h
      obtain ⟨-, ht⟩ := ite_none_right_eq_some.1 ht
      obtain ⟨⟨t1, r⟩, hwait, rfl⟩ := map_eq_some_iff.1 ht
      rcases wait_spec hwait with rfl | ⟨s, -, -, rfl⟩
      · exact ok_table hm hm.slots rfl
      · exact ok_table hm (slots_update hm.slots s (slotOK_free _) fun _ _ => id) rfl
    | sched p state =>
      obtain ⟨t, ht, rfl⟩ := map_eq_some_iff.1 h
      obtain ⟨⟨hlive, hlive'⟩, ht⟩ := ite_none_right_eq_some.1 ht
      rw [← some.inj ht]
      have hne : ∀ {st : ProcState}, st.live = true → st ≠ .unused := by
        rintro st hst rfl
        simp [ProcState.live] at hst
      refine ok_table hm (slots_update hm.slots p ((hm.slots p).congr rfl rfl ?_) fun _ _ => id) rfl
      simp [hne hlive, hne hlive']

/-- **A `kill(0)` with a slot not in use returns 0 without a process.** -/
theorem killZero_bad (hm : m.OK) {a : KillStep} (ha : ¬ m.NoKillZero a) (h : m.step a = some m') :
    ¬ m'.Exact := by
  cases a with
  | trap p => exact absurd trivial ha
  | call a =>
    cases a with
    | kill p pid =>
      obtain ⟨-, h⟩ := ite_none_right_eq_some.1 h
      rw [← some.inj h]
      intro hexact
      simp only [NoKillZero, not_forall, not_not] at ha
      obtain ⟨rfl, s, hunused⟩ := ha
      -- the slot has pid 0, so `kill` finds one
      have hret : (m.table.kill 0).2 = 0 := by
        rcases kill_spec m.table 0 with ⟨-, -, hall⟩ | ⟨-, -, hret, -⟩
        · refine absurd ?_ (hall s)
          rw [((hm.slots s).unused hunused).2]
          rfl
        · exact hret
      have hnone : ¬ ∃ s, Named m.table 0 s := by
        rintro ⟨u, hused, hpid⟩
        have := ((hm.slots u).inUse hused).1
        omega
      have hhit := hexact.hits (decide (∃ s, Named m.table 0 s))
      unfold KillLog.killed at hhit
      simp only [hret, if_true] at hhit
      exact hnone (of_decide_eq_true (hhit mem_cons_self))
    | fork p mem copy => exact absurd trivial ha
    | exit p status => exact absurd trivial ha
    | wait p copy => exact absurd trivial ha
    | sched p state => exact absurd trivial ha

/-- **When `kill` affects only its target.** In every state of a run from boot a process is
killed only if it is blamed, processes start unkilled and `kill` finds a process whenever it
returns 0, if and only if no `kill(0)` is made while a slot is not in use. -/
theorem kill_exact_iff {as : List KillStep} (h : exec step boot as = some m) :
    (∀ bs cs t, as = bs ++ cs → exec step boot bs = some t → t.Exact) ↔
      Along step NoKillZero boot as :=
  (along_iff (fun _ _ _ hm ha => ok_step hm ha) (fun _ hm => hm.exact)
    (fun _ _ _ hm ha => killZero_bad hm ha) ok_boot h).symm

/-- The first process forks, kills its child and waits for it. -/
theorem kill_exact_iff_child :
    ∃ m, exec step boot [.call (.sched 0 .running), .call (.fork 0 true true), .call (.kill 0 2),
        .call (.sched 1 .running), .call (.exit 1 (-1)), .call (.wait 0 true)] = some m ∧ m.Exact ∧
      m.hits = [true] := by
  have hrun : (exec step boot [.call (.sched 0 .running), .call (.fork 0 true true), .call (.kill 0 2),
      .call (.sched 1 .running), .call (.exit 1 (-1)), .call (.wait 0 true)]).any
      (fun m => m.hits = [true]) := by decide +kernel
  obtain ⟨m, hm, hhits⟩ := (any_eq_true _ _).1 hrun
  have hexact := (kill_exact_iff hm).2 (by
    refine ⟨trivial, fun t1 _ => ⟨trivial, fun t2 _ => ⟨?_, fun t3 _ => ⟨trivial, fun t4 _ => ⟨trivial,
      fun t5 _ => ⟨trivial, fun t6 _ => trivial⟩⟩⟩⟩⟩⟩
    intro h
    exact absurd h (by decide))
  exact ⟨m, hm, hexact _ [] m (append_nil _).symm hm, of_decide_eq_true hhits⟩

/-- **A child that starts killed.** The first process calls `kill(0)`, which returns 0 though
no process has pid 0, and forks. -/
theorem kill_zero_kills_child :
    ∃ m, exec step boot [.call (.sched 0 .running), .call (.kill 0 0), .call (.fork 0 true true)] =
        some m ∧ m.hits = [false] ∧ m.births = [true] ∧ (m.table.proc 1).killed = true ∧
      m.blamed 1 = false := by
  have hrun : (exec step boot [.call (.sched 0 .running), .call (.kill 0 0),
      .call (.fork 0 true true)]).any (fun m => m.hits = [false] ∧ m.births = [true] ∧
        (m.table.proc 1).killed = true ∧ m.blamed 1 = false) := by decide +kernel
  obtain ⟨m, hm, hall⟩ := (any_eq_true _ _).1 hrun
  exact ⟨m, hm, of_decide_eq_true hall⟩

end KillLog

end AudioPlayer
