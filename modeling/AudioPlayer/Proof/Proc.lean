import AudioPlayer.Spec.Proc

/-!
# What the calls do to the process table

`fork_spec`, `exit_spec`, `wait_spec` and `kill_spec` say what a call does to the slots. From
them: the steps of the other processes leave the children of a process alone (`step_children`).
-/

namespace AudioPlayer

open Option

namespace ProcTable

variable {t t' : ProcTable} {p q s : Slot}

theorem mem_children : s ∈ t.children q ↔ (t.proc s).state ≠ .unused ∧ (t.proc s).parent = some q := by
  simp [children]

/-- What is written to a slot decides about that slot only. -/
theorem children_set (pr : Proc) : (t.set s pr).children q =
    if pr.state ≠ .unused ∧ pr.parent = some q then insert s (t.children q)
    else (t.children q).erase s := by
  ext u
  by_cases hu : u = s
  · subst hu
    split <;> simp_all [mem_children, set]
  · split <;> simp_all [mem_children, set]

/-- A write that keeps the parent of a slot in use keeps the children. -/
theorem children_set_same {pr : Proc} (hstate : pr.state = .unused ↔ (t.proc s).state = .unused)
    (hparent : pr.parent = (t.proc s).parent) : (t.set s pr).children q = t.children q := by
  have hmem : (pr.state ≠ .unused ∧ pr.parent = some q) ↔ s ∈ t.children q := by
    rw [mem_children, hparent, Ne, Ne, hstate]
  rw [children_set]
  split
  · exact Finset.insert_eq_of_mem (hmem.1 ‹_›)
  · exact Finset.erase_eq_of_notMem (mt hmem.2 ‹_›)

theorem freeproc_children (h : s ∉ t.children q) : (t.freeproc s).children q = t.children q := by
  rw [freeproc, children_set, if_neg (by simp), Finset.erase_eq_of_notMem h]

/-- **What `kill` does.** It finds no slot with the pid, or it marks one, and wakes its process
up. -/
theorem kill_spec (t : ProcTable) (pid : ℤ) :
    ((t.kill pid).2 = -1 ∧ (t.kill pid).1 = t ∧ ∀ s, ((t.proc s).pid : ℤ) ≠ pid) ∨
      ∃ s state, (t.kill pid).2 = 0 ∧ ((t.proc s).pid : ℤ) = pid ∧
        (state = (t.proc s).state ∨ ((t.proc s).state = .sleeping ∧ state = .runnable)) ∧
        (t.kill pid).1 = t.set s { t.proc s with killed := true, state := state } := by
  unfold kill
  split
  · rename_i hnone
    refine Or.inl ⟨rfl, rfl, fun s => ?_⟩
    have := List.find?_eq_none.1 hnone s (List.mem_finRange s)
    simpa using this
  · rename_i s hfind
    refine Or.inr ⟨s, _, rfl, by simpa using List.find?_some hfind, ?_, rfl⟩
    split
    · rename_i hsleep
      exact Or.inr ⟨hsleep, rfl⟩
    · exact Or.inl rfl

theorem kill_children (t : ProcTable) (pid : ℤ) (q : Slot) :
    (t.kill pid).1.children q = t.children q := by
  rcases kill_spec t pid with ⟨-, heq, -⟩ | ⟨s, state, -, -, hstate, heq⟩
  · rw [heq]
  · rw [heq]
    refine children_set_same ?_ rfl
    rcases hstate with rfl | ⟨hsleep, rfl⟩
    · rfl
    · simp [hsleep]

theorem kill_initproc (t : ProcTable) (pid : ℤ) : (t.kill pid).1.initproc = t.initproc := by
  rcases kill_spec t pid with ⟨-, heq, -⟩ | ⟨s, state, -, -, -, heq⟩
  · rw [heq]
  · rw [heq]
    rfl

theorem findUnused_spec (h : t.findUnused = some s) : (t.proc s).state = .unused := by
  simpa using List.find?_some h

/-- `kill` neither takes nor frees a slot. -/
theorem kill_findUnused (t : ProcTable) (pid : ℤ) : (t.kill pid).1.findUnused = t.findUnused := by
  unfold findUnused
  congr 1
  funext u
  rcases kill_spec t pid with ⟨-, heq, -⟩ | ⟨s, state, -, -, hstate, heq⟩
  · rw [heq]
  · rw [heq]
    by_cases hu : u = s
    · subst hu
      rcases hstate with rfl | ⟨hsleep, rfl⟩ <;> simp_all [set]
    · simp [set, Function.update_of_ne hu]

/-- **What `fork` does.** It finds no slot, or it takes the first one that is unused: for a child
of `p`, or to give it back when memory is missing. -/
theorem fork_spec {mem copy : Bool} {r : Option ℕ} (h : t.fork p mem copy = some (t', r)) :
    (r = none ∧ t.findUnused = none ∧ t' = t) ∨
      ∃ s, t.findUnused = some s ∧
        ((r = none ∧ ¬ (mem ∧ copy) ∧ t' = { t with nextpid := t.nextpid + 1 }.freeproc s) ∨
          (r = some t.nextpid ∧ mem ∧ copy ∧ t' = { t with nextpid := t.nextpid + 1 }.set s
            ⟨.runnable, (t.proc s).killed, (t.proc s).xstate, t.nextpid, some p⟩)) := by
  obtain ⟨⟨t1, np⟩, halloc, h⟩ := map_eq_some_iff.1 h
  unfold allocproc at halloc
  split at halloc
  · rename_i hfind
    cases halloc
    obtain ⟨rfl, rfl⟩ := Prod.mk.inj h
    exact Or.inl ⟨rfl, hfind, rfl⟩
  · rename_i s hfind
    refine Or.inr ⟨s, hfind, ?_⟩
    obtain ⟨⟨t2, pid⟩, hpid, halloc⟩ := map_eq_some_iff.1 halloc
    unfold allocpid at hpid
    obtain ⟨-, hpid⟩ := ite_none_right_eq_some.1 hpid
    cases hpid
    simp only at halloc
    -- a slot that is given back has been written twice
    cases mem with
    | false =>
      simp only [Bool.false_eq_true, if_false, Prod.mk.injEq] at halloc
      obtain ⟨rfl, rfl⟩ := halloc
      obtain ⟨rfl, rfl⟩ := Prod.mk.inj h
      exact Or.inl ⟨rfl, by simp, by simp [freeproc, set]⟩
    | true =>
      simp only [if_true, Prod.mk.injEq] at halloc
      obtain ⟨rfl, rfl⟩ := halloc
      cases copy with
      | false =>
        simp only [Bool.false_eq_true, if_false, Prod.mk.injEq] at h
        obtain ⟨rfl, rfl⟩ := h
        exact Or.inl ⟨rfl, by simp, by simp [freeproc, set]⟩
      | true =>
        simp only [if_true, Prod.mk.injEq] at h
        obtain ⟨rfl, rfl⟩ := h
        exact Or.inr ⟨by simp [set], rfl, rfl, by simp [set]⟩

/-- Only a `fork` that succeeds gives a process a child. -/
theorem fork_cases {mem copy : Bool} {r : Option ℕ} (h : t.fork p mem copy = some (t', r)) :
    t'.initproc = t.initproc ∧
    ((r = none ∧ ¬ (t.findUnused.isSome ∧ mem ∧ copy) ∧ ∀ q, t'.children q = t.children q) ∨
      ∃ s, r.isSome ∧ t.findUnused = some s ∧ mem ∧ copy ∧
        ∀ q, t'.children q = if q = p then insert s (t.children p) else t.children q) := by
  rcases fork_spec h with ⟨rfl, hfind, rfl⟩ | ⟨s, hfind, ⟨rfl, hno, rfl⟩ | ⟨rfl, hmem, hcopy, rfl⟩⟩
  · exact ⟨rfl, Or.inl ⟨rfl, by simp [hfind], fun _ => rfl⟩⟩
  · refine ⟨rfl, Or.inl ⟨rfl, fun hyes => hno hyes.2, fun q => ?_⟩⟩
    exact freeproc_children (by simp [mem_children, findUnused_spec hfind])
  · refine ⟨rfl, Or.inr ⟨s, rfl, hfind, hmem, hcopy, fun q => ?_⟩⟩
    rw [children_set]
    by_cases hq : q = p
    · rw [if_pos ⟨by simp, by rw [hq]⟩, if_pos hq, hq]
      rfl
    · rw [if_neg (by simp [Ne.symm hq]), if_neg hq]
      exact Finset.erase_eq_of_notMem (by simp [mem_children, findUnused_spec hfind])

/-- **What `exit` does**, of any process but the first. -/
theorem exit_spec {status : ℤ} (h : t.exit p status = some t') :
    p ≠ t.initproc ∧ t' = (t.reparent p).set p
      { (t.reparent p).proc p with xstate := status, state := .zombie } := by
  unfold exit at h
  obtain ⟨hne, h⟩ := ite_none_left_eq_some.1 h
  exact ⟨hne, (some.inj h).symm⟩

/-- `reparent` writes parents only. -/
theorem reparent_proc (t : ProcTable) (p s : Slot) : (t.reparent p).proc s =
    { t.proc s with
      parent := if (t.proc s).parent = some p then some t.initproc else (t.proc s).parent } := by
  simp only [reparent]
  split <;> rfl

theorem exit_children {status : ℤ} (hq : q ≠ p) (hinit : q ≠ t.initproc)
    (hlive : (t.proc p).state ≠ .unused) (h : t.exit p status = some t') :
    t'.initproc = t.initproc ∧ t'.children q = t.children q := by
  obtain ⟨-, rfl⟩ := exit_spec h
  refine ⟨rfl, ?_⟩
  have hset : ((t.reparent p).set p
      { (t.reparent p).proc p with xstate := status, state := .zombie }).children q =
      (t.reparent p).children q :=
    children_set_same (by simp [reparent_proc, hlive]) rfl
  refine hset.trans ?_
  ext s
  rw [mem_children, mem_children, reparent_proc]
  dsimp only
  split
  · rename_i hp
    simp [hp, hinit.symm, hq.symm]
  · rfl

/-- **What `wait` does.** It frees a child that has exited, or nothing. -/
theorem wait_spec {copy : Bool} {r : ℤ} (h : t.wait p copy = some (t', r)) :
    t' = t ∨ ∃ s, (t.proc s).parent = some p ∧ (t.proc s).state = .zombie ∧ t' = t.freeproc s := by
  unfold wait at h
  split at h
  · rename_i s hfind
    obtain ⟨hparent, hzombie⟩ : (t.proc s).parent = some p ∧ (t.proc s).state = .zombie := by
      simpa using List.find?_some hfind
    split at h
    · exact Or.inr ⟨s, hparent, hzombie, (Prod.mk.inj (some.inj h)).1.symm⟩
    · exact Or.inl (Prod.mk.inj (some.inj h)).1.symm
  · obtain ⟨-, h⟩ := ite_none_right_eq_some.1 h
    exact Or.inl (Prod.mk.inj (some.inj h)).1.symm

theorem wait_children {copy : Bool} {r : ℤ} (hq : q ≠ p) (h : t.wait p copy = some (t', r)) :
    t'.initproc = t.initproc ∧ t'.children q = t.children q := by
  rcases wait_spec h with rfl | ⟨s, hparent, -, rfl⟩
  · exact ⟨rfl, rfl⟩
  · exact ⟨rfl, freeproc_children (by simp [mem_children, hparent, hq.symm])⟩

/-- **The other processes leave the children of a process alone.** They fork children of
their own, wait for their own, and only `initproc` inherits. -/
theorem step_children {a : ProcStep} (hq : q ≠ a.actor ∨ ∃ p state, a = .sched p state)
    (hinit : q ≠ t.initproc) (h : t.step a = some t') :
    t'.initproc = t.initproc ∧ t'.children q = t.children q := by
  cases a with
  | fork p mem copy =>
    simp only [step] at h
    split at h
    · obtain ⟨⟨t1, r⟩, ht, rfl⟩ := map_eq_some_iff.1 h
      have hne : q ≠ p := by simpa [ProcStep.actor] using hq
      obtain ⟨hi, ⟨-, -, hc⟩ | ⟨s, -, -, -, -, hc⟩⟩ := fork_cases ht
      · exact ⟨hi, hc q⟩
      · exact ⟨hi, (hc q).trans (if_neg hne)⟩
    · simp at h
  | exit p status =>
    simp only [step] at h
    split at h
    · rename_i hrun
      exact exit_children (by simpa [ProcStep.actor] using hq) hinit (by simp [hrun]) h
    · simp at h
  | wait p copy =>
    simp only [step] at h
    split at h
    · obtain ⟨⟨t1, r⟩, ht, rfl⟩ := map_eq_some_iff.1 h
      exact wait_children (by simpa [ProcStep.actor] using hq) ht
    · simp at h
  | kill p pid =>
    simp only [step] at h
    split at h
    · cases h
      exact ⟨kill_initproc t pid, kill_children t pid q⟩
    · simp at h
  | sched p state =>
    simp only [step] at h
    split at h
    · rename_i hlive
      cases h
      have hne : ∀ {st : ProcState}, st.live = true → st ≠ .unused := by
        rintro st hst rfl
        simp [ProcState.live] at hst
      exact ⟨rfl, children_set_same (by simp [hne hlive.1, hne hlive.2]) rfl⟩
    · simp at h

end ProcTable

end AudioPlayer
