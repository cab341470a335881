import AudioPlayer.Spec.ProcTree

/-!
# The process tree and its reaping

The invariant has four parts. `Family`: the parent of a process is alive. `Pids`: a pid is used
once, and a process that has exited leaves it in its slot until a `wait` returns it. `Regions`:
what a process in the middle of a call knows, because it holds `wait_lock` or because nobody else
touches the slot of its child (`Regions.step` says what the others must keep for that). `Named`:
a process in a call has its `killed` flag from a `kill` of its pid. A step writes one slot at
most, so that each part has one lemma about a write (`Family.set`, `Pids.set`), and the steps
that take, end and free a process have their own for the pids.
-/

namespace AudioPlayer

open Function Runs List Option

theorem ProcState.live_ne {st : ProcState} (h : st.live = true) :
    st ≠ .unused ∧ st ≠ .used ∧ st ≠ .zombie := by
  cases st <;> simp_all [ProcState.live]

section Parts

variable {t t' : ProcTable} {c : Slot} {pr : Proc}

/-- The first process lives, every parent lives, and a process that has started has a parent. -/
structure Family (t : ProcTable) : Prop where
  init : (t.proc t.initproc).state.live = true
  blank : ∀ c, (t.proc c).state = .unused → (t.proc c).parent = none
  parent_live : ∀ c q, (t.proc c).parent = some q → (t.proc q).state.live = true
  parent_some : ∀ c, c ≠ t.initproc → (t.proc c).state ≠ .unused → (t.proc c).state ≠ .used →
    (t.proc c).parent ≠ none

/-- A slot may be written if its parent lives, and if it stays alive or has no children. -/
theorem Family.set (h : Family t) (hinit : c = t.initproc → pr.state.live = true)
    (hblank : pr.state = .unused → pr.parent = none)
    (hparent : ∀ q, pr.parent = some q → (t.proc q).state.live = true)
    (hsome : c ≠ t.initproc → pr.state ≠ .unused → pr.state ≠ .used → pr.parent ≠ none)
    (hkeep : (t.proc c).state.live = true →
      pr.state.live = true ∨ (∀ d, (t.proc d).parent ≠ some c) ∧ pr.parent ≠ some c) :
    Family (t.set c pr) := by
  refine ⟨?_, fun d => ?_, fun d q hd => ?_, fun d => ?_⟩
  · by_cases hi : t.initproc = c
    · simpa [ProcTable.set, hi] using hinit hi.symm
    · simpa [ProcTable.set, hi] using h.init
  · by_cases hd : d = c
    · simpa [ProcTable.set, hd] using hblank
    · simpa [ProcTable.set, hd] using h.blank d
  · have hold : (t.proc q).state.live = true := by
      by_cases hdc : d = c
      · exact hparent q (by simpa [ProcTable.set, hdc] using hd)
      · exact h.parent_live d q (by simpa [ProcTable.set, hdc] using hd)
    by_cases hq : q = c
    · subst hq
      rcases hkeep hold with hlive | ⟨hnone, hself⟩
      · simpa [ProcTable.set] using hlive
      · by_cases hdc : d = q
        · exact absurd (by simpa [ProcTable.set, hdc] using hd) hself
        · exact absurd (by simpa [ProcTable.set, hdc] using hd) (hnone d)
    · simpa [ProcTable.set, hq] using hold
  · by_cases hd : d = c
    · simpa [ProcTable.set, hd] using hsome
    · simpa [ProcTable.set, hd] using h.parent_some d

/-- A result is the pid and the status of a child that has exited, returned to its parent; or it
is -1 for a reason. -/
def WaitResult.OK (exits : List (ℕ × ℤ)) : WaitResult → Prop
  | .reaped caller pid status parent => parent = some caller ∧ (pid, status) ∈ exits
  | .failed noChild killed copyFailed => noChild = true ∨ killed = true ∨ copyFailed = true

theorem WaitResult.OK.mono {exits exits' : List (ℕ × ℤ)} {r : WaitResult} (h : r.OK exits)
    (hsub : exits ⊆ exits') : r.OK exits' := by
  cases r with
  | reaped caller pid status parent => exact ⟨h.1, hsub h.2⟩
  | failed a b c => exact h

/-- A pid is in one slot; it is among the exits when its process has exited, and among the
returned ones when its slot is free again. -/
structure Pids (t : ProcTable) (exits : List (ℕ × ℤ)) (results : List WaitResult) : Prop where
  lt : ∀ c, (t.proc c).pid < t.nextpid
  inj : ∀ c d, (t.proc c).state ≠ .unused → (t.proc d).state ≠ .unused →
    (t.proc c).pid = (t.proc d).pid → c = d
  zombie : ∀ c, (t.proc c).state = .zombie → ((t.proc c).pid, (t.proc c).xstate) ∈ exits
  exits_lt : ∀ e ∈ exits, e.1 < t.nextpid
  exits_nodup : (exits.map Prod.fst).Nodup
  running : ∀ c, (t.proc c).state ≠ .unused → (t.proc c).state ≠ .zombie →
    (t.proc c).pid ∉ exits.map Prod.fst
  returned_nodup : (returned results).Nodup
  held : ∀ c, (t.proc c).state ≠ .unused → (t.proc c).pid ∉ returned results
  ok : ∀ r ∈ results, r.OK exits

variable {exits : List (ℕ × ℤ)} {results : List WaitResult}

/-- A pid that has been returned has been given out. -/
theorem Pids.returned_lt (h : Pids t exits results) {pid : ℕ} (hpid : pid ∈ returned results) :
    pid < t.nextpid := by
  obtain ⟨r, hr, hrpid⟩ := mem_filterMap.1 hpid
  have hok := h.ok r hr
  cases r with
  | reaped caller pid' status parent =>
    cases hrpid
    exact h.exits_lt _ hok.2
  | failed a b c => cases hrpid

/-- Writes that leave the pid, and that neither take, nor end, nor free a process. -/
theorem Pids.set (h : Pids t exits results) (hpid : pr.pid = (t.proc c).pid)
    (hunused : pr.state = .unused ↔ (t.proc c).state = .unused)
    (hzombie : pr.state = .zombie ↔ (t.proc c).state = .zombie)
    (hxstate : pr.xstate = (t.proc c).xstate) : Pids (t.set c pr) exits results := by
  -- what the invariant reads of a slot has not changed
  have hsame : ∀ d, ((t.set c pr).proc d).pid = (t.proc d).pid ∧
      ((t.set c pr).proc d).xstate = (t.proc d).xstate ∧
      (((t.set c pr).proc d).state = .unused ↔ (t.proc d).state = .unused) ∧
      (((t.set c pr).proc d).state = .zombie ↔ (t.proc d).state = .zombie) := by
    intro d
    by_cases hd : d = c
    · subst hd
      simp [ProcTable.set, hpid, hxstate, hunused, hzombie]
    · simp [ProcTable.set, hd]
  refine ⟨fun d => ?_, fun d e => ?_, fun d => ?_, h.exits_lt, h.exits_nodup, fun d => ?_,
    h.returned_nodup, fun d => ?_, h.ok⟩
  · rw [(hsame d).1]
    exact h.lt d
  · rw [(hsame d).1, (hsame e).1, Ne, Ne, (hsame d).2.2.1, (hsame e).2.2.1]
    exact h.inj d e
  · rw [(hsame d).1, (hsame d).2.1, (hsame d).2.2.2]
    exact h.zombie d
  · rw [(hsame d).1, Ne, Ne, (hsame d).2.2.1, (hsame d).2.2.2]
    exact h.running d
  · rw [(hsame d).1, Ne, (hsame d).2.2.1]
    exact h.held d

/-- The next pid is given to a slot that was free, or it is skipped. -/
theorem Pids.alloc (h : Pids t exits results) (hc : (t.proc c).state = .unused)
    (hnew : pr.state = .used ∧ pr.pid = t.nextpid ∨ pr.state = .unused ∧ pr.pid = 0) :
    Pids ({ t with nextpid := t.nextpid + 1 }.set c pr) exits results := by
  have hexit : t.nextpid ∉ exits.map Prod.fst := by
    intro hmem
    obtain ⟨e, he, heq⟩ := mem_map.1 hmem
    exact absurd (h.exits_lt e he) (by omega)
  have hret : t.nextpid ∉ returned results := fun hmem => absurd (h.returned_lt hmem) (by omega)
  have hother : ∀ d, (t.proc d).pid ≠ t.nextpid := fun d => (h.lt d).ne
  refine ⟨fun d => ?_, fun d e => ?_, fun d => ?_, fun e he => ?_, h.exits_nodup, fun d => ?_,
    h.returned_nodup, fun d => ?_, h.ok⟩
  · have := h.lt d
    by_cases hd : d = c
    · rcases hnew with ⟨-, hp⟩ | ⟨-, hp⟩ <;> simp [ProcTable.set, hd, hp]
    · simp only [ProcTable.set, update_of_ne hd]
      omega
  · by_cases hd : d = c <;> by_cases he : e = c
    · rw [hd, he]
      exact fun _ _ _ => rfl
    · subst hd
      simp only [ProcTable.set, update_self, update_of_ne he]
      rcases hnew with ⟨-, hp⟩ | ⟨hs, -⟩
      · exact fun _ _ heq => absurd (heq.symm.trans hp) (hother e)
      · exact fun hne => absurd hs hne
    · subst he
      simp only [ProcTable.set, update_self, update_of_ne hd]
      rcases hnew with ⟨-, hp⟩ | ⟨hs, -⟩
      · exact fun _ _ heq => absurd (heq.trans hp) (hother d)
      · exact fun _ hne => absurd hs hne
    · simpa [ProcTable.set, hd, he] using h.inj d e
  · by_cases hd : d = c
    · rcases hnew with ⟨hs, -⟩ | ⟨hs, -⟩ <;> simp [ProcTable.set, hd, hs]
    · simpa [ProcTable.set, hd] using h.zombie d
  · exact (h.exits_lt e he).trans (Nat.lt_succ_self _)
  · by_cases hd : d = c
    · subst hd
      simp only [ProcTable.set, update_self]
      rcases hnew with ⟨-, hp⟩ | ⟨hs, -⟩
      · exact fun _ _ => hp ▸ hexit
      · exact fun hne => absurd hs hne
    · simpa [ProcTable.set, hd] using h.running d
  · by_cases hd : d = c
    · subst hd
      simp only [ProcTable.set, update_self]
      rcases hnew with ⟨-, hp⟩ | ⟨hs, -⟩
      · exact fun _ => hp ▸ hret
      · exact fun hne => absurd hs hne
    · simpa [ProcTable.set, hd] using h.held d

/-- A process exits. -/
theorem Pids.exit (h : Pids t exits results) (hlive : (t.proc c).state.live = true) (status : ℤ) :
    Pids (t.set c { t.proc c with xstate := status, state := .zombie })
      (((t.proc c).pid, status) :: exits) results := by
  obtain ⟨hunused, -, hzombie⟩ := ProcState.live_ne hlive
  have hpid : ∀ d, ((t.set c { t.proc c with xstate := status, state := .zombie }).proc d).pid =
      (t.proc d).pid := by
    intro d
    by_cases hd : d = c
    · subst hd
      simp [ProcTable.set]
    · simp [ProcTable.set, hd]
  have huse : ∀ d, ((t.set c { t.proc c with xstate := status, state := .zombie }).proc d).state ≠
      .unused → (t.proc d).state ≠ .unused := by
    intro d
    by_cases hd : d = c
    · exact fun _ => hd ▸ hunused
    · simp [ProcTable.set, hd]
  refine ⟨fun d => ?_, fun d e hd he heq => ?_, fun d hd => ?_, fun e he => ?_, ?_,
    fun d hd hz => ?_, h.returned_nodup, fun d hd => ?_, fun r hr => ?_⟩
  · rw [hpid]
    exact h.lt d
  · rw [hpid, hpid] at heq
    exact h.inj d e (huse d hd) (huse e he) heq
  · by_cases hdc : d = c
    · subst hdc
      simp [ProcTable.set]
    · have hd' : (t.proc d).state = .zombie := by simpa [ProcTable.set, hdc] using hd
      simpa [ProcTable.set, hdc] using Or.inr (h.zombie d hd')
  · rcases mem_cons.1 he with rfl | he
    · exact h.lt c
    · exact h.exits_lt e he
  · exact nodup_cons.2 ⟨h.running c hunused hzombie, h.exits_nodup⟩
  · have hdc : d ≠ c := by
      rintro rfl
      exact hz (by simp [ProcTable.set])
    have hz' : (t.proc d).state ≠ .zombie := by simpa [ProcTable.set, hdc] using hz
    have hne : (t.proc d).pid ≠ (t.proc c).pid := fun heq => hdc (h.inj d c (huse d hd) hunused heq)
    rw [hpid, map_cons, mem_cons, not_or]
    exact ⟨hne, h.running d (huse d hd) hz'⟩
  · rw [hpid]
    exact h.held d (huse d hd)
  · exact (h.ok r hr).mono (subset_cons_self _ _)

/-- A `wait` of its parent frees a process that has exited. -/
theorem Pids.reap (h : Pids t exits results) (hz : (t.proc c).state = .zombie) {p : Slot}
    (hparent : (t.proc c).parent = some p) :
    Pids (t.freeproc c) exits
      (.reaped p (t.proc c).pid (t.proc c).xstate (t.proc c).parent :: results) := by
  have hunused : (t.proc c).state ≠ .unused := by simp [hz]
  have hold : ∀ d, ((t.freeproc c).proc d).state ≠ .unused →
      d ≠ c ∧ (t.freeproc c).proc d = t.proc d := by
    intro d hd
    have hdc : d ≠ c := by
      rintro rfl
      exact hd (by simp [ProcTable.freeproc, ProcTable.set])
    exact ⟨hdc, by simp [ProcTable.freeproc, ProcTable.set, hdc]⟩
  refine ⟨fun d => ?_, fun d e hd he => ?_, fun d hd => ?_, h.exits_lt, h.exits_nodup,
    fun d hd => ?_, ?_, fun d hd => ?_, fun r hr => ?_⟩
  · by_cases hd : d = c
    · have := h.lt d
      simp only [ProcTable.freeproc, ProcTable.set, hd, update_self]
      omega
    · simpa [ProcTable.freeproc, ProcTable.set, hd] using h.lt d
  · have hd' := (hold d hd).2
    have he' := (hold e he).2
    rw [hd'] at hd ⊢
    rw [he'] at he ⊢
    exact h.inj d e hd he
  · have hu : ((t.freeproc c).proc d).state ≠ .unused := by simp [hd]
    rw [(hold d hu).2] at hd ⊢
    exact h.zombie d hd
  · have hd' := (hold d hd).2
    rw [hd'] at hd ⊢
    exact h.running d hd
  · exact nodup_cons.2 ⟨h.held c hunused, h.returned_nodup⟩
  · obtain ⟨hdc, heq⟩ := hold d hd
    rw [heq] at hd ⊢
    have hne : (t.proc d).pid ≠ (t.proc c).pid := fun hpid => hdc (h.inj d c hd hunused hpid)
    exact not_mem_cons_of_ne_of_not_mem hne (h.held d hd)
  · rcases mem_cons.1 hr with rfl | hr
    · exact ⟨hparent, h.zombie c hz⟩
    · exact h.ok r hr

/-- A `wait` fails. -/
theorem Pids.fail (h : Pids t exits results) {a b d : Bool}
    (hwhy : a = true ∨ b = true ∨ d = true) : Pids t exits (.failed a b d :: results) := by
  refine ⟨h.lt, h.inj, h.zombie, h.exits_lt, h.exits_nodup, h.running, h.returned_nodup, h.held,
    fun r hr => ?_⟩
  rcases mem_cons.1 hr with rfl | hr
  · exact hwhy
  · exact h.ok r hr

/-- The child a `fork` is working on. -/
def TreePc.child : TreePc → Option Slot
  | .adopt c | .publish c => some c
  | _ => none

/-- What a process knows in the middle of its call. -/
def TreePc.OK (t : ProcTable) (lock : Option Slot) (p : Slot) : TreePc → Prop
  | .adopt c => (t.proc c).state = .used ∧ (t.proc c).parent = none
  | .publish c => (t.proc c).state = .used ∧ (t.proc c).parent = some p
  | .reparent _ i =>
    lock = some p ∧ p ≠ t.initproc ∧ ∀ j : Slot, j.val < i → (t.proc j).parent ≠ some p
  | .reap i havekids =>
    lock = some p ∧ (havekids = false → ∀ j : Slot, j.val < i → (t.proc j).parent ≠ some p)
  | _ => True

structure Regions (t : ProcTable) (lock : Option Slot) (pc : Slot → TreePc) : Prop where
  live : ∀ p, pc p ≠ .user → (t.proc p).state.live = true
  ok : ∀ p, (pc p).OK t lock p
  child : ∀ p q c, (pc p).child = some c → (pc q).child = some c → p = q

variable {lock lock' : Option Slot} {pc : Slot → TreePc} {a : Slot} {x : TreePc}

/-- A child that `fork` has not finished is in state USED. -/
theorem Regions.child_used (h : Regions t lock pc) {p d : Slot} (hd : (pc p).child = some d) :
    (t.proc d).state = .used := by
  have hok := h.ok p
  cases hp : pc p <;> rw [hp] at hd hok <;> simp only [TreePc.child, reduceCtorEq] at hd
  case adopt => exact some.inj hd ▸ hok.1
  case publish => exact some.inj hd ▸ hok.1

/-- The parent of a child that `fork` has not finished is `fork`'s caller, if it has one. -/
theorem Regions.child_parent (h : Regions t lock pc) {p q d : Slot} (hd : (pc p).child = some d)
    (hq : (t.proc d).parent = some q) : q = p := by
  have hok := h.ok p
  cases hp : pc p <;> rw [hp] at hd hok <;> simp only [TreePc.child, reduceCtorEq] at hd
  case adopt =>
    cases hd
    exact nomatch hq.symm.trans hok.2
  case publish =>
    cases hd
    exact some.inj (hq.symm.trans hok.2)

/-- What a process knows stays true while it keeps `wait_lock` and the slot of its unfinished
child, and gets no child if it holds `wait_lock`. -/
theorem TreePc.OK.mono {p : Slot} (h : x.OK t lock p) (hinit : t'.initproc = t.initproc)
    (hlock : lock = some p → lock' = some p)
    (hkids : lock = some p → ∀ j, (t'.proc j).parent = some p → (t.proc j).parent = some p)
    (hchild : ∀ d, x.child = some d →
      (t'.proc d).state = (t.proc d).state ∧ (t'.proc d).parent = (t.proc d).parent) :
    x.OK t' lock' p := by
  cases x <;> simp only [TreePc.OK] at h ⊢
  case adopt d =>
    obtain ⟨hs, hpar⟩ := hchild d rfl
    rwa [hs, hpar]
  case publish d =>
    obtain ⟨hs, hpar⟩ := hchild d rfl
    rwa [hs, hpar]
  case reparent status i =>
    obtain ⟨hl, hne, hnone⟩ := h
    exact ⟨hlock hl, hinit ▸ hne, fun j hj hj' => hnone j hj (hkids hl j hj')⟩
  case reap i havekids =>
    obtain ⟨hl, hnone⟩ := h
    exact ⟨hlock hl, fun hk j hj hj' => hnone hk j hj (hkids hl j hj')⟩

/-- **What the others must keep.** Process `a` goes on to `x`. The others stay alive, keep
`wait_lock` and the slots of their unfinished children, and who holds `wait_lock` gets no child. -/
theorem Regions.step (h : Regions t lock pc) (hinit : t'.initproc = t.initproc)
    (hlive : ∀ p ≠ a, (t.proc p).state.live = true → (t'.proc p).state.live = true)
    (hlock : ∀ p ≠ a, lock = some p → lock' = some p)
    (hkids : ∀ p ≠ a, lock = some p → ∀ j, (t'.proc j).parent = some p →
      (t.proc j).parent = some p)
    (hchild : ∀ p d, p ≠ a → (pc p).child = some d →
      (t'.proc d).state = (t.proc d).state ∧ (t'.proc d).parent = (t.proc d).parent)
    (hself : x ≠ .user → (t'.proc a).state.live = true) (hx : x.OK t' lock' a)
    (hfresh : ∀ d, x.child = some d → ∀ p ≠ a, (pc p).child ≠ some d) :
    Regions t' lock' (update pc a x) := by
  refine ⟨fun p hp => ?_, fun p => ?_, fun p q d hp hq => ?_⟩
  · by_cases hpa : p = a
    · subst hpa
      exact hself (by simpa using hp)
    · rw [update_of_ne hpa] at hp
      exact hlive p hpa (h.live p hp)
  · by_cases hpa : p = a
    · subst hpa
      simpa using hx
    · rw [update_of_ne hpa]
      exact (h.ok p).mono hinit (hlock p hpa) (hkids p hpa) (fun d => hchild p d hpa)
  · by_cases hpa : p = a <;> by_cases hqa : q = a
    · rw [hpa, hqa]
    · subst hpa
      rw [update_self] at hp
      rw [update_of_ne hqa] at hq
      exact absurd hq (hfresh d hp q hqa)
    · subst hqa
      rw [update_self] at hq
      rw [update_of_ne hpa] at hp
      exact absurd hp (hfresh d hq p hpa)
    · rw [update_of_ne hpa] at hp
      rw [update_of_ne hqa] at hq
      exact h.child p q d hp hq

/-- The same for the write of one slot. -/
theorem Regions.set (h : Regions t lock pc) (hproc : t'.proc = update t.proc c pr)
    (hinit : t'.initproc = t.initproc)
    (hlive : (t.proc c).state.live = true → pr.state.live = true ∨ c = a ∧ x = .user)
    (hlock : ∀ p ≠ a, lock = some p → lock' = some p)
    (hkids : ∀ p ≠ a, lock = some p → pr.parent = some p → (t.proc c).parent = some p)
    (hchild : ∀ p ≠ a, (pc p).child = some c →
      pr.state = (t.proc c).state ∧ pr.parent = (t.proc c).parent)
    (hself : (t.proc a).state.live = true) (hx : x.OK t' lock' a)
    (hfresh : ∀ d, x.child = some d → ∀ p ≠ a, (pc p).child ≠ some d) :
    Regions t' lock' (update pc a x) := by
  have hold : ∀ {d}, d ≠ c → t'.proc d = t.proc d := fun hd => by
    rw [hproc, update_of_ne hd]
  have hnew : t'.proc c = pr := by rw [hproc, update_self]
  refine h.step hinit (fun p hp hl => ?_) hlock (fun p hp hl j hj => ?_) (fun p d hp hd => ?_)
    (fun hne => ?_) hx hfresh
  · by_cases hpc : p = c
    · subst hpc
      rw [hnew]
      exact (hlive hl).resolve_right fun hpa => hp hpa.1
    · rwa [hold hpc]
  · by_cases hjc : j = c
    · subst hjc
      rw [hnew] at hj
      exact hkids p hp hl hj
    · rwa [hold hjc] at hj
  · by_cases hdc : d = c
    · subst hdc
      rw [hnew]
      exact hchild p hp hd
    · rw [hold hdc]
      exact ⟨rfl, rfl⟩
  · by_cases hac : a = c
    · subst hac
      rw [hnew]
      exact (hlive hself).resolve_right fun hx => hne hx.2
    · rwa [hold hac]

/-- The same where the table does not change. -/
theorem Regions.move (h : Regions t lock pc) (hlive : (t.proc a).state.live = true)
    (hlock : ∀ p ≠ a, lock = some p → lock' = some p) (hx : x.OK t lock' a)
    (hnone : x.child = none) : Regions t lock' (update pc a x) :=
  h.step rfl (fun _ _ hp => hp) hlock (fun _ _ _ _ hj => hj) (fun _ _ _ _ => ⟨rfl, rfl⟩)
    (fun _ => hlive) hx (fun d hd => by rw [hnone] at hd; cases hd)

/-- `wait` is going on. -/
def TreePc.waits : TreePc → Bool
  | .wait | .reap _ _ => true
  | _ => false

/-- A process in `wait` has its `killed` flag from a `kill` of its pid. -/
def Named (t : ProcTable) (kills : List ℕ) (pc : Slot → TreePc) : Prop :=
  ∀ p, (pc p).waits = true → (t.proc p).killed = true → (t.proc p).pid ∈ kills

variable {kills : List ℕ}

/-- A slot is written and process `a` goes on; `wait` begins without the flag. -/
theorem Named.step (h : Named t kills pc)
    (hkeep : ∀ p, (pc p).waits = true → (t'.proc p).pid = (t.proc p).pid ∧
      ((t'.proc p).killed = true → (t.proc p).killed = true))
    (ha : x.waits = true → (pc a).waits = true ∨ (t'.proc a).killed = false) :
    Named t' kills (update pc a x) := by
  intro p hp hkilled
  have hold : (pc p).waits = true := by
    by_cases hpa : p = a
    · subst hpa
      rcases ha (by simpa using hp) with hpc | hk
      · exact hpc
      · rw [hk] at hkilled
        cases hkilled
    · rwa [update_of_ne hpa] at hp
  obtain ⟨hpid, hk⟩ := hkeep p hold
  rw [hpid]
  exact h p hold (hk hkilled)

/-- `Named` looks only at the slots of the processes in `wait`, and those are alive. -/
theorem Regions.waits_live (h : Regions t lock pc) {p : Slot} (hp : (pc p).waits = true) :
    (t.proc p).state.live = true := by
  refine h.live p fun hu => ?_
  rw [hu] at hp
  cases hp

/-- A write that leaves the pid and the `killed` flag, or is not to a live process. -/
theorem Named.set (h : Named t kills pc) (hreg : Regions t lock pc)
    (hproc : t'.proc = update t.proc c pr)
    (hc : (t.proc c).state.live = true →
      pr.pid = (t.proc c).pid ∧ pr.killed = (t.proc c).killed)
    (ha : x.waits = true → (pc a).waits = true) : Named t' kills (update pc a x) := by
  refine h.step (fun p hp => ?_) (fun hx => Or.inl (ha hx))
  by_cases hpc : p = c
  · subst hpc
    rw [hproc, update_self]
    obtain ⟨hpid, hk⟩ := hc (hreg.waits_live hp)
    exact ⟨hpid, fun hk' => hk ▸ hk'⟩
  · rw [hproc, update_of_ne hpc]
    exact ⟨rfl, id⟩

end Parts

namespace TreeSys

variable {s s' : TreeSys} {p c : Slot} {i : ℕ} {x : TreePc} {status : ℤ} {pr : Proc} {ok : Bool}
  {l : Option Slot}

structure OK (s : TreeSys) : Prop where
  family : Family s.table
  pids : Pids s.table s.exits s.results
  regions : Regions s.table s.waitLock s.pc
  named : Named s.table s.kills s.pc

/-- A process goes on, and takes `wait_lock` or gives it up. -/
theorem OK.move (h : s.OK) (hlive : (s.table.proc p).state.live = true)
    (hlock : ∀ q ≠ p, s.waitLock = some q → l = some q) (hx : x.OK s.table l p)
    (hnone : x.child = none)
    (hcall : x.waits = true → (s.pc p).waits = true ∨ (s.table.proc p).killed = false) :
    OK { s.goto p x with waitLock := l } :=
  ⟨h.family, h.pids, h.regions.move hlive hlock hx hnone,
    h.named.step (fun _ _ => ⟨rfl, id⟩) hcall⟩

/-- The same with `wait_lock` where it is. -/
theorem OK.goto (h : s.OK) (hlive : (s.table.proc p).state.live = true)
    (hx : x.OK s.table s.waitLock p) (hnone : x.child = none)
    (hcall : x.waits = true → (s.pc p).waits = true ∨ (s.table.proc p).killed = false) :
    (s.goto p x).OK :=
  h.move hlive (fun _ _ hq => hq) hx hnone hcall

/-- Who holds `wait_lock` can give it up. -/
theorem give_up (hl : l = some p) :
    ∀ q ≠ p, l = some q → (none : Option Slot) = some q := by
  rintro q hq rfl
  exact absurd (some.inj hl) hq

theorem set_set (t : ProcTable) (c : Slot) (x y : Proc) : (t.set c x).set c y = t.set c y := by
  simp [ProcTable.set]

/-- `allocproc` takes or skips a free slot. -/
theorem OK.take (h : s.OK) (hlive : (s.table.proc p).state.live = true)
    (hc : (s.table.proc c).state = .unused)
    (hnew : pr.state = .used ∧ pr.pid = s.table.nextpid ∨ pr.state = .unused ∧ pr.pid = 0)
    (hparent : pr.parent = none) (hx : x = .user ∨ x = .adopt c ∧ pr.state = .used) :
    OK ({ s with table := { s.table with nextpid := s.table.nextpid + 1 }.set c pr }.goto p x) := by
  have hnot : ∀ q, (s.table.proc q).state.live = true → q ≠ c := by
    rintro q hq rfl
    exact (ProcState.live_ne hq).1 hc
  have hchild : ∀ q, (s.pc q).child ≠ some c := by
    intro q hq
    rw [h.regions.child_used hq] at hc
    cases hc
  have hfam : Family { s.table with nextpid := s.table.nextpid + 1 } :=
    ⟨h.family.init, h.family.blank, h.family.parent_live, h.family.parent_some⟩
  refine ⟨?_, h.pids.alloc hc hnew, ?_, ?_⟩
  · refine hfam.set (fun hi => absurd hi.symm (hnot _ h.family.init)) (fun _ => hparent) ?_ ?_ ?_
    · simp [hparent]
    · rcases hnew with ⟨hs, -⟩ | ⟨hs, -⟩ <;> simp [hs]
    · exact fun hl => absurd rfl (hnot c hl)
  · refine h.regions.set rfl rfl (fun hl => absurd rfl (hnot c hl)) (fun q _ hl => hl)
      (fun q _ _ hq => ?_) (fun q _ hq => absurd hq (hchild q)) hlive ?_ (fun d hd q _ => ?_)
    · rw [hparent] at hq
      cases hq
    · rcases hx with rfl | ⟨rfl, hs⟩
      · trivial
      · exact ⟨(congrArg Proc.state (update_self ..)).trans hs,
          (congrArg Proc.parent (update_self ..)).trans hparent⟩
    · rcases hx with rfl | ⟨rfl, -⟩
      · cases hd
      · exact some.inj hd ▸ hchild q
  · refine h.named.set h.regions rfl (fun hl => absurd rfl (hnot c hl)) ?_
    rcases hx with rfl | ⟨rfl, -⟩ <;> exact nofun

/-- `allocproc` goes on to the next slot or gives up, or it takes the slot; when memory is missing,
the pid is skipped. -/
theorem runAlloc_spec (h : s.OK) (hrun : s.runAlloc p i ok = some s') :
    (∃ x, (x = .user ∨ x = .alloc (i + 1)) ∧ s' = s.goto p x) ∨
    ∃ c pr x, (s.table.proc c).state = .unused ∧
      (pr.state = .used ∧ pr.pid = s.table.nextpid ∨ pr.state = .unused ∧ pr.pid = 0) ∧
      pr.parent = none ∧ (x = .user ∨ x = .adopt c ∧ pr.state = .used) ∧
      s' = { s with table := { s.table with nextpid := s.table.nextpid + 1 }.set c pr }.goto p x := by
  unfold runAlloc at hrun
  split at hrun
  · dsimp only at hrun
    split at hrun
    · rename_i hfree
      obtain ⟨⟨t, pid⟩, halloc, hrun⟩ := map_eq_some_iff.1 hrun
      obtain ⟨-, halloc⟩ := ite_none_right_eq_some.1 halloc
      cases halloc
      cases ok with
      | true =>
        simp only [if_true] at hrun
        obtain rfl := hrun
        refine Or.inr ⟨_, _, _, hfree, Or.inl ⟨rfl, rfl⟩, ?_, Or.inr ⟨rfl, rfl⟩, rfl⟩
        exact h.family.blank _ hfree
      | false =>
        -- the slot is freed behind the write that took it
        simp only [Bool.false_eq_true, if_false, ProcTable.freeproc, set_set] at hrun
        obtain rfl := hrun
        exact Or.inr ⟨_, _, _, hfree, Or.inr ⟨rfl, rfl⟩, rfl, Or.inl rfl, rfl⟩
    · exact Or.inl ⟨_, Or.inr rfl, (some.inj hrun).symm⟩
  · exact Or.inl ⟨_, Or.inl rfl, (some.inj hrun).symm⟩

theorem ok_runAlloc (h : s.OK) (hlive : (s.table.proc p).state.live = true)
    (hrun : s.runAlloc p i ok = some s') : s'.OK := by
  rcases runAlloc_spec h hrun with ⟨x, hx, rfl⟩ | ⟨c, pr, x, hfree, hnew, hparent, hx, rfl⟩
  · rcases hx with rfl | rfl
    · exact h.goto hlive trivial rfl nofun
    · exact h.goto hlive trivial rfl nofun
  · exact h.take hlive hfree hnew hparent hx

/-- `fork` works on the slot of its own child. -/
theorem OK.fork_step (h : s.OK) (hlive : (s.table.proc p).state.live = true)
    (hchild : (s.pc p).child = some c)
    (hpr : pr.pid = (s.table.proc c).pid ∧ pr.xstate = (s.table.proc c).xstate)
    (hstate : pr.state = .used ∨ pr.state = .runnable) (hparent : pr.parent = some p)
    (hx : x = .user ∨ x = .publish c ∧ pr.state = .used) : ((s.write c pr).goto p x).OK := by
  have hused := h.regions.child_used hchild
  have hnot : ∀ q, (s.table.proc q).state.live = true → q ≠ c := by
    rintro q hq rfl
    exact (ProcState.live_ne hq).2.1 hused
  -- nobody else works on this child
  have hown : ∀ q ≠ p, (s.pc q).child ≠ some c :=
    fun q hq hq' => hq (h.regions.child q p c hq' hchild)
  refine ⟨?_, ?_, ?_, ?_⟩
  · refine h.family.set (fun hi => absurd hi.symm (hnot _ h.family.init)) ?_ ?_ ?_ ?_
    · rcases hstate with hs | hs <;> simp [hs]
    · intro q hq
      rw [hparent] at hq
      exact some.inj hq ▸ hlive
    · simp [hparent]
    · exact fun hl => absurd rfl (hnot c hl)
  · refine h.pids.set hpr.1 ?_ ?_ hpr.2 <;> rcases hstate with hs | hs <;> simp [hs, hused]
  · refine h.regions.set rfl rfl (fun hl => absurd rfl (hnot c hl)) (fun q _ hl => hl)
      (fun q hq _ hq' => ?_) (fun q hq hq' => absurd hq' (hown q hq)) hlive ?_
      (fun d hd q hq => ?_)
    · exact absurd (some.inj (hq'.symm.trans hparent)) hq
    · rcases hx with rfl | ⟨rfl, hs⟩
      · trivial
      · exact ⟨(congrArg Proc.state (update_self ..)).trans hs,
          (congrArg Proc.parent (update_self ..)).trans hparent⟩
    · rcases hx with rfl | ⟨rfl, -⟩
      · cases hd
      · exact some.inj hd ▸ hown q hq
  · refine h.named.set h.regions rfl (fun hl => absurd rfl (hnot c hl)) ?_
    rcases hx with rfl | ⟨rfl, -⟩ <;> exact nofun

/-- A write that neither starts, ends nor frees a process, and leaves its parent. -/
theorem OK.touch (h : s.OK) {kills : List ℕ}
    (hpr : pr.pid = (s.table.proc c).pid ∧ pr.xstate = (s.table.proc c).xstate ∧
      pr.parent = (s.table.proc c).parent)
    (hstate : pr.state = (s.table.proc c).state ∨
      (s.table.proc c).state.live = true ∧ pr.state.live = true)
    (hlive : (s.table.proc p).state.live = true)
    (hlock : ∀ q ≠ p, s.waitLock = some q → l = some q)
    (hx : x.OK (s.table.set c pr) l p) (hfresh : x.child = none ∨ x = s.pc p)
    (hnamed : Named (s.table.set c pr) kills (update s.pc p x)) :
    OK { (s.write c pr).goto p x with waitLock := l, kills := kills } := by
  have hkeep : (s.table.proc c).state.live = true → pr.state.live = true := by
    rcases hstate with hs | ⟨-, hs⟩
    · exact fun hl => hs ▸ hl
    · exact fun _ => hs
  -- what is not alive stays what it is
  have hsame : ∀ st, st.live = false → (pr.state = st ↔ (s.table.proc c).state = st) := by
    rintro st hst
    rcases hstate with hs | ⟨h1, h2⟩
    · rw [hs]
    · constructor
      · rintro rfl
        simp [h2] at hst
      · rintro rfl
        simp [h1] at hst
  have hu := hsame .unused rfl
  have hus := hsame .used rfl
  refine ⟨?_, h.pids.set hpr.1 hu (hsame .zombie rfl) hpr.2.1, ?_, hnamed⟩
  · refine h.family.set (fun hi => hkeep (hi ▸ h.family.init)) ?_ ?_ ?_ (fun hl => Or.inl (hkeep hl))
    · rw [hu, hpr.2.2]
      exact h.family.blank c
    · rw [hpr.2.2]
      exact h.family.parent_live c
    · rw [hpr.2.2, Ne, Ne, Ne, hu, hus]
      exact h.family.parent_some c
  · refine h.regions.set rfl rfl (fun hl => Or.inl (hkeep hl)) hlock
      (fun q _ _ hq => hpr.2.2 ▸ hq) (fun q _ hq => ?_) hlive hx (fun d hd q hq hq' => ?_)
    · have hq' := h.regions.child_used hq
      exact ⟨(hus.2 hq').trans hq'.symm, hpr.2.2⟩
    · rcases hfresh with hf | rfl
      · rw [hf] at hd
        cases hd
      · exact hq (h.regions.child q p d hq' hd)

theorem ok_runAdopt (h : s.OK) (hlive : (s.table.proc p).state.live = true)
    (hpc : s.pc p = .adopt c) (hrun : s.runAdopt p c = some s') : s'.OK := by
  obtain ⟨-, ⟨⟩⟩ := ite_none_right_eq_some.1 hrun
  have hchild : (s.pc p).child = some c := by rw [hpc]; rfl
  have hused := h.regions.child_used hchild
  exact h.fork_step hlive hchild ⟨rfl, rfl⟩ (Or.inl hused) rfl (Or.inr ⟨rfl, hused⟩)

theorem ok_runPublish (h : s.OK) (hlive : (s.table.proc p).state.live = true)
    (hpc : s.pc p = .publish c) : (s.runPublish p c).OK := by
  have hok := h.regions.ok p
  rw [hpc] at hok
  exact h.fork_step hlive (by rw [hpc]; rfl) ⟨rfl, rfl⟩ (Or.inr rfl) hok.2 (Or.inl rfl)

/-- `reparent` gives a child to the first process. -/
theorem OK.reparent_step (h : s.OK) (hlive : (s.table.proc p).state.live = true)
    (hpc : s.pc p = .reparent status i) (hi : c.val = i) (hc : (s.table.proc c).parent = some p) :
    ((s.write c { s.table.proc c with parent := some s.table.initproc }).goto p
      (.reparent status (i + 1))).OK := by
  have hok := h.regions.ok p
  rw [hpc] at hok
  obtain ⟨hlock, hinit, hbefore⟩ := hok
  refine ⟨?_, h.pids.set rfl Iff.rfl Iff.rfl rfl, ?_, ?_⟩
  · refine h.family.set (fun hi => hi ▸ h.family.init) (fun hs => ?_) ?_ (fun _ _ _ => by simp)
      (fun hl => Or.inl hl)
    · exact nomatch (h.family.blank c hs).symm.trans hc
    · rintro q ⟨⟩
      exact h.family.init
  · refine h.regions.set rfl rfl (fun hl => Or.inl hl) (fun _ _ hl => hl)
      (fun q hq hl => absurd (some.inj (hl.symm.trans hlock)) hq)
      (fun q hq hq' => absurd (h.regions.child_parent hq' hc).symm hq) hlive ?_ nofun
    refine ⟨hlock, hinit, fun j hj => ?_⟩
    by_cases hjc : j = c
    · subst hjc
      simpa [write, TreeSys.goto, ProcTable.set] using hinit.symm
    · have hji : j.val ≠ i := fun heq => hjc (Fin.ext (heq.trans hi.symm))
      simpa [write, TreeSys.goto, ProcTable.set, hjc] using hbefore j (by omega)
  · exact h.named.set h.regions rfl (fun _ => ⟨rfl, rfl⟩) nofun

/-- The last step of `exit`: all children have been given away. -/
theorem OK.exit_step (h : s.OK) (hlive : (s.table.proc p).state.live = true)
    (hpc : s.pc p = .reparent status i) (hi : ¬ i < nproc) :
    OK { (s.write p { s.table.proc p with xstate := status, state := .zombie }).goto p .user with
      waitLock := none
      exits := ((s.table.proc p).pid, status) :: s.exits } := by
  have hok := h.regions.ok p
  rw [hpc] at hok
  obtain ⟨hlock, hinit, hbefore⟩ := hok
  have hnone : ∀ d, (s.table.proc d).parent ≠ some p := fun d => hbefore d (by omega)
  obtain ⟨hunused, hused, -⟩ := ProcState.live_ne hlive
  refine ⟨?_, h.pids.exit hlive status, ?_, ?_⟩
  · exact h.family.set (fun hi => absurd hi hinit) nofun (h.family.parent_live p)
      (fun _ _ _ => h.family.parent_some p hinit hunused hused) (fun _ => Or.inr ⟨hnone, hnone p⟩)
  · refine h.regions.set rfl rfl (fun _ => Or.inr ⟨rfl, rfl⟩) (give_up hlock)
      (fun _ _ _ hq => hq) (fun q _ hq => ?_) hlive trivial nofun
    exact absurd (h.regions.child_used hq) hused
  · exact h.named.set h.regions rfl (fun _ => ⟨rfl, rfl⟩) nofun

theorem ok_runReparent (h : s.OK)
    (hlive : (s.table.proc p).state.live = true) (hpc : s.pc p = .reparent status i) :
    (s.runReparent p status i).OK := by
  unfold runReparent
  split
  · dsimp only
    split
    · rename_i hc
      exact h.reparent_step hlive hpc rfl hc
    · rename_i hi hc
      have hok := h.regions.ok p
      rw [hpc] at hok
      obtain ⟨hlock, hinit, hbefore⟩ := hok
      refine h.goto hlive ⟨hlock, hinit, fun j hj => ?_⟩ rfl nofun
      rcases Nat.lt_succ_iff_lt_or_eq.1 hj with hj | rfl
      · exact hbefore j hj
      · exact hc
  · exact h.exit_step hlive hpc ‹_›

/-- `wait` frees a child. -/
theorem OK.reap_step (h : s.OK) (hlive : (s.table.proc p).state.live = true)
    (hlock : s.waitLock = some p) (hc : (s.table.proc c).parent = some p)
    (hz : (s.table.proc c).state = .zombie) :
    OK ({ s with table := s.table.freeproc c }.waitReturns p
      (.reaped p (s.table.proc c).pid (s.table.proc c).xstate (s.table.proc c).parent)) := by
  have hnot : ∀ q, (s.table.proc q).state.live = true → q ≠ c := by
    rintro q hq rfl
    exact (ProcState.live_ne hq).2.2 hz
  refine ⟨?_, h.pids.reap hz hc, ?_, ?_⟩
  · exact h.family.set (fun hi => absurd hi.symm (hnot _ h.family.init)) (fun _ => rfl) nofun
      (fun _ hu => absurd rfl hu) (fun hl => absurd rfl (hnot c hl))
  · refine h.regions.set rfl rfl (fun hl => absurd rfl (hnot c hl)) (give_up hlock) nofun
      (fun q _ hq => ?_) hlive trivial nofun
    exact nomatch (h.regions.child_used hq).symm.trans hz
  · exact h.named.set h.regions rfl (fun hl => absurd rfl (hnot c hl)) nofun

/-- `wait` returns -1. -/
theorem OK.fail_step (h : s.OK) (hlive : (s.table.proc p).state.live = true)
    (hlock : s.waitLock = some p) {a b d : Bool} (hwhy : a = true ∨ b = true ∨ d = true) :
    OK (s.waitReturns p (.failed a b d)) :=
  ⟨h.family, h.pids.fail hwhy, h.regions.move hlive (give_up hlock) trivial rfl,
    h.named.step (fun _ _ => ⟨rfl, id⟩) nofun⟩

theorem ok_runReap {havekids ok : Bool} (h : s.OK)
    (hlive : (s.table.proc p).state.live = true) (hpc : s.pc p = .reap i havekids) :
    (s.runReap p i havekids ok).OK := by
  have hok := h.regions.ok p
  rw [hpc] at hok
  obtain ⟨hlock, hbefore⟩ := hok
  have hwaits : (s.pc p).waits = true := by rw [hpc]; rfl
  unfold runReap
  split
  · dsimp only
    split
    · rename_i hc
      split
      · rename_i hz
        split
        · exact h.reap_step hlive hlock hc hz
        · exact h.fail_step hlive hlock (Or.inr (Or.inr rfl))
      · exact h.goto hlive ⟨hlock, nofun⟩ rfl (fun _ => Or.inl hwaits)
    · rename_i hc
      refine h.goto hlive ⟨hlock, fun hk j hj => ?_⟩ rfl (fun _ => Or.inl hwaits)
      rcases Nat.lt_succ_iff_lt_or_eq.1 hj with hj | rfl
      · exact hbefore hk j hj
      · exact hc
  · split
    · rename_i hi hwhy
      refine h.fail_step hlive hlock ?_
      rcases hwhy with hk | hk
      · exact Or.inl (decide_eq_true fun d => hbefore hk d (by omega))
      · exact Or.inr (Or.inl (decide_eq_true (h.named p hwaits hk)))
    · refine h.touch ⟨rfl, rfl, rfl⟩ (Or.inr ⟨hlive, rfl⟩) hlive (give_up hlock) trivial
        (Or.inl rfl) ?_
      exact h.named.set h.regions rfl (fun _ => ⟨rfl, rfl⟩) (fun _ => hwaits)

theorem ok_runKill {pid : ℤ} (h : s.OK) (hlive : (s.table.proc p).state.live = true) :
    (s.runKill p pid i).OK := by
  unfold runKill
  split
  · rename_i hi
    dsimp only
    split
    · refine h.touch ⟨rfl, rfl, rfl⟩ ?_ hlive (fun _ _ hl => hl) trivial (Or.inl rfl) ?_
      · dsimp only
        split
        · rename_i hs
          exact Or.inr ⟨by rw [hs]; rfl, rfl⟩
        · exact Or.inl rfl
      · -- a process in `wait` that gets the flag here gets its pid on the list
        intro q hq hk
        have hold : (s.pc q).waits = true := by
          by_cases hqp : q = p
          · subst hqp
            simp [TreePc.waits] at hq
          · rwa [update_of_ne hqp] at hq
        by_cases hqc : q = ⟨i, hi⟩
        · subst hqc
          simp [ProcTable.set]
        · simp only [ProcTable.set, update_of_ne hqc] at hk ⊢
          exact mem_cons_of_mem _ (h.named q hold hk)
    · exact h.goto hlive trivial rfl nofun
  · exact h.goto hlive trivial rfl nofun

theorem ok_run (h : s.OK) (hlive : (s.table.proc p).state.live = true)
    (hrun : s.run p ok = some s') : s'.OK := by
  unfold run at hrun
  split at hrun <;> rename_i hpc
  · cases hrun
  · exact ok_runAlloc h hlive hrun
  · exact ok_runAdopt h hlive hpc hrun
  · exact some.inj hrun ▸ ok_runPublish h hlive hpc
  · exact some.inj hrun ▸ ok_runReparent h hlive hpc
  · obtain ⟨hfree, ⟨⟩⟩ := ite_none_right_eq_some.1 hrun
    refine h.move hlive (fun q _ hq => ?_) ⟨rfl, fun _ j hj => absurd hj (Nat.not_lt_zero _)⟩ rfl
      (fun _ => Or.inl (by rw [hpc]; rfl))
    exact nomatch hq.symm.trans hfree
  · exact some.inj hrun ▸ ok_runReap h hlive hpc
  · exact some.inj hrun ▸ ok_runKill h hlive

theorem ok_call {a : TreeCall} (h : s.OK) (hlive : (s.table.proc p).state.live = true)
    (hkilled : (s.table.proc p).killed = true → a.isExit = true) (hcall : s.call p a = some s') :
    s'.OK := by
  cases a with
  | fork =>
    cases hcall
    exact h.goto hlive trivial rfl nofun
  | exit status =>
    simp only [call] at hcall
    obtain ⟨hinit, hcall⟩ := ite_none_left_eq_some.1 hcall
    obtain ⟨hfree, ⟨⟩⟩ := ite_none_right_eq_some.1 hcall
    refine h.move hlive (fun q _ hq => ?_) ⟨rfl, hinit, fun j hj => absurd hj (Nat.not_lt_zero _)⟩
      rfl nofun
    exact nomatch hq.symm.trans hfree
  | wait =>
    cases hcall
    refine h.goto hlive trivial rfl (fun _ => Or.inr ?_)
    simpa using mt hkilled nofun
  | kill pid =>
    cases hcall
    exact h.goto hlive trivial rfl nofun

theorem ok_sched {state : ProcState} (h : s.OK) (hlive : (s.table.proc p).state.live = true)
    (hstate : state.live = true) : (s.write p { s.table.proc p with state := state }).OK := by
  have hpc : update s.pc p (s.pc p) = s.pc := update_eq_self p s.pc
  have hmove : OK ((s.write p { s.table.proc p with state := state }).goto p (s.pc p)) := by
    refine h.touch ⟨rfl, rfl, rfl⟩ (Or.inr ⟨hlive, hstate⟩) hlive (fun _ _ hl => hl) ?_
      (Or.inr rfl) (h.named.set h.regions rfl (fun _ => ⟨rfl, rfl⟩) id)
    refine (h.regions.ok p).mono rfl id (fun _ j hj => ?_) (fun d hd => ?_)
    · by_cases hjp : j = p
      · subst hjp
        simpa [ProcTable.set] using hj
      · simpa [ProcTable.set, hjp] using hj
    · have hdp : d ≠ p := by
        rintro rfl
        exact (ProcState.live_ne hlive).2.1 (h.regions.child_used hd)
      simp [ProcTable.set, hdp]
  unfold goto at hmove
  rwa [show (s.write p { s.table.proc p with state := state }).pc = s.pc from rfl, hpc] at hmove

/-- **The step lemma.** -/
theorem ok_step {a : TreeStep} (h : s.OK) (hstep : s.step a = some s') : s'.OK := by
  cases a with
  | call p a =>
    obtain ⟨⟨hrunning, -, hkilled⟩, hstep⟩ := ite_none_right_eq_some.1 hstep
    exact ok_call h (by rw [hrunning]; rfl) hkilled hstep
  | run p ok =>
    obtain ⟨hrunning, hstep⟩ := ite_none_right_eq_some.1 hstep
    exact ok_run h (by rw [hrunning]; rfl) hstep
  | sched p state =>
    obtain ⟨⟨hlive, hstate⟩, hstep⟩ := ite_none_right_eq_some.1 hstep
    exact some.inj hstep ▸ ok_sched h hlive hstate

/-- The processes that have exited keep their slots, pids and statuses. -/
def Exited (t t' : ProcTable) : Prop :=
  ∀ c, (t.proc c).state = .zombie → (t'.proc c).state = .zombie ∧
    (t'.proc c).pid = (t.proc c).pid ∧ (t'.proc c).xstate = (t.proc c).xstate

theorem exited_refl (t : ProcTable) : Exited t t := fun _ hz => ⟨hz, rfl, rfl⟩

theorem exited_set {t t' : ProcTable} (hproc : t'.proc = update t.proc c pr)
    (hc : (t.proc c).state = .zombie →
      pr.state = .zombie ∧ pr.pid = (t.proc c).pid ∧ pr.xstate = (t.proc c).xstate) :
    Exited t t' := by
  intro d hz
  by_cases hd : d = c
  · subst hd
    rw [hproc, update_self]
    exact hc hz
  · rw [hproc, update_of_ne hd]
    exact ⟨hz, rfl, rfl⟩

/-- What a step does to those that have exited: nothing, unless it is a `wait` that returns. -/
def Reaps (s s' : TreeSys) : Prop :=
  (s'.results = s.results ∧ Exited s.table s'.table) ∨
  (∃ d p, (s.table.proc d).state = .zombie ∧ s'.table = s.table.freeproc d ∧
    s'.results = .reaped p (s.table.proc d).pid (s.table.proc d).xstate (s.table.proc d).parent ::
      s.results) ∨
  ∃ x y z, s'.table = s.table ∧ s'.results = .failed x y z :: s.results

theorem reaps_run (h : s.OK) (hlive : (s.table.proc p).state.live = true)
    (hrun : s.run p ok = some s') : Reaps s s' := by
  have hok := h.regions.ok p
  have hnot : (s.table.proc p).state ≠ .zombie := (ProcState.live_ne hlive).2.2
  have hquiet : ∀ {x : TreePc}, Reaps s (s.goto p x) := Or.inl ⟨rfl, exited_refl _⟩
  unfold run at hrun
  split at hrun <;> rename_i hpc <;> rw [hpc] at hok
  · cases hrun
  · rcases runAlloc_spec h hrun with ⟨x, -, rfl⟩ | ⟨c, pr, x, hfree, -, -, -, rfl⟩
    · exact hquiet
    · exact Or.inl ⟨rfl, exited_set rfl fun hz => nomatch hz.symm.trans hfree⟩
  · obtain ⟨-, ⟨⟩⟩ := ite_none_right_eq_some.1 hrun
    exact Or.inl ⟨rfl, exited_set rfl fun hz => nomatch hz.symm.trans hok.1⟩
  · cases hrun
    exact Or.inl ⟨rfl, exited_set rfl fun hz => nomatch hz.symm.trans hok.1⟩
  · cases hrun
    unfold runReparent
    split
    · dsimp only
      split
      · exact Or.inl ⟨rfl, exited_set rfl fun hz => ⟨hz, rfl, rfl⟩⟩
      · exact hquiet
    · exact Or.inl ⟨rfl, exited_set rfl fun hz => absurd hz hnot⟩
  · obtain ⟨-, ⟨⟩⟩ := ite_none_right_eq_some.1 hrun
    exact Or.inl ⟨rfl, exited_refl _⟩
  · cases hrun
    unfold runReap
    split
    · rename_i hi
      dsimp only
      split
      · split
        · rename_i hz
          split
          · exact Or.inr (Or.inl ⟨⟨_, hi⟩, p, hz, rfl, rfl⟩)
          · exact Or.inr (Or.inr ⟨_, _, _, rfl, rfl⟩)
        · exact hquiet
      · exact hquiet
    · split
      · exact Or.inr (Or.inr ⟨_, _, _, rfl, rfl⟩)
      · exact Or.inl ⟨rfl, exited_set rfl fun hz => absurd hz hnot⟩
  · cases hrun
    unfold runKill
    split
    · dsimp only
      split
      · refine Or.inl ⟨rfl, exited_set rfl fun hz => ⟨?_, rfl, rfl⟩⟩
        dsimp only
        rw [hz]
        rfl
      · exact hquiet
    · exact hquiet

theorem reaps_step {a : TreeStep} (h : s.OK) (hstep : s.step a = some s') : Reaps s s' := by
  cases a with
  | call p a =>
    obtain ⟨-, hstep⟩ := ite_none_right_eq_some.1 hstep
    cases a with
    | exit status =>
      simp only [call] at hstep
      obtain ⟨-, hstep⟩ := ite_none_left_eq_some.1 hstep
      obtain ⟨-, hstep⟩ := ite_none_right_eq_some.1 hstep
      exact some.inj hstep ▸ Or.inl ⟨rfl, exited_refl _⟩
    | _ => exact some.inj hstep ▸ Or.inl ⟨rfl, exited_refl _⟩
  | run p ok =>
    obtain ⟨hrunning, hstep⟩ := ite_none_right_eq_some.1 hstep
    exact reaps_run h (by rw [hrunning]; rfl) hstep
  | sched p state =>
    obtain ⟨⟨hlive, -⟩, ⟨⟩⟩ := ite_none_right_eq_some.1 hstep
    exact Or.inl ⟨rfl, exited_set rfl fun hz => absurd hz (ProcState.live_ne hlive).2.2⟩

/-- A process that has exited is still in its slot, or its pid has been returned. -/
def Waits (c : Slot) (pid : ℕ) (status : ℤ) (s : TreeSys) : Prop :=
  pid ∈ returned s.results ∨
    (s.table.proc c).state = .zombie ∧ (s.table.proc c).pid = pid ∧ (s.table.proc c).xstate = status

theorem waits_step {pid : ℕ} (h : Reaps s s') (hw : Waits c pid status s) :
    Waits c pid status s' := by
  rcases hw with hret | ⟨hz, rfl, rfl⟩
  · refine Or.inl ?_
    rcases h with ⟨heq, -⟩ | ⟨d, p, -, -, heq⟩ | ⟨x, y, z, -, heq⟩
    · rwa [heq]
    · rw [heq]
      exact mem_cons_of_mem _ hret
    · rw [heq]
      exact hret
  · rcases h with ⟨-, hkeep⟩ | ⟨d, p, -, htable, heq⟩ | ⟨x, y, z, htable, -⟩
    · exact Or.inr (hkeep c hz)
    · by_cases hc : c = d
      · subst hc
        rw [Waits, heq]
        exact Or.inl (mem_cons_self ..)
      · rw [Waits, htable]
        exact Or.inr (by simp [ProcTable.freeproc, ProcTable.set, hc, hz])
    · rw [Waits, htable]
      exact Or.inr ⟨hz, rfl, rfl⟩

theorem ok_boot : boot.OK := by
  have hinit : boot.table.initproc = 0 := rfl
  have hrest : ∀ c : Slot, c ≠ 0 → boot.table.proc c = ⟨.unused, false, 0, 0, none⟩ :=
    fun c hc => if_neg hc
  have hparent : ∀ c, (boot.table.proc c).parent = none := by
    intro c
    by_cases hc : c = 0
    · rw [hc]; rfl
    · rw [hrest c hc]
  have hzero : ∀ c, (boot.table.proc c).state ≠ .unused → c = 0 := by
    intro c hc
    by_contra hne
    exact hc (by rw [hrest c hne])
  refine ⟨⟨rfl, fun c _ => hparent c, fun c q hq => ?_, fun c hc hu => ?_⟩,
    ⟨fun c => ?_, fun c d hc hd _ => ?_, fun c hz => ?_, fun _ he => absurd he not_mem_nil,
      nodup_nil, fun _ _ _ => not_mem_nil, nodup_nil, fun _ _ => not_mem_nil,
      fun _ hr => absurd hr not_mem_nil⟩,
    ⟨fun p hp => absurd rfl hp, fun _ => trivial, fun _ _ _ hc => nomatch hc⟩,
    fun _ hw => nomatch hw⟩
  · rw [hparent c] at hq
    cases hq
  · exact absurd (hzero c hu) hc
  · by_cases hc : c = 0
    · rw [hc]; exact (by decide : 1 < 2)
    · rw [hrest c hc]; exact (by decide : 0 < 2)
  · rw [hzero c hc, hzero d hd]
  · have hc := hzero c (by rw [hz]; exact nofun)
    rw [hc] at hz
    cases hz

/-- **The process tree.** In every state that any interleaving of `fork`, `exit`, `wait`, `kill` and
the scheduler reaches: every process that has started, other than the first, has a parent that is
neither free nor has exited; the pids in use are distinct; no pid is returned twice, a returned
pid went to the parent its process had and comes with the status of its one `exit`; a process that
has exited keeps its slot until its pid is returned, and a `wait` that fails changes no slot; and
`wait` fails for a reason. -/
theorem process_tree {as : List TreeStep} (hrun : exec step boot as = some s) :
    (∀ c, c ≠ s.table.initproc → (s.table.proc c).state ≠ .unused → (s.table.proc c).state ≠ .used →
      ∃ q, (s.table.proc c).parent = some q ∧ (s.table.proc q).state ≠ .unused ∧
        (s.table.proc q).state ≠ .zombie) ∧
    (∀ c d, (s.table.proc c).state ≠ .unused → (s.table.proc d).state ≠ .unused →
      (s.table.proc c).pid = (s.table.proc d).pid → c = d) ∧
    (returned s.results).Nodup ∧ (s.exits.map Prod.fst).Nodup ∧
    (∀ caller pid status parent, .reaped caller pid status parent ∈ s.results →
      parent = some caller ∧ (pid, status) ∈ s.exits) ∧
    (∀ c, (s.table.proc c).state = .zombie → ∀ bs s', exec step s bs = some s' →
      (s.table.proc c).pid ∉ returned s'.results → (s'.table.proc c).state = .zombie ∧
        (s'.table.proc c).pid = (s.table.proc c).pid ∧
        (s'.table.proc c).xstate = (s.table.proc c).xstate) ∧
    (∀ a s' x y z, step s a = some s' → s'.results = .failed x y z :: s.results →
      s'.table = s.table) ∧
    ∀ noChild killed copyFailed, .failed noChild killed copyFailed ∈ s.results →
      noChild = true ∨ killed = true ∨ copyFailed = true := by
  have hkeep : ∀ (s : TreeSys) a s', s.OK → step s a = some s' → s'.OK :=
    fun _ _ _ hs hstep => ok_step hs hstep
  have hs : s.OK := exec_inv hkeep ok_boot hrun
  refine ⟨fun c hinit hunused hused => ?_, hs.pids.inj, hs.pids.returned_nodup, hs.pids.exits_nodup,
    fun _ _ _ _ hmem => hs.pids.ok _ hmem, fun c hz bs s' hrun' hnot => ?_,
    fun a s' x y z hstep hres => ?_, fun _ _ _ hmem => hs.pids.ok _ hmem⟩
  · obtain ⟨q, hq⟩ := ne_none_iff_exists'.1 (hs.family.parent_some c hinit hunused hused)
    obtain ⟨h1, -, h2⟩ := ProcState.live_ne (hs.family.parent_live c q hq)
    exact ⟨q, hq, h1, h2⟩
  · have hwaits : ∀ (s1 : TreeSys) a s2,
        (s1.OK ∧ Waits c (s.table.proc c).pid (s.table.proc c).xstate s1) → step s1 a = some s2 →
        s2.OK ∧ Waits c (s.table.proc c).pid (s.table.proc c).xstate s2 :=
      fun _ _ _ h1 hstep => ⟨ok_step h1.1 hstep, waits_step (reaps_step h1.1 hstep) h1.2⟩
    have hend := (exec_inv hwaits ⟨hs, Or.inr ⟨hz, rfl, rfl⟩⟩ hrun').2
    exact hend.resolve_left hnot
  · -- a step adds one result at most
    rcases reaps_step hs hstep with ⟨heq, -⟩ | ⟨d, p, -, -, heq⟩ | ⟨_, _, _, htable, -⟩
    · exact absurd (congrArg List.length (heq.symm.trans hres)) (by simp)
    · exact nomatch (List.cons.inj (heq.symm.trans hres)).1
    · exact htable

/-- The first process forks a child, which exits with status 7. The first `wait` cannot copy the
status out, the second one can. -/
theorem process_tree_child :
    ∃ s, exec step boot ([.sched 0 .running, .call 0 .fork, .run 0 true, .run 0 true, .run 0 true,
        .run 0 true, .sched 1 .running, .call 1 (.exit 7)] ++ List.replicate 65 (.run 1 true) ++
        [.call 0 .wait, .run 0 true, .run 0 true, .run 0 false,
          .call 0 .wait, .run 0 true, .run 0 true, .run 0 true]) = some s ∧
      returned s.results = [2] ∧ s.exits = [(2, 7)] ∧ s.results.length = 2 ∧
      ∀ caller pid status parent, .reaped caller pid status parent ∈ s.results →
        parent = some caller ∧ (pid, status) ∈ s.exits := by
  have hrun : (exec step boot ([.sched 0 .running, .call 0 .fork, .run 0 true, .run 0 true,
      .run 0 true, .run 0 true, .sched 1 .running, .call 1 (.exit 7)] ++
      List.replicate 65 (.run 1 true) ++ [.call 0 .wait, .run 0 true, .run 0 true, .run 0 false,
        .call 0 .wait, .run 0 true, .run 0 true, .run 0 true])).any (fun s =>
      returned s.results = [2] ∧ s.exits = [(2, 7)] ∧ s.results.length = 2) := by
    decide +kernel
  obtain ⟨s, hs, hend⟩ := (any_eq_true _ _).1 hrun
  obtain ⟨hret, hexits, hlen⟩ := of_decide_eq_true hend
  exact ⟨s, hs, hret, hexits, hlen, (process_tree hs).2.2.2.2.1⟩

end TreeSys

end AudioPlayer
