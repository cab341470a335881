import AudioPlayer.Spec.PlayerProc
import AudioPlayer.Proof.Player
import AudioPlayer.Proof.Proc

/-!
# The readers in the process table

A slot is given back by `wait` only, and the player never waits: every reader it has forked
keeps its slot, as a zombie once it has exited or was killed.

* `ProcTable.fork_cases`: only a `fork` that succeeds gives a process a child;
* `ProcTable.step_children`: the steps of the other processes leave the player's children
  alone;
* `player_children_iff`: the player has at most one child at every prompt if and only if no
  second reader is forked.
-/

namespace AudioPlayer

open Option Runs

/-! ## The player -/

namespace Player

variable (p : Player)

/-- Closing a descriptor does not end the player. -/
theorem close_exited (fd : ℤ) : (p.close fd).1.exited = p.exited := by
  unfold close
  split <;> rfl

theorem apCloseAudio_exited : p.apCloseAudio.1.exited = p.exited :=
  close_exited _ _

theorem updateSampleRate_exited : p.updateSampleRate.exited = p.exited := by
  unfold updateSampleRate
  simp only
  split <;> rfl

theorem openFile_exited {p' : Player} {found : Option File} {fd : ℕ} {o : OpenFile}
    (h : p.openFile found = some (p', fd, o)) : p'.exited = p.exited := by
  obtain ⟨f, -, -, -, -, rfl⟩ := openFile_spec h
  rfl

/-- Nor does opening a file. -/
theorem apOpenAudio_exited (file : List Char) (e : Outcome) :
    (p.apOpenAudio file e).1.exited = p.exited := by
  unfold apOpenAudio
  simp only
  split
  · split
    · rfl
    · rename_i ho
      have hopen := openFile_exited _ ho
      split
      · exact (close_exited _ _).trans hopen
      · exact (updateSampleRate_exited _).trans hopen
  · split <;> rfl

theorem runOpen_exited (c : Cmd) (e : Outcome) : (p.runOpen c e).exited = p.exited := by
  have hclose : (if p.apinfo.hasOpened then p.apCloseAudio.1 else p).exited = p.exited := by
    split
    · exact p.apCloseAudio_exited
    · rfl
  unfold runOpen
  split
  · rfl
  · simp only
    set p1 := if p.apinfo.hasOpened then p.apCloseAudio.1 else p
    split
    · have hread : ∀ q : Player, (q.apReadDecode e).1.exited = q.exited := by
        intro q
        unfold apReadDecode
        split <;> rfl
      have hplay : ∀ q : Player, (q.apSetPlay 1).1.exited = q.exited := by
        intro q
        unfold apSetPlay
        split <;> rfl
      rw [hplay, hread]
      exact (apOpenAudio_exited _ _ _).trans hclose
    · exact (apOpenAudio_exited _ _ _).trans hclose

end Player

namespace PlayerProc

variable {L : Layout} {m m' : PlayerProc}

/-- The event is an `open` that gets as far as `fork` and finds a slot and the memory for
the reader. -/
def ForksReader (m : PlayerProc) : Event → Prop
  | .cmd c e mem copy => m.player.forks c e ∧ m.table.findUnused.isSome ∧ mem ∧ copy
  | _ => False

instance (m : PlayerProc) : ∀ ev, Decidable (m.ForksReader ev)
  | .cmd c e mem copy =>
    inferInstanceAs (Decidable (m.player.forks c e ∧ m.table.findUnused.isSome ∧ mem ∧ copy))
  | .sound _ => isFalse id
  | .proc _ => isFalse id

/-- The event forks a reader only if the player has forked none before. -/
def OneReader (m : PlayerProc) (ev : Event) : Prop := m.ForksReader ev → m.forked = 0

instance (m : PlayerProc) (ev : Event) : Decidable (m.OneReader ev) :=
  inferInstanceAs (Decidable (m.ForksReader ev → m.forked = 0))

/-- Every reader the player has forked is its child until it exits. -/
structure Counted (m : PlayerProc) : Prop where
  not_init : m.slot ≠ m.table.initproc
  card : m.player.exited = true ∨ (m.table.children m.slot).card = m.forked

/-- A reader that is killed stays a child until it is waited for. -/
theorem closed_children (c : Cmd) : (m.closed c).children m.slot = m.table.children m.slot := by
  unfold closed
  split
  · exact ProcTable.kill_children _ _ _
  · rfl

theorem closed_initproc (c : Cmd) : (m.closed c).initproc = m.table.initproc := by
  unfold closed
  split
  · exact ProcTable.kill_initproc _ _
  · rfl

/-- It keeps its slot as well. -/
theorem closed_findUnused (c : Cmd) : (m.closed c).findUnused = m.table.findUnused := by
  unfold closed
  split
  · exact ProcTable.kill_findUnused _ _
  · rfl

/-- **One event.** A reader that is forked is one more child, and no event takes a child
away as long as the player lives. -/
theorem step_counted {ev : Event} (hm : m.Counted) (h : m.step L ev = some m') :
    m'.Counted ∧ (m.ForksReader ev → m'.player.exited = false ∧ m'.forked = m.forked + 1) ∧
      (¬ m.ForksReader ev → m'.forked = m.forked) := by
  cases ev with
  | sound a =>
    obtain ⟨s, -, rfl⟩ := map_eq_some_iff.1 h
    exact ⟨⟨hm.not_init, hm.card⟩, fun hf => hf.elim, fun _ => rfl⟩
  | proc a =>
    have hstep : (a.actor ≠ m.slot ∨ ∃ p state, a = .sched p state) ∧
        ∃ t, m.table.step a = some t ∧ m' = { m with table := t } := by
      simp only [step] at h
      split at h
      · obtain ⟨t, ht, rfl⟩ := map_eq_some_iff.1 h
        exact ⟨Or.inr ⟨_, _, rfl⟩, t, ht, rfl⟩
      · split at h
        · simp at h
        · obtain ⟨t, ht, rfl⟩ := map_eq_some_iff.1 h
          exact ⟨Or.inl ‹_›, t, ht, rfl⟩
    obtain ⟨hactor, t, ht, rfl⟩ := hstep
    obtain ⟨hi, hc⟩ := ProcTable.step_children (hactor.imp_left Ne.symm) hm.not_init ht
    exact ⟨⟨by rw [hi]; exact hm.not_init, by rw [hc]; exact hm.card⟩, fun hf => hf.elim, fun _ => rfl⟩
  | cmd c e mem copy =>
    simp only [step] at h
    split at h
    · simp at h
    · rename_i hlive
      have hcard := hm.card.resolve_left hlive
      unfold runcmd at h
      split at h
      · -- `open` forks a reader, if there is room for it
        rename_i hforks
        obtain ⟨⟨t, pid⟩, ht, rfl⟩ := map_eq_some_iff.1 h
        have hopen : c.type = .open := by
          unfold Player.forks at hforks
          split at hforks <;> simp_all
        have hex : ∀ e, (m.player.runcmd c e).exited = false := by
          intro e
          unfold Player.runcmd
          rw [hopen]
          exact (Player.runOpen_exited _ _ _).trans (by simpa using hlive)
        obtain ⟨hi, ⟨rfl, hno, hc⟩ | ⟨s, hsome, hfind, hmem, hcopy, hc⟩⟩ := ProcTable.fork_cases ht
        · rw [closed_findUnused] at hno
          refine ⟨⟨by rw [hi, closed_initproc]; exact hm.not_init, Or.inr ?_⟩,
            fun hf => absurd hf.2 hno, fun _ => rfl⟩
          show (t.children m.slot).card = m.forked + 0
          rw [hc, closed_children, hcard, add_zero]
        · have hfree := ProcTable.findUnused_spec hfind
          have hnew : s ∉ (m.closed c).children m.slot := by simp [ProcTable.mem_children, hfree]
          have hone : (if pid.isSome then 1 else 0) = 1 := if_pos hsome
          refine ⟨⟨by rw [hi, closed_initproc]; exact hm.not_init, Or.inr ?_⟩,
            fun _ => ⟨hex _, congrArg (m.forked + ·) hone⟩,
            fun hn => absurd ⟨hforks, by rw [← closed_findUnused c, hfind]; rfl, hmem, hcopy⟩ hn⟩
          show (t.children m.slot).card = m.forked + _
          rw [hone, hc, if_pos rfl, Finset.card_insert_of_notMem hnew, closed_children, hcard]
      · rename_i hforks
        have hnot : ¬ m.ForksReader (.cmd c e mem copy) := fun hf => hforks hf.1
        split at h
        · -- `quit`
          rename_i hexits
          obtain ⟨t, ht, rfl⟩ := map_eq_some_iff.1 h
          have hquit : c.type = .quit := by
            unfold Player.exits at hexits
            split at hexits <;> simp_all
          have hi : t.initproc = (m.closed c).initproc := by
            unfold ProcTable.exit at ht
            split at ht
            · simp at ht
            · cases ht
              rfl
          refine ⟨⟨by rw [hi, closed_initproc]; exact hm.not_init, Or.inl ?_⟩,
            fun hf => absurd hf hnot, fun _ => rfl⟩
          show (m.player.runcmd c e).exited = true
          unfold Player.runcmd
          rw [hquit]
        · cases h
          refine ⟨⟨by rw [closed_initproc]; exact hm.not_init, Or.inr ?_⟩,
            fun hf => absurd hf hnot, fun _ => rfl⟩
          show ((m.closed c).children m.slot).card = m.forked
          rw [closed_children, hcard]

end PlayerProc

/-- **The player's children.** A player without children is given any commands, while every
other process forks, exits, waits and kills as it likes. At every prompt at most one slot of
the process table is in use by a child of the player if and only if no `open` forks a
reader after another one did. -/
theorem player_children_iff {L : Layout} {m0 m : PlayerProc} (hslot : m0.slot ≠ m0.table.initproc)
    (hnone : m0.table.children m0.slot = ∅) (hforked : m0.forked = 0) {evs : List PlayerProc.Event}
    (h : exec (PlayerProc.step L) m0 evs = some m) :
    (∀ bs cs u, evs = bs ++ cs → exec (PlayerProc.step L) m0 bs = some u →
      u.player.exited = false → (u.table.children u.slot).card ≤ 1) ↔
    Along (PlayerProc.step L) PlayerProc.OneReader m0 evs := by
  have hkeep : ∀ u ev u', u.Counted ∧ u.forked ≤ 1 → PlayerProc.OneReader u ev →
      PlayerProc.step L u ev = some u' → u'.Counted ∧ u'.forked ≤ 1 := by
    rintro u ev u' ⟨hu, hle⟩ hP hs
    obtain ⟨hu', hyes, hno⟩ := PlayerProc.step_counted hu hs
    by_cases hf : u.ForksReader ev
    · exact ⟨hu', by rw [(hyes hf).2, hP hf]⟩
    · exact ⟨hu', by rw [hno hf]; exact hle⟩
  have hgood : ∀ u : PlayerProc, u.Counted ∧ u.forked ≤ 1 →
      u.player.exited = false → (u.table.children u.slot).card ≤ 1 := by
    rintro u ⟨hu, hle⟩ hlive
    have hcard := hu.card.resolve_left (by simp [hlive])
    exact hcard ▸ hle
  -- a second reader: the first one has kept its slot
  have hbad : ∀ u ev u', u.Counted ∧ u.forked ≤ 1 → ¬ PlayerProc.OneReader u ev →
      PlayerProc.step L u ev = some u' →
      ¬ (u'.player.exited = false → (u'.table.children u'.slot).card ≤ 1) := by
    rintro u ev u' ⟨hu, hle⟩ hP hs hgood
    obtain ⟨hf, hne⟩ : u.ForksReader ev ∧ u.forked ≠ 0 := by
      simpa [PlayerProc.OneReader] using hP
    obtain ⟨hu', hyes, -⟩ := PlayerProc.step_counted hu hs
    obtain ⟨hlive, hnext⟩ := hyes hf
    have hcard := hu'.card.resolve_left (by simp [hlive])
    have hle' := hgood hlive
    omega
  have hstart : m0.Counted ∧ m0.forked ≤ 1 :=
    ⟨⟨hslot, Or.inr (by rw [hnone, hforked]; rfl)⟩, by omega⟩
  exact (along_iff hkeep hgood hbad hstart h).symm

/-- The table when the player starts: `init` in slot 0, the shell in slot 1 and the player in
slot 2. -/
def ProcTable.fresh : ProcTable where
  proc s :=
    if s = 0 then ⟨.sleeping, false, 0, 1, none⟩
    else if s = 1 then ⟨.sleeping, false, 0, 2, some 0⟩
    else if s = 2 then ⟨.running, false, 0, 3, some 1⟩
    else ⟨.unused, false, 0, 0, none⟩
  nextpid := 4
  initproc := 0

/-- The player at its first prompt. -/
def PlayerProc.fresh : PlayerProc := ⟨.fresh, 2, .fresh, 0⟩

/-- `open a.wav`, with memory for the reader. -/
def PlayerProc.openSong : Event :=
  .cmd ⟨.open, ["open".toList, "a.wav".toList]⟩ (songOutcome none) true true

/-- A file is opened, its reader exits, and the player stops. -/
def PlayerProc.openStop : List Event :=
  [openSong, .proc (.sched 3 .running), .proc (.exit 3 0),
    .cmd ⟨.stop, ["stop".toList]⟩ (songOutcome none) true true]

theorem player_children_iff_openStop :
    ∃ m, exec (PlayerProc.step .sample) .fresh PlayerProc.openStop = some m ∧
      m.forked = 1 ∧ m.player.exited = false ∧ (m.table.children m.slot).card ≤ 1 := by
  have hrun : (exec (PlayerProc.step .sample) .fresh PlayerProc.openStop).any
      (fun m => m.forked = 1 ∧ m.player.exited = false) := by decide +kernel
  obtain ⟨m, hm, hf⟩ := (any_eq_true _ _).1 hrun
  obtain ⟨hf, hlive⟩ := of_decide_eq_true hf
  have hone : Along (PlayerProc.step .sample) PlayerProc.OneReader .fresh PlayerProc.openStop := by
    decide +kernel
  have hcard := (player_children_iff (by decide) (by decide +kernel) rfl hm).2 hone _ [] m
    (List.append_nil _).symm hm hlive
  exact ⟨m, hm, hf, hlive, hcard⟩

/-- A second file is opened after the first one was stopped and its reader has exited: both
readers keep their slots. After 61 files there is no slot left for another reader. -/
theorem readers_keep_slots :
    (∃ m, exec (PlayerProc.step .sample) .fresh (PlayerProc.openStop ++ [PlayerProc.openSong]) =
        some m ∧ m.player.exited = false ∧ (m.table.children m.slot).card = 2) ∧
    ∃ m, exec (PlayerProc.step .sample) .fresh (List.replicate 61 PlayerProc.openSong) = some m ∧
      m.player.exited = false ∧ m.table.findUnused = none := by
  have htwo : (exec (PlayerProc.step .sample) .fresh
      (PlayerProc.openStop ++ [PlayerProc.openSong])).any
      (fun m => m.player.exited = false ∧ (m.table.children m.slot).card = 2) := by decide +kernel
  have hfull : (exec (PlayerProc.step .sample) .fresh (List.replicate 61 PlayerProc.openSong)).any
      (fun m => m.player.exited = false ∧ m.table.findUnused = none) := by decide +kernel
  obtain ⟨m, hm, h⟩ := (any_eq_true _ _).1 htwo
  obtain ⟨m', hm', h'⟩ := (any_eq_true _ _).1 hfull
  exact ⟨⟨m, hm, of_decide_eq_true h⟩, m', hm', of_decide_eq_true h'⟩

end AudioPlayer
