import AudioPlayer.Proof.Dma

/-!
# The control register

The run bit is written in four places, and only `soundintr` looks at the queue. Two
properties of the register fail for that reason, and hold where the run bit is written
in the right state only.

* `Armed`: a resume with nothing on the queue, or a node that is added while it is the
  head, arms one completion too many. `intr_never_panics`: without them, the device
  never interrupts with an empty queue; `resume_before_play_panics`: with them it does.
* `Quiet`: a node added to an empty queue, or a completion with another node behind,
  starts the engine again. `pause_sticky_iff`: a pause lasts exactly as long as there
  are none; `pause_ends_on_underrun`: it ends when the writer fills the next node after
  an underrun.
-/

namespace AudioPlayer

open Option Runs Kernel

variable {L : Layout} {s s' : Sys} {a : Step}

@[simp] theorem writeCr_five (d : Device) :
    d.writeCr 5 = { d with cr := 5, pending := d.pending + 1 } := rfl

@[simp] theorem writeCr_zero (d : Device) : d.writeCr 0 = { d with cr := 0, pending := 0 } := rfl

/-! ## The interrupt handler and the empty queue -/

/-- The device may raise a completion only while a node is on the queue. -/
def IntrSafe (s : Sys) : Prop := 0 < s.kernel.dev.pending → s.kernel.soundQueueHead ≠ none

/-- A resume finds a node on the queue, and a node that is sent is not the one the
device is playing. -/
def Armed (s : Sys) : Step → Prop
  | .setPlay play => play ≠ 0 → s.kernel.dev.cr = 0 → s.kernel.soundQueueHead ≠ none
  | a => Sends s a → 0 < s.kernel.dev.pending → s.kernel.soundQueueHead ≠ some s.kernel.bufferIndex

instance (s : Sys) : ∀ a : Step, Decidable (Armed s a)
  | .setPlay _ => inferInstanceAs (Decidable (_ → _ → _))
  | .write _ _ => inferInstanceAs (Decidable (_ → _ → _))
  | .search _ => inferInstanceAs (Decidable (_ → _ → _))
  | .finish => inferInstanceAs (Decidable (_ → _ → _))
  | .clear => inferInstanceAs (Decidable (_ → _ → _))
  | .intr => inferInstanceAs (Decidable (_ → _ → _))

/-- At most one completion is outstanding, while the run bit is set and a node is on
the queue. -/
structure DmaOK (d : Dma) : Prop where
  one : d.dev.pending ≤ 1
  running : 0 < d.dev.pending → d.dev.cr = 5
  busy : 0 < d.dev.pending → d.head ≠ none

theorem DmaOK.add {d : Dma} (h : DmaOK d) {i : NodeId} (hi : 0 < d.dev.pending → d.head ≠ some i) :
    DmaOK (d.add L i) := by
  unfold Dma.add
  split
  · rename_i hhead
    -- an outstanding completion would be one for the head
    have h0 : d.dev.pending = 0 := by
      by_contra hne
      rcases hhead with hn | hs
      · exact h.busy (by omega) hn
      · exact hi (by omega) hs
    exact ⟨by simp [Dma.start, h0], fun _ => rfl, fun _ => by simp [Dma.start]⟩
  · exact h

/-- The one completion is used up, and armed again for the next node. -/
theorem DmaOK.advance {d : Dma} (h : DmaOK d) (next : Option NodeId) : DmaOK (d.advance L next) := by
  have h0 : d.dev.raise.pending = 0 := by
    have := h.one
    simp only [Device.raise]
    omega
  cases next with
  | none => exact ⟨by simp [Dma.advance, h0], by simp [Dma.advance, h0], by simp [Dma.advance, h0]⟩
  | some j => exact ⟨by simp [Dma.advance, h0], fun _ => rfl, by simp [Dma.advance]⟩

theorem step_of_devStep (h : s.devStep L a = some s') : s.step L a = some s' := by
  cases a with
  | intr =>
    simp only [Sys.devStep] at h
    split at h
    · simp at h
    · exact h
  | _ => exact h

/-- **A step that meets `Armed` keeps the device and the queue in step.** -/
theorem armed_step (hs : FillOK s ∧ DmaOK s.kernel.dma) (ha : Armed s a)
    (h : s.devStep L a = some s') : FillOK s' ∧ DmaOK s'.kernel.dma := by
  obtain ⟨hfill, hd⟩ := hs
  have hstep := step_of_devStep h
  refine ⟨fill_step hfill hstep, ?_⟩
  rw [step_dma hfill hstep]
  unfold dmaStep
  cases a with
  | write p buf =>
    simp only
    split
    · rename_i hsend; exact hd.add (ha hsend)
    · exact hd
  | search p => exact hd
  | finish =>
    simp only
    split
    · rename_i hsend; exact hd.add (ha hsend)
    · exact hd
  | clear => exact ⟨by simp, by simp, by simp⟩
  | setPlay play =>
    simp only
    split
    · rename_i hplay
      split
      · rename_i hcr
        have h0 : s.kernel.dma.dev.pending = 0 := by
          by_contra hne
          have := hd.running (by omega)
          rw [hcr] at this
          simp at this
        exact ⟨by simp [h0], fun _ => rfl, fun _ => ha hplay hcr⟩
      · exact hd
    · split
      · exact ⟨by simp, by simp, by simp⟩
      · exact hd
  | intr => exact hd.advance _

theorem dma_boot (L : Layout) : DmaOK (Sys.boot L).kernel.dma :=
  ⟨Nat.zero_le 1, fun h => absurd h (lt_irrefl 0), fun h => absurd h (lt_irrefl 0)⟩

/-- **When the sound interrupt never panics.** Calls of any processes in any order, and
completions the device may raise: if every step meets `Armed`, then whenever the device
may raise a completion there is a node on the queue. -/
theorem intr_never_panics (L : Layout) {as : List Step}
    (h : exec (Sys.devStep L) (Sys.boot L) as = some s)
    (hal : Along (Sys.devStep L) Armed (Sys.boot L) as) : IntrSafe s :=
  (exec_inv_along (fun _ _ _ hs ha => armed_step hs ha) ⟨fill_boot L, dma_boot L⟩ hal h).2.busy

/-- A file is paused, resumed and played to its end. -/
theorem intr_never_panics_resumed :
    ∃ s, exec (Sys.devStep .sample) (Sys.boot .sample)
        [.write 0 [1], .finish, .setPlay 0, .setPlay 1] = some s ∧
      0 < s.kernel.dev.pending ∧ s.kernel.soundQueueHead ≠ none := by
  have hrun : (exec (Sys.devStep .sample) (Sys.boot .sample)
      [.write 0 [1], .finish, .setPlay 0, .setPlay 1]).any (fun s =>
        decide (0 < s.kernel.dev.pending)) := by decide +kernel
  obtain ⟨s, hs, hp⟩ := (any_eq_true _ _).1 hrun
  have hp := of_decide_eq_true hp
  exact ⟨s, hs, hp, intr_never_panics .sample hs (by decide +kernel) hp⟩

/-- **Resuming before anything is played arms a completion for an empty queue**, and
the handler panics on it. -/
theorem resume_before_play_panics :
    ∃ s, exec (Sys.devStep .sample) (Sys.boot .sample) [.setPlay 1] = some s ∧
      ¬ IntrSafe s ∧ s.kernel.soundintr .sample = none := by
  refine ⟨_, rfl, fun h => h (Nat.zero_lt_one) rfl, rfl⟩

/-! ## Pausing -/

/-- The steps until the pause is lifted: no resume and no `clear`. -/
def pausedStep (L : Layout) (s : Sys) : Step → Option Sys
  | .clear => none
  | .setPlay play => if play ≠ 0 then none else s.step L (.setPlay play)
  | a => s.step L a

/-- A node is only sent while another one is the head, and a completion only comes for
the last node. -/
def Quiet (s : Sys) : Step → Prop
  | .intr => s.kernel.soundQueueHead.bind s.kernel.next = none
  | a => Sends s a → s.kernel.soundQueueHead ≠ none ∧
      s.kernel.soundQueueHead ≠ some s.kernel.bufferIndex

instance (s : Sys) : ∀ a : Step, Decidable (Quiet s a)
  | .intr => inferInstanceAs (Decidable (_ = _))
  | .write _ _ => inferInstanceAs (Decidable (_ → _ ∧ _))
  | .search _ => inferInstanceAs (Decidable (_ → _ ∧ _))
  | .finish => inferInstanceAs (Decidable (_ → _ ∧ _))
  | .clear => inferInstanceAs (Decidable (_ → _ ∧ _))
  | .setPlay _ => inferInstanceAs (Decidable (_ → _ ∧ _))

theorem step_of_pausedStep (h : pausedStep L s a = some s') : s.step L a = some s' := by
  cases a with
  | clear => simp [pausedStep] at h
  | setPlay play =>
    simp only [pausedStep] at h
    split at h
    · simp at h
    · exact h
  | _ => exact h

theorem Dma.add_cr (d : Dma) (i : NodeId) :
    (d.add L i).dev.cr = if d.head = none ∨ d.head = some i then 5 else d.dev.cr := by
  unfold Dma.add
  split <;> rfl

theorem Dma.advance_cr (d : Dma) (next : Option NodeId) :
    (d.advance L next).dev.cr = if next = none then d.dev.cr else 5 := by
  cases next <;> rfl

/-- **A step of a pause leaves the register 0 exactly if it meets `Quiet`.** -/
theorem quiet_step (hfill : FillOK s) (hcr : s.kernel.dev.cr = 0)
    (h : pausedStep L s a = some s') : s'.kernel.dev.cr = 0 ↔ Quiet s a := by
  have hdma := step_dma hfill (step_of_pausedStep h)
  have hcr' : s'.kernel.dev.cr = (dmaStep L s a).dev.cr := congrArg (fun d => d.dev.cr) hdma
  rw [hcr']
  have hadd : (s.kernel.dma.add L s.kernel.bufferIndex).dev.cr = 0 ↔
      s.kernel.soundQueueHead ≠ none ∧ s.kernel.soundQueueHead ≠ some s.kernel.bufferIndex := by
    rw [Dma.add_cr, ← not_or, show s.kernel.dma.dev.cr = 0 from hcr]
    by_cases hn : s.kernel.dma.head = none ∨ s.kernel.dma.head = some s.kernel.bufferIndex
    · rw [if_pos hn]; exact iff_of_false (by decide) (not_not.2 hn)
    · rw [if_neg hn]; exact iff_of_true rfl hn
  unfold dmaStep
  cases a with
  | write p buf =>
    simp only [Quiet]
    split
    · rename_i hsend; simp only [hsend, true_imp_iff]; exact hadd
    · rename_i hsend; simp only [hsend, false_imp_iff, iff_true]; exact hcr
  | finish =>
    simp only [Quiet]
    split
    · rename_i hsend; simp only [hsend, true_imp_iff]; exact hadd
    · rename_i hsend; simp only [hsend, false_imp_iff, iff_true]; exact hcr
  | search p => exact iff_of_true hcr fun hsend => absurd hsend id
  | clear => simp [pausedStep] at h
  | setPlay play =>
    simp only [pausedStep] at h
    split at h
    · simp at h
    rename_i hplay
    refine iff_of_true ?_ fun hsend => absurd hsend id
    simp only
    rw [if_neg hplay]
    split
    · rfl
    · exact hcr
  | intr =>
    simp only [Quiet, Dma.advance_cr]
    rw [show s.kernel.dma.dev.cr = 0 from hcr]
    by_cases hn : s.kernel.dma.head.bind s.kernel.next = none
    · rw [if_pos hn]; exact iff_of_true rfl hn
    · rw [if_neg hn]; exact iff_of_false (by decide) hn

/-- **How long a pause lasts.** From a state of a run from boot in which `setPlay(0)`
returned 0, through any steps without a resume or a `clear`: the control register is 0
in every state exactly if every step meets `Quiet`. -/
theorem pause_sticky_iff (L : Layout) {as bs : List Step} {t : Sys}
    (h : exec (Sys.step L) (Sys.boot L) as = some s) (hpause : (s.kernel.sysSetPlay 0).2 = 0)
    (ht : exec (pausedStep L) { s with kernel := (s.kernel.sysSetPlay 0).1 } bs = some t) :
    (∀ cs ds u, bs = cs ++ ds →
        exec (pausedStep L) { s with kernel := (s.kernel.sysSetPlay 0).1 } cs = some u →
        u.kernel.dev.cr = 0) ↔
      Along (pausedStep L) Quiet { s with kernel := (s.kernel.sysSetPlay 0).1 } bs := by
  have hcr : (s.kernel.sysSetPlay 0).1.dev.cr = 0 := by
    unfold sysSetPlay pause at hpause ⊢
    simp only [ne_eq, not_true_eq_false, if_false] at hpause ⊢
    split at hpause
    · rename_i h5; rw [if_pos h5]; rfl
    · simp at hpause
  have hfill : FillOK { s with kernel := (s.kernel.sysSetPlay 0).1 } :=
    fill_step (L := L) (a := .setPlay 0) (fill_run h) rfl
  have hkeep : ∀ (u : Sys) a u', FillOK u ∧ u.kernel.dev.cr = 0 → Quiet u a →
      pausedStep L u a = some u' → FillOK u' ∧ u'.kernel.dev.cr = 0 := fun u a u' hu ha hstep =>
    ⟨fill_step hu.1 (step_of_pausedStep hstep), (quiet_step hu.1 hu.2 hstep).2 ha⟩
  exact (along_iff hkeep (fun _ hu => hu.2)
    (fun _ _ _ hu ha hstep hcr' => ha ((quiet_step hu.1 hu.2 hstep).1 hcr')) ⟨hfill, hcr⟩ ht).symm

/-- The writer fills a node, which is played to its end before the next one is full. -/
def underrun : List Step :=
  List.replicate 32 (.write 0 (List.replicate 2048 5)) ++ [.search 0, .intr]

/-- A pause in the last node of a file lasts, through a second pause and through a
completion that was already on its way. -/
theorem pause_sticky_iff_playing :
    ∃ s t, exec (Sys.step .sample) (Sys.boot .sample) [.write 0 [1], .finish] = some s ∧
      (s.kernel.sysSetPlay 0).2 = 0 ∧
      exec (pausedStep .sample) { s with kernel := (s.kernel.sysSetPlay 0).1 }
        [.setPlay 0, .intr] = some t ∧ t.kernel.dev.cr = 0 := by
  have hrun : (exec (Sys.step .sample) (Sys.boot .sample) [.write 0 [1], .finish]).any (fun s =>
      decide ((s.kernel.sysSetPlay 0).2 = 0) &&
      decide (Along (pausedStep .sample) Quiet { s with kernel := (s.kernel.sysSetPlay 0).1 }
        [.setPlay 0, .intr]) &&
      (exec (pausedStep .sample) { s with kernel := (s.kernel.sysSetPlay 0).1 }
        [.setPlay 0, .intr]).isSome) := by decide +kernel
  obtain ⟨s, hs, he⟩ := (any_eq_true _ _).1 hrun
  simp only [Bool.and_eq_true, decide_eq_true_eq] at he
  obtain ⟨t, ht⟩ := isSome_iff_exists.1 he.2
  exact ⟨s, t, hs, he.1.1, ht,
    (pause_sticky_iff .sample hs he.1.1 ht).2 he.1.2 _ [] t (List.append_nil _).symm ht⟩

/-- **A pause ends on its own after an underrun**: the writer fills the next node, finds
the queue empty and starts the engine. -/
theorem pause_ends_on_underrun :
    ∃ s t, exec (Sys.step .sample) (Sys.boot .sample) underrun = some s ∧
      (s.kernel.sysSetPlay 0).2 = 0 ∧
      exec (pausedStep .sample) { s with kernel := (s.kernel.sysSetPlay 0).1 }
        (List.replicate 32 (.write 0 (List.replicate 2048 6))) = some t ∧
      t.kernel.dev.cr = 5 := by
  have hrun : (exec (Sys.step .sample) (Sys.boot .sample) underrun).any (fun s =>
      decide ((s.kernel.sysSetPlay 0).2 = 0) &&
      (exec (pausedStep .sample) { s with kernel := (s.kernel.sysSetPlay 0).1 }
        (List.replicate 32 (.write 0 (List.replicate 2048 6)))).any
          fun t => decide (t.kernel.dev.cr = 5)) := by decide +kernel
  obtain ⟨s, hs, he⟩ := (any_eq_true _ _).1 hrun
  obtain ⟨hp, he⟩ := Bool.and_eq_true_iff.1 he
  obtain ⟨t, ht, hcr⟩ := (any_eq_true _ _).1 he
  exact ⟨s, t, hs, of_decide_eq_true hp, ht, of_decide_eq_true hcr⟩

end AudioPlayer
