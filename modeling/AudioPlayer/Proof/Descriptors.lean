import AudioPlayer.Proof.Dma

/-!
# The descriptor table

The table is written in two places, by `play` for a node added to an empty queue and by
`soundintr` for the node behind the one that was played, and only `play` programs the
base address and the last valid index. In every state from boot on, whatever the calls
and interrupts were, the table describes the head of the queue
(`table_describes_head`).
-/

namespace AudioPlayer

open Option Runs Kernel

/-- The table and the registers make the engine play exactly the data of node `h`: the
descriptors cover its bytes in order, two bytes a sample. -/
structure Describes (L : Layout) (k : Kernel) (h : NodeId) : Prop where
  pointer : ∀ i, (k.descriptorList i).bufferPointer = (L.data h + i * dmaBufferSize) % 2 ^ 32
  samples : ∀ i, (k.descriptorList i).bufferCtrlAndLen % 2 ^ 16 = dmaSampleNum
  cover : ∀ b, b < dataSize ↔ ∃ i : Fin dmaBufferNum, i * dmaBufferSize ≤ b ∧
    b < i * dmaBufferSize + 2 * ((k.descriptorList i).bufferCtrlAndLen % 2 ^ 16)
  once : ∀ i j : Fin dmaBufferNum, i < j →
    i * dmaBufferSize + 2 * ((k.descriptorList i).bufferCtrlAndLen % 2 ^ 16) ≤ j * dmaBufferSize
  base : k.dev.bdbar = some (L.descriptorList % 2 ^ 32)
  last : k.dev.lvi = some 31

/-- `play` or `soundintr` wrote the run bit in this step. -/
def StartsDma (s : Sys) (a : Step) (s' : Sys) : Prop :=
  match a with
  | .setPlay _ | .clear => False
  | .intr => s'.kernel.dev ≠ s.kernel.dev.raise
  | _ => s'.kernel.dev ≠ s.kernel.dev

/-- The engine is programmed for the head. -/
def Programmed (L : Layout) (d : Dma) : Prop :=
  ∀ i, d.head = some i → d.table = nodeTable L i ∧
    d.dev.bdbar = some (L.descriptorList % 2 ^ 32) ∧ d.dev.lvi = some 31

variable {L : Layout} {s s' : Sys}

theorem Programmed.add {d : Dma} (h : Programmed L d) (i : NodeId) : Programmed L (d.add L i) := by
  unfold Dma.add
  split
  · intro j hj
    obtain rfl : i = j := some.inj hj
    exact ⟨rfl, rfl, rfl⟩
  · exact h

theorem Programmed.advance {d : Dma} (h : Programmed L d) {i : NodeId} (hi : d.head = some i)
    (next : Option NodeId) : Programmed L (d.advance L next) := by
  cases next with
  | none => intro j hj; simp [Dma.advance] at hj
  | some n =>
    intro j hj
    obtain rfl : n = j := some.inj hj
    exact ⟨rfl, (h i hi).2⟩

/-- Writing the control register with 0 or 5 leaves the other registers alone. -/
theorem Programmed.control {d : Dma} (h : Programmed L d) {v : UInt8} (hv : v = 0 ∨ v = 5) :
    Programmed L { d with dev := d.dev.writeCr v } := by
  rcases hv with rfl | rfl
  · exact h
  · exact h

/-- **Every step keeps the engine programmed for the head.** -/
theorem programmed_step (hfill : FillOK s) (hs : Programmed L s.kernel.dma) {a : Step}
    (h : s.step L a = some s') : Programmed L s'.kernel.dma := by
  rw [step_dma hfill h]
  unfold dmaStep
  cases a with
  | write p buf =>
    simp only
    split
    · exact hs.add _
    · exact hs
  | finish =>
    simp only
    split
    · exact hs.add _
    · exact hs
  | search p => exact hs
  | clear => intro i hi; simp at hi
  | setPlay play =>
    simp only
    split
    · split
      · exact hs.control (Or.inr rfl)
      · exact hs
    · split
      · exact hs.control (Or.inl rfl)
      · exact hs
  | intr =>
    obtain ⟨k', hk, -⟩ := Sys.step_intr h
    obtain ⟨i, hi⟩ := ne_none_iff_exists'.1 (soundintr_dma hk).1
    exact hs.advance hi _

theorem programmed_run {as : List Step} (h : exec (Sys.step L) (Sys.boot L) as = some s) :
    Programmed L s.kernel.dma := by
  have hstep : ∀ (s : Sys) a s', FillOK s ∧ Programmed L s.kernel.dma → s.step L a = some s' →
      FillOK s' ∧ Programmed L s'.kernel.dma :=
    fun _ _ _ hs ha => ⟨fill_step hs.1 ha, programmed_step hs.1 hs.2 ha⟩
  have hboot : Programmed L (Sys.boot L).kernel.dma := fun i hi => by
    simp [Sys.boot, Kernel.boot, dma] at hi
  exact (exec_inv hstep ⟨fill_boot L, hboot⟩ h).2

theorem Programmed.describes {k : Kernel} (h : Programmed L k.dma) {i : NodeId}
    (hi : k.soundQueueHead = some i) : Describes L k i := by
  obtain ⟨htable, hbase, hlast⟩ := h i hi
  have htable : k.descriptorList = nodeTable L i := htable
  have hlen : ∀ j, (k.descriptorList j).bufferCtrlAndLen % 2 ^ 16 = dmaSampleNum := by
    intro j
    rw [htable]
    show (0x80000000 ||| dmaSampleNum) % 2 ^ 16 = dmaSampleNum
    decide
  refine ⟨fun j => ?_, hlen, fun b => ⟨fun hb => ?_, ?_⟩, fun j j' hjj => ?_, hbase, hlast⟩
  · rw [htable]
    exact Nat.mod_add_mod ..
  · refine ⟨⟨b / 2048, ?_⟩, ?_⟩
    · show b / 2048 < 32
      have : b < 65536 := hb
      omega
    · rw [hlen]
      show b / 2048 * 2048 ≤ b ∧ b < b / 2048 * 2048 + 2048
      omega
  · rintro ⟨j, -, hb⟩
    rw [hlen] at hb
    have : b < j * 2048 + 2048 := hb
    have : (j : ℕ) < 32 := j.isLt
    show b < 65536
    omega
  · rw [hlen]
    show (j : ℕ) * 2048 + 2048 ≤ j' * 2048
    have : (j : ℕ) < j' := hjj
    omega

/-- A step that writes the run bit leaves a node at the head, and the run bit set. -/
theorem startsDma_head (hfill : FillOK s) {a : Step} (h : s.step L a = some s')
    (hrun : StartsDma s a s') :
    ∃ i, s'.kernel.soundQueueHead = some i ∧ s'.kernel.dev.cr = 5 := by
  have hdma := step_dma hfill h
  have hhead : s'.kernel.soundQueueHead = (dmaStep L s a).head := congrArg Dma.head hdma
  have hdev : s'.kernel.dev = (dmaStep L s a).dev := congrArg Dma.dev hdma
  have hadd : ∀ i : NodeId, (s.kernel.dma.add L i).dev ≠ s.kernel.dev →
      (s.kernel.dma.add L i).head = some i ∧ (s.kernel.dma.add L i).dev.cr = 5 := by
    intro i hne
    unfold Dma.add at hne ⊢
    split at hne
    · rename_i hc; rw [if_pos hc]; exact ⟨rfl, rfl⟩
    · exact absurd rfl hne
  rw [hhead, hdev]
  unfold StartsDma at hrun
  unfold dmaStep at hdev ⊢
  cases a with
  | write p buf =>
    simp only at hrun hdev ⊢
    split at hdev
    · rename_i hsend
      rw [if_pos hsend]
      exact ⟨_, hadd _ (hdev ▸ hrun)⟩
    · exact absurd hdev hrun
  | finish =>
    simp only at hrun hdev ⊢
    split at hdev
    · rename_i hsend
      rw [if_pos hsend]
      exact ⟨_, hadd _ (hdev ▸ hrun)⟩
    · exact absurd hdev hrun
  | search p => exact absurd hdev hrun
  | clear => exact hrun.elim
  | setPlay play => exact hrun.elim
  | intr =>
    simp only at hrun hdev ⊢
    cases hn : s.kernel.dma.head.bind s.kernel.next with
    | none => rw [hn] at hdev; exact absurd hdev hrun
    | some j => exact ⟨j, rfl, rfl⟩

/-- **The descriptor table describes the node being played.** In every state of a run
from boot, of calls by any processes and interrupts in any order: if there is a head,
the table and the registers describe it; and every step in which `play` or `soundintr`
writes the run bit starts the engine on the head. -/
theorem table_describes_head (L : Layout) {as : List Step}
    (h : exec (Sys.step L) (Sys.boot L) as = some s) :
    (∀ i, s.kernel.soundQueueHead = some i → Describes L s.kernel i) ∧
      ∀ a s', s.step L a = some s' → StartsDma s a s' →
        ∃ i, s'.kernel.soundQueueHead = some i ∧ s'.kernel.dev.cr = 5 ∧ Describes L s'.kernel i := by
  refine ⟨fun i hi => (programmed_run h).describes hi, fun a s' ha hrun => ?_⟩
  obtain ⟨i, hi, hcr⟩ := startsDma_head (fill_run h) ha hrun
  exact ⟨i, hi, hcr, (programmed_run (exec_snoc h ha)).describes hi⟩

/-- Two nodes are sent, and the first is played. -/
theorem table_describes_head_second :
    ∃ s, exec (Sys.step .sample) (Sys.boot .sample)
        (List.replicate 32 (.write 0 (List.replicate 2048 5)) ++
          [.search 0, .write 0 [1], .finish, .intr]) = some s ∧
      s.kernel.soundQueueHead = some 1 ∧ Describes .sample s.kernel 1 := by
  have hrun : (exec (Sys.step .sample) (Sys.boot .sample)
      (List.replicate 32 (.write 0 (List.replicate 2048 5)) ++
        [.search 0, .write 0 [1], .finish, .intr])).any (fun s =>
          decide (s.kernel.soundQueueHead = some 1)) := by decide +kernel
  obtain ⟨s, hs, he⟩ := (any_eq_true _ _).1 hrun
  have he := of_decide_eq_true he
  exact ⟨s, hs, he, (table_describes_head .sample hs).1 1 he⟩

end AudioPlayer
