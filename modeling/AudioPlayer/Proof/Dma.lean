import AudioPlayer.Proof.Queue

/-!
# What a step does to the DMA engine

The part of the state that decides what is played is small: the head of the queue, the
registers of the device and the descriptor table. `dmaStep` says what each step of the
system does to it, in any state, also one whose queue is no longer well formed.

* `fill_step`: every step keeps the bounds of the fill position and of the calls in the
  search loop;
* `step_dma`: every step acts on the DMA engine as `dmaStep`.
-/

namespace AudioPlayer

open Option Links Blocks Runs Kernel

/-- A call in the search loop has between 0 and 2048 bytes left. -/
structure Search.OK (w : Search) : Prop where
  lo : 0 ≤ w.readAlready
  hi : w.readAlready ≤ w.buf.length
  size : w.buf.length ≤ 2048

theorem Search.OK.fits {w : Search} (h : w.OK) : w.buf.length - w.readAlready < bufsize := by
  have := h.lo; have := h.size
  rw [bufsize_eq]; omega

/-- The node being filled is not full, and the calls in the search loop are in order. -/
structure FillOK (s : Sys) : Prop where
  lo : 0 ≤ s.kernel.usedSize
  hi : s.kernel.usedSize < bufsize
  calls : ∀ p w, s.calls p = some w → w.OK

/-- The head of the queue, the registers and the descriptor table. -/
structure Dma where
  head : Option NodeId
  dev : Device
  table : Fin dmaBufferNum → Descriptor

def Kernel.dma (k : Kernel) : Dma := ⟨k.soundQueueHead, k.dev, k.descriptorList⟩

/-- The table that describes the data of node `i`. -/
def nodeTable (L : Layout) (i : NodeId) : Fin dmaBufferNum → Descriptor := fun j =>
  ⟨(L.data i % 2 ^ 32 + j * dmaBufferSize) % 2 ^ 32, 0x80000000 ||| dmaSampleNum⟩

namespace Dma

variable (L : Layout)

/-- The engine is programmed and started on node `i`. -/
def start (d : Dma) (i : NodeId) : Dma :=
  ⟨some i, ({ d.dev with bdbar := some (L.descriptorList % 2 ^ 32), lvi := some 0x1f }).writeCr 5,
    nodeTable L i⟩

/-- Node `i` is added: it starts to play if it is now the head. -/
def add (d : Dma) (i : NodeId) : Dma := if d.head = none ∨ d.head = some i then d.start L i else d

/-- The head was played, and `next` is behind it. -/
def advance (d : Dma) (next : Option NodeId) : Dma :=
  match next with
  | none => ⟨none, d.dev.raise, d.table⟩
  | some j => ⟨some j, d.dev.raise.writeCr 5, nodeTable L j⟩

end Dma

/-- A step that sends `sound_buffer[buffer_index]`. -/
def Sends (s : Sys) : Step → Prop
  | .write _ buf => bufsize - s.kernel.usedSize ≤ buf.length
  | .finish => 0 < s.kernel.usedSize
  | _ => False

instance (s : Sys) : ∀ a : Step, Decidable (Sends s a)
  | .write _ _ => inferInstanceAs (Decidable (_ ≤ _))
  | .finish => inferInstanceAs (Decidable (_ < _))
  | .search _ => isFalse id
  | .clear => isFalse id
  | .setPlay _ => isFalse id
  | .intr => isFalse id

/-- What a step does to the DMA engine. -/
def dmaStep (L : Layout) (s : Sys) (a : Step) : Dma :=
  let d := s.kernel.dma
  match a with
  | .write _ _ | .search _ | .finish => if Sends s a then d.add L s.kernel.bufferIndex else d
  | .clear => ⟨none, ⟨none, none, 0, 0⟩, d.table⟩
  | .setPlay play =>
    if play ≠ 0 then if d.dev.cr = 0 then { d with dev := d.dev.writeCr 5 } else d
    else if d.dev.cr = 5 then { d with dev := d.dev.writeCr 0 } else d
  | .intr => d.advance L (d.head.bind s.kernel.next)

variable {L : Layout} {s s' : Sys} {k k' : Kernel} {i : NodeId} {buf : List UInt8}
  {r : Kernel × Option Search}

/-- The calls stay in order when one process moves on. -/
theorem calls_update (hs : ∀ p w, s.calls p = some w → w.OK) {p : ℕ}
    (hr : ∀ w, r.2 = some w → w.OK) : ∀ p' w, (s.after p r).calls p' = some w → w.OK := by
  intro p' w h
  by_cases hp : p' = p
  · subst hp
    rw [Sys.after_calls] at h
    exact hr w h
  · rw [Sys.after_calls_ne hp] at h
    exact hs p' w h

theorem play_dma (h : k.soundQueueHead = some i) (hf : k.flag i ≠ 0) :
    (k.play L).dma = k.dma.start L i := by
  unfold play writeBdl
  rw [h]
  simp only
  split
  · simp only [dma, h]
    rfl
  · rename_i hn
    exact absurd hf hn

/-- **`add_sound_node` on the DMA engine.** -/
theorem addSoundNode_dma (h : k.addSoundNode L i = some k') (hf : k.flag i ≠ 0) :
    k'.dma = k.dma.add L i := by
  unfold addSoundNode at h
  obtain ⟨q, hw, rfl⟩ := map_eq_some_iff.1 h
  obtain ⟨hc, -⟩ := walk_eq_some_iff.1 hw
  have hhead : k.dma.head = q.head? := hc.head
  have hflag : (k.setNext i none).flag i ≠ 0 := by rw [setNext_flag]; exact hf
  unfold Dma.add linkTail
  cases ht : q.getLast? with
  | none =>
    obtain rfl : q = [] := List.getLast?_eq_none_iff.1 ht
    have hnone : k.dma.head = none := hhead
    rw [if_pos (Or.inl hnone)]
    simp only [if_true]
    exact play_dma rfl hflag
  | some t =>
    -- the node is now the head only if it was the head before
    have hne : k.dma.head ≠ none := by
      rw [hhead]
      intro h0
      rw [List.head?_eq_none_iff.1 h0] at ht
      simp at ht
    simp only [hne, false_or]
    show Kernel.dma (if k.dma.head = some i then _ else _) = _
    by_cases hi : k.dma.head = some i
    · rw [if_pos hi, if_pos hi]
      exact play_dma hi (by rw [setNext_flag]; exact hflag)
    · rw [if_neg hi, if_neg hi]
      rfl

/-- **A write call** that fits leaves the DMA engine alone; one that fills the node
adds it. -/
theorem write_dma (h : k.sysWriteDecodedAudio L buf = some r) :
    (buf.length < bufsize - k.usedSize ∧ r.2 = none ∧ r.1.usedSize = k.usedSize + buf.length ∧
        r.1.dma = k.dma) ∨
      (bufsize - k.usedSize ≤ buf.length ∧ r.2 = some ⟨buf, bufsize - k.usedSize⟩ ∧
        r.1.usedSize = k.usedSize ∧ r.1.dma = k.dma.add L k.bufferIndex) := by
  have hnew : k.clearNew.usedSize = k.usedSize ∧ k.clearNew.bufferIndex = k.bufferIndex ∧
      k.clearNew.dma = k.dma := by
    unfold clearNew
    split <;> exact ⟨rfl, rfl, rfl⟩
  obtain ⟨hus, hbi, hdma⟩ := hnew
  unfold sysWriteDecodedAudio at h
  simp only [hus, hbi] at h
  split at h
  · rename_i hfit
    cases h
    exact Or.inl ⟨hfit, rfl, by rw [← hus]; rfl, hdma⟩
  · rename_i hfull
    obtain ⟨k', hk, rfl⟩ := map_eq_some_iff.1 h
    obtain ⟨-, -, -, hus', -⟩ := addSoundNode_frame hk
    have hadd := addSoundNode_dma hk (by
      rw [setFlag_flag]
      show Function.update _ _ _ k.clearNew.bufferIndex ≠ _
      rw [hbi, Function.update_self]
      decide)
    refine Or.inr ⟨by omega, rfl, hus'.trans hus, hadd.trans ?_⟩
    show k.clearNew.dma.add L k.clearNew.bufferIndex = _
    rw [hbi, hdma]

/-- A search pass leaves the DMA engine alone. -/
theorem search_dma {w : Search} (hw : w.OK)
    (h : k.searchPass L w = some r) :
    r.1.dma = k.dma ∧ (r = (k, some w) ∨
      r.2 = none ∧ r.1.usedSize = w.buf.length - w.readAlready) := by
  rcases search_spec (k := k) L hw.fits with ⟨hk, -⟩ | ⟨i, -, hk⟩
  · rw [hk, some.injEq] at h; subst h
    exact ⟨rfl, Or.inl rfl⟩
  · rw [hk, some.injEq] at h; subst h
    exact ⟨rfl, Or.inr ⟨rfl, rfl⟩⟩

theorem finish_dma (h : k.sysFinishWriteAudio L = some k') :
    k'.usedSize = k.usedSize ∧
      k'.dma = if 0 < k.usedSize then k.dma.add L k.bufferIndex else k.dma := by
  unfold sysFinishWriteAudio at h
  split at h
  · rename_i hu
    obtain ⟨-, -, -, hus, -⟩ := addSoundNode_frame h
    have hadd := addSoundNode_dma h (by rw [setFlag_flag, Function.update_self]; decide)
    rw [if_pos hu]
    exact ⟨hus, hadd⟩
  · rename_i hu
    cases h
    rw [if_neg hu]
    exact ⟨rfl, rfl⟩

theorem soundintr_dma (h : { k with dev := k.dev.raise }.soundintr L = some k') :
    k.soundQueueHead ≠ none ∧ k'.usedSize = k.usedSize ∧
      k'.dma = k.dma.advance L (k.dma.head.bind k.next) := by
  unfold soundintr at h
  cases hhead : k.soundQueueHead with
  | none => simp only [hhead] at h; simp at h
  | some i =>
    have hbind : k.dma.head.bind k.next = k.next i := by simp [dma, hhead]
    rw [hbind]
    simp only [hhead] at h
    split at h
    · rename_i hn
      have hnext : k.next i = none := hn
      cases h
      rw [hnext]
      exact ⟨by simp, rfl, congrArg (Dma.mk · _ _) hnext⟩
    · rename_i j hn
      have hnext : k.next i = some j := hn
      cases h
      rw [hnext]
      exact ⟨by simp, rfl, congrArg (Dma.mk · _ _) hnext⟩

/-- **Every step keeps the bounds of the fill position.** -/
theorem fill_step (hs : FillOK s) {a : Step} (h : s.step L a = some s') : FillOK s' := by
  obtain ⟨hlo, hhi, hcalls⟩ := hs
  cases a with
  | write p buf =>
    obtain ⟨-, hlen, r, hr, rfl⟩ := Sys.step_write h
    rcases write_dma hr with ⟨hfit, hcall, hus, -⟩ | ⟨hfull, hcall, hus, -⟩
    · refine ⟨?_, ?_, calls_update hcalls (by simp [hcall])⟩
      · show 0 ≤ r.1.usedSize; omega
      · show r.1.usedSize < _; omega
    · refine ⟨?_, ?_, calls_update hcalls fun w hw => ?_⟩
      · show 0 ≤ r.1.usedSize; omega
      · show r.1.usedSize < _; omega
      · obtain rfl : ⟨buf, bufsize - s.kernel.usedSize⟩ = w := some.inj (hcall.symm.trans hw)
        exact ⟨by simp only; omega, hfull, hlen⟩
  | search p =>
    obtain ⟨w, r, hw, hr, rfl⟩ := Sys.step_search h
    have hok := hcalls p w hw
    rcases (search_dma hok hr).2 with rfl | ⟨hcall, hus⟩
    · exact ⟨hlo, hhi, calls_update hcalls fun w' hw' => some.inj hw' ▸ hok⟩
    · refine ⟨?_, ?_, calls_update hcalls (by simp [hcall])⟩
      · show 0 ≤ r.1.usedSize
        have := hok.hi
        omega
      · show r.1.usedSize < _
        rw [hus]
        exact hok.fits
  | finish =>
    obtain ⟨k', hk, rfl⟩ := Sys.step_finish h
    obtain ⟨hus, -⟩ := finish_dma hk
    exact ⟨hus ▸ hlo, hus ▸ hhi, hcalls⟩
  | clear =>
    rw [Sys.step_clear h]
    obtain ⟨-, -, -, hus, -⟩ := clear_spec s.kernel
    refine ⟨hus.ge, ?_, hcalls⟩
    rw [hus, bufsize_eq]
    decide
  | setPlay play =>
    rw [Sys.step_setPlay h]
    obtain ⟨d, hd⟩ := setPlay_frame s.kernel play
    rw [hd]
    exact ⟨hlo, hhi, hcalls⟩
  | intr =>
    obtain ⟨k', hk, rfl⟩ := Sys.step_intr h
    obtain ⟨-, hus, -⟩ := soundintr_dma hk
    exact ⟨hus ▸ hlo, hus ▸ hhi, hcalls⟩

/-- **Every step acts on the DMA engine as `dmaStep`.** -/
theorem step_dma (hs : FillOK s) {a : Step} (h : s.step L a = some s') :
    s'.kernel.dma = dmaStep L s a := by
  cases a with
  | write p buf =>
    obtain ⟨-, -, r, hr, rfl⟩ := Sys.step_write h
    unfold dmaStep
    simp only
    rcases write_dma hr with ⟨hfit, -, -, hdma⟩ | ⟨hfull, -, -, hdma⟩
    · have hsend : ¬ Sends s (.write p buf) := not_le.2 hfit
      rw [if_neg hsend]
      exact hdma
    · have hsend : Sends s (.write p buf) := hfull
      rw [if_pos hsend]
      exact hdma
  | search p =>
    obtain ⟨w, r, hw, hr, rfl⟩ := Sys.step_search h
    exact (search_dma (hs.calls p w hw) hr).1
  | finish =>
    obtain ⟨k', hk, rfl⟩ := Sys.step_finish h
    exact (finish_dma hk).2
  | clear =>
    rw [Sys.step_clear h]
    rfl
  | setPlay play =>
    rw [Sys.step_setPlay h]
    show (s.kernel.sysSetPlay play).1.dma =
      if play ≠ 0 then if s.kernel.dev.cr = 0 then _ else _ else if s.kernel.dev.cr = 5 then _ else _
    unfold sysSetPlay resume pause
    split_ifs <;> rfl
  | intr =>
    obtain ⟨k', hk, rfl⟩ := Sys.step_intr h
    exact (soundintr_dma hk).2.2

theorem fill_boot (L : Layout) : FillOK (Sys.boot L) := by
  refine ⟨le_rfl, ?_, by simp [Sys.boot]⟩
  rw [bufsize_eq]
  show (0 : ℤ) < 65536
  decide

theorem fill_run {as : List Step} (h : exec (Sys.step L) (Sys.boot L) as = some s) : FillOK s :=
  exec_inv (fun _ _ _ hs ha => fill_step hs ha) (fill_boot L) h

end AudioPlayer
