import AudioPlayer.Proof.Dma

/-!
# Well-formedness of the DMA queue

`finish` sends the node being filled but keeps the fill position, so a later write
or `finish` finds a node that is on the queue: it stores into it, or adds it a second
time. `FillFree` excludes exactly these steps.

* `ring_step`: a step that meets `FillFree` keeps the ring's invariant `RingOK`.
* `ring_break`: a step that does not meet it leaves a queue that is not well formed.
* `wellFormed_iff`: so a run from boot passes through well-formed states only if and
  only if its steps all meet `FillFree`.
-/

namespace AudioPlayer

open Function Links Blocks Runs Kernel List Option

/-- The queue is a finite list of distinct nodes, all with flag 3, no write call has
stored into a node on it, and the walk to its tail ends. -/
structure WellFormed (L : Layout) (k : Kernel) : Prop where
  list : ∃ q, Chain k.next k.soundQueueHead q ∧ q.Nodup ∧ ∀ i ∈ q, k.flag i = 3
  stores : StoresOK k
  walk : ∀ i, (k.addSoundNode L i).isSome

/-- A write or a `finish` does not find the node it fills or sends marked as sent. -/
def FillFree (s : Sys) : Step → Prop
  | .write _ _ | .finish => s.kernel.flag s.kernel.bufferIndex ≠ 3
  | _ => True

instance (s : Sys) : ∀ a : Step, Decidable (FillFree s a)
  | .write _ _ => inferInstanceAs (Decidable (_ ≠ _))
  | .finish => inferInstanceAs (Decidable (_ ≠ _))
  | .search _ => isTrue trivial
  | .clear => isTrue trivial
  | .setPlay _ => isTrue trivial
  | .intr => isTrue trivial

/-- The invariant of the ring: the queue is well formed, and a fill position with no
bytes in it is not on the queue. -/
structure RingOK (s : Sys) : Prop where
  fill : FillOK s
  queue : ∃ q, Queued s.kernel q
  fresh : s.kernel.usedSize = 0 → s.kernel.flag s.kernel.bufferIndex ≠ 3
  stores : StoresOK s.kernel

variable {L : Layout} {s s' : Sys}

theorem ring_boot (L : Layout) : RingOK (Sys.boot L) := by
  refine ⟨fill_boot L, ⟨[], rfl, ?_⟩, ?_, ?_⟩
  · intro i; simp [Sys.boot, Kernel.boot, flag, SoundNode.zero]
  · intro _; simp [Sys.boot, Kernel.boot, flag, SoundNode.zero]
  · intro st hst; simp [Sys.boot, Kernel.boot] at hst

/-- **A step that meets `FillFree` keeps the ring's invariant.** -/
theorem ring_step (hs : RingOK s) {a : Step} (ha : FillFree s a) (h : s.step L a = some s') :
    RingOK s' := by
  have hfill := fill_step hs.fill h
  obtain ⟨⟨hlo, hhi, hcalls⟩, ⟨q, hq⟩, hfresh, hst⟩ := hs
  have hb : s.kernel.bufferIndex ∉ q ↔ s.kernel.flag s.kernel.bufferIndex ≠ 3 :=
    not_congr (hq.sent _).symm
  cases a with
  | write p buf =>
    obtain ⟨-, hlen, r, hr, rfl⟩ := Sys.step_write h
    rcases lt_or_ge (buf.length : ℤ) (bufsize - s.kernel.usedSize) with hfit | hfull
    · obtain ⟨k', hk, hq', hf, -, hbi, -, hst'⟩ := write_fit L hq (hb.2 ha) hfit
      rw [hk, some.injEq] at hr; subst hr
      refine ⟨hfill, ⟨q, hq'⟩, fun _ => ?_, hst' hst⟩
      show k'.flag k'.bufferIndex ≠ 3
      rw [hf, hbi, update_self]; decide
    · -- the fill position is on the queue now, but with bytes in it
      obtain ⟨k', hk, hq', -, -, -, hus, hst'⟩ := write_full L hq (hb.2 ha) hfull
      rw [hk, some.injEq] at hr; subst hr
      rw [bufsize_eq] at hfull
      refine ⟨hfill, ⟨_, hq'⟩, fun h0 => ?_, hst' hst⟩
      have : k'.usedSize = 0 := h0
      omega
  | search p =>
    obtain ⟨w, r, hw, hr, rfl⟩ := Sys.step_search h
    rcases search_spec (k := s.kernel) L (hcalls p w hw).fits with ⟨hk, -⟩ | ⟨i, hi, hk⟩
    · rw [hk, some.injEq] at hr; subst hr
      exact ⟨hfill, ⟨q, hq⟩, hfresh, hst⟩
    · rw [hk, some.injEq] at hr; subst hr
      have hiq : i ∉ q := by rw [← hq.sent i, hi]; decide
      obtain ⟨hq', hf, -, hst'⟩ := claim_spec hq hiq w.buf w.readAlready
      refine ⟨hfill, ⟨q, hq'⟩, fun _ => ?_, hst' hst⟩
      show (s.kernel.claim w.buf w.readAlready i).flag i ≠ 3
      rw [hf, update_self]; decide
  | finish =>
    obtain ⟨k', hk, rfl⟩ := Sys.step_finish h
    rcases lt_or_ge 0 s.kernel.usedSize with hu | hu
    · obtain ⟨k1, hk1, hq', -, -, -, hus, hst'⟩ := finish_spec L hq (hb.2 ha) hu
      rw [hk1, some.injEq] at hk; subst hk
      refine ⟨hfill, ⟨_, hq'⟩, fun h0 => ?_, ?_⟩
      · have : k1.usedSize = 0 := h0
        omega
      · show ∀ st ∈ k1.stores, _
        rw [hst']; exact hst
    · obtain rfl := finish_empty hk hu
      exact ⟨hfill, ⟨q, hq⟩, hfresh, hst⟩
  | clear =>
    rw [Sys.step_clear h] at hfill ⊢
    obtain ⟨hq', hf, -, -, hst'⟩ := clear_spec s.kernel
    refine ⟨hfill, ⟨[], hq'⟩, fun _ => ?_, ?_⟩
    · rw [hf]; decide
    · show ∀ st ∈ s.kernel.sysClearSoundCardBuffer.stores, _
      rw [hst']; exact hst
  | setPlay play =>
    rw [Sys.step_setPlay h] at hfill ⊢
    obtain ⟨d, hd⟩ := setPlay_frame s.kernel play
    rw [hd] at hfill ⊢
    exact ⟨hfill, ⟨q, hq.chain, hq.sent⟩, hfresh, hst⟩
  | intr =>
    obtain ⟨k', hk, rfl⟩ := Sys.step_intr h
    have hq0 : Queued { s.kernel with dev := s.kernel.dev.raise } q := ⟨hq.chain, hq.sent⟩
    obtain ⟨i, q, rfl⟩ := queue_of_soundintr hq0 hk
    obtain ⟨k1, hk1, hq', hf, -, hbi, hus, hst'⟩ := soundintr_spec L hq0
    rw [hk1, some.injEq] at hk; subst hk
    refine ⟨hfill, ⟨q, hq'⟩, fun h0 => ?_, ?_⟩
    · have h0' : s.kernel.usedSize = 0 := hus ▸ h0
      show k1.flag k1.bufferIndex ≠ 3
      rw [hf, hbi]
      show update s.kernel.flag i 0 s.kernel.bufferIndex ≠ 3
      by_cases hi : s.kernel.bufferIndex = i
      · rw [hi, update_self]; decide
      · rw [update_of_ne hi]; exact hfresh h0'
    · show ∀ st ∈ k1.stores, _
      rw [hst']; exact hst

/-- **A step that does not meet `FillFree` leaves a queue that is not well formed.** -/
theorem ring_break (hs : RingOK s) {a : Step} (ha : ¬ FillFree s a) (h : s.step L a = some s') :
    ¬ WellFormed L s'.kernel := by
  obtain ⟨⟨hlo, hhi, -⟩, ⟨q, hq⟩, hfresh, -⟩ := hs
  intro hwf
  obtain ⟨q', hc', -, hf'⟩ := hwf.list
  cases a with
  | write p buf =>
    have hflag : s.kernel.flag s.kernel.bufferIndex = 3 := not_not.1 ha
    have hmem : s.kernel.bufferIndex ∈ q := (hq.sent _).1 hflag
    have hu : s.kernel.usedSize ≠ 0 := fun h0 => hfresh h0 hflag
    have hnew : s.kernel.clearNew = s.kernel := if_neg hu
    obtain ⟨-, -, r, hr, rfl⟩ := Sys.step_write h
    unfold sysWriteDecodedAudio at hr
    simp only [hnew] at hr
    split at hr
    · -- the node stays on the queue, but is marked as being filled
      simp only [some.injEq] at hr
      subst hr
      have hc : Chain s.kernel.next s.kernel.soundQueueHead q' := by
        have := hc'
        change Chain (setFlag _ _ _).next _ q' at this
        rw [setFlag_next, writeCopy_next] at this
        exact this
      rw [← hq.chain.unique hc] at hf'
      have := hf' _ hmem
      change (setFlag _ _ _).flag _ = 3 at this
      rw [setFlag_flag, update_self] at this
      cases this
    · -- the bytes that fill the node are stored while it is on the queue
      rename_i hfull
      obtain ⟨k', hk, rfl⟩ := map_eq_some_iff.1 hr
      obtain ⟨-, -, -, -, hst⟩ := addSoundNode_frame hk
      set n := (bufsize - s.kernel.usedSize).toNat with hn
      have hin : (⟨s.kernel.bufferIndex, s.kernel.usedSize, (buf.take n).length, true⟩ : Store) ∈
          k'.stores := by
        rw [hst]
        refine mem_cons.2 (Or.inl ?_)
        rw [onQueue_eq hq.chain, decide_eq_true hmem]
      have hlen : 0 < ((buf.take n).length : ℤ) := by
        rw [length_take]; omega
      exact absurd (hwf.stores _ hin hlen) (by simp)
  | finish =>
    have hflag : s.kernel.flag s.kernel.bufferIndex = 3 := not_not.1 ha
    have hmem : s.kernel.bufferIndex ∈ q := (hq.sent _).1 hflag
    have hu : s.kernel.usedSize ≠ 0 := fun h0 => hfresh h0 hflag
    obtain ⟨k', hk, rfl⟩ := Sys.step_finish h
    unfold sysFinishWriteAudio at hk
    rw [if_pos (by omega)] at hk
    -- the node is sent while it is on the queue, and becomes its own successor
    have hc : Chain (s.kernel.setFlag s.kernel.bufferIndex 3).next
        (s.kernel.setFlag s.kernel.bufferIndex 3).soundQueueHead q := by
      rw [setFlag_next]; exact hq.chain
    exact addSoundNode_loop hc hmem hk q' hc'
  | search p => exact ha trivial
  | clear => exact ha trivial
  | setPlay play => exact ha trivial
  | intr => exact ha trivial

/-- The walk of `add_sound_node` ends on every list that ends. -/
theorem addSoundNode_isSome {k : Kernel} {q : List NodeId} (h : Chain k.next k.soundQueueHead q)
    (i : NodeId) : (k.addSoundNode L i).isSome := by
  by_cases hi : i ∈ q
  · obtain ⟨a, b, rfl, hne⟩ := h.split hi
    obtain ⟨k', hk, -⟩ := addSoundNode_links L (h.cut (hne none) (update_self ..))
    rw [hk]; rfl
  · obtain ⟨k', hk, -⟩ := addSoundNode_chain L h hi
    rw [hk]; rfl

theorem RingOK.wellFormed (hs : RingOK s) : WellFormed L s.kernel := by
  obtain ⟨q, hq⟩ := hs.queue
  exact ⟨⟨q, hq.chain, hq.chain.nodup, fun i => (hq.sent i).2⟩, hs.stores,
    addSoundNode_isSome hq.chain⟩

/-- **When the DMA queue stays well formed.** A run from boot, of calls by any
processes and interrupts in any order, passes through well-formed states only, if
and only if no write and no `finish` of it finds `sound_buffer[buffer_index]` marked
as sent. -/
theorem wellFormed_iff (L : Layout) {as : List Step} (h : exec (Sys.step L) (Sys.boot L) as = some s) :
    (∀ bs cs t, as = bs ++ cs → exec (Sys.step L) (Sys.boot L) bs = some t →
      WellFormed L t.kernel) ↔ Along (Sys.step L) FillFree (Sys.boot L) as :=
  (along_iff (fun _ _ _ hs ha => ring_step hs ha) (fun _ hs => hs.wellFormed)
    (fun _ _ _ hs ha => ring_break hs ha) (ring_boot L) h).symm

/-- A file of three bytes, played to its end, and the next one sent. -/
theorem wellFormed_replay :
    ∃ s, exec (Sys.step .sample) (Sys.boot .sample)
        [.write 0 [1, 2, 3], .finish, .intr, .write 0 [4], .finish] = some s ∧
      Along (Sys.step .sample) FillFree (Sys.boot .sample)
        [.write 0 [1, 2, 3], .finish, .intr, .write 0 [4], .finish] ∧ WellFormed .sample s.kernel := by
  have hrun : (exec (Sys.step .sample) (Sys.boot .sample)
      [.write 0 [1, 2, 3], .finish, .intr, .write 0 [4], .finish]).isSome := by decide +kernel
  have hfree : Along (Sys.step .sample) FillFree (Sys.boot .sample)
      [.write 0 [1, 2, 3], .finish, .intr, .write 0 [4], .finish] := by decide +kernel
  obtain ⟨s, hs⟩ := isSome_iff_exists.1 hrun
  exact ⟨s, hs, hfree, (wellFormed_iff .sample hs).2 hfree _ [] s (append_nil _).symm hs⟩

/-- **A second `finish` makes the node its own successor.** -/
theorem finish_twice_loops :
    ∃ s, exec (Sys.step .sample) (Sys.boot .sample) [.write 0 [1], .finish, .finish] = some s ∧
      ¬ WellFormed .sample s.kernel := by
  have h : (exec (Sys.step .sample) (Sys.boot .sample) [.write 0 [1], .finish, .finish]).map
      (fun s => (s.kernel.soundQueueHead, s.kernel.next 0)) = some (some 0, some 0) := by
    decide +kernel
  obtain ⟨s, hs, he⟩ := map_eq_some_iff.1 h
  obtain ⟨hhead, hloop⟩ := Prod.mk.inj he
  refine ⟨s, hs, fun hwf => ?_⟩
  obtain ⟨q, hc, -, -⟩ := hwf.list
  rw [hc.head] at hhead
  exact hc.not_mem_of_loop hloop (mem_of_mem_head? hhead)

end AudioPlayer
