import AudioPlayer.Proof.Session

/-!
# Who owns a node

Along a session every node is free, being filled or on the queue, and only
`sound_buffer[buffer_index]` is being filled, and none while the writer searches. A
writer that finds no free node therefore waits with all three nodes on the queue.

* `owned_step`: every step of a session keeps `Owned`;
* `intr_frees`, `search_ends`: a completion frees a node, and the next search pass
  then ends the call;
* `no_writer_stall`: the ownership of the nodes in every state a session reaches.
-/

namespace AudioPlayer

open Function Links Blocks Runs Kernel Option

/-- Flags `f` with fill position `b`: every node is free, being filled or sent, and the
one being filled, if no call is searching, is `b`. -/
structure Owned (f : NodeId → UInt8) (b : NodeId) (call : Option Search) : Prop where
  flags : ∀ i, f i = 0 ∨ f i = 1 ∨ f i = 3
  fill : ∀ i, f i = 1 → i = b ∧ call = none

namespace Owned

variable {f : NodeId → UInt8} {b : NodeId} {call : Option Search}

/-- A node that changes hands is free, being filled or sent, like the others. -/
theorem flags_update (h : Owned f b call) (i : NodeId) {v : UInt8} (hv : v = 0 ∨ v = 1 ∨ v = 3) :
    ∀ j, update f i v j = 0 ∨ update f i v j = 1 ∨ update f i v j = 3 := by
  intro j
  by_cases hji : j = i
  · rw [hji, update_self]; exact hv
  · rw [update_of_ne hji]; exact h.flags j

theorem filled (h : Owned f b call) : Owned (update f b 1) b none := by
  refine ⟨h.flags_update b (by decide), fun i hi => ⟨?_, rfl⟩⟩
  by_contra hib
  rw [update_of_ne hib] at hi
  exact hib (h.fill i hi).1

/-- The node being filled was the only one, so none is once it is sent. -/
theorem sent (h : Owned f b call) (call' : Option Search) : Owned (update f b 3) b call' := by
  refine ⟨h.flags_update b (by decide), fun i hi => ?_⟩
  by_cases hib : i = b
  · subst hib; simp at hi
  · rw [update_of_ne hib] at hi
    exact absurd (h.fill i hi).1 hib

theorem claimed {w : Search} (h : Owned f b (some w)) (i : NodeId) :
    Owned (update f i 1) i none := by
  refine ⟨h.flags_update i (by decide), fun j hj => ⟨?_, rfl⟩⟩
  -- another node being filled would mean that no call was searching
  by_contra hji
  rw [update_of_ne hji] at hj
  exact absurd (h.fill j hj).2 (by simp)

theorem freed (h : Owned f b call) (i : NodeId) : Owned (update f i 0) b call := by
  refine ⟨h.flags_update i (by decide), fun j hj => ?_⟩
  by_cases hji : j = i
  · subst hji; simp at hj
  · rw [update_of_ne hji] at hj; exact h.fill j hj

theorem clear (k : Kernel) (call : Option Search) :
    Owned k.sysClearSoundCardBuffer.flag k.sysClearSoundCardBuffer.bufferIndex call := by
  obtain ⟨-, hf, -⟩ := clear_spec k
  exact ⟨fun i => Or.inl (hf i), fun i hi => by rw [hf i] at hi; simp at hi⟩

/-- A node that is neither free nor being filled is sent. -/
theorem sent_of_searching {w : Search} (h : Owned f b (some w)) {i : NodeId} (hi : f i ≠ 0) :
    f i = 3 := by
  rcases h.flags i with h0 | h1 | h3
  · exact absurd h0 hi
  · exact absurd (h.fill i h1).2 (by simp)
  · exact h3

end Owned

variable {L : Layout} {t t' : Session}

/-- The ownership of the nodes in a session. -/
def Session.Owned (t : Session) : Prop :=
  AudioPlayer.Owned t.sys.kernel.flag t.sys.kernel.bufferIndex (t.sys.calls 0)

/-- **Every step of a session keeps the ownership of the nodes.** -/
theorem owned_step (ht : SessionOK t) (ho : t.Owned) {a : Act} (h : t.step L a = some t') :
    t'.Owned := by
  obtain ⟨q, gone, full, rest, hS⟩ := ht.stream
  unfold Session.Owned at ho ⊢
  cases a with
  | write buf =>
    obtain ⟨hf, hnone, -, r, hr, rfl⟩ := Session.step_write h
    rw [hf, hnone] at hS
    obtain ⟨-, hb, -⟩ := hS.unsent rfl
    show Owned r.1.flag r.1.bufferIndex ((t.sys.after 0 r).calls 0)
    rw [Sys.after_calls]
    rcases lt_or_ge (buf.length : ℤ) (bufsize - t.sys.kernel.usedSize) with hfit | hfull
    · obtain ⟨k', hk, -, hfl, -, hbi, -⟩ := write_fit L hS.queued hb hfit
      rw [hk, some.injEq] at hr; subst hr
      rw [hfl, hbi]
      exact ho.filled
    · obtain ⟨k', hk, -, hfl, -, hbi, -⟩ := write_full L hS.queued hb hfull
      rw [hk, some.injEq] at hr; subst hr
      rw [hfl, hbi]
      exact ho.sent _
  | search =>
    obtain ⟨w, r, hw, hr, rfl⟩ := Session.step_search h
    rw [hw] at ho hS
    show Owned r.1.flag r.1.bufferIndex ((t.sys.after 0 r).calls 0)
    rw [Sys.after_calls]
    rcases search_spec (k := t.sys.kernel) L (ht.calls w hw).fits with ⟨hk, -⟩ | ⟨i, hi, hk⟩
    · rw [hk, some.injEq] at hr; subst hr
      exact ho
    · rw [hk, some.injEq] at hr; subst hr
      have hiq : i ∉ q := by rw [← hS.queued.sent i, hi]; decide
      obtain ⟨-, hfl, -⟩ := claim_spec hS.queued hiq w.buf w.readAlready
      rw [hfl]
      exact ho.claimed i
  | finish =>
    obtain ⟨hf, hnone, k', hk, rfl⟩ := Session.step_finish h
    rw [hf, hnone] at hS
    obtain ⟨-, hb, -⟩ := hS.unsent rfl
    show Owned k'.flag k'.bufferIndex (t.sys.calls 0)
    rcases lt_or_ge 0 t.sys.kernel.usedSize with hu | hu
    · obtain ⟨k1, hk1, -, hfl, -, hbi, -⟩ := finish_spec L hS.queued hb hu
      rw [hk1, some.injEq] at hk; subst hk
      rw [hfl, hbi]
      exact ho.sent _
    · obtain rfl := finish_empty hk hu
      exact ho
  | setPlay play =>
    rw [Session.step_setPlay h]
    obtain ⟨d, hd⟩ := setPlay_frame t.sys.kernel play
    rw [hd]
    exact ho
  | clear =>
    rw [Session.step_clear h]
    exact Owned.clear t.sys.kernel _
  | intr =>
    obtain ⟨k', hk, rfl⟩ := Session.step_intr h
    have hq := (stream_dev t.sys.kernel.dev.raise hS).queued
    obtain ⟨i, q, rfl⟩ := queue_of_soundintr hq hk
    obtain ⟨k1, hk1, -, hfl, -, hbi, -⟩ := soundintr_spec L hq
    rw [hk1, some.injEq] at hk; subst hk
    show Owned k1.flag k1.bufferIndex (t.sys.calls 0)
    rw [hfl, hbi]
    exact ho.freed i

theorem owned_run {k : Kernel} {as : List Act} (h : exec (Session.step L) (.start k) as = some t) :
    t.Owned := by
  have hstep : ∀ (t : Session) a t', SessionOK t ∧ t.Owned → t.step L a = some t' →
      SessionOK t' ∧ t'.Owned :=
    fun _ _ _ ht hs => ⟨(session_step ht.1 hs).1, owned_step ht.1 ht.2 hs⟩
  exact (exec_inv hstep ⟨session_start k, Owned.clear k none⟩ h).2

/-- A completion is possible while a node is on the queue, and frees it. -/
theorem intr_frees (ht : SessionOK t) (hhead : t.sys.kernel.soundQueueHead ≠ none) :
    ∃ t', t.step L .intr = some t' ∧ t'.sys.calls = t.sys.calls ∧ ∃ i, t'.sys.kernel.flag i = 0 := by
  obtain ⟨q, gone, full, rest, hS⟩ := ht.stream
  cases q with
  | nil => exact absurd hS.queued.chain hhead
  | cons i q =>
    obtain ⟨k', hk, -, hfl, -⟩ := soundintr_spec L (stream_dev t.sys.kernel.dev.raise hS).queued
    have hi : k'.flag i = 0 := by rw [hfl, update_self]
    refine ⟨⟨⟨k', t.sys.calls⟩, t.finished, t.written,
      t.heads ++ (k'.soundQueueHead.map k'.data).toList⟩, ?_, rfl, i, hi⟩
    simp only [Session.step, Sys.step, hk]
    rfl

/-- A search pass that finds a free node ends the call. -/
theorem search_ends {w : Search} (hw : t.sys.calls 0 = some w) (hok : w.OK) {i : NodeId}
    (hi : t.sys.kernel.flag i = 0) : ∃ t', t.step L .search = some t' ∧ t'.sys.calls 0 = none := by
  rcases search_spec (k := t.sys.kernel) L hok.fits with ⟨-, hno⟩ | ⟨j, -, hk⟩
  · exact absurd hi (hno i)
  · refine ⟨t.call (t.sys.after 0 (t.sys.kernel.claim w.buf w.readAlready j, none)), ?_,
      Sys.after_calls _⟩
    simp only [Session.step, Sys.step, hw, bind_some, hk]
    rfl

/-- **No writer stalls.** In every state of a session the nodes with flag 3 are the
nodes on the queue, and only `sound_buffer[buffer_index]`, off the queue, may have
flag 1. A writer that finds no free node waits with all three nodes on the queue, and
one completion and one search pass end the wait. -/
theorem no_writer_stall (L : Layout) (k : Kernel) {as : List Act}
    (h : exec (Session.step L) (.start k) as = some t) :
    ∃ q, Chain t.sys.kernel.next t.sys.kernel.soundQueueHead q ∧
      (∀ i, t.sys.kernel.flag i = 3 ↔ i ∈ q) ∧
      (∀ i, t.sys.kernel.flag i = 1 → i = t.sys.kernel.bufferIndex ∧ i ∉ q) ∧
      ((t.sys.calls 0).isSome → (∀ i, t.sys.kernel.flag i ≠ 0) →
        t.sys.kernel.soundQueueHead ≠ none ∧ (∀ i, i ∈ q) ∧
        ∃ t1 t2, t.step L .intr = some t1 ∧ (∃ i, t1.sys.kernel.flag i = 0) ∧
          t1.step L .search = some t2 ∧ t2.sys.calls 0 = none) := by
  have ht := session_run h
  have ho : AudioPlayer.Owned _ _ _ := owned_run h
  obtain ⟨q, gone, full, rest, hS⟩ := ht.stream
  refine ⟨q, hS.queued.chain, hS.queued.sent, fun i hi => ⟨(ho.fill i hi).1, ?_⟩, fun hw hno => ?_⟩
  · rw [← hS.queued.sent i, hi]; decide
  · obtain ⟨w, hw⟩ := isSome_iff_exists.1 hw
    rw [hw] at ho
    have hall : ∀ i, i ∈ q := fun i => (hS.queued.sent i).1 (ho.sent_of_searching (hno i))
    have hhead : t.sys.kernel.soundQueueHead ≠ none := by
      rw [hS.queued.chain.head]
      intro hnil
      rw [List.head?_eq_none_iff.1 hnil] at hall
      simpa using hall 0
    obtain ⟨t1, h1, hcalls, i, hi⟩ := intr_frees (L := L) ht hhead
    obtain ⟨t2, h2, hend⟩ := search_ends (L := L) (by rw [hcalls, hw]) (ht.calls w hw) hi
    exact ⟨hhead, hall, t1, t2, h1, ⟨i, hi⟩, h2, hend⟩

/-- Writes that fill all three nodes before the first completion. -/
def threeNodes : List Act :=
  let node := List.replicate 32 (Act.write (List.replicate 2048 5))
  node ++ [.search] ++ node ++ [.search] ++ node

theorem no_writer_stall_threeNodes :
    ∃ t, exec (Session.step .sample) (.start (.boot .sample)) threeNodes = some t ∧
      (t.sys.calls 0).isSome ∧ (∀ i, t.sys.kernel.flag i ≠ 0) ∧
      ∃ t1 t2, t.step .sample .intr = some t1 ∧ (∃ i, t1.sys.kernel.flag i = 0) ∧
        t1.step .sample .search = some t2 ∧ t2.sys.calls 0 = none := by
  have hend : (exec (Session.step .sample) (.start (.boot .sample)) threeNodes).map
      (fun t => ((t.sys.calls 0).isSome, decide (∀ i, t.sys.kernel.flag i ≠ 0))) =
        some (true, true) := by
    decide +kernel
  obtain ⟨t, ht, he⟩ := map_eq_some_iff.1 hend
  simp only [Prod.mk.injEq, decide_eq_true_eq] at he
  obtain ⟨q, -, -, -, hwait⟩ := no_writer_stall .sample (.boot .sample) ht
  exact ⟨t, ht, he.1, he.2, (hwait he.1 he.2).2.2⟩

end AudioPlayer
