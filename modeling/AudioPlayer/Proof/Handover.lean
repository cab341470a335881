import AudioPlayer.Proof.Ownership

/-!
# Changing files while the old reader is in its search loop

A pass of the old reader's search loop after the player's last `clear` claims a free
node and moves the fill position to it, whatever the new reader has in the node it is
filling. `Harmless` excludes these passes.

* `stream_foreign`: a harmless pass of another process keeps the stream;
* `handover_step`: a harmless move keeps the session of the new reader;
* `handover_integrity`: along harmless moves only bytes of the new file are sent, and
  none is lost;
* `handover_loses_byte`: a pass between two calls of the new reader loses its bytes.
-/

namespace AudioPlayer

open List Option Links Blocks Runs Kernel

/-- A pass for `w` finds no free node, or the new reader is searching itself or has
finished, or neither of the two has a byte at stake. -/
def PassHarmless (u : Handover) (w : Search) : Prop :=
  (∀ i, u.session.sys.kernel.flag i ≠ 0) ∨ (u.session.sys.calls 0).isSome ∨
    u.session.finished = true ∨
    (u.session.sys.kernel.usedSize = 0 ∧ w.readAlready = w.buf.length)

instance (u : Handover) (w : Search) : Decidable (PassHarmless u w) :=
  inferInstanceAs (Decidable (_ ∨ _))

/-- After the player's last `clear`, the old reader only makes harmless passes. -/
def Harmless (u : Handover) : Move → Prop
  | .old => u.phase = .killed ∨ u.phase = .closed ∨
      ∀ w ∈ u.session.sys.calls 1, PassHarmless u w
  | _ => True

instance (u : Handover) : ∀ m : Move, Decidable (Harmless u m)
  | .old => inferInstanceAs (Decidable (_ ∨ _))
  | .clear => isTrue trivial
  | .fork => isTrue trivial
  | .reader _ => isTrue trivial
  | .setPlay _ => isTrue trivial
  | .intr => isTrue trivial

section

variable {L : Layout} {k : Kernel} {call : Option Search} {fin : Bool} {written : List UInt8}
  {heads : List Data} {q : List NodeId} {gone full : List Data} {rest : List UInt8}

/-- **A harmless search pass of another process keeps the stream.** -/
theorem stream_foreign {w : Search} (hw : w.OK)
    (h : Stream k call fin written heads q gone full rest)
    (hsafe : (∀ i, k.flag i ≠ 0) ∨ call.isSome ∨ fin = true ∨
      (k.usedSize = 0 ∧ w.readAlready = w.buf.length))
    {r : Kernel × Option Search} (hr : k.searchPass L w = some r) :
    Stream r.1 call fin written (heads ++ newHead k r.1) q gone full rest := by
  rcases search_spec (k := k) L hw.fits with ⟨hk, -⟩ | ⟨i, hi, hk⟩
  · rw [hk, some.injEq] at hr; subst hr
    exact ⟨h.queued, heads_keep h.heads h.queued h.queued fun _ _ => rfl, h.sent, h.written, h.short,
      h.unsent⟩
  · rw [hk, some.injEq] at hr; subst hr
    have hiq : i ∉ q := by rw [← h.queued.sent i, hi]; decide
    obtain ⟨hq', -, hd, -⟩ := claim_spec h.queued hiq w.buf w.readAlready
    have hdq : ∀ j ∈ q, (k.claim w.buf w.readAlready i).data j = k.data j := data_off_queue hd hiq
    refine ⟨hq', heads_keep h.heads h.queued hq' hdq, ?_, h.written, h.short, fun hf => ?_⟩
    · rw [map_congr_left hdq]; exact h.sent
    · have hun := h.unsent hf
      cases call with
      | some w' => exact hun
      | none =>
        rcases hsafe with hno | hc | hfin | ⟨hu, hall⟩
        · exact absurd hi (hno i)
        · simp at hc
        · rw [hf] at hfin; simp at hfin
        · -- both are empty: the stream goes on in the claimed node
          obtain ⟨hlen, -, -⟩ := hun
          rw [hu] at hlen
          have hrest : rest = [] := eq_nil_of_length_eq_zero (by omega)
          subst hrest
          have hus : (k.claim w.buf w.readAlready i).usedSize = 0 := by
            show (w.buf.length : ℤ) - w.readAlready = 0
            omega
          refine ⟨by rw [hus]; rfl, hiq, ?_⟩
          unfold fillData
          rw [if_pos hus]

end

variable {L : Layout} {u u' : Handover}

/-- The invariant of a handover: the new reader's session is in order from the last
`clear` on, and the new reader makes no call before it is started. -/
structure HandoverOK (u : Handover) : Prop where
  old : ∀ w, u.session.sys.calls 1 = some w → w.OK
  idle : u.phase ≠ .playing → u.session.sys.calls 0 = none
  session : u.phase = .opened ∨ u.phase = .playing → SessionOK u.session

theorem handover_kill {t : Session} (ht : SessionOK t) : HandoverOK (.kill t) := by
  refine ⟨fun w hw => ht.calls w ?_, fun _ => by simp [Handover.kill], by simp [Handover.kill]⟩
  simpa [Handover.kill] using hw

/-- Only the reader's own steps touch its call, and no step touches another's. -/
theorem session_calls {t t' : Session} {a : Act} (h : t.step L a = some t') :
    t'.sys.calls 1 = t.sys.calls 1 ∧ (a.ofReader = false → t'.sys.calls = t.sys.calls) := by
  cases a with
  | write buf =>
    obtain ⟨-, -, -, r, -, rfl⟩ := Session.step_write h
    exact ⟨Sys.after_calls_ne (by decide) r, by simp [Act.ofReader]⟩
  | search =>
    obtain ⟨w, r, -, -, rfl⟩ := Session.step_search h
    exact ⟨Sys.after_calls_ne (by decide) r, by simp [Act.ofReader]⟩
  | finish =>
    obtain ⟨-, -, k, -, rfl⟩ := Session.step_finish h
    exact ⟨rfl, fun _ => rfl⟩
  | setPlay play =>
    rw [Session.step_setPlay h]
    exact ⟨rfl, fun _ => rfl⟩
  | clear =>
    rw [Session.step_clear h]
    exact ⟨rfl, fun _ => rfl⟩
  | intr =>
    obtain ⟨k, -, rfl⟩ := Session.step_intr h
    exact ⟨rfl, fun _ => rfl⟩

/-- A step of the session that is not a `clear` keeps the invariant. -/
theorem handover_session (hu : HandoverOK u) {a : Act} {t : Session}
    (ha : u.phase = .playing ∨ a.ofReader = false) (h : u.session.step L a = some t) :
    HandoverOK ⟨t, u.phase⟩ := by
  obtain ⟨hold, hcalls⟩ := session_calls h
  refine ⟨fun w hw => hu.old w (hold ▸ hw), fun hp => ?_, fun hp => (session_step (hu.session hp) h).1⟩
  show t.sys.calls 0 = none
  rw [hcalls (ha.resolve_left hp)]
  exact hu.idle hp

/-- A pass of the old reader's search loop keeps the invariant, if it is harmless. -/
theorem handover_old (hu : HandoverOK u) (hm : Harmless u .old) (h : u.step L .old = some u') :
    HandoverOK u' := by
  obtain ⟨s, hs, rfl⟩ := map_eq_some_iff.1 h
  obtain ⟨w, r, hw, hr, rfl⟩ := Sys.step_search hs
  have hok := hu.old w hw
  have hcall0 : (u.session.sys.after 1 r).calls 0 = u.session.sys.calls 0 :=
    Sys.after_calls_ne (by decide) r
  refine ⟨fun w' hw' => ?_, fun hp => hcall0.trans (hu.idle hp), fun hp => ?_⟩
  · -- a pass that claims a node ends the old call; otherwise the call is unchanged
    have hr2 : r.2 = some w' := (Sys.after_calls r).symm.trans hw'
    rcases search_spec (k := u.session.sys.kernel) L hok.fits with ⟨hk, -⟩ | ⟨i, -, hk⟩
    · rw [hk, some.injEq] at hr; subst hr
      obtain rfl : w = w' := some.inj hr2
      exact hok
    · rw [hk, some.injEq] at hr; subst hr
      simp at hr2
  · have ht := hu.session hp
    have hsafe : PassHarmless u w := by
      rcases hm with hk | hc | hpass
      · rw [hk] at hp; simp at hp
      · rw [hc] at hp; simp at hp
      · exact hpass w hw
    obtain ⟨q, gone, full, rest, hS⟩ := ht.stream
    have hS' := stream_foreign hok hS hsafe hr
    rw [← hcall0] at hS'
    exact ⟨⟨q, gone, full, rest, hS'⟩, fun hf => hcall0.trans (ht.idle hf),
      fun w' hw' => ht.calls w' (hcall0.symm.trans hw')⟩

/-- The player's two `clear`s come before the new reader is started. -/
theorem Handover.step_clear (h : u.step L .clear = some u') :
    u.phase ≠ .playing ∧ u.session.step L .clear = some u'.session := by
  simp only [Handover.step] at h
  split at h
  · rename_i hp
    obtain ⟨t, ht, rfl⟩ := map_eq_some_iff.1 h
    exact ⟨by rw [hp]; decide, ht⟩
  · rename_i hp
    obtain ⟨t, ht, rfl⟩ := map_eq_some_iff.1 h
    exact ⟨by rw [hp]; decide, ht⟩
  · simp at h

/-- The player's `clear` keeps the invariant, and puts the new session in order. -/
theorem handover_clear (hu : HandoverOK u) (h : u.step L .clear = some u') : HandoverOK u' := by
  obtain ⟨hp, ht⟩ := Handover.step_clear h
  have hsess := Session.step_clear ht
  have h0 : u.session.sys.calls 0 = none := hu.idle hp
  have hcalls : u'.session.sys.calls = u.session.sys.calls := by rw [hsess]
  refine ⟨fun w hw => hu.old w (hcalls ▸ hw), fun _ => by rw [hcalls, h0], fun _ => ?_⟩
  rw [hsess]
  exact session_clear u.session.sys (by rw [h0]; simp)

/-- **A harmless move keeps the invariant of the handover.** -/
theorem handover_step (hu : HandoverOK u) {m : Move} (hm : Harmless u m) (h : u.step L m = some u') :
    HandoverOK u' := by
  cases m with
  | old => exact handover_old hu hm h
  | clear => exact handover_clear hu h
  | fork =>
    simp only [Handover.step] at h
    split at h
    · rename_i hp
      cases h
      exact ⟨hu.old, by simp, fun _ => hu.session (Or.inl hp)⟩
    · simp at h
  | reader a =>
    simp only [Handover.step] at h
    split at h
    · rename_i hp
      obtain ⟨t, ht, rfl⟩ := map_eq_some_iff.1 h
      exact handover_session hu (Or.inl hp.1) ht
    · simp at h
  | setPlay play =>
    simp only [Handover.step] at h
    obtain ⟨t, ht, rfl⟩ := map_eq_some_iff.1 h
    exact handover_session hu (Or.inr rfl) ht
  | intr =>
    obtain ⟨t, ht, rfl⟩ := map_eq_some_iff.1 h
    exact handover_session hu (Or.inr rfl) ht

/-- What a move adds to the bytes of the new file. -/
theorem handover_written (hu : HandoverOK u) {m : Move} (h : u.step L m = some u')
    (hw : u.phase ≠ .playing → u.session.written = []) :
    u'.session.written = u.session.written ++ m.bytes ∧
      (u'.phase ≠ .playing → u'.session.written = []) := by
  cases m with
  | old =>
    obtain ⟨s, -, rfl⟩ := map_eq_some_iff.1 h
    exact ⟨(append_nil _).symm, hw⟩
  | clear =>
    obtain ⟨hp, ht⟩ := Handover.step_clear h
    -- no call of the new reader is under way, so the record starts empty
    have hempty : u'.session.written = [] := by
      rw [Session.step_clear ht, hu.idle hp]
      rfl
    exact ⟨by rw [hempty, hw hp]; rfl, fun _ => hempty⟩
  | fork =>
    simp only [Handover.step] at h
    split at h
    · cases h
      exact ⟨(append_nil _).symm, by simp⟩
    · simp at h
  | reader a =>
    simp only [Handover.step] at h
    split at h
    · rename_i hp
      obtain ⟨t, ht, rfl⟩ := map_eq_some_iff.1 h
      have hne : a ≠ .clear := by rintro rfl; simp [Act.ofReader] at hp
      exact ⟨(session_record hne ht).1, fun hn => absurd hp.1 hn⟩
    · simp at h
  | setPlay play =>
    simp only [Handover.step] at h
    obtain ⟨t, ht, rfl⟩ := map_eq_some_iff.1 h
    rw [Session.step_setPlay ht]
    exact ⟨(append_nil _).symm, hw⟩
  | intr =>
    obtain ⟨t, ht, rfl⟩ := map_eq_some_iff.1 h
    obtain ⟨k, -, rfl⟩ := Session.step_intr ht
    exact ⟨(append_nil _).symm, hw⟩

theorem handover_run {ms : List Move} (hu : HandoverOK u)
    (hw : u.phase ≠ .playing → u.session.written = [])
    (hal : Along (Handover.step L) Harmless u ms) (h : exec (Handover.step L) u ms = some u') :
    HandoverOK u' ∧ u'.session.written = u.session.written ++ ms.flatMap Move.bytes := by
  induction ms generalizing u with
  | nil =>
    obtain rfl : u = u' := some.inj h
    exact ⟨hu, by simp⟩
  | cons m ms ih =>
    obtain ⟨v, hv, h⟩ := exec_cons h
    obtain ⟨hwv, hpv⟩ := handover_written hu hv hw
    obtain ⟨hok, hwr⟩ := ih (handover_step hu hal.1 hv) hpv (hal.2 v hv) h
    refine ⟨hok, ?_⟩
    rw [hwr, hwv]
    simp

/-- **When only the new file is heard.** The old reader is killed in any state of its
session. If its passes after the player's last `clear` are all harmless, then from that
`clear` on the payloads that became the head of the queue, followed by those that wait
behind the head, are the bytes of the new file, cut into blocks. -/
theorem handover_integrity (L : Layout) (k : Kernel) {as : List Act} {t : Session}
    (ht : exec (Session.step L) (.start k) as = some t) {ms : List Move}
    (h : exec (Handover.step L) (.kill t) ms = some u)
    (hal : Along (Handover.step L) Harmless (.kill t) ms)
    (hp : u.phase = .opened ∨ u.phase = .playing) :
    ∃ q, Chain u.session.sys.kernel.next u.session.sys.kernel.soundQueueHead q ∧
      u.session.heads ++ q.tail.map u.session.sys.kernel.data =
        if u.session.finished then blocks dataSize 0 (ms.flatMap Move.bytes)
        else fullBlocks dataSize 0 (ms.flatMap Move.bytes) := by
  obtain ⟨hok, hw⟩ := handover_run (handover_kill (session_run ht)) (fun _ => rfl) hal h
  obtain ⟨q, gone, full, rest, hS⟩ := (hok.session hp).stream
  refine ⟨q, hS.queued.chain, ?_⟩
  have hblocks := hS.eq_blocks
  rw [onQueue_eq hS.queued.chain, hw] at hblocks
  exact hblocks

/-- The new reader plays one byte; the old one leaves its loop between the two
`clear`s. -/
def inTime : List Move := [.clear, .old, .clear, .fork, .reader (.write [7]), .reader .finish]

theorem handover_integrity_inTime :
    ∃ t u, exec (Session.step .sample) (.start (.boot .sample)) threeNodes = some t ∧
      exec (Handover.step .sample) (.kill t) inTime = some u ∧
      Along (Handover.step .sample) Harmless (.kill t) inTime ∧
      u.session.heads = blocks dataSize 0 [7] := by
  have hrun : (exec (Session.step .sample) (.start (.boot .sample)) threeNodes).any (fun t =>
      decide (Along (Handover.step .sample) Harmless (.kill t) inTime) &&
        (exec (Handover.step .sample) (.kill t) inTime).any fun u =>
          decide (u.phase = .playing ∧ u.session.finished = true ∧
            u.session.sys.kernel.soundQueueHead = some 0 ∧ u.session.sys.kernel.next 0 = none)) := by
    decide +kernel
  obtain ⟨t, ht, he⟩ := (any_eq_true _ _).1 hrun
  obtain ⟨hal, he⟩ := Bool.and_eq_true_iff.1 he
  obtain ⟨u, hu, he⟩ := (any_eq_true _ _).1 he
  obtain ⟨hp, hf, hhead, hnext⟩ := of_decide_eq_true he
  have hal := of_decide_eq_true hal
  obtain ⟨q, hq, hheads⟩ := handover_integrity .sample (.boot .sample) ht hu hal (Or.inr hp)
  obtain rfl : q = [0] := hq.unique ⟨hhead, hnext⟩
  rw [hf] at hheads
  exact ⟨t, u, ht, hu, hal, by simpa [inTime, Move.bytes, Act.bytes] using hheads⟩

/-- **A late pass of the old reader loses what the new one has written.** The old reader
is one that writes 2048 bytes a call and waits with all nodes on the queue; its pass
after the new reader's first write moves the fill position to another node, and
`finish` finds it empty. -/
theorem handover_loses_byte :
    ∃ t u, exec (Session.step .sample) (.start (.boot .sample)) threeNodes = some t ∧
      exec (Handover.step .sample) (.kill t)
        [.clear, .clear, .fork, .reader (.write [7]), .old, .reader .finish] = some u ∧
      u.phase = .playing ∧ u.session.written = [7] ∧ u.session.finished = true ∧
      u.session.heads = [] ∧ u.session.sys.kernel.soundQueueHead = none ∧
      (blocks dataSize 0 u.session.written).length = 1 := by
  have hrun : (exec (Session.step .sample) (.start (.boot .sample)) threeNodes).any (fun t =>
      (exec (Handover.step .sample) (.kill t)
        [.clear, .clear, .fork, .reader (.write [7]), .old, .reader .finish]).any fun u =>
          decide (u.phase = .playing ∧ u.session.written = [7] ∧ u.session.finished = true ∧
            u.session.heads = [] ∧ u.session.sys.kernel.soundQueueHead = none ∧
            (blocks dataSize 0 u.session.written).length = 1)) := by
    decide +kernel
  obtain ⟨t, ht, he⟩ := (any_eq_true _ _).1 hrun
  obtain ⟨u, hu, he⟩ := (any_eq_true _ _).1 he
  exact ⟨t, u, ht, hu, of_decide_eq_true he⟩

end AudioPlayer
