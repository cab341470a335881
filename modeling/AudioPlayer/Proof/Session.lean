import AudioPlayer.Proof.Stream

/-!
# The writer's session

Runs of one writer that follows the player's protocol, from a `clear` made in any
state.

* `session_step`: every step keeps the invariant `SessionOK`, which carries the stream
  of the ring, and leaves the payloads on the queue alone;
* `session_allows`: the invariant rules out that a call hangs or an interrupt panics;
* `stream_integrity`: what became the head of the queue, and what waits behind the
  head, is the bytes written, cut into blocks.
-/

namespace AudioPlayer

open Links Blocks Runs Kernel

/-- The invariant of a session: the ring carries what was written since the last
`clear`, and no call is under way after `finish`. -/
structure SessionOK (t : Session) : Prop where
  stream : ∃ q gone full rest, Stream t.sys.kernel (t.sys.calls 0) t.finished t.written t.heads q gone
    full rest
  idle : t.finished = true → t.sys.calls 0 = none
  calls : ∀ w, t.sys.calls 0 = some w → w.OK

variable {L : Layout} {t t' : Session} {as : List Act}

/-- `clear` puts a session in order, from any state. -/
theorem session_clear (s : Sys) (hcalls : ∀ w, s.calls 0 = some w → w.OK) :
    SessionOK ⟨⟨s.kernel.sysClearSoundCardBuffer, s.calls⟩, false,
      (s.calls 0).elim [] fun w => w.buf.drop w.readAlready.toNat, []⟩ := by
  obtain ⟨rest, h⟩ := stream_clear s.kernel (s.calls 0) hcalls
  exact ⟨⟨[], [], [], rest, h⟩, by simp, hcalls⟩

theorem session_start (k : Kernel) : SessionOK (Session.start k) :=
  session_clear ⟨k, fun _ => none⟩ (by simp)

/-- A call of the writer that keeps the stream keeps the invariant. -/
theorem session_call {r : Kernel × Option Search} {written : List UInt8} {q : List NodeId}
    {gone full : List Data} {rest : List UInt8} (hf : t.finished = false)
    (hS : Stream r.1 r.2 false written (t.heads ++ newHead t.sys.kernel r.1) q gone full rest) :
    SessionOK { t.call (t.sys.after 0 r) with written := written } := by
  have hcall : (t.sys.after 0 r).calls 0 = r.2 := Sys.after_calls r
  refine ⟨⟨q, gone, full, rest, ?_⟩, fun h => ?_, fun w hw => ?_⟩
  · show Stream r.1 ((t.sys.after 0 r).calls 0) t.finished _ _ _ _ _ _
    rw [hcall, hf]
    exact hS
  · have h' : t.finished = true := h
    rw [hf] at h'
    simp at h'
  · have hun := hS.unsent rfl
    rw [← hcall, show (t.sys.after 0 r).calls 0 = some w from hw] at hun
    exact hun.1

/-! ## What a step that is taken did -/

namespace Session

theorem step_write {buf : List UInt8} (h : t.step L (.write buf) = some t') :
    t.finished = false ∧ t.sys.calls 0 = none ∧ buf.length ≤ 2048 ∧
      ∃ r, t.sys.kernel.sysWriteDecodedAudio L buf = some r ∧
        t' = { t.call (t.sys.after 0 r) with written := t.written ++ buf } := by
  simp only [step] at h
  split at h
  · simp at h
  rename_i hf
  obtain ⟨s, hs, rfl⟩ := Option.map_eq_some_iff.1 h
  obtain ⟨hnone, hlen, r, hr, rfl⟩ := Sys.step_write hs
  exact ⟨by simpa using hf, hnone, hlen, r, hr, rfl⟩

theorem step_search (h : t.step L .search = some t') :
    ∃ w r, t.sys.calls 0 = some w ∧ t.sys.kernel.searchPass L w = some r ∧
      t' = t.call (t.sys.after 0 r) := by
  obtain ⟨s, hs, rfl⟩ := Option.map_eq_some_iff.1 h
  obtain ⟨w, r, hw, hr, rfl⟩ := Sys.step_search hs
  exact ⟨w, r, hw, hr, rfl⟩

theorem step_finish (h : t.step L .finish = some t') :
    t.finished = false ∧ t.sys.calls 0 = none ∧
      ∃ k, t.sys.kernel.sysFinishWriteAudio L = some k ∧
        t' = { t.call ⟨k, t.sys.calls⟩ with finished := true } := by
  simp only [step] at h
  split at h
  · simp at h
  rename_i hc
  simp only [not_or, Bool.not_eq_true, Option.isSome_eq_false_iff, Option.isNone_iff_eq_none] at hc
  obtain ⟨s, hs, rfl⟩ := Option.map_eq_some_iff.1 h
  obtain ⟨k, hk, rfl⟩ := Sys.step_finish hs
  exact ⟨hc.1, hc.2, k, hk, rfl⟩

theorem step_setPlay {play : ℤ} (h : t.step L (.setPlay play) = some t') :
    t' = { t with sys := ⟨(t.sys.kernel.sysSetPlay play).1, t.sys.calls⟩ } :=
  (Option.some.inj h).symm

theorem step_clear (h : t.step L .clear = some t') :
    t' = ⟨⟨t.sys.kernel.sysClearSoundCardBuffer, t.sys.calls⟩, false,
      (t.sys.calls 0).elim [] fun w => w.buf.drop w.readAlready.toNat, []⟩ :=
  (Option.some.inj h).symm

theorem step_intr (h : t.step L .intr = some t') :
    ∃ k, { t.sys.kernel with dev := t.sys.kernel.dev.raise }.soundintr L = some k ∧
      t' = { t with sys := ⟨k, t.sys.calls⟩, heads := t.heads ++ (k.soundQueueHead.map k.data).toList } := by
  obtain ⟨s, hs, rfl⟩ := Option.map_eq_some_iff.1 h
  obtain ⟨k, hk, rfl⟩ := Sys.step_intr hs
  exact ⟨k, hk, rfl⟩

end Session

/-! ## The stream along a run -/

/-- A call that is under way is one of a session that is not finished. -/
theorem SessionOK.unfinished (ht : SessionOK t) {w : Search} (hw : t.sys.calls 0 = some w) :
    t.finished = false := by
  by_contra hf
  have hnone := ht.idle (by simpa using hf)
  rw [hw] at hnone
  simp at hnone

/-- **Every step of a session keeps the stream**, and leaves the payloads on the
queue as they are. -/
theorem session_step (ht : SessionOK t) {a : Act} (h : t.step L a = some t') :
    SessionOK t' ∧ (a ≠ .clear → ∀ q, Chain t.sys.kernel.next t.sys.kernel.soundQueueHead q →
      ∀ i ∈ q, t'.sys.kernel.data i = t.sys.kernel.data i) := by
  obtain ⟨q, gone, full, rest, hS⟩ := ht.stream
  -- the queue of the stream is the only list along `next`
  suffices SessionOK t' ∧ (a ≠ .clear → ∀ i ∈ q, t'.sys.kernel.data i = t.sys.kernel.data i) from
    ⟨this.1, fun ha q' hq' => hS.queued.chain.unique hq' ▸ this.2 ha⟩
  cases a with
  | write buf =>
    obtain ⟨hf, hnone, hlen, r, hr, rfl⟩ := Session.step_write h
    rw [hnone, hf] at hS
    obtain ⟨hd, q', full', rest', hS'⟩ := stream_write hS hlen hr
    exact ⟨session_call hf hS', fun _ => hd⟩
  | search =>
    obtain ⟨w, r, hw, hr, rfl⟩ := Session.step_search h
    rw [hw, ht.unfinished hw] at hS
    obtain ⟨hd, hS'⟩ := stream_search hS hr
    exact ⟨session_call (ht.unfinished hw) hS', fun _ => hd⟩
  | finish =>
    obtain ⟨hf, hnone, k', hk, rfl⟩ := Session.step_finish h
    rw [hf, hnone] at hS
    obtain ⟨hd, q', hS'⟩ := stream_finish hS hk
    refine ⟨⟨⟨q', gone, full, rest, ?_⟩, fun _ => hnone, ht.calls⟩, fun _ => hd⟩
    show Stream k' (t.sys.calls 0) true _ _ _ _ _ _
    rw [hnone]
    exact hS'
  | setPlay play =>
    rw [Session.step_setPlay h]
    obtain ⟨d, hd⟩ := setPlay_frame t.sys.kernel play
    rw [hd]
    exact ⟨⟨⟨q, gone, full, rest, stream_dev d hS⟩, ht.idle, ht.calls⟩, fun _ _ _ => rfl⟩
  | clear =>
    rw [Session.step_clear h]
    exact ⟨session_clear t.sys ht.calls, fun hne => absurd rfl hne⟩
  | intr =>
    obtain ⟨k', hk, rfl⟩ := Session.step_intr h
    obtain ⟨hd, q', gone', hS'⟩ := stream_intr (stream_dev _ hS) hk
    exact ⟨⟨⟨q', gone', full, rest, hS'⟩, ht.idle, ht.calls⟩, fun _ => hd⟩

theorem session_run {k : Kernel} (h : exec (Session.step L) (.start k) as = some t) :
    SessionOK t :=
  exec_inv (fun _ _ _ ht hs => (session_step ht hs).1) (session_start k) h

/-- **No call of a session hangs or panics**: what the protocol allows can be done. -/
theorem session_allows (ht : SessionOK t) {a : Act} (ha : t.Allows a) :
    ∃ t', t.step L a = some t' := by
  obtain ⟨q, gone, full, rest, hS⟩ := ht.stream
  rw [← Option.isSome_iff_exists]
  cases a with
  | write buf =>
    obtain ⟨hf, hnone, hlen⟩ := ha
    rw [hnone] at hS
    obtain ⟨-, hb, -⟩ := hS.unsent hf
    have hr : (t.sys.kernel.sysWriteDecodedAudio L buf).isSome := by
      rcases lt_or_ge (buf.length : ℤ) (bufsize - t.sys.kernel.usedSize) with hfit | hfull
      · obtain ⟨k', hk, -⟩ := write_fit L hS.queued hb hfit
        rw [hk]; rfl
      · obtain ⟨k', hk, -⟩ := write_full L hS.queued hb hfull
        rw [hk]; rfl
    simpa [Session.step, Sys.step, hf, hnone, not_lt.2 hlen] using hr
  | search =>
    obtain ⟨w, hw⟩ := Option.isSome_iff_exists.1 ha
    have hr : (t.sys.kernel.searchPass L w).isSome := by
      rcases search_spec (k := t.sys.kernel) L (ht.calls w hw).fits with ⟨hk, -⟩ | ⟨i, -, hk⟩ <;>
        rw [hk] <;> rfl
    simpa [Session.step, Sys.step, hw] using hr
  | finish =>
    obtain ⟨hf, hnone⟩ := ha
    rw [hnone] at hS
    obtain ⟨-, hb, -⟩ := hS.unsent hf
    have hr : (t.sys.kernel.sysFinishWriteAudio L).isSome := by
      rcases lt_or_ge 0 t.sys.kernel.usedSize with hu | hu
      · obtain ⟨k', hk, -⟩ := finish_spec L hS.queued hb hu
        rw [hk]; rfl
      · unfold sysFinishWriteAudio
        rw [if_neg (by omega)]; rfl
    simpa [Session.step, Sys.step, hf, hnone] using hr
  | setPlay play => rfl
  | clear => rfl
  | intr =>
    have hq : Queued { t.sys.kernel with dev := t.sys.kernel.dev.raise } q := (stream_dev _ hS).queued
    cases q with
    | nil =>
      -- the handler's panic, excluded by the head node
      exact absurd hS.queued.chain.head ha
    | cons i q =>
      obtain ⟨k', hk, -⟩ := soundintr_spec L hq
      simp [Session.step, Sys.step, hk]

/-- What a step other than `clear` adds to the record of the session. -/
theorem session_record {a : Act} (ha : a ≠ .clear) (h : t.step L a = some t') :
    t'.written = t.written ++ a.bytes ∧ (t'.finished = true ↔ t.finished = true ∨ a = .finish) := by
  cases a with
  | clear => exact absurd rfl ha
  | write buf =>
    obtain ⟨-, -, -, r, -, rfl⟩ := Session.step_write h
    simp [Act.bytes, Session.call]
  | search =>
    obtain ⟨w, r, -, -, rfl⟩ := Session.step_search h
    simp [Act.bytes, Session.call]
  | finish =>
    obtain ⟨-, -, k, -, rfl⟩ := Session.step_finish h
    simp [Act.bytes, Session.call]
  | setPlay play =>
    rw [Session.step_setPlay h]
    simp [Act.bytes]
  | intr =>
    obtain ⟨k, -, rfl⟩ := Session.step_intr h
    simp [Act.bytes]

theorem session_written (hc : Act.clear ∉ as)
    (h : exec (Session.step L) t as = some t') :
    t'.written = t.written ++ as.flatMap Act.bytes ∧
      (t'.finished = true ↔ t.finished = true ∨ Act.finish ∈ as) := by
  induction as generalizing t with
  | nil =>
    obtain rfl : t = t' := Option.some.inj h
    simp
  | cons a as ih =>
    rw [List.mem_cons, not_or] at hc
    obtain ⟨t1, h1, h2⟩ := exec_cons h
    obtain ⟨hw, hf⟩ := session_record (Ne.symm hc.1) h1
    obtain ⟨hw', hf'⟩ := ih hc.2 h2
    refine ⟨by rw [hw', hw]; simp, ?_⟩
    rw [hf', hf, List.mem_cons, or_assoc, eq_comm (a := a)]

/-- **The stream arrives as it was written.** Along every run of one writer, from a
`clear` made in any state: the payloads that became the head of the queue, followed by
those that wait behind the head, are the bytes written, cut into blocks (the last one
padded, once `finish` was called); no step changes the payload of a node that is on the
queue; and the run goes on with whatever the protocol allows. -/
theorem stream_integrity (L : Layout) (k : Kernel) (hc : Act.clear ∉ as)
    (h : exec (Session.step L) (.start k) as = some t) :
    (∃ q, Chain t.sys.kernel.next t.sys.kernel.soundQueueHead q ∧
      t.heads ++ q.tail.map t.sys.kernel.data =
        if t.finished then blocks dataSize 0 (as.flatMap Act.bytes)
        else fullBlocks dataSize 0 (as.flatMap Act.bytes)) ∧
    (t.finished = true ↔ Act.finish ∈ as) ∧
    (∀ bs a cs t1 t2, as = bs ++ a :: cs → exec (Session.step L) (.start k) bs = some t1 →
      t1.step L a = some t2 → ∀ q, Chain t1.sys.kernel.next t1.sys.kernel.soundQueueHead q →
        ∀ i ∈ q, t2.sys.kernel.data i = t1.sys.kernel.data i) ∧
    ∀ a, t.Allows a → ∃ t', t.step L a = some t' := by
  obtain ⟨q, gone, full, rest, hS⟩ := (session_run h).stream
  obtain ⟨hw, hf⟩ := session_written hc h
  refine ⟨⟨q, hS.queued.chain, ?_⟩, by simpa [Session.start] using hf, ?_,
    fun _ => session_allows (session_run h)⟩
  · have hblocks := hS.eq_blocks
    rw [onQueue_eq hS.queued.chain, hw] at hblocks
    exact hblocks
  · rintro bs a cs t1 t2 rfl hbs ha
    have hne : a ≠ .clear := fun he => hc (by simp [he])
    exact (session_step (session_run hbs) ha).2 hne

/-- 33 writes fill the first node and put 2048 bytes into the second; the first is
played, and `finish` sends the second. -/
def twoBlocks : List Act :=
  List.replicate 32 (.write (List.replicate 2048 5)) ++
    [.search, .write (List.replicate 2048 6), .intr, .finish, .intr]

theorem stream_integrity_twoBlocks :
    Act.clear ∉ twoBlocks ∧
    ∃ t, exec (Session.step .sample) (.start (.boot .sample)) twoBlocks = some t ∧
      t.heads = blocks dataSize 0 (twoBlocks.flatMap Act.bytes) := by
  have hc : Act.clear ∉ twoBlocks := by decide +kernel
  have hend : (exec (Session.step .sample) (.start (.boot .sample)) twoBlocks).map
      (fun t => (t.finished, t.sys.kernel.soundQueueHead)) = some (true, none) := by decide +kernel
  obtain ⟨t, ht, he⟩ := Option.map_eq_some_iff.1 hend
  simp only [Prod.mk.injEq] at he
  obtain ⟨⟨q, hq, hheads⟩, -⟩ := stream_integrity .sample (.boot .sample) hc ht
  rw [he.2] at hq
  obtain rfl : q = [] := hq.unique rfl
  rw [he.1] at hheads
  exact ⟨hc, t, ht, by simpa using hheads⟩

end AudioPlayer
