import AudioPlayer.Proof.WellFormed
import AudioPlayer.Spec.Session

/-!
# The nodes on the queue as a byte stream

`Stream k call finished written heads q gone full rest` ties the ring to the bytes
written since the last `clear`:

* `gone` are the payloads of the nodes that were played, `q` is the queue, and
  `heads` are the payloads that became the head of the queue;
* `full` are the complete blocks sent and `rest` the bytes written behind them, which
  are in the node being filled (`Unsent` with no call), in the buffer of a call that
  searches for a node (`Unsent` with a call), or in a last, padded block.

There is one lemma for each operation of the ring. `Stream.eq_blocks` reads the
stream off: what became the head and what waits behind it is what was written, cut
into blocks.
-/

namespace AudioPlayer

open List Option Links Blocks Runs Kernel

/-- The bytes of a list of payloads. -/
def bytes (bs : List Data) : List UInt8 := (bs.map List.Vector.toList).flatten

theorem bytes_append (bs cs : List Data) : bytes (bs ++ cs) = bytes bs ++ bytes cs := by
  simp [bytes]

/-- `rest` is what was written and not sent: it is in the node being filled, or still
to be stored by a call that searches for a node. -/
def Unsent (k : Kernel) (q : List NodeId) : Option Search → List UInt8 → Prop
  | none, rest => (rest.length : ℤ) = k.usedSize ∧ k.bufferIndex ∉ q ∧ k.fillData = pad dataSize 0 rest
  | some w, rest => w.OK ∧ rest = w.buf.drop w.readAlready.toNat

/-- The ring carries the stream `written`. -/
structure Stream (k : Kernel) (call : Option Search) (finished : Bool) (written : List UInt8)
    (heads : List Data) (q : List NodeId) (gone full : List Data) (rest : List UInt8) : Prop where
  queued : Queued k q
  heads : heads = gone ++ (q.take 1).map k.data
  sent : gone ++ q.map k.data = full ++ if finished ∧ rest ≠ [] then [pad dataSize 0 rest] else []
  written : written = bytes full ++ rest
  short : rest.length < dataSize
  unsent : finished = false → Unsent k q call rest

section

variable {L : Layout} {k k' : Kernel} {call : Option Search} {fin : Bool} {written : List UInt8}
  {heads : List Data} {q : List NodeId} {gone full : List Data} {rest buf : List UInt8}

theorem head_payload {q : List NodeId} (h : Chain k.next k.soundQueueHead q) :
    (k.soundQueueHead.map k.data).toList = (q.take 1).map k.data := by
  rw [h.head]
  cases q <;> rfl

/-- The heads stay in step when a call leaves the queued payloads alone and adds
some nodes. -/
theorem heads_call (hh : heads = gone ++ (q.take 1).map k.data) (hq : Queued k q) {q' : List NodeId}
    (hq' : Queued k' (q ++ q')) (hd : ∀ i ∈ q, k'.data i = k.data i) :
    heads ++ newHead k k' = gone ++ ((q ++ q').take 1).map k'.data := by
  subst hh
  unfold newHead
  rw [head_payload hq'.chain, hq.chain.head]
  cases q with
  | nil => simp
  | cons i q => simp [hd i mem_cons_self]

theorem heads_keep (hh : heads = gone ++ (q.take 1).map k.data) (hq : Queued k q) (hq' : Queued k' q)
    (hd : ∀ i ∈ q, k'.data i = k.data i) :
    heads ++ newHead k k' = gone ++ (q.take 1).map k'.data := by
  have h0 : Queued k' (q ++ []) := by rwa [append_nil]
  have := heads_call hh hq h0 hd
  rwa [append_nil] at this

/-- **What became the head, and what waits behind it, is the stream cut into blocks.** -/
theorem Stream.eq_blocks (h : Stream k call fin written heads q gone full rest) :
    heads ++ k.onQueue.tail.map k.data =
      if fin then blocks dataSize 0 written else fullBlocks dataSize 0 written := by
  obtain ⟨h1, h2⟩ := blocks_eq (z := 0) h.short (h.written.trans rfl)
  have hs : heads ++ k.onQueue.tail.map k.data = gone ++ q.map k.data := by
    rw [onQueue_eq h.queued.chain, h.heads, append_assoc, ← map_append]
    cases q <;> rfl
  rw [hs, h.sent, h1, h2]
  cases fin with
  | false => simp
  | true => by_cases hr : rest = [] <;> simp [hr]

/-- Before `finish`, only complete blocks are sent. -/
theorem Stream.sent_eq (h : Stream k call false written heads q gone full rest) :
    gone ++ q.map k.data = full := by
  have hs := h.sent
  rw [if_neg (by simp), append_nil] at hs
  exact hs

/-- A freshly cleared ring carries the empty stream, or what a call has still to
store. -/
theorem stream_clear (k : Kernel) (call : Option Search) (hw : ∀ w, call = some w → w.OK) :
    ∃ rest, Stream k.sysClearSoundCardBuffer call false
      (call.elim [] fun w => w.buf.drop w.readAlready.toNat) [] [] [] [] rest := by
  obtain ⟨hq, -, -, hus, -⟩ := clear_spec k
  cases call with
  | none =>
    refine ⟨[], hq, rfl, rfl, rfl, by decide, fun _ => ⟨?_, by simp, ?_⟩⟩
    · rw [hus]; rfl
    · unfold fillData; rw [if_pos hus]
  | some w =>
    have hok := hw w rfl
    refine ⟨w.buf.drop w.readAlready.toNat, hq, rfl, by simp, by simp [bytes], ?_, fun _ => ⟨hok, rfl⟩⟩
    have := hok.size
    rw [length_drop]
    show _ < 65536
    omega

/-- **A write call adds its bytes to the stream.** -/
theorem stream_write (h : Stream k none false written heads q gone full rest) (hlen : buf.length ≤ 2048)
    {r : Kernel × Option Search} (hr : k.sysWriteDecodedAudio L buf = some r) :
    (∀ i ∈ q, r.1.data i = k.data i) ∧ ∃ q' full' rest',
      Stream r.1 r.2 false (written ++ buf) (heads ++ newHead k r.1) q' gone full' rest' := by
  obtain ⟨hus, hb, hfill⟩ := h.unsent rfl
  have hrest : rest.length < 65536 := h.short
  have hun : k.usedSize.toNat = rest.length := by omega
  rcases lt_or_ge (buf.length : ℤ) (bufsize - k.usedSize) with hfit | hfull
  · -- the bytes fit: they go behind `rest` into the same node
    obtain ⟨k', hk, hq', -, hd, hbi, hus', -⟩ := write_fit L h.queued hb hfit
    rw [hk, some.injEq] at hr; subst hr
    rw [bufsize_eq] at hfit
    have hdq : ∀ i ∈ q, k'.data i = k.data i := data_off_queue hd hb
    have hpatch : patchVec k.fillData k.usedSize.toNat buf = pad dataSize 0 (rest ++ buf) := by
      rw [hfill, hun]
      exact patch_pad (by show _ ≤ 65536; omega)
    refine ⟨hdq, q, full, rest ++ buf, hq', ?_, ?_, ?_, ?_, fun _ => ⟨?_, ?_, ?_⟩⟩
    · exact heads_keep h.heads h.queued hq' hdq
    · have := h.sent
      simpa [map_congr_left hdq] using this
    · rw [h.written, append_assoc]
    · show _ < 65536
      rw [length_append]; omega
    · rw [length_append]; push_cast; omega
    · rw [hbi]; exact hb
    · unfold fillData
      rw [hus', hbi, hd, Function.update_self, hpatch]
      split
      · -- nothing written yet: the cleared node and the padded empty list agree
        have hr0 : rest ++ buf = [] := by
          apply eq_nil_of_length_eq_zero
          rw [length_append]; omega
        rw [hr0]
      · rfl
  · -- the node is full and becomes a block; the bytes left stay with the call
    obtain ⟨k', hk, hq', -, hd, -, -, -⟩ := write_full L h.queued hb hfull
    rw [hk, some.injEq] at hr; subst hr
    rw [bufsize_eq] at hfull
    set n := (bufsize - k.usedSize).toNat with hn
    have hn' : n = 65536 - rest.length := by rw [hn, bufsize_eq]; omega
    have hdq : ∀ i ∈ q, k'.data i = k.data i := data_off_queue hd hb
    have htake : (buf.take n).length = n := by rw [length_take]; omega
    have hblock : (k'.data k.bufferIndex).toList = rest ++ buf.take n := by
      rw [hd, Function.update_self, hfill, hun, patch_pad (by show _ ≤ 65536; omega),
        pad_toList (by rw [length_append]; show _ ≤ 65536; omega), length_append, htake]
      simp [show dataSize - (rest.length + n) = 0 by show 65536 - _ = 0; omega]
    have hsent : gone ++ q.map k.data = full := h.sent_eq
    have hmap : q.map k'.data = q.map k.data := map_congr_left hdq
    refine ⟨hdq, q ++ [k.bufferIndex], full ++ [k'.data k.bufferIndex], buf.drop n, hq', ?_, ?_, ?_, ?_,
      fun _ => ⟨⟨?_, ?_, hlen⟩, rfl⟩⟩
    · exact heads_call h.heads h.queued hq' hdq
    · simp [hmap, ← hsent]
    · rw [h.written, bytes_append]
      show bytes full ++ rest ++ buf = bytes full ++ ([(k'.data k.bufferIndex).toList]).flatten ++ _
      rw [hblock]
      simp
    · rw [length_drop]; show _ < 65536; omega
    · show 0 ≤ bufsize - k.usedSize
      rw [bufsize_eq]; omega
    · show bufsize - k.usedSize ≤ _
      rw [bufsize_eq]; omega

/-- **A search pass moves the bytes left into the node it claims.** -/
theorem stream_search {w : Search} (h : Stream k (some w) false written heads q gone full rest)
    {r : Kernel × Option Search} (hr : k.searchPass L w = some r) :
    (∀ i ∈ q, r.1.data i = k.data i) ∧
      Stream r.1 r.2 false written (heads ++ newHead k r.1) q gone full rest := by
  obtain ⟨hok, hrest⟩ := h.unsent rfl
  rcases search_spec (k := k) L hok.fits with ⟨hk, -⟩ | ⟨i, hi, hk⟩
  · rw [hk, some.injEq] at hr; subst hr
    exact ⟨fun _ _ => rfl, h.queued, heads_keep h.heads h.queued h.queued fun _ _ => rfl, h.sent,
      h.written, h.short, h.unsent⟩
  · rw [hk, some.injEq] at hr; subst hr
    have hiq : i ∉ q := by rw [← h.queued.sent i, hi]; decide
    obtain ⟨hq', -, hd, -⟩ := claim_spec h.queued hiq w.buf w.readAlready
    have hdq : ∀ j ∈ q, (k.claim w.buf w.readAlready i).data j = k.data j := data_off_queue hd hiq
    have hlen : (rest.length : ℤ) = w.buf.length - w.readAlready := by
      have := hok.lo; have := hok.hi
      rw [hrest, length_drop]; omega
    refine ⟨hdq, hq', ?_, ?_, h.written, h.short, fun _ => ⟨hlen, hiq, ?_⟩⟩
    · exact heads_keep h.heads h.queued hq' hdq
    · rw [map_congr_left hdq]; exact h.sent
    · -- an exact fit claims a node for no bytes at all
      show (if (w.buf.length : ℤ) - w.readAlready = 0 then _ else _) = _
      rw [← hlen, hrest]
      split
      · rename_i h0
        rw [eq_nil_of_length_eq_zero (by omega : (w.buf.drop w.readAlready.toNat).length = 0)]
      · show (k.claim w.buf w.readAlready i).data i = _
        rw [hd, Function.update_self]
        have := patch_pad (n := dataSize) (z := (0 : UInt8)) (w := []) (b := w.buf.drop w.readAlready.toNat)
          (by rw [← hrest]; simpa using h.short.le)
        simpa using this

/-- **`finish` sends the last, padded block.** -/
theorem stream_finish (h : Stream k none false written heads q gone full rest)
    (hk : k.sysFinishWriteAudio L = some k') :
    (∀ i ∈ q, k'.data i = k.data i) ∧ ∃ q',
      Stream k' none true written (heads ++ newHead k k') q' gone full rest := by
  obtain ⟨hus, hb, hfill⟩ := h.unsent rfl
  have hsent : gone ++ q.map k.data = full := h.sent_eq
  rcases lt_or_ge 0 k.usedSize with hu | hu
  · obtain ⟨k1, hk1, hq', -, hd, -⟩ := finish_spec L h.queued hb hu
    rw [hk1, some.injEq] at hk; subst hk
    have hdq : ∀ i ∈ q, k1.data i = k.data i := fun i _ => by rw [hd]
    have hr0 : rest ≠ [] := by rintro rfl; simp at hus; omega
    have hlast : k.data k.bufferIndex = pad dataSize 0 rest := by
      rw [← hfill]; unfold fillData; rw [if_neg (by omega)]
    refine ⟨hdq, q ++ [k.bufferIndex], hq', ?_, ?_, h.written, h.short, by simp⟩
    · exact heads_call h.heads h.queued hq' hdq
    · rw [hd, map_append, ← append_assoc, hsent]
      simp [hr0, hlast]
  · -- nothing is left to send
    obtain rfl := finish_empty hk hu
    have hr0 : rest = [] := eq_nil_of_length_eq_zero (by omega)
    refine ⟨fun _ _ => rfl, q, h.queued, heads_keep h.heads h.queued h.queued fun _ _ => rfl, ?_,
      h.written, h.short, by simp⟩
    rw [hsent]; simp [hr0]

/-- **An interrupt drops the head**, and the next payload becomes the head. -/
theorem stream_intr (h : Stream k call fin written heads q gone full rest)
    (hk : k.soundintr L = some k') :
    (∀ i ∈ q, k'.data i = k.data i) ∧ ∃ q' gone',
      Stream k' call fin written (heads ++ (k'.soundQueueHead.map k'.data).toList) q' gone' full rest := by
  obtain ⟨i, q, rfl⟩ := queue_of_soundintr h.queued hk
  obtain ⟨k1, hk1, hq', -, hd, hbi, hus, -⟩ := soundintr_spec L h.queued
  rw [hk1, some.injEq] at hk; subst hk
  refine ⟨fun j _ => by rw [hd], q, gone ++ [k.data i], hq', ?_, ?_, h.written, h.short, ?_⟩
  · rw [h.heads, head_payload hq'.chain, hd]; simp
  · have := h.sent
    rw [hd]; simpa using this
  · intro hf
    have hun := h.unsent hf
    cases call with
    | none =>
      obtain ⟨h1, h2, h3⟩ := hun
      refine ⟨by rw [hus]; exact h1, ?_, ?_⟩
      · rw [hbi]; exact fun hm => h2 (mem_cons_of_mem _ hm)
      · unfold fillData at h3 ⊢
        rw [hus, hbi, hd]; exact h3
    | some w => exact hun

/-- The stream does not depend on the device. -/
theorem stream_dev (d : Device) (h : Stream k call fin written heads q gone full rest) :
    Stream { k with dev := d } call fin written heads q gone full rest := by
  refine ⟨⟨h.queued.chain, h.queued.sent⟩, h.heads, h.sent, h.written, h.short, fun hf => ?_⟩
  have hun := h.unsent hf
  cases call with
  | none => exact hun
  | some w => exact hun

end

end AudioPlayer
