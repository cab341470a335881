import AudioPlayer.Proof.Fields
import Mathlib.Tactic.FinCases

/-!
# What the driver's operations do to a well-formed queue

`Queued k q`: the queue holds the nodes `q`, and these are the nodes with flag 3.
Each operation then has one lemma: `addSoundNode_chain`, `write_fit`, `write_full`,
`search_spec`, `finish_spec`, `soundintr_spec`, `clear_spec`. They give the new queue
and the flags, data and fill position afterwards, under the one condition that a
node that is filled or sent is not on the queue yet. `addSoundNode_loop` is what
happens without it, and `addSoundNode_eq_none_iff` when a call never returns.
-/

namespace AudioPlayer

open Function Links Blocks List Option

theorem bufsize_eq : bufsize = 65536 := rfl

/-- The queue holds the nodes `q`, in order, and they are the nodes that were sent. -/
structure Queued (k : Kernel) (q : List NodeId) : Prop where
  chain : Chain k.next k.soundQueueHead q
  sent : ∀ i, k.flag i = 3 ↔ i ∈ q

/-- No store of a write call went into a node on the queue. -/
def StoresOK (k : Kernel) : Prop := ∀ st ∈ k.stores, 0 < st.len → st.queued = false

namespace Kernel

variable {L : Layout} {k : Kernel} {q : List NodeId} {i : NodeId} {buf : List UInt8} {k' : Kernel}

theorem chain_length (h : Chain k.next k.soundQueueHead q) : q.length ≤ bufferNodeNum := by
  have := h.length_le_card
  simpa using this

theorem onQueue_eq (h : Chain k.next k.soundQueueHead q) : k.onQueue = q :=
  h.visit_eq (chain_length h)

/-- A store into a node off the queue leaves the payloads on the queue alone. -/
theorem data_off_queue {d : Data} (hd : k'.data = update k.data i d)
    (hi : i ∉ q) : ∀ j ∈ q, k'.data j = k.data j := by
  intro j hj
  have hne : j ≠ i := by
    rintro rfl
    exact hi hj
  rw [hd, update_of_ne hne]

/-- **`add_sound_node` fails exactly if its walk never ends**, however many nodes it
visits: looking at as many nodes as there are decides it. -/
theorem addSoundNode_eq_none_iff (L : Layout) : k.addSoundNode L i = none ↔
    ∀ n, walk (update k.next i none) n k.soundQueueHead = none := by
  have hcard := @walk_card_eq_none_iff _ (update k.next i none) k.soundQueueHead _
  rw [Fintype.card_fin] at hcard
  unfold addSoundNode
  simp only [map_eq_none_iff]
  rw [setNext_next]
  exact hcard

/-- `add_sound_node` leaves the flags, the data and the fill position alone. -/
theorem addSoundNode_frame (h : k.addSoundNode L i = some k') :
    k'.flag = k.flag ∧ k'.data = k.data ∧ k'.bufferIndex = k.bufferIndex ∧
      k'.usedSize = k.usedSize ∧ k'.stores = k.stores := by
  unfold addSoundNode at h
  simp only [map_eq_some_iff] at h
  obtain ⟨q, -, rfl⟩ := h
  have hlink : ((k.setNext i none).linkTail q i).flag = k.flag ∧
      ((k.setNext i none).linkTail q i).data = k.data ∧
      ((k.setNext i none).linkTail q i).bufferIndex = k.bufferIndex ∧
      ((k.setNext i none).linkTail q i).usedSize = k.usedSize ∧
      ((k.setNext i none).linkTail q i).stores = k.stores := by
    unfold linkTail
    split
    · exact ⟨setNext_flag k i none, setNext_data k i none, rfl, rfl, rfl⟩
    · exact ⟨by simp, by simp, rfl, rfl, rfl⟩
  split
  · obtain ⟨dl, d, hp⟩ := play_frame ((k.setNext i none).linkTail q i) L
    rw [hp]; exact hlink
  · exact hlink

/-- The links after `add_sound_node`, from the nodes its walk meets. -/
theorem addSoundNode_links (L : Layout)
    (h : Chain (update k.next i none) k.soundQueueHead q) :
    ∃ k', k.addSoundNode L i = some k' ∧ k'.next = ((k.setNext i none).linkTail q i).next ∧
      k'.soundQueueHead = ((k.setNext i none).linkTail q i).soundQueueHead := by
  have h0 : Chain (k.setNext i none).next (k.setNext i none).soundQueueHead q := by
    rw [setNext_next]; exact h
  have hw : walk (k.setNext i none).next bufferNodeNum (k.setNext i none).soundQueueHead = some q :=
    walk_eq_some_iff.2 ⟨h0, chain_length h0⟩
  unfold addSoundNode
  simp only [hw, map_some]
  split
  · obtain ⟨dl, d, hp⟩ := play_frame ((k.setNext i none).linkTail q i) L
    refine ⟨_, rfl, ?_⟩
    rw [hp]; exact ⟨rfl, rfl⟩
  · exact ⟨_, rfl, rfl, rfl⟩

/-- **`add_sound_node` puts a new node behind the queue.** -/
theorem addSoundNode_chain (L : Layout) (h : Chain k.next k.soundQueueHead q) (hi : i ∉ q) :
    ∃ k', k.addSoundNode L i = some k' ∧ Chain k'.next k'.soundQueueHead (q ++ [i]) := by
  have h0 := h.update_of_notMem hi none
  have hn : update k.next i none i = none := update_self ..
  obtain ⟨k', ha, hnext, hhead⟩ := addSoundNode_links L h0
  refine ⟨k', ha, ?_⟩
  rw [hnext, hhead]
  unfold linkTail
  cases ht : q.getLast? with
  | none =>
    have hq : q = [] := List.getLast?_eq_none_iff.1 ht
    subst hq
    exact ⟨rfl, (congrFun (setNext_next k i none) i).trans hn⟩
  | some t =>
    simp only [setNext_next]
    exact h0.concat hi hn ht

/-- **Adding a node that is on the queue makes it its own successor**, and the queue
endless. -/
theorem addSoundNode_loop (h : Chain k.next k.soundQueueHead q) (hi : i ∈ q)
    (ha : k.addSoundNode L i = some k') (q' : List NodeId) :
    ¬ Chain k'.next k'.soundQueueHead q' := by
  obtain ⟨a, b, rfl, hne⟩ := h.split hi
  -- the walk stops at the node itself, whose link has just been cleared
  have hcut : Chain (update k.next i none) k.soundQueueHead (a ++ [i]) :=
    h.cut (hne none) (update_self ..)
  obtain ⟨k1, ha1, hnext, hhead⟩ := addSoundNode_links L hcut
  rw [ha, some.injEq] at ha1
  subst ha1
  have hl : (a ++ [i]).getLast? = some i := by simp
  simp only [linkTail, hl, setNext_next, update_idem] at hnext hhead
  rw [hnext, hhead]
  intro hc
  have hc' : Chain (update k.next i (some i)) k.soundQueueHead q' := hc
  exact hc'.not_mem_of_loop (update_self ..) (h.mem_of_agree (hne (some i)) hc')

/-! ## The stores of a write call -/

theorem storesOK_store (h : Chain k.next k.soundQueueHead q) (hi : i ∉ q) (hs : StoresOK k)
    (off len : ℤ) : StoresOK (k.store i off len) := by
  intro st hst hl
  rcases mem_cons.1 hst with rfl | hst
  · simp [onQueue_eq h, hi]
  · exact hs st hst hl

theorem storesOK_writeZero (h : Chain k.next k.soundQueueHead q) (hi : i ∉ q) (hs : StoresOK k) :
    StoresOK (k.writeZero i) := storesOK_store h hi hs 0 dataSize

theorem storesOK_writeCopy (h : Chain k.next k.soundQueueHead q) (hi : i ∉ q) (hs : StoresOK k)
    (off : ℤ) (src : List UInt8) : StoresOK (k.writeCopy i off src) :=
  storesOK_store h hi hs off src.length

theorem chain_writeZero (h : Chain k.next k.soundQueueHead q) (hi : i ∉ q) :
    Chain (k.writeZero i).next (k.writeZero i).soundQueueHead q := by
  rw [writeZero_next]; exact h.update_of_notMem hi none

/-- The data of the node being filled, cleared if nothing is in it yet. -/
def fillData (k : Kernel) : Data := if k.usedSize = 0 then pad dataSize 0 [] else k.data k.bufferIndex

/-- What clearing a new node leaves, off the queue. -/
theorem clearNew_spec (h : Chain k.next k.soundQueueHead q) (hb : k.bufferIndex ∉ q) :
    Chain k.clearNew.next k.clearNew.soundQueueHead q ∧
      (∀ v, update k.clearNew.flag k.bufferIndex v = update k.flag k.bufferIndex v) ∧
      (∀ d, update k.clearNew.data k.bufferIndex d = update k.data k.bufferIndex d) ∧
      k.clearNew.data k.bufferIndex = k.fillData ∧ k.clearNew.bufferIndex = k.bufferIndex ∧
      k.clearNew.usedSize = k.usedSize ∧ (StoresOK k → StoresOK k.clearNew) := by
  unfold clearNew fillData
  by_cases h0 : k.usedSize = 0
  · rw [if_pos h0, if_pos h0]
    refine ⟨chain_writeZero h hb, ?_, ?_, ?_, rfl, rfl, storesOK_writeZero h hb⟩
    · intro v; rw [writeZero_flag, update_idem]
    · intro d; rw [writeZero_data, update_idem]
    · rw [writeZero_data, update_self]
  · rw [if_neg h0, if_neg h0]
    exact ⟨h, fun _ => rfl, fun _ => rfl, rfl, rfl, rfl, id⟩

/-! ## The system calls -/

/-- **A write that fits** goes behind what the node being filled holds. -/
theorem write_fit (L : Layout) (hq : Queued k q) (hb : k.bufferIndex ∉ q)
    (hfit : buf.length < bufsize - k.usedSize) :
    ∃ k', k.sysWriteDecodedAudio L buf = some (k', none) ∧ Queued k' q ∧
      k'.flag = update k.flag k.bufferIndex 1 ∧
      k'.data = update k.data k.bufferIndex (patchVec k.fillData k.usedSize.toNat buf) ∧
      k'.bufferIndex = k.bufferIndex ∧ k'.usedSize = k.usedSize + buf.length ∧
      (StoresOK k → StoresOK k') := by
  obtain ⟨hc, hf, hd, hfill, hbi, hus, hst⟩ := clearNew_spec hq.chain hb
  unfold sysWriteDecodedAudio
  simp only [hus, hbi]
  rw [if_pos hfit]
  refine ⟨_, rfl, ⟨?_, ?_⟩, ?_, ?_, hbi, by rw [← hus]; rfl, ?_⟩
  · show Chain (setFlag _ _ _).next _ q
    rw [setFlag_next, writeCopy_next]; exact hc
  · intro i
    show (setFlag _ _ _).flag i = 3 ↔ _
    rw [setFlag_flag, writeCopy_flag, hf]
    by_cases hi : i = k.bufferIndex
    · subst hi; simp [hb]
    · rw [update_of_ne hi]; exact hq.sent i
  · show (setFlag _ _ _).flag = _
    rw [setFlag_flag, writeCopy_flag, hf]
  · show (setFlag _ _ _).data = _
    rw [setFlag_data, writeCopy_data, hfill, hd]
  · intro hs
    exact storesOK_writeCopy hc hb (hst hs) k.usedSize buf

/-- **A write that does not fit** fills the node, sends it and goes on to search. -/
theorem write_full (L : Layout) (hq : Queued k q) (hb : k.bufferIndex ∉ q)
    (hfull : bufsize - k.usedSize ≤ buf.length) :
    ∃ k', k.sysWriteDecodedAudio L buf = some (k', some ⟨buf, bufsize - k.usedSize⟩) ∧
      Queued k' (q ++ [k.bufferIndex]) ∧ k'.flag = update k.flag k.bufferIndex 3 ∧
      k'.data = update k.data k.bufferIndex
        (patchVec k.fillData k.usedSize.toNat (buf.take (bufsize - k.usedSize).toNat)) ∧
      k'.bufferIndex = k.bufferIndex ∧ k'.usedSize = k.usedSize ∧ (StoresOK k → StoresOK k') := by
  obtain ⟨hc, hf, hd, hfill, hbi, hus, hst⟩ := clearNew_spec hq.chain hb
  unfold sysWriteDecodedAudio
  simp only [hus, hbi]
  rw [if_neg (by omega)]
  set src := buf.take (bufsize - k.usedSize).toNat
  set k1 := (k.clearNew.writeCopy k.bufferIndex k.usedSize src).setFlag k.bufferIndex 3 with hk1
  have hc1 : Chain k1.next k1.soundQueueHead q := by
    show Chain (setFlag _ _ _).next _ q
    rw [setFlag_next, writeCopy_next]; exact hc
  have hb1 : k1.bufferIndex = k.bufferIndex := hbi
  obtain ⟨k', ha, hc'⟩ := addSoundNode_chain L hc1 hb
  obtain ⟨hf', hd', hbi', hus', hst'⟩ := addSoundNode_frame ha
  rw [hb1, ha]
  have hflag : k'.flag = update k.flag k.bufferIndex 3 := by
    rw [hf', hk1, setFlag_flag, writeCopy_flag, hf]
  refine ⟨k', rfl, ⟨hc', ?_⟩, hflag, ?_, hbi'.trans hbi, hus'.trans hus, ?_⟩
  · intro i
    rw [hflag]
    by_cases hi : i = k.bufferIndex
    · subst hi; simp
    · rw [update_of_ne hi, hq.sent i]; simp [hi]
  · rw [hd', hk1, setFlag_data, writeCopy_data, hfill, hd]
  · intro hs
    show ∀ st ∈ k'.stores, _
    rw [hst']
    exact storesOK_writeCopy hc hb (hst hs) k.usedSize src

/-- **What the search loop claims**: node `i`, off the queue, for the bytes left. -/
theorem claim_spec (hq : Queued k q) (hi : i ∉ q) (buf : List UInt8) (r : ℤ) :
    Queued (k.claim buf r i) q ∧ (k.claim buf r i).flag = update k.flag i 1 ∧
      (k.claim buf r i).data =
        update k.data i (patchVec (pad dataSize 0 []) 0 (buf.drop r.toNat)) ∧
      (StoresOK k → StoresOK (k.claim buf r i)) := by
  have hc := chain_writeZero hq.chain hi
  have hflag : (k.claim buf r i).flag = update k.flag i 1 := by
    show (setFlag _ _ _).flag = _
    rw [setFlag_flag, writeCopy_flag, writeZero_flag, update_idem]
  refine ⟨⟨?_, ?_⟩, hflag, ?_, ?_⟩
  · show Chain (setFlag _ _ _).next _ q
    rw [setFlag_next, writeCopy_next]; exact hc
  · intro j
    rw [hflag]
    by_cases hj : j = i
    · subst hj; simp [hi]
    · rw [update_of_ne hj]; exact hq.sent j
  · show (setFlag _ _ _).data = _
    rw [setFlag_data, writeCopy_data, writeZero_data, update_self, update_idem]
    rfl
  · intro hs
    exact storesOK_writeCopy hc hi (storesOK_writeZero hq.chain hi hs) 0 _

/-- A pass over some nodes, for a call whose bytes left fit into one node. -/
theorem searchFrom_spec (L : Layout) {r : ℤ} (hr : buf.length - r < bufsize) : ∀ is : List NodeId,
    (k.searchFrom L buf is r = some (k, some r) ∧ ∀ i ∈ is, k.flag i ≠ 0) ∨
      ∃ i ∈ is, k.flag i = 0 ∧ k.searchFrom L buf is r = some (k.claim buf r i, none) := by
  intro is
  induction is with
  | nil => exact Or.inl ⟨rfl, by simp⟩
  | cons i is ih =>
    unfold searchFrom
    by_cases hi : k.flag i = 0
    · rw [if_pos hi, if_pos hr]
      exact Or.inr ⟨i, mem_cons_self, hi, rfl⟩
    · rw [if_neg hi]
      rcases ih with ⟨h1, h2⟩ | ⟨j, hj, h1, h2⟩
      · refine Or.inl ⟨h1, fun j hj => ?_⟩
        rcases mem_cons.1 hj with rfl | hj
        · exact hi
        · exact h2 j hj
      · exact Or.inr ⟨j, mem_cons_of_mem _ hj, h1, h2⟩

/-- **A search pass** changes nothing when no node is free, and claims a free node
otherwise. -/
theorem search_spec (L : Layout) {w : Search} (hw : w.buf.length - w.readAlready < bufsize) :
    (k.searchPass L w = some (k, some w) ∧ ∀ i, k.flag i ≠ 0) ∨
      ∃ i, k.flag i = 0 ∧ k.searchPass L w = some (k.claim w.buf w.readAlready i, none) := by
  unfold searchPass
  rcases searchFrom_spec (k := k) L hw (List.finRange bufferNodeNum) with ⟨h1, h2⟩ | ⟨i, -, h1, h2⟩
  · exact Or.inl ⟨by rw [h1]; rfl, fun i => h2 i (mem_finRange i)⟩
  · exact Or.inr ⟨i, h1, by rw [h2]; rfl⟩

/-- **`finish` sends the node being filled**, if there is anything in it. -/
theorem finish_spec (L : Layout) (hq : Queued k q) (hb : k.bufferIndex ∉ q) (hu : 0 < k.usedSize) :
    ∃ k', k.sysFinishWriteAudio L = some k' ∧ Queued k' (q ++ [k.bufferIndex]) ∧
      k'.flag = update k.flag k.bufferIndex 3 ∧ k'.data = k.data ∧
      k'.bufferIndex = k.bufferIndex ∧ k'.usedSize = k.usedSize ∧ k'.stores = k.stores := by
  unfold sysFinishWriteAudio
  rw [if_pos hu]
  have hc : Chain (k.setFlag k.bufferIndex 3).next (k.setFlag k.bufferIndex 3).soundQueueHead q := by
    rw [setFlag_next]; exact hq.chain
  obtain ⟨k', ha, hc'⟩ := addSoundNode_chain L hc hb
  obtain ⟨hf', hd', hbi', hus', hst'⟩ := addSoundNode_frame ha
  rw [setFlag_flag] at hf'
  rw [setFlag_data] at hd'
  refine ⟨k', ha, ⟨hc', fun i => ?_⟩, hf', hd', hbi', hus', hst'⟩
  rw [hf']
  by_cases hi : i = k.bufferIndex
  · subst hi; simp
  · rw [update_of_ne hi, hq.sent i]; simp [hi]

theorem finish_empty (h : k.sysFinishWriteAudio L = some k') (hu : k.usedSize ≤ 0) :
    k' = k := by
  unfold sysFinishWriteAudio at h
  rw [if_neg (by omega)] at h
  exact (some.inj h).symm

/-- An interrupt that does not panic finds a node on the queue. -/
theorem queue_of_soundintr (hq : Queued k q) (h : k.soundintr L = some k') :
    ∃ i q', q = i :: q' := by
  cases q with
  | nil =>
    unfold soundintr at h
    rw [show k.soundQueueHead = none from hq.chain] at h
    simp at h
  | cons i q => exact ⟨i, q, rfl⟩

/-- **An interrupt takes the first node off the queue** and frees it. -/
theorem soundintr_spec (L : Layout) (hq : Queued k (i :: q)) :
    ∃ k', k.soundintr L = some k' ∧ Queued k' q ∧ k'.flag = update k.flag i 0 ∧
      k'.data = k.data ∧ k'.bufferIndex = k.bufferIndex ∧ k'.usedSize = k.usedSize ∧
      k'.stores = k.stores := by
  have hi : i ∉ q := (nodup_cons.1 hq.chain.nodup).1
  have hsent : ∀ j, (k.setFlag i 0).flag j = 3 ↔ j ∈ q := by
    intro j
    rw [setFlag_flag]
    by_cases hj : j = i
    · subst hj; simp [hi]
    · rw [update_of_ne hj, hq.sent j]; simp [hj]
  have hc : Chain (k.setFlag i 0).next (k.next i) q := by
    rw [setFlag_next]; exact hq.chain.2
  unfold soundintr
  rw [hq.chain.1]
  simp only
  cases hn : k.next i with
  | none =>
    rw [hn] at hc
    exact ⟨_, rfl, ⟨hc, hsent⟩, setFlag_flag k i 0, setFlag_data k i 0, rfl, rfl, rfl⟩
  | some j =>
    rw [hn] at hc
    exact ⟨_, rfl, ⟨hc, hsent⟩, setFlag_flag k i 0, setFlag_data k i 0, rfl, rfl, rfl⟩

/-- **`clear` empties the queue and frees every node.** -/
theorem clear_spec (k : Kernel) :
    Queued k.sysClearSoundCardBuffer [] ∧ (∀ i, k.sysClearSoundCardBuffer.flag i = 0) ∧
      k.sysClearSoundCardBuffer.bufferIndex = 0 ∧ k.sysClearSoundCardBuffer.usedSize = 0 ∧
      k.sysClearSoundCardBuffer.stores = k.stores := by
  have hf : ∀ i, k.sysClearSoundCardBuffer.flag i = 0 := by
    intro i
    fin_cases i <;> rfl
  exact ⟨⟨rfl, fun i => by rw [hf i]; simp⟩, hf, rfl, rfl, rfl⟩

end Kernel

end AudioPlayer
