import AudioPlayer.Spec.System

/-!
# What the updates of the driver's state leave unchanged

The flags, links and data of the nodes after each elementary update, as functions
of the node. Everything else an update leaves alone is definitionally the same.
-/

namespace AudioPlayer.Kernel

open Function Links Blocks

variable (k : Kernel) (i : NodeId)

/-- A node is replaced, and with it its flag, its link and its data. -/
theorem setNode_flag (n : SoundNode) : (k.setNode i n).flag = update k.flag i n.flag :=
  comp_update SoundNode.flag k.soundBuffer i n

theorem setNode_next (n : SoundNode) : (k.setNode i n).next = update k.next i n.next :=
  comp_update SoundNode.next k.soundBuffer i n

theorem setNode_data (n : SoundNode) : (k.setNode i n).data = update k.data i n.data :=
  comp_update SoundNode.data k.soundBuffer i n

/-- `setFlag` writes the flag of one node. -/
@[simp] theorem setFlag_flag (v : UInt8) : (k.setFlag i v).flag = update k.flag i v :=
  setNode_flag k i _

/-- The links stay. -/
@[simp] theorem setFlag_next (v : UInt8) : (k.setFlag i v).next = k.next :=
  (setNode_next k i _).trans (update_eq_self i k.next)

/-- The data stay. -/
@[simp] theorem setFlag_data (v : UInt8) : (k.setFlag i v).data = k.data :=
  (setNode_data k i _).trans (update_eq_self i k.data)

/-- A link is written; the flags stay. -/
@[simp] theorem setNext_flag (p : Option NodeId) : (k.setNext i p).flag = k.flag :=
  (setNode_flag k i _).trans (update_eq_self i k.flag)

/-- `setNext` writes the link of one node. -/
@[simp] theorem setNext_next (p : Option NodeId) :
    (k.setNext i p).next = update k.next i p :=
  setNode_next k i _

@[simp] theorem setNext_data (p : Option NodeId) : (k.setNext i p).data = k.data :=
  (setNode_data k i _).trans (update_eq_self i k.data)

/-- A node of zeros is not in use. -/
@[simp] theorem writeZero_flag : (k.writeZero i).flag = update k.flag i 0 :=
  setNode_flag (k.store i 0 dataSize) i _

/-- A node of zeros has no successor. -/
@[simp] theorem writeZero_next : (k.writeZero i).next = update k.next i none :=
  setNode_next (k.store i 0 dataSize) i _

@[simp] theorem writeZero_data : (k.writeZero i).data = update k.data i (pad dataSize 0 []) :=
  setNode_data (k.store i 0 dataSize) i _

/-- A copy into the data of a node leaves its flag and its link. -/
@[simp] theorem writeCopy_flag (off : ℤ) (src : List UInt8) : (k.writeCopy i off src).flag = k.flag :=
  (setNode_flag (k.store i off src.length) i _).trans (update_eq_self i k.flag)

@[simp] theorem writeCopy_next (off : ℤ) (src : List UInt8) : (k.writeCopy i off src).next = k.next :=
  (setNode_next (k.store i off src.length) i _).trans (update_eq_self i k.next)

/-- The bytes of the copy replace those at their offset. -/
@[simp] theorem writeCopy_data (off : ℤ) (src : List UInt8) :
    (k.writeCopy i off src).data = update k.data i (patchVec (k.data i) off.toNat src) :=
  setNode_data (k.store i off src.length) i _

variable (L : Layout)

/-- `play` only writes the descriptors and the device. -/
theorem play_frame : ∃ dl d, k.play L = { k with descriptorList := dl, dev := d } := by
  unfold play writeBdl
  split
  · exact ⟨k.descriptorList, k.dev, rfl⟩
  · simp only
    split
    · exact ⟨_, _, rfl⟩
    · exact ⟨_, k.dev, rfl⟩

end AudioPlayer.Kernel

namespace AudioPlayer.Sys

variable {L : Layout} {s s' : Sys} {p : ℕ}

/-- The call of `p` ends, or goes on searching. -/
theorem after_calls (r : Kernel × Option Search) : (s.after p r).calls p = r.2 := by
  simp [after]

/-- The calls of the other processes stay as they are. -/
theorem after_calls_ne {p' : ℕ} (h : p' ≠ p) (r : Kernel × Option Search) :
    (s.after p r).calls p' = s.calls p' := by
  simp [after, h]

/-! ## What a step that is taken did -/

/-- A write begins when the process has no call that still searches. -/
theorem step_write {buf : List UInt8} (h : s.step L (.write p buf) = some s') :
    s.calls p = none ∧ buf.length ≤ 2048 ∧
      ∃ r, s.kernel.sysWriteDecodedAudio L buf = some r ∧ s' = s.after p r := by
  simp only [step] at h
  split at h
  · simp at h
  · rename_i hc
    simp only [not_or, Bool.not_eq_true, Option.isSome_eq_false_iff, Option.isNone_iff_eq_none,
      not_lt] at hc
    obtain ⟨r, hr, rfl⟩ := Option.map_eq_some_iff.1 h
    exact ⟨hc.1, hc.2, r, hr, rfl⟩

/-- One pass of the search for room. -/
theorem step_search (h : s.step L (.search p) = some s') :
    ∃ w r, s.calls p = some w ∧ s.kernel.searchPass L w = some r ∧ s' = s.after p r := by
  obtain ⟨w, hw, h⟩ := Option.bind_eq_some_iff.1 h
  obtain ⟨r, hr, rfl⟩ := Option.map_eq_some_iff.1 h
  exact ⟨w, r, hw, hr, rfl⟩

/-- The last node is padded and played. -/
theorem step_finish (h : s.step L .finish = some s') :
    ∃ k, s.kernel.sysFinishWriteAudio L = some k ∧ s' = ⟨k, s.calls⟩ := by
  obtain ⟨k, hk, rfl⟩ := Option.map_eq_some_iff.1 h
  exact ⟨k, hk, rfl⟩

theorem step_clear (h : s.step L .clear = some s') :
    s' = ⟨s.kernel.sysClearSoundCardBuffer, s.calls⟩ := (Option.some.inj h).symm

theorem step_setPlay {play : ℤ} (h : s.step L (.setPlay play) = some s') :
    s' = ⟨(s.kernel.sysSetPlay play).1, s.calls⟩ := (Option.some.inj h).symm

/-- The card raises an interrupt, and the handler runs. -/
theorem step_intr (h : s.step L .intr = some s') :
    ∃ k, { s.kernel with dev := s.kernel.dev.raise }.soundintr L = some k ∧ s' = ⟨k, s.calls⟩ := by
  obtain ⟨k, hk, rfl⟩ := Option.map_eq_some_iff.1 h
  exact ⟨k, hk, rfl⟩

end AudioPlayer.Sys

namespace AudioPlayer.Kernel

/-- `setPlay` only writes the control register. -/
theorem setPlay_frame (k : Kernel) (play : ℤ) : ∃ d, (k.sysSetPlay play).1 = { k with dev := d } := by
  unfold sysSetPlay resume pause
  split <;> split <;> exact ⟨_, rfl⟩

end AudioPlayer.Kernel
