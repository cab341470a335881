import AudioPlayer.Proof.Player

/-!
# What a reader plays

A reader goes on behind the 44 bytes that `readWavHead` consumed, and reads to the end
of the file: the size of the data chunk is in the header, but the loop of the reader
does not look at it.

* `readLoop_spec`: the reader ends, and passes on all bytes from its offset to the end;
* `plays_data_chunk_iff`: these are the bytes of the data chunk exactly if nothing
  follows the data chunk.
-/

namespace AudioPlayer

open List Runs

/-- The range tests of `readi` never fire on a file that can be read. -/
theorem readi_eq (f : File) {off n : ℕ} (hoff : off ≤ f.bytes.length) (hn : n ≤ 2 ^ 16) :
    f.readi off n = (f.bytes.drop off).take n := by
  have hsize : f.bytes.length ≤ 1074528256 := f.size_le
  have hmod : (off + n) % 2 ^ 32 = off + n := Nat.mod_eq_of_lt (by omega)
  unfold File.readi
  simp only [hmod]
  rw [if_neg (by omega)]
  split
  · rw [take_of_length_le (by rw [length_drop]),
      take_of_length_le (by rw [length_drop]; omega)]
  · rfl

/-- A read returns the next bytes and moves the offset behind them. -/
theorem read_spec (o : OpenFile) {n : ℕ} (hoff : o.off ≤ o.file.bytes.length) (hn : n ≤ 2 ^ 16) :
    o.read n = ((o.file.bytes.drop o.off).take n,
      ⟨o.file, o.off + min n (o.file.bytes.length - o.off)⟩) := by
  have hsize : o.file.bytes.length ≤ 1074528256 := o.file.size_le
  unfold OpenFile.read
  simp only [readi_eq o.file hoff hn, length_take, length_drop]
  rw [Nat.mod_eq_of_lt (by omega)]

/-- **A reader passes on all bytes to the end of the file**, and ends. -/
theorem readLoop_spec : ∀ (fuel : ℕ) (o : OpenFile), o.off ≤ o.file.bytes.length →
    o.file.bytes.length - o.off < fuel →
    ∃ chunks, o.readLoop fuel = some chunks ∧ chunks.flatten = o.file.bytes.drop o.off ∧
      ∀ c ∈ chunks, c.length ≤ readBufferSize := by
  intro fuel
  induction fuel with
  | zero => intro o _ h; omega
  | succ fuel ih =>
    intro o hoff hfuel
    have hread := read_spec o hoff (show readBufferSize ≤ 2 ^ 16 by decide)
    simp only [OpenFile.readLoop, hread]
    split
    · -- the end of the file
      rename_i hnil
      refine ⟨[], rfl, ?_, by simp⟩
      rcases take_eq_nil_iff.1 hnil with h0 | h0
      · cases h0
      · exact h0.symm
    · rename_i hne
      set n := min readBufferSize (o.file.bytes.length - o.off) with hn
      have hpos : 0 < n := by
        have hlen := length_pos_iff.2 hne
        rw [length_take, length_drop] at hlen
        exact hlen
      have hle : n ≤ o.file.bytes.length - o.off := min_le_right ..
      obtain ⟨chunks, hc, hflat, hlen⟩ := ih ⟨o.file, o.off + n⟩
        (by show o.off + n ≤ o.file.bytes.length; omega)
        (by show o.file.bytes.length - (o.off + n) < fuel; omega)
      refine ⟨_, by rw [hc]; rfl, ?_, ?_⟩
      · have htake : (o.file.bytes.drop o.off).take readBufferSize =
            (o.file.bytes.drop o.off).take n := by
          rw [take_eq_take_iff, length_drop]
          omega
        rw [flatten_cons, hflat, htake]
        show _ ++ o.file.bytes.drop (o.off + n) = _
        rw [← drop_drop]
        exact take_append_drop n _
      · intro c hcm
        rcases mem_cons.1 hcm with rfl | hcm
        · rw [length_take]; exact min_le_left ..
        · exact hlen c hcm

/-- The file behind `readWavHead`: its offset is behind the header. -/
theorem readWavHead_file (f : File) (buf : Buf) (ainfo : AudioInfo) (info : WavInfo) :
    (readWavHead ⟨f, 0⟩ buf ainfo info).file = ⟨f, min 44 f.bytes.length⟩ := by
  have hread := read_spec ⟨f, 0⟩ (Nat.zero_le _) (show headLength ≤ 2 ^ 16 by decide)
  simp only [Nat.zero_add, Nat.sub_zero] at hread
  unfold readWavHead
  simp only [hread]
  split
  · split <;> rfl
  · rfl

/-- An accepted header is what `parseHead` found, and its data chunk starts at 44. -/
theorem readWavHead_accepted {o : OpenFile} {buf : Buf} {ainfo : AudioInfo} {info : WavInfo}
    (h : 0 ≤ (readWavHead o buf ainfo info).ret) :
    (readWavHead o buf ainfo info).ainfo = (parseHead (buf.fill (o.read headLength).1) info).1 ∧
      (readWavHead o buf ainfo info).info = (parseHead (buf.fill (o.read headLength).1) info).2 ∧
      (parseHead (buf.fill (o.read headLength).1) info).2.startPos = 44 := by
  unfold readWavHead at h ⊢
  simp only at h ⊢
  split at h
  · rename_i hlen
    rw [if_pos hlen]
    split at h
    · simp at h
    · rename_i hpos
      rw [if_neg hpos]
      exact ⟨rfl, rfl, not_not.1 hpos⟩
  · simp at h

/-- An accepted header has the size of the data chunk at position 40. -/
theorem readWavHead_dataChunkSize (f : File) (buf : Buf) (ainfo : AudioInfo) (info : WavInfo)
    (h : 0 ≤ (readWavHead ⟨f, 0⟩ buf ainfo info).ret) :
    (readWavHead ⟨f, 0⟩ buf ainfo info).info.dataChunkSize =
      (buf.fill (f.bytes.take headLength)).load32 40 := by
  have hread := read_spec ⟨f, 0⟩ (Nat.zero_le _) (show headLength ≤ 2 ^ 16 by decide)
  simp only [drop_zero] at hread
  obtain ⟨-, hinfo, hstart⟩ := readWavHead_accepted h
  rw [hinfo]
  rw [hread] at hstart ⊢
  set b := buf.fill (f.bytes.take headLength)
  -- the search for the data chunk ended at position 40
  have hsize : (parseHead b info).2.dataChunkSize = b.load32 ((parseHead b info).2.startPos - 4) := by
    simp only [parseHead, Nat.add_sub_cancel]
  rw [hsize, hstart]

/-- **When only the data chunk is played.** For every file that `apOpenAudio` accepts, the
reader it forks ends, and what it passes to `writeDecodedAudio` is the data chunk (up to
the end of the file) exactly if nothing follows the data chunk in the file. -/
theorem plays_data_chunk_iff (p : Player) (file : List Char) (e : Outcome) (f : File) (pid : ℕ)
    (hfound : e.found = some f) (hfork : e.fork = some pid)
    (hopen : 0 ≤ (p.apOpenAudio file e).2) :
    ∃ r chunks size, ((p.apOpenAudio file e).1.apReadDecode e).1.readers = r :: p.readers ∧
      r.writes = some chunks ∧
      (p.apOpenAudio file e).1.apinfo.wavInfo.dataChunkSize = size ∧
      size = (e.stack.fill (f.bytes.take headLength)).load32 40 ∧
      (chunks.flatten = (f.bytes.drop 44).take size ↔ f.bytes.length ≤ 44 + size) := by
  rcases Player.apOpenAudio_cases p file e with ⟨hret, -⟩ | ⟨f', fd, h, p1, ho⟩
  · rw [hret] at hopen
    simp at hopen
  obtain rfl : f = f' := Option.some.inj (hfound.symm.trans ho.found)
  have hhandles := ho.handles
  have hfile : h.file = ⟨f, min 44 f.bytes.length⟩ := by rw [ho.head]; exact readWavHead_file ..
  have hsize : h.info.dataChunkSize = (e.stack.fill (f.bytes.take headLength)).load32 40 := by
    have hacc := ho.accepted
    rw [ho.head] at hacc ⊢
    exact readWavHead_dataChunkSize f e.stack _ _ hacc
  have hwav : (p.apOpenAudio file e).1.apinfo.wavInfo = h.info := by
    rw [ho.result, ← ho.wavInfo]
    exact (Player.setOpened_info p1 file fd).2.1
  obtain ⟨chunks, hchunks, hflat, -⟩ :=
    readLoop_spec (f.bytes.length + 1) ⟨f, min 44 f.bytes.length⟩ (min_le_right ..)
      (by show f.bytes.length - _ < _; omega)
  refine ⟨⟨pid, some h.file⟩, chunks, _, ?_, ?_, rfl, ?_, ?_⟩
  · have hr := Player.apReadDecode_handles (p.apOpenAudio file e).1 e
    rw [hfork, hhandles] at hr
    have hr := congrArg Handles.readers hr
    refine hr.trans ?_
    simp [Handles.forked, Handles.opened, Player.handles]
  · rw [hfile]
    exact hchunks
  · rw [hwav]
    exact hsize
  · have hdrop : f.bytes.drop (min 44 f.bytes.length) = f.bytes.drop 44 := by
      rcases Nat.le_total 44 f.bytes.length with hlong | hshort
      · rw [Nat.min_eq_left hlong]
      · rw [Nat.min_eq_right hshort, drop_length, drop_of_length_le hshort]
    rw [hflat, hwav]
    show f.bytes.drop (min 44 f.bytes.length) = _ ↔ _
    rw [hdrop, eq_comm, take_eq_self_iff, length_drop]
    omega

/-- A file that ends with its data chunk. -/
theorem plays_data_chunk_iff_song :
    ∃ r chunks, ((Player.fresh.apOpenAudio "a.wav".toList (songOutcome (some 4))).1.apReadDecode
        (songOutcome (some 4))).1.readers = r :: Player.fresh.readers ∧
      r.writes = some chunks ∧ chunks.flatten = [1, 2, 3, 4] := by
  have hopen : 0 ≤ (Player.fresh.apOpenAudio "a.wav".toList (songOutcome (some 4))).2 := by
    decide +kernel
  obtain ⟨r, chunks, size, hr, hw, -, hsize, hiff⟩ :=
    plays_data_chunk_iff .fresh "a.wav".toList (songOutcome (some 4)) _ 4 rfl rfl hopen
  have hsize4 : size = 4 := by
    rw [hsize]
    decide +kernel
  refine ⟨r, chunks, hr, hw, (hiff.2 ?_).trans ?_⟩
  · rw [hsize4]; decide +kernel
  · rw [hsize4]; decide +kernel

/-- A file with two bytes of data and an empty list chunk behind them. -/
def taggedOutcome : Outcome :=
  ⟨some ⟨canonicalHead 2 44100 16 2 ++ [1, 2] ++ tag "LIST" ++ bytes32 0, by decide⟩, fun _ => 0, [],
    some 4⟩

/-- **The bytes behind the data chunk are played as well.** -/
theorem plays_list_chunk :
    0 ≤ (Player.fresh.apOpenAudio "a.wav".toList taggedOutcome).2 ∧
      (Player.fresh.apOpenAudio "a.wav".toList taggedOutcome).1.apinfo.wavInfo.dataChunkSize = 2 ∧
      ((Player.fresh.apOpenAudio "a.wav".toList taggedOutcome).1.apReadDecode
        taggedOutcome).1.readers.map (·.writes) = [some [[1, 2] ++ tag "LIST" ++ [0, 0, 0, 0]]] := by
  decide +kernel

end AudioPlayer
