import AudioPlayer.Proof.Rate

/-!
# The header of a WAV file

`readWavHead` accepts a header when its third search ends at byte 40. The fields between the
searches leave one way to get there: every tag is at its place.

* `seek_cases`: a search loop stops at the first place of a tag, or at the end of the header;
* `startPos_eq_iff`: the tags of an accepted header;
* `readWavHead_accepts_iff`, `head_safe_iff`, `head_determined_iff`: what is accepted, which
  headers are read within the buffer, and for which files the stack does not matter.
-/

namespace AudioPlayer

open List

variable {buf : Buf} {bs : List UInt8} {pos n : ℕ}

/-! ## The searches -/

/-- **A search loop**: it stops behind the first place of the tag, or at the end. -/
theorem seekFrom_cases (buf : Buf) (bs : List UInt8) : ∀ n pos,
    (∃ q, pos ≤ q ∧ q < pos + n ∧ buf.hasTag bs q = true ∧
      (∀ r, pos ≤ r → r < q → buf.hasTag bs r = false) ∧
      buf.seekFrom bs n pos = (true, q + 4)) ∨
    ((∀ r, pos ≤ r → r < pos + n → buf.hasTag bs r = false) ∧
      buf.seekFrom bs n pos = (false, pos + n)) := by
  intro n
  induction n with
  | zero =>
    intro pos
    exact Or.inr ⟨fun r _ _ => by omega, rfl⟩
  | succ n ih =>
    intro pos
    unfold Buf.seekFrom
    by_cases hhere : buf.hasTag bs pos = true
    · rw [if_pos hhere]
      exact Or.inl ⟨pos, le_rfl, by omega, hhere, fun r _ _ => by omega, rfl⟩
    · rw [if_neg hhere]
      have hfirst : ∀ r, pos ≤ r → (pos + 1 ≤ r → buf.hasTag bs r = false) →
          buf.hasTag bs r = false := by
        intro r hr hlater
        rcases eq_or_lt_of_le hr with rfl | hlt
        · exact Bool.eq_false_of_not_eq_true hhere
        · exact hlater hlt
      rcases ih (pos + 1) with ⟨q, hge, hlt, htag, hbefore, heq⟩ | ⟨hnone, heq⟩
      · refine Or.inl ⟨q, by omega, by omega, htag, ?_, heq⟩
        intro r hr hrq
        exact hfirst r hr fun hge => hbefore r hge hrq
      · refine Or.inr ⟨?_, ?_⟩
        · intro r hr hrn
          exact hfirst r hr fun hge => hnone r hge (by omega)
        · rw [heq, add_right_comm, add_assoc]

theorem seek_cases (buf : Buf) (bs : List UInt8) (pos : ℕ) :
    (∃ q, pos ≤ q ∧ q < 44 ∧ buf.hasTag bs q = true ∧ (∀ r, pos ≤ r → r < q → buf.hasTag bs r = false) ∧
      buf.seek bs pos = (true, q + 4)) ∨
    (44 ≤ (buf.seek bs pos).2) := by
  have hlen : headLength = 44 := rfl
  rcases seekFrom_cases buf bs (headLength - pos) pos with ⟨q, hge, hlt, htag, hbefore, heq⟩ | ⟨-, heq⟩
  · exact Or.inl ⟨q, hge, by omega, htag, hbefore, heq⟩
  · refine Or.inr ?_
    rw [Buf.seek, heq]
    show 44 ≤ pos + (headLength - pos)
    omega

/-- A tag at the first place is found there. -/
theorem seek_of_hasTag (hpos : pos < 44) (h : buf.hasTag bs pos = true) :
    buf.seek bs pos = (true, pos + 4) := by
  obtain ⟨n, hn⟩ : ∃ n, headLength - pos = n + 1 := ⟨43 - pos, by unfold headLength; omega⟩
  rw [Buf.seek, hn, Buf.seekFrom, if_pos h]

/-- The three tags are at their places. -/
def Buf.Canonical (buf : Buf) : Prop :=
  buf.hasTag (tag "RIFF") 0 = true ∧ buf.hasTag (tag "fmt") 12 = true ∧ buf.hasTag (tag "data") 36 = true

instance (buf : Buf) : Decidable buf.Canonical := inferInstanceAs (Decidable (_ ∧ _))

/-- Where the searches end. -/
structure Buf.Ends (buf : Buf) (riff fmt data : ℕ) : Prop where
  riff_eq : (buf.seek (tag "RIFF") 0).2 = riff
  fmt_eq : (buf.seek (tag "fmt") (riff + 8)).2 = fmt
  data_eq : (buf.seek (tag "data") (fmt + 20)).2 = data

theorem Buf.Canonical.ends (h : buf.Canonical) : buf.Ends 4 16 40 := by
  obtain ⟨hriff, hfmt, hdata⟩ := h
  refine ⟨?_, ?_, ?_⟩
  · rw [seek_of_hasTag (by decide) hriff]
  · rw [seek_of_hasTag (by decide) hfmt]
  · rw [seek_of_hasTag (by decide) hdata]

/-- **The last search ends before byte 41 only if every tag is at its place.** -/
theorem Buf.Ends.canonical {riff fmt data : ℕ} (h : buf.Ends riff fmt data) (hle : data ≤ 40) :
    buf.Canonical := by
  -- a search that starts behind `lo` and ends by byte 40 has found its tag
  have hfound : ∀ bs pos, (buf.seek bs pos).2 ≤ 40 →
      ∃ q, pos ≤ q ∧ buf.hasTag bs q = true ∧ (buf.seek bs pos).2 = q + 4 := by
    intro bs pos hle
    rcases seek_cases buf bs pos with ⟨q, hq, -, htag, -, heq⟩ | hnone
    · exact ⟨q, hq, htag, by rw [heq]⟩
    · omega
  have hdata := h.data_eq
  have hfmt := h.fmt_eq
  have hriff := h.riff_eq
  obtain ⟨r, hr, hrtag, hreq⟩ := hfound (tag "data") (fmt + 20) (by omega)
  obtain ⟨q, hq, hqtag, hqeq⟩ := hfound (tag "fmt") (riff + 8) (by omega)
  obtain ⟨p, hp, hptag, hpeq⟩ := hfound (tag "RIFF") 0 (by omega)
  obtain rfl : p = 0 := by omega
  obtain rfl : q = 12 := by omega
  obtain rfl : r = 36 := by omega
  exact ⟨hptag, hqtag, hrtag⟩

theorem exists_ends (buf : Buf) : ∃ riff fmt data, buf.Ends riff fmt data :=
  ⟨_, _, _, rfl, rfl, rfl⟩

/-- **An accepted header.** -/
theorem startPos_eq_iff (buf : Buf) (info : WavInfo) :
    (parseHead buf info).2.startPos = headLength ↔ buf.Canonical := by
  have hlen : headLength = 44 := rfl
  obtain ⟨riff, fmt, data, hends⟩ := exists_ends buf
  have hstart : (parseHead buf info).2.startPos = data + 4 := by
    rw [← hends.data_eq, ← hends.fmt_eq, ← hends.riff_eq]
    rfl
  constructor
  · intro heq
    exact hends.canonical (by omega)
  · intro hcanon
    have hdata := hcanon.ends.data_eq
    have hfmt := hcanon.ends.fmt_eq
    have hriff := hcanon.ends.riff_eq
    rw [← hends.data_eq, ← hends.fmt_eq, ← hends.riff_eq] at hstart
    rw [hstart, hriff, hfmt, hdata, hlen]

/-- The fields of an accepted header. -/
theorem parseHead_fields (h : buf.Canonical) (info : WavInfo) :
    parseHead buf info =
      (⟨buf.load16 22, buf.load32 24, buf.load32 28, buf.load16 34,
          numFrames (buf.load32 40) (buf.load16 22) (buf.load16 34)⟩,
        ⟨tag "RIFF", buf.load32 4, [buf 8, buf 9, buf 10, buf 11],
          tag "fmt" ++ info.fmtChunkId.drop 3, buf.load32 16, buf.load16 20, buf.load16 32,
          tag "data", buf.load32 40, 44⟩) := by
  obtain ⟨hriff, hfmt, hdata⟩ := h
  have h1 : buf.seek (tag "RIFF") 0 = (true, 4) := seek_of_hasTag (by decide) hriff
  have h2 : buf.seek (tag "fmt") 12 = (true, 16) := seek_of_hasTag (by decide) hfmt
  have h3 : buf.seek (tag "data") 36 = (true, 40) := seek_of_hasTag (by decide) hdata
  simp only [parseHead, h1, h2, h3, if_true, Nat.reduceAdd]

/-- A tag is read off the bytes at its place. -/
theorem hasTag_iff (buf : Buf) (bs : List UInt8) (pos : ℕ) :
    buf.hasTag bs pos = true ↔ (List.range bs.length).map (fun i => buf (pos + i)) = bs := by
  induction bs generalizing pos with
  | nil => simp [Buf.hasTag]
  | cons b bs ih =>
    have htail : (fun i => buf (pos + (i + 1))) = fun i => buf (pos + 1 + i) := by
      funext i
      rw [add_right_comm, add_assoc]
    simp only [Buf.hasTag, Bool.and_eq_true, beq_iff_eq, ih, length_cons, range_succ_eq_map,
      map_cons, map_map, Function.comp_def, Nat.succ_eq_add_one, htail, List.cons.injEq,
      add_zero]

/-! ## The verdict -/

/-- What `readWavHead` does behind a read of some bytes. -/
theorem readWavHead_eq {o : OpenFile} (buf : Buf) (ainfo : AudioInfo) (info : WavInfo)
    (hread : 0 < (o.read headLength).1.length) :
    readWavHead o buf ainfo info =
      ⟨if (buf.fill (o.read headLength).1).Canonical then 0 else -1, (o.read headLength).2,
        (parseHead (buf.fill (o.read headLength).1) info).1,
        (parseHead (buf.fill (o.read headLength).1) info).2⟩ := by
  have hiff := startPos_eq_iff (buf.fill (o.read headLength).1) info
  unfold readWavHead
  dsimp only
  rw [if_pos hread]
  by_cases hcanon : (buf.fill (o.read headLength).1).Canonical
  · rw [if_pos hcanon, if_neg (not_not.2 (hiff.2 hcanon))]
  · rw [if_neg hcanon, if_pos (mt hiff.1 hcanon)]

/-- **`readWavHead` accepts exactly the headers with the three tags at their places**, and
decodes their fields. -/
theorem readWavHead_accepts_iff (o : OpenFile) (buf : Buf) (ainfo : AudioInfo) (info : WavInfo)
    (hread : 0 < (o.read headLength).1.length) {b : Buf} (hb : b = buf.fill (o.read headLength).1)
    {r : HeadResult} (hr : r = readWavHead o buf ainfo info) :
    (r.ret = 0 ↔ [b 0, b 1, b 2, b 3] = tag "RIFF" ∧ [b 12, b 13, b 14] = tag "fmt" ∧
      [b 36, b 37, b 38, b 39] = tag "data") ∧
    (r.ret = 0 → r.info.chunkSize = b.load32 4 ∧ r.info.fmtChunkSize = b.load32 16 ∧
      r.info.audioFomat = b.load16 20 ∧ r.ainfo.numChannels = b.load16 22 ∧
      r.ainfo.sampleRate = b.load32 24 ∧ r.ainfo.byteRate = b.load32 28 ∧
      r.info.blockAlign = b.load16 32 ∧ r.ainfo.bitsPerSample = b.load16 34 ∧
      r.info.dataChunkSize = b.load32 40 ∧ r.info.format = [b 8, b 9, b 10, b 11] ∧
      r.info.startPos = 44) := by
  rw [readWavHead_eq buf ainfo info hread, ← hb] at hr
  have hret : r.ret = 0 ↔ b.Canonical := by
    rw [hr]
    by_cases hcanon : b.Canonical <;> simp [hcanon]
  refine ⟨?_, ?_⟩
  · rw [hret, Buf.Canonical, hasTag_iff, hasTag_iff, hasTag_iff]
    rfl
  · intro hzero
    have hcanon := hret.1 hzero
    rw [hr, parseHead_fields hcanon]
    exact ⟨rfl, rfl, rfl, rfl, rfl, rfl, rfl, rfl, rfl, rfl, rfl⟩

/-- The header of a stereo file. -/
theorem readWavHead_accepts_iff_song :
    ∃ r, r = readWavHead ⟨⟨canonicalHead 2 44100 16 4 ++ [1, 2, 3, 4], by decide⟩, 0⟩ (fun _ => 0)
        ⟨0, 0, 0, 0, 0⟩ ⟨[], 0, [], [], 0, 0, 0, [], 0, 0⟩ ∧
      r.ret = 0 ∧ r.ainfo.sampleRate = 44100 := by
  have hspec := readWavHead_accepts_iff ⟨⟨canonicalHead 2 44100 16 4 ++ [1, 2, 3, 4], by decide⟩, 0⟩
    (fun _ => 0) ⟨0, 0, 0, 0, 0⟩ ⟨[], 0, [], [], 0, 0, 0, [], 0, 0⟩ (by decide +kernel) rfl rfl
  have hret := hspec.1.2 (by decide +kernel)
  refine ⟨_, rfl, hret, (hspec.2 hret).2.2.2.2.1.trans ?_⟩
  decide +kernel

/-! ## Reads outside of the buffer -/

theorem mem_tagReads {i : ℕ} (h : i ∈ buf.tagReads bs pos) : i < pos + bs.length := by
  induction bs generalizing pos with
  | nil => exact absurd h not_mem_nil
  | cons b bs ih =>
    rw [length_cons]
    rcases mem_cons.1 h with rfl | htail
    · omega
    · split at htail
      · have := ih htail
        omega
      · exact absurd htail not_mem_nil

/-- A search that finds its tag at once reads the tag. -/
theorem mem_seekReads {i : ℕ} (htag : buf.hasTag bs pos = true) (h : i ∈ buf.seekReads bs n pos) :
    i < pos + bs.length := by
  cases n with
  | zero => exact absurd h not_mem_nil
  | succ n =>
    rw [Buf.seekReads, if_pos htag, append_nil] at h
    exact mem_tagReads h

/-- **All reads lie in the buffer exactly for a header with its tags at their places.** -/
theorem headReads_lt_iff (buf : Buf) : (∀ i ∈ buf.headReads, i < headLength) ↔ buf.Canonical := by
  have hlen : headLength = 44 := rfl
  obtain ⟨riff, fmt, data, hends⟩ := exists_ends buf
  constructor
  · -- the size of the data chunk is read behind the last search
    intro hin
    have hlast : data + 3 ∈ buf.headReads := by
      unfold Buf.headReads
      simp only [hends.riff_eq, hends.fmt_eq, hends.data_eq]
      refine mem_append_right _ (mem_map.2 ⟨3, by simp, rfl⟩)
    have hlt := hin _ hlast
    exact hends.canonical (by omega)
  · intro hcanon i hi
    obtain ⟨hriff, hfmt, hdata⟩ := hcanon
    have hc : buf.Canonical := ⟨hriff, hfmt, hdata⟩
    unfold Buf.headReads at hi
    simp only [hc.ends.riff_eq, hc.ends.fmt_eq, hc.ends.data_eq, mem_append, mem_map,
      mem_range] at hi
    rcases hi with ((((hi | ⟨j, hj, rfl⟩) | hi) | ⟨j, hj, rfl⟩) | hi) | ⟨j, hj, rfl⟩
    · have := mem_seekReads hriff hi
      have htag : (tag "RIFF").length = 4 := by decide
      omega
    · omega
    · have := mem_seekReads hfmt hi
      have htag : (tag "fmt").length = 3 := by decide
      omega
    · omega
    · have := mem_seekReads hdata hi
      have htag : (tag "data").length = 4 := by decide
      omega
    · omega

/-- A header that can be played: its tags are at their places, it has a channel and at least
eight bits for a sample. -/
def Buf.Playable (buf : Buf) : Prop :=
  buf.Canonical ∧ buf.load16 22 ≠ 0 ∧ 8 ≤ buf.load16 34

/-- `readWavHead` reads within its buffer, does not divide by zero and rejects what cannot be
played. It reads the buffer, and divides, when the file gave it any bytes. -/
def HeadSafe (o : OpenFile) (buf : Buf) (ainfo : AudioInfo) (info : WavInfo) : Prop :=
  (0 < (o.read headLength).1.length →
    (∀ i ∈ (buf.fill (o.read headLength).1).headReads, i < headLength) ∧
      (parseHead (buf.fill (o.read headLength).1) info).1.divisor ≠ 0) ∧
  (¬ (buf.fill (o.read headLength).1).Playable → (readWavHead o buf ainfo info).ret = -1)

theorem divisor_ne_zero_iff {b : Buf} (hcanon : b.Canonical) (info : WavInfo) :
    (parseHead b info).1.divisor ≠ 0 ↔ b.load16 22 ≠ 0 ∧ 8 ≤ b.load16 34 := by
  rw [parseHead_fields hcanon, AudioInfo.divisor, Nat.mul_ne_zero_iff]
  refine and_congr_right fun _ => ?_
  dsimp only
  omega

theorem readWavHead_of_nil {o : OpenFile} (hnil : (o.read headLength).1.length = 0) (buf : Buf)
    (ainfo : AudioInfo) (info : WavInfo) : (readWavHead o buf ainfo info).ret = -1 := by
  unfold readWavHead
  dsimp only
  rw [if_neg (by omega)]

/-- **When `readWavHead` is safe**: on a file without bytes to read, and on a header with its
tags at their places, with a channel and with at least eight bits for a sample. -/
theorem head_safe_iff (o : OpenFile) (buf : Buf) (ainfo : AudioInfo) (info : WavInfo) :
    HeadSafe o buf ainfo info ↔
      (o.read headLength).1.length = 0 ∨ (buf.fill (o.read headLength).1).Playable := by
  constructor
  · rintro ⟨hsafe, -⟩
    rcases Nat.eq_zero_or_pos (o.read headLength).1.length with hzero | hpos
    · exact Or.inl hzero
    · obtain ⟨hin, hne⟩ := hsafe hpos
      have hcanon := (headReads_lt_iff _).1 hin
      exact Or.inr ⟨hcanon, (divisor_ne_zero_iff hcanon info).1 hne⟩
  · rintro (hnil | hplay)
    · exact ⟨fun hpos => by omega, fun _ => readWavHead_of_nil hnil buf ainfo info⟩
    · obtain ⟨hcanon, hfields⟩ := hplay
      refine ⟨fun _ => ⟨(headReads_lt_iff _).2 hcanon, ?_⟩, fun hbad => absurd ⟨hcanon, hfields⟩ hbad⟩
      exact (divisor_ne_zero_iff hcanon info).2 hfields

/-- **Two headers that are not safe.** From 44 zero bytes it reads on behind the buffer, and
the number of frames of a file with no channel is a division by zero; the file is accepted. -/
theorem head_unsafe :
    (∃ i ∈ (Buf.fill (fun _ => 0) (List.replicate 44 0)).headReads, headLength ≤ i) ∧
    ¬ HeadSafe ⟨⟨List.replicate 44 0, by decide⟩, 0⟩ (fun _ => 0) ⟨0, 0, 0, 0, 0⟩
        ⟨[], 0, [], [], 0, 0, 0, [], 0, 0⟩ ∧
    (parseHead (Buf.fill (fun _ => 0) (canonicalHead 0 44100 16 4))
        ⟨[], 0, [], [], 0, 0, 0, [], 0, 0⟩).1.divisor = 0 ∧
    ¬ HeadSafe ⟨⟨canonicalHead 0 44100 16 4, by decide⟩, 0⟩ (fun _ => 0) ⟨0, 0, 0, 0, 0⟩
        ⟨[], 0, [], [], 0, 0, 0, [], 0, 0⟩ ∧
    (readWavHead ⟨⟨canonicalHead 0 44100 16 4, by decide⟩, 0⟩ (fun _ => 0) ⟨0, 0, 0, 0, 0⟩
        ⟨[], 0, [], [], 0, 0, 0, [], 0, 0⟩).ret = 0 := by
  refine ⟨⟨44, by decide +kernel, by decide⟩, ?_, by decide +kernel, ?_, by decide +kernel⟩
  · rintro ⟨hsafe, -⟩
    obtain ⟨hin, -⟩ := hsafe (by decide +kernel)
    exact absurd (hin 44 (by decide +kernel)) (by decide)
  · rintro ⟨hsafe, -⟩
    obtain ⟨-, hne⟩ := hsafe (by decide +kernel)
    exact hne (by decide +kernel)

/-! ## The stack -/

/-- The bytes of a tag with their places. -/
def tagPlaces : List UInt8 → ℕ → List (ℕ × UInt8)
  | [], _ => []
  | b :: bs, pos => (pos, b) :: tagPlaces bs (pos + 1)

/-- The bytes of the three tags with their places. -/
def headTags : List (ℕ × UInt8) :=
  tagPlaces (tag "RIFF") 0 ++ tagPlaces (tag "fmt") 12 ++ tagPlaces (tag "data") 36

theorem hasTag_iff_tagPlaces (buf : Buf) (bs : List UInt8) (pos : ℕ) :
    buf.hasTag bs pos = true ↔ ∀ p ∈ tagPlaces bs pos, buf p.1 = p.2 := by
  induction bs generalizing pos with
  | nil => simp [Buf.hasTag, tagPlaces]
  | cons b bs ih => simp [Buf.hasTag, tagPlaces, ih]

theorem canonical_iff_headTags (buf : Buf) : buf.Canonical ↔ ∀ p ∈ headTags, buf p.1 = p.2 := by
  unfold Buf.Canonical headTags
  rw [hasTag_iff_tagPlaces, hasTag_iff_tagPlaces, hasTag_iff_tagPlaces]
  simp only [mem_append, or_imp, forall_and, and_assoc]

/-- The result of `readWavHead` does not depend on what the stack holds, and a file that is
shorter than the header is rejected. -/
def HeadDetermined (f : File) : Prop :=
  (∀ (stack stack' : Buf) (ainfo : AudioInfo) (info : WavInfo),
    (readWavHead ⟨f, 0⟩ stack ainfo info).ret = (readWavHead ⟨f, 0⟩ stack' ainfo info).ret ∧
    ((readWavHead ⟨f, 0⟩ stack ainfo info).ret = 0 →
      (readWavHead ⟨f, 0⟩ stack ainfo info).ainfo = (readWavHead ⟨f, 0⟩ stack' ainfo info).ainfo ∧
      (readWavHead ⟨f, 0⟩ stack ainfo info).info = (readWavHead ⟨f, 0⟩ stack' ainfo info).info)) ∧
  (f.bytes.length < headLength → ∀ (stack : Buf) (ainfo : AudioInfo) (info : WavInfo),
    (readWavHead ⟨f, 0⟩ stack ainfo info).ret = -1)

theorem read_head (f : File) : ((⟨f, 0⟩ : OpenFile).read headLength).1 = f.bytes.take headLength := by
  have hread := read_spec ⟨f, 0⟩ (Nat.zero_le _) (show headLength ≤ 2 ^ 16 by decide)
  rw [hread]
  rfl

theorem fill_of_some {data : List UInt8} {i : ℕ} {c : UInt8} (h : data[i]? = some c) :
    buf.fill data i = c := by
  rw [Buf.fill, h, Option.getD_some]

/-- The fields of an accepted header lie in the buffer. -/
theorem parseHead_congr {b b' : Buf} (h : ∀ i < headLength, b i = b' i) (hb : b.Canonical)
    (info : WavInfo) :
    b'.Canonical ∧ parseHead b info = parseHead b' info := by
  have hlen : headLength = 44 := rfl
  have hb' : b'.Canonical := by
    rw [canonical_iff_headTags] at hb ⊢
    have hplaces : ∀ p ∈ headTags, p.1 < headLength := by decide
    intro p hp
    rw [← h p.1 (hplaces p hp)]
    exact hb p hp
  have h16 : ∀ i, i + 1 < headLength → b.load16 i = b'.load16 i := by
    intro i hi
    rw [Buf.load16, Buf.load16, h i (by omega), h (i + 1) hi]
  have h32 : ∀ i, i + 3 < headLength → b.load32 i = b'.load32 i := by
    intro i hi
    rw [Buf.load32, Buf.load32, h16 i (by omega), h16 (i + 2) (by omega)]
  refine ⟨hb', ?_⟩
  rw [parseHead_fields hb, parseHead_fields hb', h16 20 (by decide), h16 22 (by decide),
    h16 32 (by decide), h16 34 (by decide), h32 4 (by decide), h32 16 (by decide), h32 24 (by decide),
    h32 28 (by decide), h32 40 (by decide), h 8 (by decide), h 9 (by decide), h 10 (by decide),
    h 11 (by decide)]

/-- The result for a file with at least one byte. -/
theorem readWavHead_of_pos {f : File} (hpos : 0 < f.bytes.length) (stack : Buf) (ainfo : AudioInfo)
    (info : WavInfo) :
    (readWavHead ⟨f, 0⟩ stack ainfo info).ret =
        (if (stack.fill (f.bytes.take headLength)).Canonical then 0 else -1) ∧
      (readWavHead ⟨f, 0⟩ stack ainfo info).ainfo =
        (parseHead (stack.fill (f.bytes.take headLength)) info).1 ∧
      (readWavHead ⟨f, 0⟩ stack ainfo info).info =
        (parseHead (stack.fill (f.bytes.take headLength)) info).2 := by
  have hread : 0 < ((⟨f, 0⟩ : OpenFile).read headLength).1.length := by
    rw [read_head, length_take]
    exact Nat.lt_min.2 ⟨by decide, hpos⟩
  rw [readWavHead_eq stack ainfo info hread, read_head]
  exact ⟨rfl, rfl, rfl⟩

/-- **When the stack does not matter**: for an empty file, for one with all bytes of a header,
and for one that has a byte of a tag wrong. -/
theorem head_determined_iff (f : File) :
    HeadDetermined f ↔ f.bytes.length = 0 ∨ headLength ≤ f.bytes.length ∨
      ∃ p ∈ headTags, ∃ c, f.bytes[p.1]? = some c ∧ c ≠ p.2 := by
  constructor
  · -- otherwise the stack can hold the rest of a header
    intro hdet
    by_contra hnot
    push Not at hnot
    obtain ⟨hne, hshort, htags⟩ := hnot
    have hpos : 0 < f.bytes.length := Nat.pos_of_ne_zero hne
    set stack : Buf := fun i => (canonicalHead 2 44100 16 4).getD i 0 with hstack
    have hcanon : (stack.fill (f.bytes.take headLength)).Canonical := by
      rw [canonical_iff_headTags]
      have hrest : ∀ p ∈ headTags, stack p.1 = p.2 := by decide +kernel
      intro p hp
      rw [take_of_length_le hshort.le]
      cases hbyte : f.bytes[p.1]? with
      | none =>
        rw [Buf.fill, hbyte, Option.getD_none]
        exact hrest p hp
      | some c =>
        rw [fill_of_some hbyte]
        exact htags p hp c hbyte
    have hret := (readWavHead_of_pos hpos stack ⟨0, 0, 0, 0, 0⟩ ⟨[], 0, [], [], 0, 0, 0, [], 0, 0⟩).1
    rw [if_pos hcanon, hdet.2 hshort] at hret
    cases hret
  · rintro (hempty | hlong | ⟨p, hp, c, hc, hne⟩)
    · have hnil : ((⟨f, 0⟩ : OpenFile).read headLength).1.length = 0 := by
        rw [read_head, length_take, hempty, Nat.min_zero]
      refine ⟨?_, ?_⟩
      · intro stack stack' ainfo info
        rw [readWavHead_of_nil hnil, readWavHead_of_nil hnil]
        exact ⟨rfl, fun h => absurd h (by decide)⟩
      · intro _ stack ainfo info
        exact readWavHead_of_nil hnil stack ainfo info
    · refine ⟨?_, fun hshort => absurd hshort (by omega)⟩
      intro stack stack' ainfo info
      have hpos : 0 < f.bytes.length := lt_of_lt_of_le (by decide) hlong
      -- every byte of the header comes from the file
      have hsame : ∀ (s s' : Buf), ∀ i < headLength,
          s.fill (f.bytes.take headLength) i = s'.fill (f.bytes.take headLength) i := by
        intro s s' i hi
        have hlt : i < (f.bytes.take headLength).length := by
          rw [length_take]
          omega
        rw [fill_of_some (List.getElem?_eq_getElem hlt), fill_of_some (List.getElem?_eq_getElem hlt)]
      obtain ⟨hr, ha, hi⟩ := readWavHead_of_pos hpos stack ainfo info
      obtain ⟨hr', ha', hi'⟩ := readWavHead_of_pos hpos stack' ainfo info
      by_cases hcanon : (stack.fill (f.bytes.take headLength)).Canonical
      · obtain ⟨hcanon', hparse⟩ := parseHead_congr (hsame stack stack') hcanon info
        rw [hr, hr', ha, ha', hi, hi', if_pos hcanon, if_pos hcanon', hparse]
        exact ⟨rfl, fun _ => ⟨rfl, rfl⟩⟩
      · have hcanon' : ¬ (stack'.fill (f.bytes.take headLength)).Canonical :=
          fun h => hcanon (parseHead_congr (hsame stack' stack) h info).1
        rw [hr, hr', if_neg hcanon, if_neg hcanon']
        exact ⟨rfl, fun h => absurd h (by decide)⟩
    · have hlt : p.1 < headLength := by
        have hplaces : ∀ p ∈ headTags, p.1 < headLength := by decide
        exact hplaces p hp
      have hpos : 0 < f.bytes.length := by
        obtain ⟨hlen, -⟩ := List.getElem?_eq_some_iff.1 hc
        omega
      have hreject : ∀ (stack : Buf) (ainfo : AudioInfo) (info : WavInfo),
          (readWavHead ⟨f, 0⟩ stack ainfo info).ret = -1 := by
        intro stack ainfo info
        rw [(readWavHead_of_pos hpos stack ainfo info).1, if_neg]
        intro hcanon
        have hbyte := (canonical_iff_headTags _).1 hcanon p hp
        rw [fill_of_some (c := c) (by rw [List.getElem?_take_of_lt hlt, hc])] at hbyte
        exact hne hbyte
      refine ⟨?_, fun _ => hreject⟩
      intro stack stack' ainfo info
      rw [hreject, hreject]
      exact ⟨rfl, fun h => absurd h (by decide)⟩

/-- **One byte of a file, and the rest from the stack.** -/
theorem head_from_stack :
    (readWavHead ⟨⟨[82], by decide⟩, 0⟩ (fun i => (canonicalHead 2 44100 16 4).getD i 0) ⟨0, 0, 0, 0, 0⟩
        ⟨[], 0, [], [], 0, 0, 0, [], 0, 0⟩).ret = 0 ∧
      (readWavHead ⟨⟨[82], by decide⟩, 0⟩ (fun _ => 0) ⟨0, 0, 0, 0, 0⟩
        ⟨[], 0, [], [], 0, 0, 0, [], 0, 0⟩).ret = -1 := by
  decide +kernel

end AudioPlayer
