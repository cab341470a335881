import AudioPlayer.Proof.Reader

/-!
# The playback rate

With speed 1 the rate is `sample_rate * num_channels / 2`, for frames of four bytes. Only
16 bit samples make that the byte rate of the file, the register has 16 bits, and the
system call refuses what does not fit an `int` without a word to the player.

* `rateOf_one`: the computation in double precision is exact;
* `openAudio_rate`: what the rate register holds after `apOpenAudio`;
* `rate_matches_iff`: when that is the byte rate of the file.
-/

namespace AudioPlayer

open Runs

/-! ## Machine integers -/

theorem load16_lt (buf : Buf) (pos : ℕ) : buf.load16 pos < 2 ^ 16 := by
  have h0 := (buf pos).toNat_lt
  have h1 := (buf (pos + 1)).toNat_lt
  unfold Buf.load16
  omega

theorem load32_lt (buf : Buf) (pos : ℕ) : buf.load32 pos < 2 ^ 32 := by
  have h0 := load16_lt buf pos
  have h1 := load16_lt buf (pos + 2)
  unfold Buf.load32
  omega

/-! ## The rate in double precision -/

theorem round_natCast {n : ℕ} (h : n < 2 ^ 53) : Double.round n = n := by
  have hm : |(n : ℤ)| < 2 ^ 53 := by
    rw [abs_of_nonneg (by omega)]
    omega
  have := Double.round_dyadic n 0 hm
  simpa using this

/-- **At speed 1 the rate is computed exactly.** -/
theorem rateOf_one (a : AudioInfo) (hs : a.sampleRate < 2 ^ 32) (hc : a.numChannels < 2 ^ 16) :
    Player.rateOf a 1 = ((a.sampleRate * a.numChannels : ℕ) : ℚ) / 2 := by
  have hx : a.sampleRate * a.numChannels < 2 ^ 48 := by
    calc a.sampleRate * a.numChannels < 2 ^ 32 * 2 ^ 16 := Nat.mul_lt_mul'' hs hc
      _ = 2 ^ 48 := by norm_num
  have h1 : Double.mul a.sampleRate 1 = a.sampleRate := by
    unfold Double.mul
    rw [mul_one]
    exact round_natCast (by omega)
  have h2 : Double.mul a.sampleRate a.numChannels = (a.sampleRate * a.numChannels : ℕ) := by
    unfold Double.mul
    rw [← Nat.cast_mul]
    exact round_natCast (by omega)
  have h3 : |((a.sampleRate * a.numChannels : ℕ) : ℤ)| < 2 ^ 53 := by
    rw [abs_of_nonneg (by omega)]
    omega
  unfold Player.rateOf
  rw [h1, h2]
  unfold Double.div
  have := Double.round_dyadic ((a.sampleRate * a.numChannels : ℕ) : ℤ) 1 h3
  simpa using this

theorem toUInt32_half (x : ℕ) : Double.toUInt32 ((x : ℚ) / 2) = min (x / 2) (2 ^ 32 - 1) := by
  have hfloor : ⌊(x : ℚ) / 2⌋ = ((x / 2 : ℕ) : ℤ) := by
    have := Rat.floor_intCast_div_natCast (x : ℤ) 2
    simpa using this
  unfold Double.toUInt32 Double.trunc
  rw [if_pos (by positivity), hfloor]
  omega

/-- What the rate register holds after the rate for speed 1 was set, in terms of samples a
second over all channels. The system call refuses a rate of `2 ^ 31` and more. -/
theorem sysSetSampleRate_rate (c : Codec) (a : AudioInfo) (hs : a.sampleRate < 2 ^ 32)
    (hc : a.numChannels < 2 ^ 16) :
    (c.sysSetSampleRate (int32 (Double.toUInt32 (Player.rateOf a 1)))).1.rate =
      if a.sampleRate * a.numChannels < 2 ^ 32 then a.sampleRate * a.numChannels / 2 % 2 ^ 16
      else c.rate := by
  rw [rateOf_one a hs hc, toUInt32_half]
  generalize a.sampleRate * a.numChannels = x
  unfold Codec.sysSetSampleRate
  by_cases hx : x < 2 ^ 32
  · -- the mask of `set_sample_rate`
    rw [int32_of_lt (by omega), if_neg (by omega), if_pos hx]
    show (min (x / 2) (2 ^ 32 - 1) : ℕ) &&& (2 ^ 16 - 1) = _
    rw [Nat.and_two_pow_sub_one_eq_mod, min_eq_left (by omega)]
  · -- the kernel reads the rate as a negative `int`
    rw [if_pos (int32_neg (by omega) (by omega)), if_neg hx]

/-! ## The rate of an opened file -/

theorem readWavHead_lt {o : OpenFile} {buf : Buf} {ainfo : AudioInfo} {info : WavInfo}
    (h : 0 ≤ (readWavHead o buf ainfo info).ret) :
    (readWavHead o buf ainfo info).ainfo.sampleRate < 2 ^ 32 ∧
      (readWavHead o buf ainfo info).ainfo.numChannels < 2 ^ 16 := by
  rw [(readWavHead_accepted h).1]
  exact ⟨load32_lt _ _, load16_lt _ _⟩

/-- **The rate register after a successful `apOpenAudio`.** -/
theorem openAudio_rate {p : Player} {file : List Char} {e : Outcome} {f : File}
    (hfound : e.found = some f) (hopen : 0 ≤ (p.apOpenAudio file e).2) {a : AudioInfo}
    (ha : a = (readWavHead ⟨f, 0⟩ e.stack p.apinfo.ainfo p.apinfo.wavInfo).ainfo) :
    (p.apOpenAudio file e).1.codec.rate =
      if a.sampleRate * a.numChannels < 2 ^ 32 then a.sampleRate * a.numChannels / 2 % 2 ^ 16
      else p.codec.rate := by
  rcases Player.apOpenAudio_cases p file e with ⟨hret, -⟩ | ⟨f', fd, h, p1, ho⟩
  · rw [hret] at hopen
    omega
  · obtain rfl : f' = f := Option.some.inj (ho.found.symm.trans hfound)
    have hacc := ho.accepted
    rw [ho.head] at hacc
    obtain ⟨hs, hc⟩ := readWavHead_lt hacc
    rw [← ha] at hs hc
    rw [ho.result, (Player.setOpened_info p1 file fd).2.2, ho.codec, ho.ainfo, ho.head, ← ha]
    exact sysSetSampleRate_rate p.codec a hs hc

/-- The headers whose byte rate the register can express, `x` samples a second over all
channels: the bits a second above 16 for each sample, with the sample that the division by 2
drops and the multiples of `2 ^ 17` that the mask drops, come to less than a frame. For
`2 ^ 32` samples a second or more the register keeps its old value `rate`, which is right for
samples of no bits only. -/
def RateFits (rate : ℕ) (a : AudioInfo) : Prop :=
  let x := a.sampleRate * a.numChannels
  let surplus : ℤ := x * ((a.bitsPerSample : ℤ) - 16) + 16 * (x % 2 : ℕ) + 2 ^ 21 * (x / 2 ^ 17 : ℕ)
  x < 2 ^ 32 ∧ 0 ≤ surplus ∧ surplus < 32 ∨ 2 ^ 32 ≤ x ∧ a.bitsPerSample = 0 ∧ rate = 0

/-- For samples of 16 bits the register only has to be wide enough. -/
theorem rateFits_16 {rate : ℕ} {a : AudioInfo} (h : a.bitsPerSample = 16) :
    RateFits rate a ↔ a.sampleRate * a.numChannels < 2 ^ 17 := by
  unfold RateFits
  simp only [h]
  generalize a.sampleRate * a.numChannels = x
  omega

theorem frame_rate_iff {rate : ℕ} {a : AudioInfo} (hrate : rate < 2 ^ 16)
    (hbyte : a.byteRate = a.sampleRate * a.numChannels * a.bitsPerSample / 8) {r : ℕ}
    (hr : r = if a.sampleRate * a.numChannels < 2 ^ 32 then
      a.sampleRate * a.numChannels / 2 % 2 ^ 16 else rate) :
    (4 * r ≤ a.byteRate ∧ a.byteRate < 4 * (r + 1)) ↔ RateFits rate a := by
  unfold RateFits
  simp only
  rw [hbyte]
  generalize a.sampleRate * a.numChannels = x at hr ⊢
  generalize a.bitsPerSample = bits at *
  have hmul : (x : ℤ) * ((bits : ℤ) - 16) = (x * bits : ℕ) - 16 * x := by
    push_cast
    ring
  rw [hmul]
  by_cases hx : x < 2 ^ 32
  · -- linear in `x` and `x * bits`
    rw [if_pos hx] at hr
    generalize x * bits = y
    omega
  · rw [if_neg hx] at hr
    rcases Nat.eq_zero_or_pos bits with rfl | hbits
    · -- a byte rate of 0 needs the rate 0
      omega
    · -- the byte rate is far above what the old rate stands for
      have hy : x ≤ x * bits := Nat.le_mul_of_pos_right x hbits
      omega

/-- **When playback has the speed of the file.** A header is accepted, its byte rate is
that of its samples, and the codec takes frames of 4 bytes at the rate of a register of 16
bits. The rate that a successful `apOpenAudio` leaves there matches the byte rate exactly
if `RateFits`; for samples of 16 bits, exactly if there are fewer than `2 ^ 17` of them a
second over all channels. -/
theorem rate_matches_iff (p : Player) (file : List Char) (e : Outcome) (f : File) (a : AudioInfo)
    (hrate : p.codec.rate < 2 ^ 16) (hfound : e.found = some f)
    (ha : a = (readWavHead ⟨f, 0⟩ e.stack p.apinfo.ainfo p.apinfo.wavInfo).ainfo)
    (hbyte : a.byteRate = a.sampleRate * a.numChannels * a.bitsPerSample / 8)
    (hopen : 0 ≤ (p.apOpenAudio file e).2) :
    ((4 * (p.apOpenAudio file e).1.codec.rate ≤ a.byteRate ∧
        a.byteRate < 4 * ((p.apOpenAudio file e).1.codec.rate + 1)) ↔
      RateFits p.codec.rate a) ∧
    (a.bitsPerSample = 16 →
      (RateFits p.codec.rate a ↔ a.sampleRate * a.numChannels < 2 ^ 17)) :=
  ⟨frame_rate_iff hrate hbyte (openAudio_rate hfound hopen ha), rateFits_16⟩

/-- CD quality, 44100 stereo frames of 16 bit samples. -/
theorem rate_matches_iff_song :
    0 ≤ (Player.fresh.apOpenAudio "a.wav".toList (songOutcome none)).2 ∧
      4 * (Player.fresh.apOpenAudio "a.wav".toList (songOutcome none)).1.codec.rate ≤ 176400 ∧
      176400 < 4 * ((Player.fresh.apOpenAudio "a.wav".toList (songOutcome none)).1.codec.rate + 1) := by
  have hopen : 0 ≤ (Player.fresh.apOpenAudio "a.wav".toList (songOutcome none)).2 := by
    decide +kernel
  obtain ⟨hiff, h16⟩ := rate_matches_iff .fresh "a.wav".toList (songOutcome none) _ _ (by decide)
    rfl rfl (by decide +kernel) hopen
  exact ⟨hopen, hiff.2 ((h16 (by decide +kernel)).2 (by decide +kernel))⟩

/-- What the calls of a command find for a file of the given format. -/
def formatOutcome (numChannels sampleRate bitsPerSample : ℕ) : Outcome :=
  ⟨some ⟨canonicalHead numChannels sampleRate bitsPerSample 0, by
    show 44 ≤ maxFileBytes
    decide⟩, fun _ => 0, [], none⟩

/-- **Wrong rates without an error.** Samples of 8 bits at 22050 Hz play twice as fast; at
96000 Hz in stereo the rate loses its top bit. -/
theorem rate_mismatch :
    ((Player.fresh.apOpenAudio "a.wav".toList (formatOutcome 1 22050 8)).2 = 3 ∧
      (Player.fresh.apOpenAudio "a.wav".toList (formatOutcome 1 22050 8)).1.codec.rate = 11025 ∧
      (Player.fresh.apOpenAudio "a.wav".toList (formatOutcome 1 22050 8)).1.apinfo.ainfo.byteRate =
        22050 * 1 * 8 / 8 ∧ 22050 * 1 * 8 / 8 < 4 * 11025) ∧
    ((Player.fresh.apOpenAudio "a.wav".toList (formatOutcome 2 96000 16)).2 = 3 ∧
      (Player.fresh.apOpenAudio "a.wav".toList (formatOutcome 2 96000 16)).1.codec.rate = 30464 ∧
      (Player.fresh.apOpenAudio "a.wav".toList (formatOutcome 2 96000 16)).1.apinfo.ainfo.byteRate =
        96000 * 2 * 16 / 8 ∧ 4 * (30464 + 1) ≤ 96000 * 2 * 16 / 8) := by
  decide +kernel

end AudioPlayer
