import AudioPlayer.Spec.Codec
import Mathlib.Tactic.Ring

/-!
# The volume

`sys_setVolume` turns a volume into one of 32 attenuations, which it stores for both channels,
and `sys_getVolume` turns the attenuation back. Both divisions round down (`volume_scaling`), so
that a volume that is read and set again is in general a lower one (`volume_reapply_iff`).

The calls do not look at their arguments. Which of them are harmless says
`volume_calls_safe_iff`.
-/

namespace AudioPlayer

open Option

/-! ## Levels -/

/-- The number of steps above the lowest volume. -/
def level (max v : ℕ) : ℕ := 31 * v / max

/-- What a level stands for. -/
def ofLevel (max k : ℕ) : ℕ := k * max / 31

variable {max v w : ℕ} {k : ℕ}

theorem level_le (hv : v ≤ max) : level max v ≤ 31 := by
  exact Nat.div_le_of_le_mul (by rw [mul_comm max]; exact Nat.mul_le_mul_left 31 hv)

theorem level_mono (h : v ≤ w) : level max v ≤ level max w :=
  Nat.div_le_div_right (Nat.mul_le_mul_left 31 h)

theorem level_self (hmax : 0 < max) : level max max = 31 := Nat.mul_div_cancel 31 hmax

theorem ofLevel_mono {k l : ℕ} (h : k ≤ l) : ofLevel max k ≤ ofLevel max l :=
  Nat.div_le_div_right (Nat.mul_le_mul_right max h)

theorem ofLevel_top : ofLevel max 31 = max := Nat.mul_div_cancel_left max (by decide)

theorem ofLevel_le (hk : k ≤ 31) : ofLevel max k ≤ max :=
  (ofLevel_mono hk).trans_eq ofLevel_top

/-- Both roundings together lose less than a step and a unit. -/
theorem ofLevel_level (hmax : 0 < max) :
    ofLevel max (level max v) ≤ v ∧ 31 * (v - ofLevel max (level max v)) ≤ max + 29 := by
  have hdown : level max v * max ≤ 31 * v := Nat.div_mul_le_self _ _
  have hrest : 31 * v % max < max := Nat.mod_lt _ hmax
  have hlevel : max * level max v + 31 * v % max = 31 * v := Nat.div_add_mod _ _
  have hcomm : level max v * max = max * level max v := mul_comm _ _
  have hback : 31 * ofLevel max (level max v) + level max v * max % 31 = level max v * max :=
    Nat.div_add_mod _ _
  have hmod : level max v * max % 31 < 31 := Nat.mod_lt _ (by decide)
  omega

/-! ## The registers -/

/-- An attenuation for both channels. -/
theorem setVolume_eq (c : Codec) (hmax : 0 < max) (hmax' : max ≤ 65535) (hv : v ≤ max) (hne : v ≠ 0) :
    c.sysSetVolume v max = c.setVolume (257 * (31 - level max v)) := by
  have hprod : int32 ((v : ℤ) * (minVolume - maxVolume)) = ((31 * v : ℕ) : ℤ) := by
    rw [show (v : ℤ) * (minVolume - maxVolume) = ((31 * v : ℕ) : ℤ) by
      rw [Nat.cast_mul, Int.mul_comm]; rfl]
    exact int32_of_lt (by omega)
  have hle := level_le hv
  have hquot : divInt ((31 * v : ℕ) : ℤ) max = (level max v : ℤ) := by
    rw [divInt, if_neg (by omega), ← Int.ofNat_tdiv]
    exact int32_of_lt (by unfold level at hle; omega)
  have hatt : int32 (minVolume - (level max v : ℤ)) = ((31 - level max v : ℕ) : ℤ) := by
    rw [show minVolume - (level max v : ℤ) = ((31 - level max v : ℕ) : ℤ) by
      rw [Nat.cast_sub hle]; rfl]
    exact int32_of_lt (by omega)
  have hhigh : int32 (((31 - level max v : ℕ) : ℤ) * 2 ^ 8) = ((256 * (31 - level max v) : ℕ) : ℤ) := by
    rw [show ((31 - level max v : ℕ) : ℤ) * 2 ^ 8 = ((256 * (31 - level max v) : ℕ) : ℤ) by
      push_cast; ring]
    exact int32_of_lt (by omega)
  have hboth : int32 (((31 - level max v : ℕ) : ℤ) + ((256 * (31 - level max v) : ℕ) : ℤ)) =
      ((257 * (31 - level max v) : ℕ) : ℤ) := by
    rw [show ((31 - level max v : ℕ) : ℤ) + ((256 * (31 - level max v) : ℕ) : ℤ) =
      ((257 * (31 - level max v) : ℕ) : ℤ) by push_cast; ring]
    exact int32_of_lt (by omega)
  unfold Codec.sysSetVolume
  dsimp only
  rw [if_neg (by exact_mod_cast hne), hprod, hquot, hatt, hhigh, hboth]
  congr 1
  omega

theorem getVolume_eq (c : Codec) (hk : k ≤ 31) (hmax' : max ≤ 65535)
    (hreg : c.volume = 257 * (31 - k)) : c.sysGetVolume max = ofLevel max k := by
  have hmask : (257 * (31 - k)) &&& 0b11111 = 31 - k := by
    rw [show 0b11111 = 2 ^ 5 - 1 from rfl, Nat.and_two_pow_sub_one_eq_mod]
    omega
  have hprod : int32 ((minVolume - ((31 - k : ℕ) : ℤ)) * max) = ((k * max : ℕ) : ℤ) := by
    rw [show (minVolume - ((31 - k : ℕ) : ℤ)) * max = ((k * max : ℕ) : ℤ) by
      rw [Nat.cast_sub hk, Nat.cast_mul]; unfold minVolume; ring]
    exact int32_of_lt (lt_of_le_of_lt (Nat.mul_le_mul hk hmax') (by decide))
  have hle : ofLevel max k ≤ max := ofLevel_le hk
  have hquot : divInt ((k * max : ℕ) : ℤ) (minVolume - maxVolume) = (ofLevel max k : ℤ) := by
    rw [divInt, if_neg (by decide), show minVolume - maxVolume = ((31 : ℕ) : ℤ) from rfl,
      ← Int.ofNat_tdiv]
    exact int32_of_lt (by unfold ofLevel at hle; omega)
  unfold Codec.sysGetVolume Codec.getVolume
  dsimp only
  rw [hreg, if_neg (by unfold muteVolume; omega), hmask, hprod, hquot]
  omega

theorem sysSetVolume_zero (c : Codec) (max : ℕ) :
    c.sysSetVolume (0 : ℕ) max = c.setVolume muteVolume := by
  unfold Codec.sysSetVolume
  exact if_pos rfl

/-- A volume comes back rounded down to a level; silence, which is stored as mute, as level 0. -/
theorem getVolume_setVolume (c : Codec) (hmax : 0 < max) (hmax' : max ≤ 65535) (hv : v ≤ max) :
    (c.sysSetVolume v max).sysGetVolume max = ofLevel max (level max v) := by
  by_cases hzero : v = 0
  · subst hzero
    have hlevel : ofLevel max (level max 0) = 0 := by simp [ofLevel, level]
    rw [sysSetVolume_zero, hlevel]
    unfold Codec.sysGetVolume
    exact if_pos le_rfl
  · refine getVolume_eq _ (level_le hv) hmax' ?_
    rw [setVolume_eq c hmax hmax' hv hzero]
    rfl

/-- **The volume contract.** Volume 0 is mute; every other one is an attenuation, the same for
both channels, that falls with the volume down to 0. What is read back has been rounded down, by
less than a level and a unit, and grows with the volume. -/
theorem volume_scaling (c : Codec) {max : ℕ} (hmax : 1 ≤ max) (hmax' : max ≤ 65535) :
    (c.sysSetVolume (0 : ℕ) max).volume = muteVolume ∧
    (∃ a : ℕ → ℕ,
      (∀ v : ℕ, 0 < v → v ≤ max → a v ≤ 31 ∧ (c.sysSetVolume v max).volume = 257 * a v ∧
        (c.sysSetVolume v max).volume < muteVolume) ∧
      (∀ v w : ℕ, 0 < v → v ≤ w → w ≤ max → a w ≤ a v) ∧ a max = 0) ∧
    (∀ v : ℕ, v ≤ max → (c.sysSetVolume v max).sysGetVolume max ≤ v ∧
      31 * (v - (c.sysSetVolume v max).sysGetVolume max) ≤ max + 29) ∧
    (c.sysSetVolume max max).sysGetVolume max = max ∧
    (∀ v w : ℕ, v ≤ w → w ≤ max →
      (c.sysSetVolume v max).sysGetVolume max ≤ (c.sysSetVolume w max).sysGetVolume max) := by
  refine ⟨?_, ⟨fun v => 31 - level max v, ?_, ?_, ?_⟩, ?_, ?_, ?_⟩
  · rw [sysSetVolume_zero]
    rfl
  · intro v hpos hv
    have hreg : (c.sysSetVolume v max).volume = 257 * (31 - level max v) := by
      rw [setVolume_eq c hmax hmax' hv (by omega)]
      rfl
    refine ⟨Nat.sub_le _ _, hreg, ?_⟩
    rw [hreg, muteVolume]
    omega
  · intro v w _ hvw _
    exact Nat.sub_le_sub_left (level_mono hvw) 31
  · dsimp only
    rw [level_self hmax]
  · intro v hv
    obtain ⟨hle, hloss⟩ := ofLevel_level (v := v) hmax
    rw [getVolume_setVolume c hmax hmax' hv]
    omega
  · rw [getVolume_setVolume c hmax hmax' le_rfl, level_self hmax, ofLevel_top]
  · intro v w hvw hw
    rw [getVolume_setVolume c hmax hmax' (hvw.trans hw), getVolume_setVolume c hmax hmax' hw]
    exact_mod_cast ofLevel_mono (level_mono hvw)

/-- With 100 levels, as the player has them. -/
theorem volume_scaling_player :
    ((⟨0, 0, 0, 0, 0⟩ : Codec).sysSetVolume (100 : ℕ) (100 : ℕ)).sysGetVolume (100 : ℕ) = (100 : ℕ) ∧
      ((⟨0, 0, 0, 0, 0⟩ : Codec).sysSetVolume (50 : ℕ) (100 : ℕ)).sysGetVolume (100 : ℕ) = 48 :=
  ⟨(@volume_scaling ⟨0, 0, 0, 0, 0⟩ 100 (by decide) (by decide)).2.2.2.1, by decide⟩

/-! ## The volume that is shown -/

/-- A level is found again when no unit is lost, which is when it is an end of the scale, or when
the scale has a multiple of 31 units. -/
theorem level_ofLevel_iff (hmax : 0 < max) (hk : k ≤ 31) :
    level max (ofLevel max k) = k ↔ k = 0 ∨ k = 31 ∨ 31 ∣ max := by
  have hback : 31 * ofLevel max k + k * max % 31 = k * max := Nat.div_add_mod _ _
  have hexact : level max (ofLevel max k) = k ↔ k * max % 31 = 0 := by
    rw [level, Nat.div_eq_iff hmax]
    omega
  rw [hexact, ← Nat.dvd_iff_mod_eq_zero]
  constructor
  · intro hdvd
    by_cases hends : k = 0 ∨ k = 31
    · omega
    · have hcop : ∀ k < 31, k ≠ 0 → Nat.Coprime 31 k := by decide
      exact Or.inr (Or.inr ((hcop k (by omega) (by omega)).dvd_of_dvd_mul_left hdvd))
  · rintro (rfl | rfl | hdvd)
    · rw [zero_mul]
      exact Nat.dvd_zero 31
    · exact Nat.dvd_mul_right 31 max
    · exact hdvd.mul_left k

theorem level_eq_top_iff (hmax : 0 < max) (hv : v ≤ max) : level max v = 31 ↔ v = max := by
  constructor
  · intro htop
    have hdown : level max v * max ≤ 31 * v := Nat.div_mul_le_self _ _
    rw [htop] at hdown
    omega
  · rintro rfl
    exact level_self hmax

theorem level_pos_iff (hmax : 0 < max) : 1 ≤ level max v ↔ max ≤ 31 * v :=
  Nat.div_pos_iff.trans ⟨fun h => h.2, fun h => ⟨hmax, h⟩⟩

/-- The shown volume is 0 below the first level, and on a scale with less than a unit per level. -/
theorem ofLevel_pos (hk : 1 ≤ k) (hmax : 0 < max) (h : k = 31 ∨ 31 ∣ max) :
    ofLevel max k ≠ 0 := by
  have hle : 31 ≤ k * max := by
    rcases h with rfl | hdvd
    · omega
    · have := Nat.le_of_dvd hmax hdvd
      exact this.trans (Nat.le_mul_of_pos_left max hk)
  exact (Nat.div_pos hle (by decide)).ne'

/-- **The volume that is shown, set again.** The register stays as it is at the ends of the scale,
and above the first level of a scale with a multiple of 31 units. Otherwise the volume drops. -/
theorem volume_reapply_iff (c : Codec) {max v : ℕ} (hmax : 1 ≤ max) (hmax' : max ≤ 65535)
    (hv : v ≤ max) :
    let c' := c.sysSetVolume v max
    let again := c'.sysSetVolume (c'.sysGetVolume max) max
    c'.volume ≤ again.volume ∧
      (again.volume = c'.volume ↔ v = 0 ∨ v = max ∨ 31 ∣ max ∧ max ≤ 31 * v) := by
  dsimp only
  rw [getVolume_setVolume c hmax hmax' hv]
  by_cases hzero : v = 0
  · -- silence is stored as mute and read as 0
    subst hzero
    have hlevel : ofLevel max (level max 0) = 0 := by simp [ofLevel, level]
    rw [hlevel, sysSetVolume_zero, sysSetVolume_zero]
    exact ⟨le_rfl, fun _ => Or.inl rfl, fun _ => rfl⟩
  · have hk := level_le hv
    have hreg : (c.sysSetVolume v max).volume = 257 * (31 - level max v) := by
      rw [setVolume_eq c hmax hmax' hv hzero]
      rfl
    have htop := level_eq_top_iff hmax hv
    have hpos := level_pos_iff (v := v) hmax
    rw [hreg]
    by_cases hg : ofLevel max (level max v) = 0
    · -- a volume that is shown as 0 is muted
      rw [hg, sysSetVolume_zero]
      show 257 * (31 - level max v) ≤ 0x8000 ∧ (0x8000 = 257 * (31 - level max v) ↔ _)
      refine ⟨by omega, fun h => by omega, fun h => ?_⟩
      exfalso
      rcases h with h | h | ⟨hdvd, h⟩
      · exact hzero h
      · exact ofLevel_pos (by omega) hmax (Or.inl (htop.2 h)) hg
      · exact ofLevel_pos (hpos.2 h) hmax (Or.inr hdvd) hg
    · have hback := level_ofLevel_iff hmax hk
      have hgle : ofLevel max (level max v) ≤ max := ofLevel_le hk
      have hdrop : level max (ofLevel max (level max v)) ≤ level max v :=
        level_mono (ofLevel_level hmax).1
      have hk0 : level max v ≠ 0 := by
        intro h0
        rw [h0] at hg
        exact hg (by simp [ofLevel])
      rw [setVolume_eq _ hmax hmax' hgle hg]
      show 257 * (31 - level max v) ≤ 257 * (31 - level max (ofLevel max (level max v))) ∧
        (257 * (31 - level max (ofLevel max (level max v))) = 257 * (31 - level max v) ↔ _)
      refine ⟨by omega, ?_⟩
      rw [show 257 * (31 - level max (ofLevel max (level max v))) = 257 * (31 - level max v) ↔
        level max (ofLevel max (level max v)) = level max v by omega, hback, htop, ← hpos]
      constructor
      · rintro (h | h | h)
        · exact absurd h hk0
        · exact Or.inr (Or.inl h)
        · exact Or.inr (Or.inr ⟨h, by omega⟩)
      · rintro (h | h | h)
        · exact absurd h hzero
        · exact Or.inr (Or.inl h)
        · exact Or.inr (Or.inr h.1)

/-- Half volume is shown as 48 of 100, and 48 is shown as 45. -/
theorem volume_reapply_drifts :
    let c := (⟨0, 0, 0, 0, 0⟩ : Codec).sysSetVolume (50 : ℕ) (100 : ℕ)
    c.sysGetVolume (100 : ℕ) = 48 ∧ c.volume = 0x1010 ∧
      (c.sysSetVolume (c.sysGetVolume (100 : ℕ)) (100 : ℕ)).volume = 0x1111 := by
  decide

theorem volume_reapply_half :
    let c := (⟨0, 0, 0, 0, 0⟩ : Codec).sysSetVolume (31 : ℕ) (62 : ℕ)
    (c.sysSetVolume (c.sysGetVolume (62 : ℕ)) (62 : ℕ)).volume = c.volume :=
  (@volume_reapply_iff ⟨0, 0, 0, 0, 0⟩ 62 31 (by decide) (by decide) (by decide)).2.2
    (by decide)

/-! ## Arguments of any kind -/

theorem checkInt_eq_some {n r : ℤ} : checkInt n = some r ↔ (-2 ^ 31 ≤ n ∧ n < 2 ^ 31) ∧ n = r := by
  rw [checkInt, ite_none_right_eq_some, some_inj]

theorem checkDiv_eq_some {a b r : ℤ} : checkDiv a b = some r ↔
    b ≠ 0 ∧ (-2 ^ 31 ≤ a.tdiv b ∧ a.tdiv b < 2 ^ 31) ∧ a.tdiv b = r := by
  rw [checkDiv, ite_none_left_eq_some, checkInt_eq_some]

theorem int32_of_checkInt {n r : ℤ} (h : checkInt n = some r) : int32 n = r := by
  obtain ⟨hrange, rfl⟩ := checkInt_eq_some.1 h
  unfold int32
  rw [BitVec.toInt_ofInt]
  exact Int.bmod_eq_of_le (by omega) (by omega)

theorem divInt_of_checkDiv {a b r : ℤ} (h : checkDiv a b = some r) : divInt a b = r := by
  obtain ⟨hb, hrange, rfl⟩ := checkDiv_eq_some.1 h
  rw [divInt, if_neg hb]
  exact int32_of_checkInt (checkInt_eq_some.2 ⟨hrange, rfl⟩)

/-- Where everything is defined, the calls are what they are with wrap-around. -/
theorem sysSetVolume_of_check {c c' : Codec} {volume max : ℤ}
    (h : c.checkSetVolume volume max = some c') : c.sysSetVolume volume max = c' := by
  unfold Codec.checkSetVolume at h
  unfold Codec.sysSetVolume
  by_cases hzero : volume = 0
  · rw [if_pos hzero] at h ⊢
    exact some.inj h
  · rw [if_neg hzero] at h ⊢
    obtain ⟨product, hproduct, h⟩ := bind_eq_some_iff.1 h
    obtain ⟨quotient, hquotient, h⟩ := bind_eq_some_iff.1 h
    obtain ⟨low, hlow, h⟩ := bind_eq_some_iff.1 h
    obtain ⟨high, hhigh, h⟩ := bind_eq_some_iff.1 h
    obtain ⟨both, hboth, h⟩ := map_eq_some_iff.1 h
    dsimp only
    rw [int32_of_checkInt hproduct, divInt_of_checkDiv hquotient, int32_of_checkInt hlow,
      int32_of_checkInt hhigh, int32_of_checkInt hboth]
    exact h

theorem sysGetVolume_of_check {c : Codec} {max r : ℤ} (h : c.checkGetVolume max = some r) :
    c.sysGetVolume max = r := by
  unfold Codec.checkGetVolume at h
  unfold Codec.sysGetVolume
  dsimp only at h ⊢
  by_cases hmute : c.getVolume ≥ muteVolume
  · rw [if_pos hmute] at h ⊢
    exact some.inj h
  · rw [if_neg hmute] at h ⊢
    obtain ⟨product, hproduct, h⟩ := bind_eq_some_iff.1 h
    obtain ⟨quotient, hquotient, h⟩ := map_eq_some_iff.1 h
    rw [int32_of_checkInt hproduct, divInt_of_checkDiv hquotient]
    exact h

/-- `q` is the ratio of `n` and `d` without its fraction. -/
def RatioRounds (n d q : ℤ) : Prop :=
  q.natAbs * d.natAbs ≤ n.natAbs ∧ n.natAbs < (q.natAbs + 1) * d.natAbs ∧ 0 ≤ n * d * q

/-- The sign of a quotient. -/
theorem mul_tdiv_nonneg (n d : ℤ) : 0 ≤ n * d * n.tdiv d := by
  obtain ⟨a, rfl | rfl⟩ := n.eq_nat_or_neg <;> obtain ⟨b, rfl | rfl⟩ := d.eq_nat_or_neg <;>
    simp only [Int.tdiv_neg, Int.neg_tdiv, neg_mul, mul_neg, neg_neg, ← Int.ofNat_tdiv] <;>
    exact_mod_cast Nat.zero_le (a * b * (a / b))

theorem ratioRounds_iff {n d q : ℤ} (hd : d ≠ 0) : RatioRounds n d q ↔ n.tdiv d = q := by
  have hpos : 0 < d.natAbs := Int.natAbs_pos.2 hd
  have habs : (n.tdiv d).natAbs = n.natAbs / d.natAbs := Int.natAbs_tdiv n d
  constructor
  · rintro ⟨hlo, hhi, hsign⟩
    have hsame : (n.tdiv d).natAbs = q.natAbs := habs.trans (Nat.div_eq_of_lt_le hlo hhi)
    rcases Int.natAbs_eq_natAbs_iff.1 hsame with h | h
    · exact h
    · -- opposite signs: then both are 0
      have hother := mul_tdiv_nonneg n d
      rw [h, mul_neg] at hother
      have hzero : n * d * q = 0 := by omega
      rcases Int.mul_eq_zero.1 hzero with hnd | hq
      · have hn : n = 0 := (Int.mul_eq_zero.1 hnd).resolve_right hd
        have hq : q.natAbs = 0 := by rw [← hsame, hn, Int.zero_tdiv]; rfl
        rw [h, Int.natAbs_eq_zero.1 hq]
        rfl
      · rw [h, hq]
        rfl
  · rintro rfl
    refine ⟨?_, ?_, mul_tdiv_nonneg n d⟩
    · rw [habs]
      exact Nat.div_mul_le_self _ _
    · rw [habs]
      exact Nat.lt_mul_of_div_lt (Nat.lt_succ_self _) hpos

/-- The ratios that give mute or an attenuation, also where 16 bits are all that is left of them. -/
def HarmlessRatio (q : ℤ) : Prop :=
  -8355936 ≤ q ∧ q ≤ 8355998 ∧ (q % 65536 ≤ 31 ∨ q % 65536 = 32799)

/-- Arguments of `sys_setVolume` with a harmless ratio. -/
def VolumeArgs (volume max : ℤ) : Prop :=
  volume = 0 ∨ max ≠ 0 ∧ -2 ^ 31 ≤ 31 * volume ∧ 31 * volume < 2 ^ 31 ∧
    ∃ q, HarmlessRatio q ∧ RatioRounds (31 * volume) max q

/-- What `sys_setVolume` does behind its division. -/
theorem harmlessRatio_iff (q : ℤ) : HarmlessRatio q ↔
    (-2 ^ 31 ≤ minVolume - q ∧ minVolume - q < 2 ^ 31) ∧
    (-2 ^ 31 ≤ (minVolume - q) * 2 ^ 8 ∧ (minVolume - q) * 2 ^ 8 < 2 ^ 31) ∧
    (-2 ^ 31 ≤ minVolume - q + (minVolume - q) * 2 ^ 8 ∧
      minVolume - q + (minVolume - q) * 2 ^ 8 < 2 ^ 31) ∧
    ((((minVolume - q + (minVolume - q) * 2 ^ 8) % 2 ^ 16).toNat = muteVolume) ∨
      ∃ a ≤ 31, ((minVolume - q + (minVolume - q) * 2 ^ 8) % 2 ^ 16).toNat = 257 * a) := by
  unfold HarmlessRatio minVolume muteVolume
  constructor
  · rintro ⟨hlo, hhi, hmod⟩
    refine ⟨by omega, by omega, by omega, ?_⟩
    rcases hmod with hmod | hmod
    · exact Or.inr ⟨31 - (q % 65536).toNat, by omega, by omega⟩
    · exact Or.inl (by omega)
  · rintro ⟨-, -, hsum, hmute | ⟨a, ha, hval⟩⟩
    · exact ⟨by omega, by omega, Or.inr (by omega)⟩
    · exact ⟨by omega, by omega, Or.inl (by omega)⟩

theorem checkSetVolume_iff (c : Codec) (v d : ℤ) :
    (∃ c', c.checkSetVolume v d = some c' ∧
      (c'.volume = muteVolume ∨ ∃ a ≤ 31, c'.volume = 257 * a)) ↔ VolumeArgs v d := by
  unfold Codec.checkSetVolume VolumeArgs
  by_cases hzero : v = 0
  · rw [if_pos hzero]
    exact ⟨fun _ => Or.inl hzero, fun _ => ⟨_, rfl, Or.inl rfl⟩⟩
  · rw [if_neg hzero, show v * (minVolume - maxVolume) = 31 * v from Int.mul_comm v 31]
    constructor
    · rintro ⟨c', h, hreg⟩
      obtain ⟨product, hproduct, h⟩ := bind_eq_some_iff.1 h
      obtain ⟨quotient, hquotient, h⟩ := bind_eq_some_iff.1 h
      obtain ⟨low, hlow, h⟩ := bind_eq_some_iff.1 h
      obtain ⟨high, hhigh, h⟩ := bind_eq_some_iff.1 h
      obtain ⟨both, hboth, rfl⟩ := map_eq_some_iff.1 h
      obtain ⟨hrange, rfl⟩ := checkInt_eq_some.1 hproduct
      obtain ⟨hd, -, hq⟩ := checkDiv_eq_some.1 hquotient
      obtain ⟨hlow', rfl⟩ := checkInt_eq_some.1 hlow
      obtain ⟨hhigh', rfl⟩ := checkInt_eq_some.1 hhigh
      obtain ⟨hboth', rfl⟩ := checkInt_eq_some.1 hboth
      exact Or.inr ⟨hd, hrange.1, hrange.2, quotient,
        (harmlessRatio_iff quotient).2 ⟨hlow', hhigh', hboth', hreg⟩, (ratioRounds_iff hd).2 hq⟩
    · rintro (h | ⟨hd, hlo, hhi, q, hharm, hratio⟩)
      · exact absurd h hzero
      · have hq := (ratioRounds_iff hd).1 hratio
        obtain ⟨hlow, hhigh, hboth, hreg⟩ := (harmlessRatio_iff q).1 hharm
        have hquotient : checkDiv (31 * v) d = some q :=
          checkDiv_eq_some.2 ⟨hd, by rw [hq]; unfold HarmlessRatio at hharm; omega, hq⟩
        refine ⟨c.setVolume _, ?_, hreg⟩
        rw [checkInt_eq_some.2 ⟨⟨hlo, hhi⟩, rfl⟩, bind_some, hquotient, bind_some,
          checkInt_eq_some.2 ⟨hlow, rfl⟩, bind_some, checkInt_eq_some.2 ⟨hhigh, rfl⟩,
          bind_some, checkInt_eq_some.2 ⟨hboth, rfl⟩]
        rfl

theorem checkGetVolume_iff (c : Codec) (d : ℤ) :
    (∃ r, c.checkGetVolume d = some r) ↔ muteVolume ≤ c.volume ∨
      -2 ^ 31 ≤ (31 - c.volume % 32 : ℕ) * d ∧ (31 - c.volume % 32 : ℕ) * d < 2 ^ 31 := by
  have hmask : minVolume - ((c.volume &&& 0b11111 : ℕ) : ℤ) = (31 - c.volume % 32 : ℕ) := by
    rw [show 0b11111 = 2 ^ 5 - 1 from rfl, Nat.and_two_pow_sub_one_eq_mod]
    unfold minVolume
    omega
  unfold Codec.checkGetVolume Codec.getVolume
  dsimp only
  rw [hmask]
  generalize ((31 - c.volume % 32 : ℕ) : ℤ) * d = product
  by_cases hmute : c.volume ≥ muteVolume
  · rw [if_pos hmute]
    exact ⟨fun _ => Or.inl hmute, fun _ => ⟨0, rfl⟩⟩
  · rw [if_neg hmute]
    constructor
    · rintro ⟨r, h⟩
      obtain ⟨_, hproduct, -⟩ := bind_eq_some_iff.1 h
      exact Or.inr (checkInt_eq_some.1 hproduct).1
    · rintro (h | hrange)
      · exact absurd h hmute
      · -- a quotient by 31 fits where the product does
        have habs := Int.natAbs_tdiv_le_natAbs product (minVolume - maxVolume)
        have hdown : (product.tdiv (minVolume - maxVolume)).natAbs = product.natAbs / 31 :=
          Int.natAbs_tdiv _ _
        have hquotient : checkDiv product (minVolume - maxVolume) =
            some (product.tdiv (minVolume - maxVolume)) :=
          checkDiv_eq_some.2 ⟨by decide, by omega, rfl⟩
        rw [checkInt_eq_some.2 ⟨hrange, rfl⟩, bind_some, hquotient]
        exact ⟨_, rfl⟩

/-- **The volume calls and any arguments.** `sys_setVolume` is defined, and writes mute or an
attenuation, for harmless arguments only; `sys_getVolume` is defined where its product fits. -/
theorem volume_calls_safe_iff (c : Codec) (volume max : BitVec 32) :
    (c.checkSetVolume volume.toInt max.toInt = some (c.sysSetVolume volume.toInt max.toInt) ∧
        ((c.sysSetVolume volume.toInt max.toInt).volume = muteVolume ∨
          ∃ a ≤ 31, (c.sysSetVolume volume.toInt max.toInt).volume = 257 * a) ↔
      VolumeArgs volume.toInt max.toInt) ∧
    (c.checkGetVolume max.toInt = some (c.sysGetVolume max.toInt) ↔ muteVolume ≤ c.volume ∨
      -2 ^ 31 ≤ (31 - c.volume % 32 : ℕ) * max.toInt ∧
        (31 - c.volume % 32 : ℕ) * max.toInt < 2 ^ 31) := by
  rw [← checkSetVolume_iff c, ← checkGetVolume_iff c]
  refine ⟨⟨fun h => ⟨_, h⟩, ?_⟩, fun h => ⟨_, h⟩, ?_⟩
  · rintro ⟨c', h, hreg⟩
    rw [sysSetVolume_of_check h]
    exact ⟨h, hreg⟩
  · rintro ⟨r, h⟩
    rw [sysGetVolume_of_check h]
    exact h

/-- A scale of 0 is divided by; a large volume overflows; a volume above the scale gives a register
value that is neither mute nor an attenuation. So does a large scale overflow when it is read. -/
theorem volume_calls_unsafe :
    let c : Codec := ⟨0, 0, 0, 0, 0⟩
    (c.checkSetVolume 1 0).isNone ∧ (c.checkSetVolume 100000000 100).isNone ∧
      (c.checkSetVolume 2 1).map Codec.volume = some 0xe0e1 ∧
      (c.checkGetVolume (2 ^ 30)).isNone := by
  decide

end AudioPlayer
