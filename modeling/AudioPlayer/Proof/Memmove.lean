import Mathlib.Tactic.SplitIfs
import AudioPlayer.Spec.Memmove

/-!
# Overlapping copies

A loop that copies bytes in place reads the old bytes only, as long as it does not write
what it has still to read: upwards the destination must not start inside the source
(`copyUp_eq`), downwards it must not start below it and end inside (`copyDown_eq`). Each
`memmove` chooses its direction so that this holds, by a test of its own
(`memmove_overlap`).
-/

namespace AudioPlayer

open Function Bytes

theorem ptrAdd_eq {p : ℕ} {k : ℤ} {q : ℕ} (h : (p : ℤ) + k = q) (hq : q < 2 ^ 64) :
    ptrAdd p k = q := by
  unfold ptrAdd
  omega

/-- One byte, and then the bytes behind it. -/
theorem move_update_up {m : Mem} {d s n : ℕ} (h : d ≤ s ∨ s + (n + 1) ≤ d) :
    move (update m d (m s)) (d + 1) n (fun i => update m d (m s) (s + 1 + i)) =
      move m d (n + 1) fun i => m (s + i) := by
  funext a
  unfold move
  by_cases hin : d + 1 ≤ a ∧ a < d + 1 + n
  · have hidx : s + 1 + (a - (d + 1)) = s + (a - d) := by omega
    rw [if_pos hin, if_pos (by omega)]
    dsimp only
    rw [hidx, update_of_ne (by omega)]
  · rw [if_neg hin]
    by_cases ha : a = d
    · rw [ha, update_self, if_pos (by omega), Nat.sub_self]
      rfl
    · rw [update_of_ne ha, if_neg (by omega)]

/-- One byte, and then the bytes before it. -/
theorem move_update_down {m : Mem} {d s n : ℕ} (h : s ≤ d ∨ d + (n + 1) ≤ s) :
    move (update m (d + n) (m (s + n))) d n
        (fun i => update m (d + n) (m (s + n)) (s + i)) =
      move m d (n + 1) fun i => m (s + i) := by
  funext a
  unfold move
  by_cases hin : d ≤ a ∧ a < d + n
  · rw [if_pos hin, if_pos (by omega)]
    exact update_of_ne (by omega) _ _
  · rw [if_neg hin]
    by_cases ha : a = d + n
    · rw [ha, update_self, if_pos (by omega), Nat.add_sub_cancel_left]
    · rw [update_of_ne ha, if_neg (by omega)]

/-- **Upwards**, the bytes that are still to be read lie above those written. -/
theorem copyUp_eq {n : ℕ} {m : Mem} {d s : ℕ} (hd : d + n ≤ 2 ^ 64) (hs : s + n ≤ 2 ^ 64)
    (h : d ≤ s ∨ s + n ≤ d) : copyUp n m d s = move m d n fun i => m (s + i) := by
  induction n generalizing m d s with
  | zero => rw [copyUp, move_zero]
  | succ n ih =>
    rw [copyUp, ← move_update_up h]
    rcases Nat.eq_zero_or_pos n with rfl | hn
    · rw [copyUp, move_zero]
    · -- another byte follows, so that neither pointer has wrapped around
      rw [ptrAdd_eq (q := d + 1) (by omega) (by omega), ptrAdd_eq (q := s + 1) (by omega) (by omega)]
      exact ih (by omega) (by omega) (by omega)

/-- **Downwards**, they lie below those written. -/
theorem copyDown_eq {n : ℕ} {m : Mem} {d s : ℕ} (hd : d + n ≤ 2 ^ 64) (hs : s + n ≤ 2 ^ 64)
    (h : s ≤ d ∨ d + n ≤ s) :
    copyDown n m (ptrAdd d n) (ptrAdd s n) = move m d n fun i => m (s + i) := by
  induction n generalizing m with
  | zero => rw [copyDown, move_zero]
  | succ n ih =>
    have hback : ∀ {p : ℕ}, p + (n + 1) ≤ 2 ^ 64 →
        ptrAdd (ptrAdd p ((n + 1 : ℕ) : ℤ)) (-1) = p + n := by
      intro p hp
      unfold ptrAdd
      omega
    have hat : ∀ {p : ℕ}, p + (n + 1) ≤ 2 ^ 64 → ptrAdd p n = p + n := fun hp =>
      ptrAdd_eq (by omega) (by omega)
    simp only [copyDown]
    rw [hback hd, hback hs, ← hat hd, ← hat hs, ih (by omega) (by omega) (by omega), hat hd, hat hs]
    exact move_update_down h

theorem kstring_memmove_eq {m : Mem} {dst src n : ℕ} (hd : dst + n ≤ 2 ^ 64)
    (hs : src + n ≤ 2 ^ 64) :
    Kstring.memmove m dst src n = (move m dst n fun i => m (src + i), dst) := by
  unfold Kstring.memmove
  split_ifs with hn hdown
  · rw [hn, move_zero]
  · rw [copyDown_eq hd hs (.inl (Nat.le_of_lt hdown.1))]
  · rw [copyUp_eq hd hs]
    by_cases hlt : src < dst
    · -- the end of the source has not wrapped around: the destination ends higher up
      rw [ptrAdd_eq (q := src + n) (by omega) (by omega)] at hdown
      omega
    · exact .inl (by omega)

theorem ulib_memmove_eq {m : Mem} {dst src n : ℕ} (hd : dst + n ≤ 2 ^ 64) (hs : src + n ≤ 2 ^ 64) :
    Ulib.memmove m dst src n = (move m dst n fun i => m (src + i), dst) := by
  unfold Ulib.memmove
  split_ifs with hup
  · rw [Int.toNat_natCast, copyUp_eq hd hs (.inl (Nat.le_of_lt hup))]
  · rw [Int.toNat_natCast, copyDown_eq hd hs (.inl (by omega))]

/-- **Both `memmove`s copy correctly, however the ranges overlap**: the bytes at `dst` are those
that were at `src`, nothing else changes, and the two implementations agree. -/
theorem memmove_overlap (m : Mem) (dst src n : ℕ) (_hn : n < 2 ^ 31) (hd : dst + n ≤ 2 ^ 64)
    (hs : src + n ≤ 2 ^ 64) : (∀ i < n, (Kstring.memmove m dst src n).1 (dst + i) = m (src + i)) ∧
    (∀ a, a < dst ∨ dst + n ≤ a → (Kstring.memmove m dst src n).1 a = m a) ∧
    (∀ i < n, (Ulib.memmove m dst src n).1 (dst + i) = m (src + i)) ∧
    (∀ a, a < dst ∨ dst + n ≤ a → (Ulib.memmove m dst src n).1 a = m a) ∧
    Kstring.memmove m dst src n = Ulib.memmove m dst src n := by
  have hin : ∀ i < n, move m dst n (fun i => m (src + i)) (dst + i) = m (src + i) := fun i hi =>
    move_add hi
  have hout : ∀ a, a < dst ∨ dst + n ≤ a → move m dst n (fun i => m (src + i)) a = m a := fun a ha =>
    move_of_disjoint ha
  rw [kstring_memmove_eq hd hs, ulib_memmove_eq hd hs]
  exact ⟨hin, hout, hin, hout, rfl⟩

/-- Three bytes, moved up by one and down by one. -/
theorem memmove_overlap_shift :
    let m : Mem := fun a => UInt8.ofNat a
    (Kstring.memmove m 11 10 3).1 12 = 11 ∧ (Ulib.memmove m 9 10 3).1 9 = 10 ∧
      Kstring.memmove m 11 10 3 = Ulib.memmove m 11 10 3 := by
  intro m
  have hup := memmove_overlap m 11 10 3 (by decide) (by decide) (by decide)
  have hdown := memmove_overlap m 9 10 3 (by decide) (by decide) (by decide)
  exact ⟨hup.1 1 (by decide), hdown.2.2.1 0 (by decide), hup.2.2.2.2⟩

end AudioPlayer
