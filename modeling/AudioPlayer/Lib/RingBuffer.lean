import Mathlib.Data.List.Basic
import Mathlib.Logic.Function.Basic
import Mathlib.Data.Nat.ModEq

/-!
# Rings with free-running indices

A producer and a consumer share a ring of `n` slots. Each counts its entries with an index
modulo `m`, where `n` divides `m`; entry `i` is in slot `i % n`. `Window n m ring head tail xs`
says that the entries from the consumer's index `head` up to the producer's index `tail` are
`xs`.

* `Window.push`: a new entry goes behind the others, and overwrites none of them as long as
  there are fewer than `n`;
* `Window.pop`: the consumer takes the first entry;
* `Window.eq_nil_iff`: the indices are equal exactly when there is no entry;
* `Window.dropLast`: the producer takes back the entry it added last;
* `Window.append_iff`: a third index in between cuts the window in two.
-/

namespace AudioPlayer.RingBuffer

open List

variable {α : Type*} {n m : ℕ} {ring : ℕ → α} {head tail : ℕ} {xs : List α}

structure Window (n m : ℕ) (ring : ℕ → α) (head tail : ℕ) (xs : List α) : Prop where
  dvd : n ∣ m
  head_lt : head < m
  tail_eq : tail = (head + xs.length) % m
  slot : ∀ k (h : k < xs.length), ring ((head + k) % n) = xs[k]

/-- The entries from `head` up to `tail`, read off the ring. -/
def contents (n m : ℕ) (ring : ℕ → α) (head tail : ℕ) : List α :=
  (List.range ((tail + m - head) % m)).map fun k => ring ((head + k) % n)

namespace Window

theorem empty (hdvd : n ∣ m) (hlt : head < m) : Window n m ring head head [] :=
  ⟨hdvd, hlt, by simp [Nat.mod_eq_of_lt hlt], by simp⟩

/-- The slots of entries that are in the ring together are different. -/
theorem slot_injective {i j : ℕ} (hi : i < n) (hj : j < n) (h : (head + i) % n = (head + j) % n) :
    i = j := by
  have hmod : i ≡ j [MOD n] := Nat.ModEq.add_left_cancel' head h
  rwa [Nat.ModEq, Nat.mod_eq_of_lt hi, Nat.mod_eq_of_lt hj] at hmod

/-- **The producer adds an entry.** -/
theorem push (h : Window n m ring head tail xs) (hroom : xs.length < n) (x : α) :
    Window n m (Function.update ring (tail % n) x) head ((tail + 1) % m) (xs ++ [x]) := by
  have htail : tail % n = (head + xs.length) % n := by
    rw [h.tail_eq, Nat.mod_mod_of_dvd _ h.dvd]
  refine ⟨h.dvd, h.head_lt, ?_, fun k hk => ?_⟩
  · rw [h.tail_eq, Nat.mod_add_mod, length_append, length_singleton, add_assoc]
  · rw [length_append, length_singleton] at hk
    rcases Nat.lt_succ_iff_lt_or_eq.1 hk with hk | rfl
    · have hne : (head + k) % n ≠ tail % n := by
        intro heq
        have := slot_injective (by omega) hroom (heq.trans htail)
        omega
      rw [Function.update_of_ne hne, h.slot k hk, getElem_append_left hk]
    · rw [htail, Function.update_self, getElem_concat_length rfl]

/-- **The consumer takes the first entry.** -/
theorem pop {x : α} (h : Window n m ring head tail (x :: xs)) :
    ring (head % n) = x ∧ Window n m ring ((head + 1) % m) tail xs := by
  have hpos : 0 < m := Nat.zero_lt_of_lt h.head_lt
  refine ⟨h.slot 0 (by simp), h.dvd, Nat.mod_lt _ hpos, ?_, fun k hk => ?_⟩
  · rw [h.tail_eq, length_cons, Nat.mod_add_mod]
    congr 1
    omega
  · have hslot := h.slot (k + 1) (by simpa using hk)
    rw [← Nat.mod_mod_of_dvd _ h.dvd, Nat.mod_add_mod, Nat.mod_mod_of_dvd _ h.dvd]
    rw [add_assoc, add_comm 1 k, hslot, getElem_cons_succ]

/-- **The ring is empty exactly when the indices are equal.** -/
theorem eq_nil_iff (h : Window n m ring head tail xs) (hlt : xs.length < m) :
    head = tail ↔ xs = [] := by
  rw [h.tail_eq]
  constructor
  · intro heq
    by_contra hne
    have hpos := length_pos_of_ne_nil hne
    rcases lt_or_ge (head + xs.length) m with hsmall | hbig
    · rw [Nat.mod_eq_of_lt hsmall] at heq
      omega
    · have hlt' := h.head_lt
      rw [Nat.mod_eq_sub_mod hbig, Nat.mod_eq_of_lt (by omega)] at heq
      omega
  · rintro rfl
    simp [Nat.mod_eq_of_lt h.head_lt]

/-- The number of entries, from the indices. -/
theorem length_eq (h : Window n m ring head tail xs) (hlt : xs.length < m) :
    (tail + m - head) % m = xs.length := by
  have hhead := h.head_lt
  rw [h.tail_eq]
  rcases lt_or_ge (head + xs.length) m with hsmall | hbig
  · rw [Nat.mod_eq_of_lt hsmall, show head + xs.length + m - head = xs.length + m by omega,
      Nat.add_mod_right, Nat.mod_eq_of_lt hlt]
  · have hwrap : (head + xs.length) % m = head + xs.length - m := by
      rw [Nat.mod_eq_sub_mod hbig, Nat.mod_eq_of_lt (by omega)]
    rw [hwrap, show head + xs.length - m + m - head = xs.length by omega, Nat.mod_eq_of_lt hlt]

theorem contents_eq (h : Window n m ring head tail xs) (hlt : xs.length < m) :
    contents n m ring head tail = xs := by
  unfold contents
  rw [h.length_eq hlt]
  refine ext_getElem (by simp) fun k hk hk' => ?_
  rw [getElem_map, getElem_range, h.slot k hk']

theorem tail_lt (h : Window n m ring head tail xs) : tail < m := by
  rw [h.tail_eq]
  exact Nat.mod_lt _ (Nat.zero_lt_of_lt h.head_lt)

/-- A window in two parts. -/
theorem append_iff {mid : ℕ} {ys : List α} :
    (Window n m ring head tail (xs ++ ys) ∧ mid = (head + xs.length) % m) ↔
      Window n m ring head mid xs ∧ Window n m ring mid tail ys := by
  constructor
  · rintro ⟨h, rfl⟩
    have hpos : 0 < m := Nat.zero_lt_of_lt h.head_lt
    refine ⟨⟨h.dvd, h.head_lt, rfl, fun k hk => ?_⟩, ⟨h.dvd, Nat.mod_lt _ hpos, ?_, fun k hk => ?_⟩⟩
    · rw [h.slot k (by rw [length_append]; omega), getElem_append_left hk]
    · rw [h.tail_eq, length_append, Nat.mod_add_mod, add_assoc]
    · have hslot := h.slot (xs.length + k) (by rw [length_append]; omega)
      rw [← Nat.mod_mod_of_dvd _ h.dvd, Nat.mod_add_mod, Nat.mod_mod_of_dvd _ h.dvd, add_assoc,
        hslot, getElem_append_right (by omega)]
      congr 1
      omega
  · rintro ⟨hx, hy⟩
    refine ⟨⟨hx.dvd, hx.head_lt, ?_, fun k hk => ?_⟩, hx.tail_eq⟩
    · rw [hy.tail_eq, hx.tail_eq, length_append, Nat.mod_add_mod, add_assoc]
    · rcases lt_or_ge k xs.length with hlt | hge
      · rw [hx.slot k hlt, getElem_append_left hlt]
      · rw [length_append] at hk
        have hslot := hy.slot (k - xs.length) (by omega)
        rw [← Nat.mod_mod_of_dvd _ hx.dvd, hx.tail_eq, Nat.mod_add_mod, Nat.mod_mod_of_dvd _ hx.dvd,
          add_assoc, Nat.add_sub_cancel' hge] at hslot
        rw [hslot, getElem_append_right hge]

/-- **The producer takes its last entry back.** -/
theorem dropLast {x : α} (h : Window n m ring head tail (xs ++ [x])) :
    ring ((tail + m - 1) % m % n) = x ∧ Window n m ring head ((tail + m - 1) % m) xs := by
  obtain ⟨hx, hy⟩ := append_iff.1 ⟨h, rfl⟩
  have hpos : 0 < m := Nat.zero_lt_of_lt h.head_lt
  have hback : (tail + m - 1) % m = (head + xs.length) % m := by
    rw [hy.tail_eq, length_singleton]
    have hlt := Nat.mod_lt (head + xs.length) hpos
    set t := (head + xs.length) % m
    rcases Nat.lt_or_ge (t + 1) m with hsmall | hbig
    · rw [Nat.mod_eq_of_lt hsmall, show t + 1 + m - 1 = t + m by omega, Nat.add_mod_right,
        Nat.mod_eq_of_lt hlt]
    · rw [show t + 1 = m by omega, Nat.mod_self, Nat.zero_add, Nat.mod_eq_of_lt (by omega)]
      omega
  rw [hback]
  exact ⟨hy.slot 0 (by simp), hx⟩

end Window

end AudioPlayer.RingBuffer
