import Mathlib.Logic.Function.Basic
import Mathlib.Data.List.Basic
import Mathlib.Order.Lattice

/-!
# Tables with distinct keys

A table has `m` slots, each of them empty or with a key and a value. When no key is in two slots,
the table is a finite map: `find` gives the value of a key and its slot.

* `find_eq_some_iff`, `ne_of_lt_find`: the slot that is found is the only one, or the first one;
* `Distinct.put`, `find_put`: a new key goes into an empty slot, or behind the last one;
* `Distinct.clear`, `find_clear`: a slot is emptied.
-/

namespace AudioPlayer.SlotMap

open Function Option

variable {κ ν : Type*} {tab : ℕ → Option (κ × ν)} {m j : ℕ} {key : κ} {x : ν}

/-- No key is in two slots. -/
def Distinct (m : ℕ) (tab : ℕ → Option (κ × ν)) : Prop :=
  ∀ j < m, ∀ k < m, ∀ key x y, tab j = some (key, x) → tab k = some (key, y) → j = k

/-- A key that is in no slot. -/
def Absent (m : ℕ) (tab : ℕ → Option (κ × ν)) (key : κ) : Prop := ∀ j < m, ∀ x, tab j ≠ some (key, x)

theorem lt_of_ne {k : ℕ} (hj : j ≤ m) (hk : k < max m (j + 1)) (hne : k ≠ j) : k < m := by omega

/-- **A new key** goes into a slot, which may be the first one behind the table. -/
theorem Distinct.put (h : Distinct m tab) (hj : j ≤ m) (hkey : Absent m tab key) (x : ν) :
    Distinct (max m (j + 1)) (update tab j (some (key, x))) := by
  intro a ha b hb k y z hay hbz
  by_cases haj : a = j <;> by_cases hbj : b = j
  · rw [haj, hbj]
  · subst haj
    rw [update_self] at hay
    rw [update_of_ne hbj] at hbz
    obtain ⟨rfl, -⟩ := Prod.mk.inj (some.inj hay)
    exact absurd hbz (hkey b (lt_of_ne hj hb hbj) z)
  · subst hbj
    rw [update_self] at hbz
    rw [update_of_ne haj] at hay
    obtain ⟨rfl, -⟩ := Prod.mk.inj (some.inj hbz)
    exact absurd hay (hkey a (lt_of_ne hj ha haj) y)
  · rw [update_of_ne haj] at hay
    rw [update_of_ne hbj] at hbz
    exact h a (lt_of_ne hj ha haj) b (lt_of_ne hj hb hbj) k y z hay hbz

/-- **A slot is emptied.** -/
theorem Distinct.clear (h : Distinct m tab) (j : ℕ) : Distinct m (update tab j none) := by
  have hold : ∀ {a k y}, update tab j none a = some (k, y) → tab a = some (k, y) := by
    intro a k y hay
    by_cases haj : a = j
    · subst haj
      rw [update_self] at hay
      cases hay
    · rwa [update_of_ne haj] at hay
  intro a ha b hb k y z hay hbz
  exact h a ha b hb k y z (hold hay) (hold hbz)

variable [DecidableEq κ]

/-- The first slot with a key. -/
def find (m : ℕ) (tab : ℕ → Option (κ × ν)) (key : κ) : Option (ν × ℕ) :=
  ((List.range m).find? fun j => (tab j).any fun e => e.1 = key).bind fun j =>
    (tab j).map fun e => (e.2, j)

theorem any_eq_true_iff : ((tab j).any fun e => decide (e.1 = key)) = true ↔ ∃ x, tab j = some (key, x) := by
  cases tab j with
  | none => simp
  | some e =>
    obtain ⟨k, x⟩ := e
    simp

theorem of_range_find (h : (List.range m).find? (fun j => (tab j).any fun e => decide (e.1 = key)) = some j) :
    j < m ∧ ∃ x, tab j = some (key, x) := by
  have hyes := List.find?_some h
  exact ⟨List.mem_range.1 (List.mem_of_find?_eq_some h), any_eq_true_iff.1 hyes⟩

/-- No earlier slot has the key. -/
theorem ne_of_lt_find {k : ℕ} (h : find m tab key = some (x, j)) (hk : k < j) (y : ν) :
    tab k ≠ some (key, y) := by
  intro hy
  obtain ⟨j', hrange, hmap⟩ := bind_eq_some_iff.1 h
  obtain ⟨e, -, heq⟩ := map_eq_some_iff.1 hmap
  obtain ⟨-, rfl⟩ := Prod.mk.inj heq
  have hno := (List.find?_range_eq_some.1 hrange).2.2 k hk
  rw [any_eq_true_iff.2 ⟨y, hy⟩] at hno
  cases hno

theorem find_eq_none_iff : find m tab key = none ↔ Absent m tab key := by
  unfold find Absent
  rw [bind_eq_none_iff]
  constructor
  · intro h j hj x hx
    cases hfind : (List.range m).find? fun j => (tab j).any fun e => decide (e.1 = key) with
    | none =>
      have := List.find?_eq_none.1 hfind j (List.mem_range.2 hj)
      exact this (any_eq_true_iff.2 ⟨x, hx⟩)
    | some k =>
      obtain ⟨-, y, hy⟩ := of_range_find hfind
      have hnone := h k hfind
      rw [hy] at hnone
      cases hnone
  · intro h j hfind
    obtain ⟨hj, x, hx⟩ := of_range_find hfind
    exact absurd hx (h j hj x)

/-- A slot that is found has the key. -/
theorem of_find_eq_some (h : find m tab key = some (x, j)) : j < m ∧ tab j = some (key, x) := by
  unfold find at h
  obtain ⟨k, hfind, hmap⟩ := bind_eq_some_iff.1 h
  obtain ⟨hk, y, hy⟩ := of_range_find hfind
  rw [hy] at hmap
  cases hmap
  exact ⟨hk, hy⟩

/-- **The slot that is found is the only one with the key.** -/
theorem find_eq_some_iff (h : Distinct m tab) : find m tab key = some (x, j) ↔ j < m ∧ tab j = some (key, x) := by
  refine ⟨of_find_eq_some, ?_⟩
  rintro ⟨hj, hx⟩
  cases hfind : find m tab key with
  | none => exact absurd hx (find_eq_none_iff.1 hfind j hj x)
  | some r =>
    obtain ⟨y, k⟩ := r
    obtain ⟨hk, hy⟩ := of_find_eq_some hfind
    obtain rfl := h j hj k hk key x y hx hy
    rw [hx] at hy
    obtain ⟨-, rfl⟩ := Prod.mk.inj (some.inj hy)
    rfl

/-- **The new key is found in its slot**, and the others where they were. -/
theorem find_put (h : Distinct m tab) (hj : j ≤ m) (hempty : j < m → tab j = none) (hkey : Absent m tab key)
    (x : ν) : find (max m (j + 1)) (update tab j (some (key, x))) =
      update (find m tab) key (some (x, j)) := by
  funext k
  refine Option.ext fun r => ?_
  obtain ⟨y, l⟩ := r
  rw [find_eq_some_iff (h.put hj hkey x)]
  by_cases hk : k = key
  · subst hk
    rw [update_self]
    constructor
    · rintro ⟨hl, hslot⟩
      by_cases hlj : l = j
      · subst hlj
        rw [update_self] at hslot
        obtain ⟨-, rfl⟩ := Prod.mk.inj (some.inj hslot)
        rfl
      · rw [update_of_ne hlj] at hslot
        exact absurd hslot (hkey l (lt_of_ne hj hl hlj) y)
    · intro heq
      cases heq
      exact ⟨by omega, update_self _ _ _⟩
  · rw [update_of_ne hk, find_eq_some_iff h]
    constructor
    · rintro ⟨hl, hslot⟩
      by_cases hlj : l = j
      · subst hlj
        rw [update_self] at hslot
        exact absurd (Prod.mk.inj (some.inj hslot)).1.symm hk
      · rw [update_of_ne hlj] at hslot
        exact ⟨lt_of_ne hj hl hlj, hslot⟩
    · rintro ⟨hl, hslot⟩
      have hlj : l ≠ j := by
        rintro rfl
        rw [hempty hl] at hslot
        cases hslot
      rw [update_of_ne hlj]
      exact ⟨by omega, hslot⟩

/-- **The key of the slot is gone**, and the others are found where they were. -/
theorem find_clear (h : Distinct m tab) (hj : j < m) (hx : tab j = some (key, x)) :
    find m (update tab j none) = update (find m tab) key none := by
  funext k
  refine Option.ext fun r => ?_
  obtain ⟨y, l⟩ := r
  rw [find_eq_some_iff (h.clear j)]
  by_cases hlj : l = j
  · subst hlj
    rw [update_self]
    refine ⟨fun hslot => absurd hslot.2 (by simp), fun hfind => ?_⟩
    by_cases hk : k = key
    · subst hk
      rw [update_self] at hfind
      cases hfind
    · rw [update_of_ne hk, find_eq_some_iff h, hx] at hfind
      exact absurd (Prod.mk.inj (some.inj hfind.2)).1.symm hk
  · rw [update_of_ne hlj]
    by_cases hk : k = key
    · subst hk
      rw [update_self]
      refine ⟨fun hslot => ?_, fun hnone => absurd hnone (by simp)⟩
      exact absurd (h l hslot.1 j hj k y x hslot.2 hx) hlj
    · rw [update_of_ne hk, find_eq_some_iff h]

end AudioPlayer.SlotMap
