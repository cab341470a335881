import Mathlib.Algebra.BigOperators.Group.Multiset.Basic
import Mathlib.Data.Multiset.UnionInter
import Mathlib.Algebra.GroupWithZero.Nat

/-!
# Extents

An extent is a number of cells in a row, given by its first cell and its length. A list of extents
covers a multiset of cells; the extents are apart when no cell is in it twice.
-/

namespace AudioPlayer.Extents

open List

/-- The cells of an extent. -/
def cells (e : ℕ × ℕ) : Multiset ℕ := List.range' e.1 e.2

/-- The cells of some extents. -/
def covered (l : List (ℕ × ℕ)) : Multiset ℕ := (l.map cells).sum

variable {a n k x : ℕ} {e e' : ℕ × ℕ} {l l' : List (ℕ × ℕ)}

/-- The cells from the first one on. -/
theorem mem_cells : x ∈ cells e ↔ e.1 ≤ x ∧ x < e.1 + e.2 := by
  rw [cells, Multiset.mem_coe, mem_range'_1]

/-- An extent is cut in two. -/
theorem cells_add (a n k : ℕ) : cells (a, n + k) = cells (a, n) + cells (a + n, k) := by
  rw [cells, cells, cells, Multiset.coe_add, List.range'_append_1]

/-- No cell is in an extent twice. -/
theorem nodup_cells (e : ℕ × ℕ) : (cells e).Nodup := Multiset.coe_nodup.2 (nodup_range' ..)

@[simp] theorem card_cells (e : ℕ × ℕ) : Multiset.card (cells e) = e.2 := length_range'

@[simp] theorem covered_nil : covered [] = 0 := rfl

@[simp] theorem covered_cons (e : ℕ × ℕ) (l : List (ℕ × ℕ)) :
    covered (e :: l) = cells e + covered l := by
  rw [covered, map_cons, sum_cons]
  rfl

@[simp] theorem covered_append (l l' : List (ℕ × ℕ)) : covered (l ++ l') = covered l + covered l' := by
  rw [covered, map_append, sum_append]
  rfl

/-- A cell is covered if it is in one of the extents. -/
theorem mem_covered : x ∈ covered l ↔ ∃ e ∈ l, x ∈ cells e := by
  induction l with
  | nil => simp
  | cons e l ih =>
    rw [covered_cons, Multiset.mem_add, ih]
    simp only [mem_cons, exists_eq_or_imp]

/-- The cells of all extents, with repetitions. -/
theorem card_covered (l : List (ℕ × ℕ)) : Multiset.card (covered l) = (l.map Prod.snd).sum := by
  induction l with
  | nil => rfl
  | cons e l ih => rw [covered_cons, Multiset.card_add, card_cells, ih, map_cons, sum_cons]

/-- **Extents that are apart** lie one behind the other. -/
theorem apart {R : Multiset ℕ} (h : (cells e + R).Nodup) (hle : cells e' ≤ R) (he : 0 < e.2)
    (he' : 0 < e'.2) :
    e.1 + e.2 ≤ e'.1 ∨ e'.1 + e'.2 ≤ e.1 := by
  have hdis := (Multiset.nodup_add.1 h).2.2
  by_contra hno
  -- the later one of the two first cells is in both
  have hx : max e.1 e'.1 ∈ cells e := mem_cells.2 ⟨le_max_left .., by omega⟩
  have hx' : max e.1 e'.1 ∈ cells e' := mem_cells.2 ⟨le_max_right .., by omega⟩
  exact Multiset.disjoint_left.1 hdis hx (Multiset.mem_of_le hle hx')

/-- The cells of one of the extents. -/
theorem cells_le_covered (h : e ∈ l) : cells e ≤ covered l := by
  obtain ⟨l1, l2, rfl⟩ := append_of_mem h
  rw [covered_append, covered_cons]
  exact (Multiset.le_add_right ..).trans (Multiset.le_add_left ..)

end AudioPlayer.Extents
