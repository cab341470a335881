import Mathlib.Algebra.BigOperators.Group.Finset.Piecewise
import Mathlib.Data.Fintype.Card
import Mathlib.Logic.Function.Basic

/-!
# Counting the places with a value

`tally f v` is the number of places where `f` has the value `v`. One place is changed at a
time, and `tally_update` says what this does to every tally. `collect` is the multiset with given
counts.
-/

namespace AudioPlayer.Counts

open Function

variable {ι β : Type*} [Fintype ι] [DecidableEq β] {f : ι → β} {v : β}

/-- The number of places with value `v`. -/
def tally (f : ι → β) (v : β) : ℕ := (Finset.univ.filter fun i => f i = v).card

theorem tally_le (f : ι → β) (v : β) : tally f v ≤ Fintype.card ι := Finset.card_le_univ _

/-- A place with the value is counted. -/
theorem tally_pos {i : ι} (h : f i = v) : 0 < tally f v :=
  Finset.card_pos.2 ⟨i, Finset.mem_filter.2 ⟨Finset.mem_univ i, h⟩⟩

/-- What is counted is somewhere. -/
theorem exists_of_tally_pos (h : 0 < tally f v) : ∃ i, f i = v := by
  obtain ⟨i, hi⟩ := Finset.card_pos.1 h
  exact ⟨i, (Finset.mem_filter.1 hi).2⟩

theorem tally_eq_zero (h : ∀ i, f i ≠ v) : tally f v = 0 :=
  Finset.card_eq_zero.2 (Finset.filter_eq_empty_iff.2 fun i _ => h i)

variable [DecidableEq ι]

/-- **One place is changed.** -/
theorem tally_update (f : ι → β) (i : ι) (w v : β) :
    tally (update f i w) v + (if f i = v then 1 else 0) =
      tally f v + if w = v then 1 else 0 := by
  -- apart from place `i`, both count the same places
  have hsplit : ∀ g : ι → β, tally g v =
      ((Finset.univ.erase i).filter fun j => g j = v).card + if g i = v then 1 else 0 := by
    intro g
    have hinsert : (Finset.univ : Finset ι) = insert i (Finset.univ.erase i) :=
      (Finset.insert_erase (Finset.mem_univ i)).symm
    conv_lhs => rw [tally, hinsert, Finset.filter_insert]
    have hnot : i ∉ (Finset.univ.erase i).filter fun j => g j = v := by simp
    split
    · rw [Finset.card_insert_of_notMem hnot]
    · simp
  have hsame : ((Finset.univ.erase i).filter fun j => update f i w j = v) =
      (Finset.univ.erase i).filter fun j => f j = v := by
    refine Finset.filter_congr fun j hj => ?_
    rw [update_of_ne (Finset.ne_of_mem_erase hj)]
  rw [hsplit (update f i w), hsplit f, hsame, update_self]
  omega

/-- The multiset with `g i` copies of each `i`. -/
def collect (g : ι → ℕ) : Multiset ι := ∑ i, Multiset.replicate (g i) i

@[simp] theorem count_collect (g : ι → ℕ) (i : ι) : (collect g).count i = g i := by
  unfold collect
  rw [Multiset.count_sum']
  simp only [Multiset.count_replicate]
  exact Finset.sum_ite_eq_of_mem' Finset.univ i g (Finset.mem_univ i)

end AudioPlayer.Counts
