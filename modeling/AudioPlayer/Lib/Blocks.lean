import Mathlib.Data.Vector.Basic
import Mathlib.Algebra.Order.Group.Nat

/-!
# Byte arrays: overwriting a range, cutting a stream into blocks

`patch d off src` is the array `d` with `src` copied over it from index `off` on.
`blocks n z w` cuts the list `w` into consecutive blocks of `n` entries, the last
one padded with `z`; `fullBlocks n z w` keeps the complete blocks only.

* `patch_pad`: copying behind what a padded array already holds.
* `blocks_eq`: a list that is the concatenation of blocks and a shorter rest is
  cut into exactly these blocks.
-/

namespace AudioPlayer.Blocks

open List

variable {α : Type*}

/-- `d` with `src` copied over it from index `off` on; the length never changes. -/
def patch (d : List α) (off : ℕ) (src : List α) : List α :=
  d.take off ++ src.take (d.length - off) ++ d.drop (off + src.length)

/-- An array keeps its length. -/
@[simp] theorem length_patch (d : List α) (off : ℕ) (src : List α) :
    (patch d off src).length = d.length := by
  simp only [patch, length_append, length_take, length_drop]
  omega

/-- `w` filled up with `z` to `n` entries. -/
def pad (n : ℕ) (z : α) (w : List α) : List.Vector α n :=
  ⟨(w ++ List.replicate n z).take n, by simp⟩

theorem pad_toList {n : ℕ} {z : α} {w : List α} (h : w.length ≤ n) :
    (pad n z w).toList = w ++ List.replicate (n - w.length) z := by
  show (w ++ List.replicate n z).take n = _
  rw [take_append, take_of_length_le h, take_replicate, min_eq_left (by omega)]

/-- An array overwritten in a range stays an array of its size. -/
def patchVec {n : ℕ} (d : List.Vector α n) (off : ℕ) (src : List α) : List.Vector α n :=
  ⟨patch d.toList off src, by rw [length_patch, d.toList_length]⟩

/-- **Copying behind the contents of a padded array.** -/
theorem patch_pad {n : ℕ} {z : α} {w b : List α} (h : w.length + b.length ≤ n) :
    patchVec (pad n z w) w.length b = pad n z (w ++ b) := by
  apply List.Vector.toList_injective
  rw [pad_toList (by simpa using h)]
  show patch (pad n z w).toList w.length b = _
  rw [pad_toList (by omega)]
  unfold patch
  have hl : b.length ≤ (w ++ List.replicate (n - w.length) z).length - w.length := by
    simp only [length_append, length_replicate]; omega
  rw [take_left, take_of_length_le hl, drop_append, drop_eq_nil_of_le (by omega),
    Nat.add_sub_cancel_left, drop_replicate, nil_append, length_append,
    Nat.sub_add_eq]

/-- The complete blocks of `n` entries that `w` is cut into. -/
def fullBlocks (n : ℕ) (z : α) (w : List α) : List (List.Vector α n) :=
  (List.range (w.length / n)).map fun k => pad n z (w.drop (n * k))

/-- The blocks of `n` entries that `w` is cut into, the last one padded with `z`. -/
def blocks (n : ℕ) (z : α) (w : List α) : List (List.Vector α n) :=
  (List.range ((w.length + (n - 1)) / n)).map fun k => pad n z (w.drop (n * k))

variable {n : ℕ} {z : α}

/-- What lies behind a full block is cut off. -/
theorem pad_of_prefix (b : List.Vector α n) (w : List α) : pad n z (b.toList ++ w) = b := by
  apply List.Vector.toList_injective
  show (b.toList ++ w ++ List.replicate n z).take n = b.toList
  rw [append_assoc, take_append_of_le_length (by simp), take_of_length_le (by simp)]

theorem range_map_append (b : List.Vector α n) (w : List α) (m : ℕ) :
    (List.range (m + 1)).map (fun k => pad n z ((b.toList ++ w).drop (n * k))) =
      b :: (List.range m).map fun k => pad n z (w.drop (n * k)) := by
  rw [range_succ_eq_map, map_cons, map_map]
  congr 1
  · rw [Nat.mul_zero, drop_zero, pad_of_prefix]
  · apply map_congr_left
    intro k _
    have hk : n * (k + 1) = b.toList.length + n * k := by
      rw [b.toList_length, Nat.mul_add, Nat.mul_one, Nat.add_comm]
    show pad n z ((b.toList ++ w).drop (n * (k + 1))) = _
    rw [hk, drop_length_add_append]

/-- A full block comes first. -/
theorem fullBlocks_append (hn : 0 < n) (b : List.Vector α n) (w : List α) :
    fullBlocks n z (b.toList ++ w) = b :: fullBlocks n z w := by
  unfold fullBlocks
  rw [← range_map_append, length_append, b.toList_length, Nat.add_div_left _ hn]

theorem blocks_append (hn : 0 < n) (b : List.Vector α n) (w : List α) :
    blocks n z (b.toList ++ w) = b :: blocks n z w := by
  unfold blocks
  rw [← range_map_append, length_append, b.toList_length, add_assoc, Nat.add_div_left _ hn]

theorem fullBlocks_short {w : List α} (h : w.length < n) : fullBlocks n z w = [] := by
  unfold fullBlocks
  rw [Nat.div_eq_of_lt h]; rfl

/-- What is left is padded. -/
theorem blocks_short {w : List α} (h : w.length < n) :
    blocks n z w = if w = [] then [] else [pad n z w] := by
  unfold blocks
  by_cases hw : w = []
  · subst hw
    rw [if_pos rfl, length_nil, Nat.div_eq_of_lt (by omega)]; rfl
  · have h0 : w.length ≠ 0 := fun e => hw (eq_nil_of_length_eq_zero e)
    have h1 : (w.length + (n - 1)) / n = 1 :=
      Nat.div_eq_of_lt_le (by omega) (by omega)
    rw [if_neg hw, h1]; simp

/-- **Cutting a concatenation of blocks and a shorter rest gives back the blocks.** -/
theorem blocks_eq {bs : List (List.Vector α n)} {w rest : List α} (hr : rest.length < n)
    (hw : w = (bs.map List.Vector.toList).flatten ++ rest) :
    fullBlocks n z w = bs ∧
      blocks n z w = bs ++ if rest = [] then [] else [pad n z rest] := by
  have hn : 0 < n := by omega
  subst hw
  induction bs with
  | nil => exact ⟨fullBlocks_short hr, blocks_short hr⟩
  | cons b bs ih =>
    simp only [map_cons, flatten_cons, append_assoc]
    rw [fullBlocks_append hn, blocks_append hn, ih.1, ih.2]
    exact ⟨rfl, rfl⟩

end AudioPlayer.Blocks
