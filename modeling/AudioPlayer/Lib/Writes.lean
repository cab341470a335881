import Mathlib.Data.List.Basic
import Mathlib.Logic.Function.Basic

/-!
# Sequences of writes

`apply ws d` makes the writes `ws` one after the other. A crash between two writes leaves
the effect of a prefix of the sequence.

* `apply_of_notMem`: places that are not written keep their contents;
* `apply_absorb`: a sequence of writes covers what an earlier part of it has written;
* `apply_of_mem`: what a sequence that writes every place once leaves there.
-/

namespace AudioPlayer.Writes

open Function List

variable {α β : Type*} [DecidableEq α] {ws : List (α × β)}

/-- The writes `ws`, in order. -/
def apply (ws : List (α × β)) (d : α → β) : α → β :=
  ws.foldl (fun d w => update d w.1 w.2) d

@[simp] theorem apply_nil (d : α → β) : apply [] d = d := rfl

@[simp] theorem apply_cons (w : α × β) (ws : List (α × β)) (d : α → β) :
    apply (w :: ws) d = apply ws (update d w.1 w.2) := rfl

theorem apply_append (ws vs : List (α × β)) (d : α → β) :
    apply (ws ++ vs) d = apply vs (apply ws d) :=
  foldl_append

theorem apply_of_notMem {a : α} (h : a ∉ ws.map Prod.fst) (d : α → β) :
    apply ws d a = d a := by
  induction ws generalizing d with
  | nil => rfl
  | cons w ws ih =>
    simp only [map_cons, mem_cons, not_or] at h
    rw [apply_cons, ih h.2, update_of_ne h.1]

/-- What is written does not depend on what was there before. -/
theorem apply_congr {a : α} (h : a ∈ ws.map Prod.fst) (d d' : α → β) :
    apply ws d a = apply ws d' a := by
  induction ws generalizing d d' with
  | nil => simp at h
  | cons w ws ih =>
    by_cases ha : a ∈ ws.map Prod.fst
    · exact ih ha _ _
    · have : a = w.1 := by simpa [ha] using h
      rw [apply_cons, apply_cons, apply_of_notMem ha, apply_of_notMem ha, this,
        update_self, update_self]

/-- **Writes over a part of themselves.** -/
theorem apply_absorb {ws vs : List (α × β)} (h : ∀ w ∈ vs, w.1 ∈ ws.map Prod.fst) (d : α → β) :
    apply ws (apply vs d) = apply ws d := by
  funext a
  by_cases ha : a ∈ ws.map Prod.fst
  · exact apply_congr ha _ _
  · have hvs : a ∉ vs.map Prod.fst := by
      rintro hmem
      obtain ⟨w, hw, rfl⟩ := mem_map.1 hmem
      exact ha (h w hw)
    rw [apply_of_notMem ha, apply_of_notMem ha, apply_of_notMem hvs]

theorem apply_of_mem (h : (ws.map Prod.fst).Nodup) {w : α × β} (hw : w ∈ ws)
    (d : α → β) : apply ws d w.1 = w.2 := by
  induction ws generalizing d with
  | nil => simp at hw
  | cons v ws ih =>
    simp only [map_cons, nodup_cons] at h
    rcases mem_cons.1 hw with rfl | hw
    · rw [apply_cons, apply_of_notMem h.1, update_self]
    · exact ih h.2 hw _

end AudioPlayer.Writes
