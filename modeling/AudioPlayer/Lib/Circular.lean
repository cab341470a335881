import Mathlib.Data.List.Nodup

/-!
# Circular lists through a `next` map

`Path next p l` says that following `next` from `p` visits the nodes `l`. A circular list is a path
that comes back to where it began (`Cycle`).

* `Cycle.around`: a walk from any node of it, all the way around;
* `Cycle.splice`: some nodes in a row are replaced by others, or by none.
-/

namespace AudioPlayer.Circular

open List

variable {ι : Type*} {next next' : ι → ι} {p b i : ι} {l l' mid mid' : List ι}

/-- Following `next` from `p` visits the nodes of the list, in order. -/
def Path (next : ι → ι) : ι → List ι → Prop
  | _, [] => True
  | p, i :: l => next p = i ∧ Path next i l

/-- Where a path ends that begins at `p`. -/
def lastFrom : ι → List ι → ι
  | p, [] => p
  | _, i :: l => lastFrom i l

@[simp] theorem lastFrom_append (p : ι) (l l' : List ι) :
    lastFrom p (l ++ l') = lastFrom (lastFrom p l) l' := by
  induction l generalizing p with
  | nil => rfl
  | cons i l ih => exact ih i

theorem path_append : Path next p (l ++ l') ↔ Path next p l ∧ Path next (lastFrom p l) l' := by
  induction l generalizing p with
  | nil => exact ⟨fun h => ⟨trivial, h⟩, And.right⟩
  | cons i l ih =>
    show next p = i ∧ Path next i (l ++ l') ↔ (next p = i ∧ Path next i l) ∧ _
    rw [ih, and_assoc]
    rfl

/-- The end of a path is one of its nodes. -/
theorem lastFrom_mem (p : ι) (l : List ι) : lastFrom p l ∈ p :: l := by
  induction l generalizing p with
  | nil => exact mem_singleton_self p
  | cons i l ih => exact mem_cons_of_mem p (ih i)

/-- The link of its last node does not belong to a path. -/
theorem Path.congr (h : Path next p l) (hnodup : (p :: l).Nodup)
    (hsame : ∀ j ∈ p :: l, j ≠ lastFrom p l → next' j = next j) : Path next' p l := by
  induction l generalizing p with
  | nil => trivial
  | cons i l ih =>
    obtain ⟨hp, hi⟩ := nodup_cons.1 hnodup
    refine ⟨?_, ih h.2 hi fun j hj => hsame j (mem_cons_of_mem p hj)⟩
    rw [← h.1]
    refine hsame p mem_cons_self fun heq => hp ?_
    rw [heq]
    exact lastFrom_mem i l

/-- **A circular list** from the node `b` on. -/
structure Cycle (next : ι → ι) (b : ι) (l : List ι) : Prop where
  path : Path next b l
  close : next (lastFrom b l) = b
  nodup : (b :: l).Nodup

theorem Cycle.congr (h : Cycle next b l) (hsame : ∀ j ∈ b :: l, next' j = next j) : Cycle next' b l :=
  ⟨h.path.congr h.nodup fun j hj _ => hsame j hj, (hsame _ (lastFrom_mem b l)).trans h.close, h.nodup⟩

theorem Path.map_next (h : Path next p l) : (p :: l).map next = l ++ [next (lastFrom p l)] := by
  induction l generalizing p with
  | nil => rfl
  | cons i l ih =>
    rw [map_cons, ih h.2, h.1]
    rfl

/-- No two nodes have the same successor. -/
theorem Cycle.next_inj (h : Cycle next b l) {j j' : ι} (hj : j ∈ b :: l) (hj' : j' ∈ b :: l)
    (heq : next j = next j') : j = j' := by
  refine inj_on_of_nodup_map (f := next) ?_ hj hj' heq
  rw [h.path.map_next, h.close]
  exact (perm_append_singleton b l).nodup_iff.2 h.nodup

/-- **All the way around** from a node. -/
theorem Cycle.around (h : Cycle next b (l ++ l')) : Path next (lastFrom b l) (l' ++ b :: l) := by
  obtain ⟨hl, hl'⟩ := path_append.1 h.path
  have hclose := h.close
  rw [lastFrom_append] at hclose
  exact path_append.2 ⟨hl', hclose, hl⟩

/-- **The nodes `mid` are replaced** by `mid'`, and nothing else changes. -/
theorem Cycle.splice (h : Cycle next b (l ++ (mid ++ l'))) (hnodup : (b :: (l ++ (mid' ++ l'))).Nodup)
    (hl : ∀ j ∈ b :: l, j ≠ lastFrom b l → next' j = next j) (hl' : ∀ j ∈ l', next' j = next j)
    (hmid : Path next' (lastFrom b l) mid')
    (hlink : next' (lastFrom b (l ++ mid')) = next (lastFrom b (l ++ mid))) :
    Cycle next' b (l ++ (mid' ++ l')) := by
  obtain ⟨hpath, hrest⟩ := path_append.1 h.path
  obtain ⟨-, hrest⟩ := path_append.1 hrest
  have hclose := h.close
  rw [← append_assoc, lastFrom_append] at hclose
  rw [← lastFrom_append] at hrest
  have hleft : (b :: l).Nodup := by
    refine h.nodup.sublist (List.Sublist.cons_cons b ?_)
    exact sublist_append_left l _
  -- what follows is reached from the new nodes as it was from the old ones
  have htail : Path next' (lastFrom b (l ++ mid')) l' ∧
      next' (lastFrom (lastFrom b (l ++ mid')) l') = b := by
    cases l' with
    | nil => exact ⟨trivial, hlink.trans hclose⟩
    | cons i l' =>
      have hright : (i :: l').Nodup := by
        refine (nodup_cons.1 h.nodup).2.sublist ?_
        exact (sublist_append_right mid _).trans (sublist_append_right l _)
      refine ⟨⟨hlink.trans hrest.1, hrest.2.congr hright fun j hj _ => hl' j hj⟩, ?_⟩
      exact (hl' _ (lastFrom_mem i l')).trans hclose
  refine ⟨path_append.2 ⟨hpath.congr hleft hl, path_append.2 ⟨hmid, ?_⟩⟩, ?_, hnodup⟩
  · rw [← lastFrom_append]
    exact htail.1
  · rw [← append_assoc, lastFrom_append]
    exact htail.2

end AudioPlayer.Circular
