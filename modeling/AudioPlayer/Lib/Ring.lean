import Mathlib.Logic.Function.Basic
import Mathlib.Data.List.Basic
import Mathlib.Data.Fintype.Card

/-!
# Rings of linked nodes

A doubly linked ring with a sentinel: every node has a link in each direction, `none` is the
sentinel. `Path R x l y` says that the nodes `l` lie between `x` and `y`, and `IsRing R l`
that they are all nodes between the sentinel and itself.

* `IsRing.flip`: the ring in the other direction;
* `IsRing.pushFront`, `IsRing.unlink`: a node is put behind the sentinel, or taken out;
* `IsRing.search_eq`: a search that follows the links is one in the list of nodes;
* `IsRing.inverse`: the two directions are inverse to each other.
-/

namespace AudioPlayer.Ring

open Function List Option

variable {α : Type*}

/-- The links of the nodes. -/
structure DLinks (α : Type*) where
  next : Option α → Option α
  prev : Option α → Option α

namespace DLinks

def flip (R : DLinks α) : DLinks α := ⟨R.prev, R.next⟩

/-- Only the sentinel. -/
def empty : DLinks α := ⟨fun _ => none, fun _ => none⟩

variable [DecidableEq α]

def setNext (R : DLinks α) (x y : Option α) : DLinks α := { R with next := update R.next x y }

def setPrev (R : DLinks α) (x y : Option α) : DLinks α := { R with prev := update R.prev x y }

/-- Link the neighbours of node `b` to each other. -/
def unlink (R : DLinks α) (b : α) : DLinks α :=
  let R := R.setPrev (R.next (some b)) (R.prev (some b))
  R.setNext (R.prev (some b)) (R.next (some b))

/-- Link node `b` between the sentinel and the first node. -/
def pushFront (R : DLinks α) (b : α) : DLinks α :=
  let R := R.setNext (some b) (R.next none)
  let R := R.setPrev (some b) none
  let R := R.setPrev (R.next none) (some b)
  R.setNext none (some b)

end DLinks

/-- The nodes between `x` and `y` are `l`, in both directions. -/
def Path (R : DLinks α) : Option α → List α → Option α → Prop
  | x, [], y => R.next x = y ∧ R.prev y = x
  | x, a :: l, y => R.next x = some a ∧ R.prev (some a) = x ∧ Path R (some a) l y

/-- The ring has the nodes `l`, each one once. -/
structure IsRing (R : DLinks α) (l : List α) : Prop where
  path : Path R none l none
  nodup : l.Nodup

variable {R R' : DLinks α} {x y : Option α} {l l' : List α} {a b : α}

theorem path_append : Path R x (l ++ a :: l') y ↔ Path R x l (some a) ∧ Path R (some a) l' y := by
  induction l generalizing x with
  | nil => exact and_assoc.symm
  | cons c l ih =>
    rw [cons_append, Path, Path, ih]
    simp only [and_assoc]

/-- The same nodes in the other direction. -/
theorem Path.flip (h : Path R x l y) : Path R.flip y l.reverse x := by
  induction l generalizing x with
  | nil => exact ⟨h.2, h.1⟩
  | cons a l ih =>
    rw [reverse_cons]
    exact path_append.2 ⟨ih h.2.2, h.2.1, h.1⟩

theorem IsRing.flip (h : IsRing R l) : IsRing R.flip l.reverse :=
  ⟨h.path.flip, nodup_reverse.2 h.nodup⟩

/-- A path depends on the links of its own nodes only. -/
theorem Path.congr (hnext : ∀ z, z = x ∨ (∃ c ∈ l, z = some c) → R'.next z = R.next z)
    (hprev : ∀ z, (∃ c ∈ l, z = some c) ∨ z = y → R'.prev z = R.prev z) (h : Path R x l y) :
    Path R' x l y := by
  induction l generalizing x with
  | nil => exact ⟨(hnext x (Or.inl rfl)).trans h.1, (hprev y (Or.inr rfl)).trans h.2⟩
  | cons a l ih =>
    obtain ⟨hfirst, hback, hrest⟩ := h
    refine ⟨(hnext x (Or.inl rfl)).trans hfirst, ?_, ih ?_ ?_ hrest⟩
    · exact (hprev (some a) (Or.inl ⟨a, mem_cons_self, rfl⟩)).trans hback
    · rintro z (rfl | ⟨c, hc, rfl⟩)
      · exact hnext _ (Or.inr ⟨a, mem_cons_self, rfl⟩)
      · exact hnext _ (Or.inr ⟨c, mem_cons_of_mem _ hc, rfl⟩)
    · rintro z (⟨c, hc, rfl⟩ | rfl)
      · exact hprev _ (Or.inl ⟨c, mem_cons_of_mem _ hc, rfl⟩)
      · exact hprev _ (Or.inr rfl)

/-- Following `next` and then `prev` leads back. -/
theorem Path.prev_next (h : Path R x l y) {z : Option α} (hz : z = x ∨ ∃ c ∈ l, z = some c) :
    R.prev (R.next z) = z := by
  induction l generalizing x with
  | nil =>
    rcases hz with rfl | ⟨c, hc, -⟩
    · rw [h.1, h.2]
    · exact absurd hc not_mem_nil
  | cons a l ih =>
    obtain ⟨hfirst, hback, hrest⟩ := h
    rcases hz with rfl | ⟨c, hc, rfl⟩
    · rw [hfirst, hback]
    · refine ih hrest ?_
      rcases mem_cons.1 hc with rfl | hc
      · exact Or.inl rfl
      · exact Or.inr ⟨c, hc, rfl⟩

/-- **The two directions are inverse to each other** when the ring has all nodes. -/
theorem IsRing.inverse (h : IsRing R l) (hall : ∀ a, a ∈ l) (x : Option α) :
    R.prev (R.next x) = x ∧ R.next (R.prev x) = x := by
  have hx : ∀ l' : List α, (∀ a, a ∈ l') → x = none ∨ ∃ c ∈ l', x = some c := by
    intro l' hl'
    cases x with
    | none => exact Or.inl rfl
    | some c => exact Or.inr ⟨c, hl' c, rfl⟩
  refine ⟨h.path.prev_next (hx l hall), h.flip.path.prev_next (hx _ ?_)⟩
  intro a
  exact mem_reverse.2 (hall a)

/-- Follow the links from a node to the sentinel, up to a node with `p`. -/
def search (link : Option α → Option α) (p : α → Bool) : ℕ → Option α → Option α
  | 0, _ => none
  | _ + 1, none => none
  | n + 1, some a => if p a then some a else search link p n (link (some a))

theorem Path.search_eq (p : α → Bool) {n : ℕ} (h : Path R x l none) (hn : l.length < n) :
    search R.next p n (R.next x) = l.find? p := by
  induction l generalizing x n with
  | nil =>
    obtain ⟨n, rfl⟩ : ∃ m, n = m + 1 := ⟨n - 1, by omega⟩
    rw [h.1]
    rfl
  | cons a l ih =>
    obtain ⟨hfirst, -, hrest⟩ := h
    obtain ⟨n, rfl⟩ : ∃ m, n = m + 1 := ⟨n - 1, by omega⟩
    rw [hfirst, search, List.find?_cons, ih hrest (by simpa using hn)]
    cases p a <;> rfl

/-- **A search along the ring** finds the first of the nodes. -/
theorem IsRing.search_eq (h : IsRing R l) (p : α → Bool) {n : ℕ} (hn : l.length < n) :
    search R.next p n (R.next none) = l.find? p :=
  h.path.search_eq p hn

/-- A ring has no more nodes than there are. -/
theorem IsRing.length_le [Fintype α] (h : IsRing R l) : l.length ≤ Fintype.card α :=
  h.nodup.length_le_card

theorem isRing_empty : IsRing (DLinks.empty : DLinks α) [] := ⟨⟨rfl, rfl⟩, nodup_nil⟩

/-- The node before the end of a path. -/
theorem Path.prev_mem (h : Path R x l y) : R.prev y = x ∨ ∃ c ∈ l, R.prev y = some c := by
  induction l generalizing x with
  | nil => exact Or.inl h.2
  | cons a l ih =>
    rcases ih h.2.2 with heq | ⟨c, hc, heq⟩
    · exact Or.inr ⟨a, mem_cons_self, heq⟩
    · exact Or.inr ⟨c, mem_cons_of_mem _ hc, heq⟩

variable [DecidableEq α]

/-- **A new node is put behind the sentinel.** -/
theorem IsRing.pushFront (h : IsRing R l) (hb : b ∉ l) : IsRing (R.pushFront b) (b :: l) := by
  refine ⟨?_, nodup_cons.2 ⟨hb, h.nodup⟩⟩
  have hpath := h.path
  cases l with
  | nil =>
    have hnone : R.next none = none := hpath.1
    simp [Path, DLinks.pushFront, DLinks.setNext, DLinks.setPrev, hnone]
  | cons a l =>
    obtain ⟨hfirst, -, hrest⟩ := hpath
    have hab : a ≠ b := fun heq => hb (heq ▸ mem_cons_self)
    have hal : a ∉ l := (nodup_cons.1 h.nodup).1
    have hbl : b ∉ l := fun hmem => hb (mem_cons_of_mem _ hmem)
    refine ⟨?_, ?_, ?_, ?_, hrest.congr ?_ ?_⟩
    · simp [DLinks.pushFront, DLinks.setNext, DLinks.setPrev]
    · simp [DLinks.pushFront, DLinks.setNext, DLinks.setPrev, hfirst, hab.symm]
    · simp [DLinks.pushFront, DLinks.setNext, DLinks.setPrev, hfirst]
    · simp [DLinks.pushFront, DLinks.setNext, DLinks.setPrev, hfirst]
    · -- the links behind the first node are not touched
      rintro z (rfl | ⟨c, hc, rfl⟩)
      · simp [DLinks.pushFront, DLinks.setNext, DLinks.setPrev, hab]
      · have hcb : c ≠ b := fun heq => hbl (heq ▸ hc)
        simp [DLinks.pushFront, DLinks.setNext, DLinks.setPrev, hcb]
    · rintro z (⟨c, hc, rfl⟩ | rfl)
      · have hcb : c ≠ b := fun heq => hbl (heq ▸ hc)
        have hca : c ≠ a := fun heq => hal (heq ▸ hc)
        simp [DLinks.pushFront, DLinks.setNext, DLinks.setPrev, hfirst, hcb, hca]
      · simp [DLinks.pushFront, DLinks.setNext, DLinks.setPrev, hfirst]

theorem IsRing.foldl_pushFront {m : List α} (h : IsRing R l) (hm : m.Nodup) (hdisj : ∀ a ∈ m, a ∉ l) :
    IsRing (m.foldl DLinks.pushFront R) (m.reverse ++ l) := by
  induction m generalizing R l with
  | nil => exact h
  | cons a m ih =>
    obtain ⟨ham, hm⟩ := nodup_cons.1 hm
    rw [reverse_cons, append_assoc]
    refine ih (h.pushFront (hdisj a mem_cons_self)) hm ?_
    intro c hc hmem
    rcases mem_cons.1 hmem with rfl | hmem
    · exact ham hc
    · exact hdisj c (mem_cons_of_mem _ hc) hmem

/-- The last node of a path is linked to another end. -/
theorem Path.reroute {n : Option α} (h : Path R x l y) (hx : ∀ c ∈ l, x ≠ some c) (hnodup : l.Nodup)
    (hn : ∀ c ∈ l, n ≠ some c) : Path ((R.setPrev n (R.prev y)).setNext (R.prev y) n) x l n := by
  induction l generalizing x with
  | nil =>
    obtain ⟨-, hback⟩ := h
    simp [Path, DLinks.setNext, DLinks.setPrev, hback]
  | cons a l ih =>
    obtain ⟨hfirst, hback, hrest⟩ := h
    obtain ⟨hal, hl⟩ := nodup_cons.1 hnodup
    have hne : R.prev y ≠ x := by
      intro heq
      rcases hrest.prev_mem with hlast | ⟨c, hc, hlast⟩
      · exact hx a mem_cons_self (heq.symm.trans hlast)
      · exact hx c (mem_cons_of_mem _ hc) (heq.symm.trans hlast)
    have han : some a ≠ n := (hn a mem_cons_self).symm
    refine ⟨?_, ?_, ih hrest ?_ hl ?_⟩
    · simp [DLinks.setNext, DLinks.setPrev, update_of_ne hne.symm, hfirst]
    · simp [DLinks.setNext, DLinks.setPrev, update_of_ne han, hback]
    · intro c hc heq
      exact hal (some.inj heq ▸ hc)
    · intro c hc
      exact hn c (mem_cons_of_mem _ hc)

theorem DLinks.unlink_eq (R : DLinks α) (b : α) : R.unlink b =
    (R.setPrev (R.next (some b)) (R.prev (some b))).setNext (R.prev (some b)) (R.next (some b)) := by
  have hprev : update R.prev (R.next (some b)) (R.prev (some b)) (some b) = R.prev (some b) := by
    by_cases heq : some b = R.next (some b)
    · rw [← heq, update_self]
    · rw [update_of_ne heq]
  simp only [DLinks.unlink, DLinks.setPrev, hprev]

/-- **A node is taken out of the ring.** -/
theorem IsRing.unlink (h : IsRing R l) (hb : b ∈ l) : IsRing (R.unlink b) (l.erase b) := by
  refine ⟨?_, h.nodup.erase b⟩
  obtain ⟨l1, l2, rfl⟩ := append_of_mem hb
  have hnodup := h.nodup
  have hb1 : b ∉ l1 := fun hmem => disjoint_of_nodup_append hnodup hmem mem_cons_self
  obtain ⟨hleft, hright⟩ := path_append.1 h.path
  have hn1 : ∀ c ∈ l1, ∀ d ∈ l2, c ≠ d := by
    intro c hc d hd heq
    exact disjoint_of_nodup_append hnodup hc (mem_cons_of_mem _ (heq ▸ hd))
  rw [erase_append_right _ hb1, erase_cons_head, R.unlink_eq]
  have hnodup1 := (nodup_append.1 hnodup).1
  cases l2 with
  | nil =>
    rw [hright.1, append_nil]
    exact hleft.reroute (by simp) hnodup1 (by simp)
  | cons d l2 =>
    obtain ⟨hnext, -, hrest⟩ := hright
    have hd2 : d ∉ l2 := (nodup_cons.1 (nodup_cons.1 (nodup_append.1 hnodup).2.1).2).1
    rw [hnext]
    refine path_append.2 ⟨hleft.reroute (by simp) hnodup1 ?_, hrest.congr ?_ ?_⟩
    · intro c hc heq
      exact hn1 c hc d mem_cons_self (some.inj heq).symm
    · -- the node before `b` is not one behind it
      intro z hz
      refine update_of_ne (fun heq => ?_) _ _
      have hmem : ∃ e ∈ d :: l2, z = some e := by
        rcases hz with rfl | ⟨c, hc, rfl⟩
        · exact ⟨d, mem_cons_self, rfl⟩
        · exact ⟨c, mem_cons_of_mem _ hc, rfl⟩
      obtain ⟨e, he, rfl⟩ := hmem
      rcases hleft.prev_mem with hprev | ⟨c, hc, hprev⟩
      · exact absurd (heq.trans hprev) (by simp)
      · exact hn1 c hc e he (some.inj (hprev.symm.trans heq.symm))
    · rintro z (⟨c, hc, rfl⟩ | rfl)
      · refine update_of_ne (fun heq => ?_) _ _
        exact hd2 (some.inj heq ▸ hc)
      · exact update_of_ne (some_ne_none d).symm (R.prev (some b)) R.prev

end AudioPlayer.Ring
