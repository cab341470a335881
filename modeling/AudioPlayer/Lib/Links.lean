import Mathlib.Data.Fintype.Card
import Mathlib.Data.List.Nodup

/-!
# Singly linked lists through a `next` map

A linked list is a head pointer and a map from each node to its successor; both
are `Option`s, `none` for the null pointer. `Chain next p q` says that following
`next` from `p` visits exactly the nodes `q` and then stops.

* `Chain.unique`, `Chain.nodup`: a list that stops is determined by its head and
  visits no node twice.
* `walk_eq_some_iff`: a walk of at most `n` nodes finds the list exactly when the
  list stops within `n` nodes; over a finite type, `walk_card_eq_none_iff` makes
  failing to find it the same as never stopping.
* `Chain.concat`: linking a new node behind the last one.
-/

namespace AudioPlayer.Links

open Function List Option

variable {ι : Type*} {next next' : ι → Option ι} {p : Option ι} {q : List ι} {i : ι}

/-- Following `next` from `p` visits the nodes of the list, in order, and stops. -/
def Chain (next : ι → Option ι) : Option ι → List ι → Prop
  | p, [] => p = none
  | p, i :: q => p = some i ∧ Chain next (next i) q

/-- The nodes met from `p` on, if the null pointer is met within `n` nodes. -/
def walk (next : ι → Option ι) : ℕ → Option ι → Option (List ι)
  | _, none => some []
  | 0, some _ => none
  | n + 1, some i => (walk next n (next i)).map (i :: ·)

/-- The first `n` nodes met from `p` on. -/
def visit (next : ι → Option ι) : ℕ → Option ι → List ι
  | 0, _ => []
  | _ + 1, none => []
  | n + 1, some i => i :: visit next n (next i)

theorem Chain.head (h : Chain next p q) : p = q.head? := by
  cases q with
  | nil => exact h
  | cons i q => exact h.1

theorem Chain.unique : ∀ {q q' : List ι} {p : Option ι}, Chain next p q → Chain next p q' → q = q' := by
  intro q
  induction q with
  | nil =>
    intro q' p h h'
    cases q' with
    | nil => rfl
    | cons j q' => simp [Chain] at h h'; simp [h] at h'
  | cons i q ih =>
    intro q' p h h'
    cases q' with
    | nil => simp [Chain] at h h'; simp [h'] at h
    | cons j q' =>
      have hij : i = j := some.inj (h.1.symm.trans h'.1)
      subst hij
      rw [ih h.2 h'.2]

theorem Chain.drop {a : List ι} : ∀ {p : Option ι}, Chain next p (a ++ i :: q) →
    Chain next (some i) (i :: q) := by
  induction a with
  | nil => intro p h; exact ⟨rfl, h.2⟩
  | cons j a ih => intro p h; exact ih h.2

/-- **A list that stops visits no node twice.** -/
theorem Chain.nodup : ∀ {q : List ι} {p : Option ι}, Chain next p q → q.Nodup := by
  intro q
  induction q with
  | nil => intro p _; exact nodup_nil
  | cons i q ih =>
    intro p h
    refine nodup_cons.2 ⟨fun hi => ?_, ih h.2⟩
    -- from a second visit on, the list would be a proper suffix of itself
    obtain ⟨a, b, rfl⟩ := append_of_mem hi
    have h1 : Chain next (some i) (i :: (a ++ i :: b)) := ⟨rfl, h.2⟩
    have h2 : Chain next (some i) (i :: b) := Chain.drop h.2
    have := congrArg List.length (h1.unique h2)
    simp only [length_cons, length_append] at this
    omega

theorem Chain.length_le_card [Fintype ι] (h : Chain next p q) : q.length ≤ Fintype.card ι :=
  h.nodup.length_le_card

/-- A list only depends on the links of its own nodes. -/
theorem Chain.congr (hq : ∀ j ∈ q, next j = next' j) (h : Chain next p q) : Chain next' p q := by
  induction q generalizing p with
  | nil => exact h
  | cons i q ih =>
    refine ⟨h.1, ?_⟩
    rw [← hq i mem_cons_self]
    exact ih (fun j hj => hq j (mem_cons_of_mem _ hj)) h.2

theorem walk_eq_some_iff : ∀ {n : ℕ} {p : Option ι} {q : List ι},
    walk next n p = some q ↔ Chain next p q ∧ q.length ≤ n := by
  intro n
  induction n with
  | zero =>
    intro p q
    cases p with
    | none => cases q <;> simp [walk, Chain]
    | some i => cases q <;> simp [walk, Chain]
  | succ n ih =>
    intro p q
    cases p with
    | none => cases q <;> simp [walk, Chain]
    | some i =>
      cases q with
      | nil => simp [walk, Chain]
      | cons j q =>
        simp only [walk, map_eq_some_iff, ih, Chain, some.injEq, length_cons]
        constructor
        · rintro ⟨r, ⟨hr, hl⟩, he⟩
          obtain ⟨rfl, rfl⟩ := List.cons.inj he
          exact ⟨⟨rfl, hr⟩, by omega⟩
        · rintro ⟨⟨rfl, hr⟩, hl⟩
          exact ⟨q, ⟨hr, by omega⟩, rfl⟩

theorem Chain.walk_card [Fintype ι] (h : Chain next p q) :
    walk next (Fintype.card ι) p = some q :=
  walk_eq_some_iff.2 ⟨h, h.length_le_card⟩

theorem Chain.visit_eq : ∀ {q : List ι} {p : Option ι} {n : ℕ}, Chain next p q → q.length ≤ n →
    visit next n p = q := by
  intro q
  induction q with
  | nil => rintro p n rfl _; cases n <;> rfl
  | cons i q ih =>
    rintro p n ⟨rfl, h⟩ hn
    obtain ⟨n, rfl⟩ : ∃ m, n = m + 1 := ⟨n - 1, by simp at hn; omega⟩
    rw [visit, ih h (by simpa using hn)]

/-- **A walk over as many nodes as there are fails only on an endless list.** -/
theorem walk_card_eq_none_iff [Fintype ι] :
    walk next (Fintype.card ι) p = none ↔ ∀ n, walk next n p = none := by
  refine ⟨fun h n => ?_, fun h => h _⟩
  cases hn : walk next n p with
  | none => rfl
  | some q => rw [(walk_eq_some_iff.1 hn).1.walk_card] at h; simp at h

/-- A list that is cut behind one of its nodes. -/
theorem Chain.cut {a b : List ι} (ha : ∀ j ∈ a, next j = next' j) (hi : next' i = none) :
    ∀ {p : Option ι}, Chain next p (a ++ i :: b) → Chain next' p (a ++ [i]) := by
  induction a with
  | nil => intro p h; exact ⟨h.1, hi⟩
  | cons j a ih =>
    intro p h
    refine ⟨h.1, ?_⟩
    rw [← ha j mem_cons_self]
    exact ih (fun l hl => ha l (mem_cons_of_mem _ hl)) h.2

/-- A node is still met when the links up to it are unchanged. -/
theorem Chain.mem_of_agree {a b : List ι} (ha : ∀ j ∈ a, next j = next' j) :
    ∀ {p : Option ι} {q : List ι}, Chain next p (a ++ i :: b) → Chain next' p q → i ∈ q := by
  induction a with
  | nil =>
    intro p q h h'
    rw [h'.head] at h
    exact mem_of_mem_head? h.1
  | cons j a ih =>
    intro p q h h'
    cases q with
    | nil => simp [Chain] at h'; simp [h', Chain] at h
    | cons l q =>
      have hjl : j = l := some.inj (h.1.symm.trans h'.1)
      subst hjl
      have h2 := h'.2
      rw [← ha j mem_cons_self] at h2
      exact mem_cons_of_mem _ (ih (fun m hm => ha m (mem_cons_of_mem _ hm)) h.2 h2)

/-- **A node that is its own successor is on no list that stops.** -/
theorem Chain.not_mem_of_loop (hl : next i = some i) (h : Chain next p q) : i ∉ q := by
  intro hi
  obtain ⟨a, b, rfl⟩ := append_of_mem hi
  have h1 := h.drop
  have h2 := h1.2
  rw [hl] at h2
  have := congrArg List.length (h1.unique h2)
  simp at this

variable [DecidableEq ι]

theorem Chain.update_of_notMem (hi : i ∉ q) (v : Option ι) (h : Chain next p q) :
    Chain (update next i v) p q := by
  refine h.congr fun j hj => ?_
  rw [update_of_ne]
  rintro rfl; exact hi hj

/-- The nodes before `i` keep their links when the link of `i` changes. -/
theorem Chain.split (h : Chain next p q) (hi : i ∈ q) :
    ∃ a b, q = a ++ i :: b ∧ ∀ v, ∀ j ∈ a, next j = update next i v j := by
  obtain ⟨a, b, rfl⟩ := append_of_mem hi
  refine ⟨a, b, rfl, fun v j hj => ?_⟩
  rw [update_of_ne]
  rintro rfl
  exact disjoint_of_nodup_append h.nodup hj mem_cons_self

/-- **Linking a new node behind the last one.** -/
theorem Chain.concat {t : ι} (h : Chain next p q) (hi : i ∉ q) (hn : next i = none)
    (ht : q.getLast? = some t) : Chain (update next t (some i)) p (q ++ [i]) := by
  induction q generalizing p with
  | nil => simp at ht
  | cons j q ih =>
    refine ⟨h.1, ?_⟩
    have hij : i ≠ j := fun e => hi (by simp [e])
    have hiq : i ∉ q := fun e => hi (mem_cons_of_mem _ e)
    cases q with
    | nil =>
      simp only [List.getLast?_singleton, some.injEq] at ht
      subst ht
      rw [update_self]
      refine ⟨rfl, ?_⟩
      show update next j (some i) i = none
      rw [update_of_ne hij, hn]
    | cons l q =>
      rw [List.getLast?_cons_cons] at ht
      have htm : t ∈ l :: q := mem_of_getLast? ht
      have hjt : j ≠ t := by
        rintro rfl; exact (nodup_cons.1 h.nodup).1 htm
      rw [update_of_ne hjt]
      exact ih h.2 hiq ht

end AudioPlayer.Links
