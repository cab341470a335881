import Mathlib.Algebra.BigOperators.Group.Finset.Basic
import Mathlib.Algebra.Order.Group.Multiset
import Mathlib.Data.Fintype.Basic

/-!
# Radix trees in memory

Memory is a function from nodes to their entries. A tree with `n` levels below its root is
followed by an address `a`: `a (l + 1)` chooses the entry at level `l + 1`, which leads to a node
of level `l`, and `a 0` the entry of the last node. `nodes` are the nodes of a tree with their
multiplicities, `find` is the place of the entry for an address, `lookup` that entry. The tree is
in memory, so a write can damage it anywhere. What does not:

* `nodes_congr`, `lookup_congr`, `Sound.congr`: writes to other nodes;
* `nodes_write`, `lookup_write`: a write to the entry for one address, if no node is reached twice;
* `nodes_change`: whatever happens below one entry of the root.
-/

namespace AudioPlayer.Radix

open Option Finset

variable {P ι E : Type*} {is : List ι}

/-- How an entry leads to a node. -/
structure Format (P E : Type*) where
  down : E → Option P
  blank : E
  link : P → E
  down_blank : down blank = none
  down_link : ∀ q, down (link q) = some q

variable (F : Format P E)

/-- The place of the entry for an address. -/
def find (mem : P → ι → E) : ℕ → P → (ℕ → ι) → Option (P × ι)
  | 0, p, a => some (p, a 0)
  | n + 1, p, a => (F.down (mem p (a (n + 1)))).bind fun q => find mem n q a

/-- The entry for an address, blank where there is no place for it. -/
def lookup (mem : P → ι → E) (n : ℕ) (p : P) (a : ℕ → ι) : E :=
  (find F mem n p a).elim F.blank fun x => mem x.1 x.2

/-- The entries above the last level are blank or lead to a node. -/
def Sound (mem : P → ι → E) : ℕ → P → Prop
  | 0, _ => True
  | n + 1, p => ∀ i, mem p i = F.blank ∨ ∃ q, mem p i = F.link q ∧ Sound mem n q

variable {F} {mem mem' : P → ι → E} {n : ℕ} {p q x : P} {i j : ι} {a b : ℕ → ι} {e : E}

/-- A lookup goes down one level. -/
theorem lookup_succ : lookup F mem (n + 1) p a =
    (F.down (mem p (a (n + 1)))).elim F.blank fun q => lookup F mem n q a := by
  simp only [lookup, find]
  cases F.down (mem p (a (n + 1))) <;> rfl

/-- Only the indices down to level 0 matter. -/
theorem find_congr_addr (h : ∀ l ≤ n, b l = a l) : find F mem n p b = find F mem n p a := by
  induction n generalizing p with
  | zero => rw [find, find, h 0 le_rfl]
  | succ n ih =>
    rw [find, find, h (n + 1) le_rfl]
    congr 1
    funext q
    exact ih fun l hl => h l (Nat.le_succ_of_le hl)

theorem lookup_congr_addr (h : ∀ l ≤ n, b l = a l) : lookup F mem n p b = lookup F mem n p a := by
  rw [lookup, lookup, find_congr_addr h]

/-- A root with blank entries maps nothing. -/
theorem lookup_blank (h : ∀ i, mem p i = F.blank) : lookup F mem n p a = F.blank := by
  cases n with
  | zero => exact h _
  | succ n => simp [lookup_succ, h, F.down_blank]

/-- A root with blank entries is a tree. -/
theorem sound_blank (h : ∀ i, mem p i = F.blank) : Sound F mem n p := by
  cases n with
  | zero => trivial
  | succ n => exact fun i => Or.inl (h i)

section Write

variable [DecidableEq P] [DecidableEq ι]

/-- A write to one entry. -/
def write (mem : P → ι → E) (q : P) (i : ι) (e : E) : P → ι → E :=
  Function.update mem q (Function.update (mem q) i e)

/-- Other nodes stay. -/
theorem write_of_ne (hx : x ≠ q) : write mem q i e x = mem x := Function.update_of_ne hx _ _

@[simp] theorem write_self : write mem q i e q i = e := by simp [write]

/-- Other entries of the node stay. -/
theorem write_of_ne_index (hj : j ≠ i) : write mem q i e q j = mem q j := by simp [write, hj]

end Write

section Nodes

variable [Fintype ι]

variable (F) in
/-- The nodes of a tree. -/
def nodes (mem : P → ι → E) : ℕ → P → Multiset P
  | 0, p => {p}
  | n + 1, p => {p} + ∑ i, (F.down (mem p i)).elim 0 (nodes mem n)

variable (F) in
/-- The nodes below an entry. -/
def below (mem : P → ι → E) (n : ℕ) (e : E) : Multiset P := (F.down e).elim 0 (nodes F mem n)

theorem nodes_succ : nodes F mem (n + 1) p = {p} + ∑ i, below F mem n (mem p i) := rfl

@[simp] theorem below_blank : below F mem n F.blank = 0 := by simp [below, F.down_blank]

@[simp] theorem below_link : below F mem n (F.link q) = nodes F mem n q := by
  simp [below, F.down_link]

/-- The root is one of the nodes. -/
theorem self_mem : p ∈ nodes F mem n p := by
  cases n <;> simp [nodes]

/-- What is below an entry are the nodes of its subtree. -/
theorem mem_below (hq : F.down e = some q) : x ∈ below F mem n e ↔ x ∈ nodes F mem n q := by
  rw [below, hq]
  rfl

/-- A node with blank entries is a tree of its own. -/
theorem nodes_blank (h : ∀ i, mem p i = F.blank) : nodes F mem n p = {p} := by
  cases n with
  | zero => rfl
  | succ n => simp [nodes_succ, h]

end Nodes

variable [Fintype ι] [DecidableEq ι]

variable (F) in
/-- The root and what is below its other entries. -/
def rest (mem : P → ι → E) (n : ℕ) (p : P) (i : ι) : Multiset P :=
  {p} + ∑ j ∈ univ.erase i, below F mem n (mem p j)

theorem self_mem_rest : p ∈ rest F mem n p i :=
  Multiset.mem_add.2 (Or.inl (Multiset.mem_singleton_self p))

/-- What is below another entry is in the rest. -/
theorem mem_rest (hj : j ≠ i) (hx : x ∈ below F mem n (mem p j)) : x ∈ rest F mem n p i :=
  Multiset.mem_add.2 (Or.inr (Multiset.mem_sum.2 ⟨j, mem_erase.2 ⟨hj, mem_univ j⟩, hx⟩))

/-- **The nodes of a tree**: those below one entry, and the rest. -/
theorem nodes_split (i : ι) :
    nodes F mem (n + 1) p = below F mem n (mem p i) + rest F mem n p i := by
  rw [nodes_succ, ← add_sum_erase univ _ (mem_univ i)]
  exact add_left_comm _ _ _

/-- A root with one entry. -/
theorem nodes_single (hi : mem p i = F.link q) (hj : ∀ j ≠ i, mem p j = F.blank) :
    nodes F mem (n + 1) p = nodes F mem n q + {p} := by
  rw [nodes_split i, hi, below_link, rest, sum_eq_zero, add_zero]
  intro j hmem
  rw [hj j (mem_erase.1 hmem).1, below_blank]

theorem mem_of_below (h : x ∈ below F mem n (mem p i)) : x ∈ nodes F mem (n + 1) p := by
  rw [nodes_split i]
  exact Multiset.mem_add.2 (Or.inl h)

/-- The nodes depend on the nodes themselves only. -/
theorem nodes_congr (h : ∀ x ∈ nodes F mem n p, mem' x = mem x) :
    nodes F mem' n p = nodes F mem n p := by
  induction n generalizing p with
  | zero => rfl
  | succ n ih =>
    rw [nodes_succ, nodes_succ, h p self_mem]
    congr 1
    refine sum_congr rfl fun i _ => ?_
    cases hq : F.down (mem p i) with
    | none => simp [below, hq]
    | some q =>
      simp only [below, hq, elim_some]
      exact ih fun x hx => h x (mem_of_below ((mem_below hq).2 hx))

theorem below_congr (h : ∀ x ∈ below F mem n e, mem' x = mem x) :
    below F mem' n e = below F mem n e := by
  cases hq : F.down e with
  | none => simp [below, hq]
  | some q =>
    simp only [below, hq, elim_some] at h ⊢
    exact nodes_congr h

/-- So does the place of an entry. -/
theorem find_congr (h : ∀ x ∈ nodes F mem n p, mem' x = mem x) :
    find F mem' n p a = find F mem n p a := by
  induction n generalizing p with
  | zero => rfl
  | succ n ih =>
    simp only [find, h p self_mem]
    cases hq : F.down (mem p (a (n + 1))) with
    | none => rfl
    | some q => exact ih fun x hx => h x (mem_of_below ((mem_below hq).2 hx))

/-- An entry lies in a node of the tree. -/
theorem find_mem {loc : P × ι} (h : find F mem n p a = some loc) : loc.1 ∈ nodes F mem n p := by
  induction n generalizing p with
  | zero =>
    cases h
    exact self_mem
  | succ n ih =>
    obtain ⟨q, hq, h⟩ := bind_eq_some_iff.1 h
    exact mem_of_below ((mem_below hq).2 (ih h))

/-- Memory outside of the tree does not matter to a lookup. -/
theorem lookup_congr (h : ∀ x ∈ nodes F mem n p, mem' x = mem x) :
    lookup F mem' n p a = lookup F mem n p a := by
  unfold lookup
  rw [find_congr h]
  cases hf : find F mem n p a with
  | none => rfl
  | some loc => exact congrFun (h loc.1 (find_mem hf)) loc.2

theorem Sound.congr (hs : Sound F mem n p) (h : ∀ x ∈ nodes F mem n p, mem' x = mem x) :
    Sound F mem' n p := by
  induction n generalizing p with
  | zero => trivial
  | succ n ih =>
    intro i
    rw [h p self_mem]
    rcases hs i with hb | ⟨q, hq, hs⟩
    · exact Or.inl hb
    · refine Or.inr ⟨q, hq, ih hs fun x hx => h x (mem_of_below (i := i) ?_)⟩
      rw [hq, below_link]
      exact hx

/-! ## Changes below one entry -/

/-- **Whatever happens below entry `i` of the root**, if the rest is left alone. -/
theorem nodes_change (hroot : ∀ j ≠ i, mem' p j = mem p j)
    (hrest : ∀ j ≠ i, ∀ x ∈ below F mem n (mem p j), mem' x = mem x) :
    nodes F mem' (n + 1) p = below F mem' n (mem' p i) + rest F mem n p i := by
  rw [nodes_split i, rest, rest]
  congr 2
  refine sum_congr rfl fun j hj => ?_
  have hji := (mem_erase.1 hj).1
  rw [hroot j hji]
  exact below_congr (hrest j hji)

/-- An address that begins with another index finds what it found. -/
theorem lookup_change (hroot : ∀ j ≠ i, mem' p j = mem p j)
    (hrest : ∀ j ≠ i, ∀ x ∈ below F mem n (mem p j), mem' x = mem x)
    (ha : a (n + 1) ≠ i) : lookup F mem' (n + 1) p a = lookup F mem (n + 1) p a := by
  rw [lookup_succ, lookup_succ, hroot _ ha]
  cases hq : F.down (mem p (a (n + 1))) with
  | none => rfl
  | some q => exact lookup_congr fun x hx => hrest _ ha x ((mem_below hq).2 hx)

/-- The tree stays one if what is below the entry is one. -/
theorem sound_change (hs : Sound F mem (n + 1) p) (hroot : ∀ j ≠ i, mem' p j = mem p j)
    (hrest : ∀ j ≠ i, ∀ x ∈ below F mem n (mem p j), mem' x = mem x)
    (hi : mem' p i = F.blank ∨ ∃ q, mem' p i = F.link q ∧ Sound F mem' n q) :
    Sound F mem' (n + 1) p := by
  intro j
  by_cases hji : j = i
  · rw [hji]
    exact hi
  · rw [hroot j hji]
    rcases hs j with hb | ⟨q, hq, hs⟩
    · exact Or.inl hb
    · refine Or.inr ⟨q, hq, hs.congr fun x hx => hrest j hji x ?_⟩
      rw [hq, below_link]
      exact hx

/-! ## Trees that reach no node twice -/

/-- A node below one entry is not the root and not below another entry. -/
theorem apart (hn : (nodes F mem (n + 1) p).Nodup) (hx : x ∈ below F mem n (mem p i)) :
    x ≠ p ∧ ∀ j ≠ i, x ∉ below F mem n (mem p j) := by
  rw [nodes_split i, Multiset.nodup_add] at hn
  have hrest := Multiset.disjoint_left.1 hn.2.2 hx
  refine ⟨?_, fun j hj hxj => hrest (mem_rest hj hxj)⟩
  rintro rfl
  exact hrest self_mem_rest

/-- The subtrees reach no node twice either. -/
theorem nodup_below (hn : (nodes F mem (n + 1) p).Nodup) : (below F mem n (mem p i)).Nodup := by
  rw [nodes_split i, Multiset.nodup_add] at hn
  exact hn.1

/-- Different addresses have different places. -/
theorem find_inj (hn : (nodes F mem n p).Nodup) {loc : P × ι} (ha : find F mem n p a = some loc)
    (hb : find F mem n p b = some loc) : ∀ l ≤ n, b l = a l := by
  induction n generalizing p with
  | zero =>
    intro l hl
    rw [Nat.le_zero.1 hl]
    exact congrArg Prod.snd (some.inj (hb.trans ha.symm))
  | succ n ih =>
    obtain ⟨q, hq, ha⟩ := bind_eq_some_iff.1 ha
    obtain ⟨q', hq', hb⟩ := bind_eq_some_iff.1 hb
    have htop : b (n + 1) = a (n + 1) := by
      by_contra hne
      exact (apart hn ((mem_below hq).2 (find_mem ha))).2 _ hne ((mem_below hq').2 (find_mem hb))
    rw [htop, hq] at hq'
    cases hq'
    have hbelow := nodup_below (i := a (n + 1)) hn
    rw [below, hq, elim_some] at hbelow
    intro l hl
    rcases Nat.le_succ_iff.1 hl with hl | rfl
    · exact ih hbelow ha hb l hl
    · exact htop

variable [DecidableEq P]

/-- The place of an entry is not below another entry of the root. -/
theorem write_rest (hn : (nodes F mem (n + 1) p).Nodup)
    (hq : q ∈ below F mem n (mem p j)) {k : ι} (hk : k ≠ j) :
    ∀ x ∈ below F mem n (mem p k), write mem q i e x = mem x := by
  intro x hx
  refine write_of_ne ?_
  rintro rfl
  exact (apart hn hq).2 k hk hx

/-- **A write to the entry for an address** leaves the nodes, and the places of all entries. -/
theorem nodes_write (hn : (nodes F mem n p).Nodup) (hf : find F mem n p a = some (q, i)) :
    nodes F (write mem q i e) n p = nodes F mem n p := by
  induction n generalizing p with
  | zero => rfl
  | succ n ih =>
    obtain ⟨c, hc, hf⟩ := bind_eq_some_iff.1 hf
    have hq := (mem_below hc).2 (find_mem hf)
    have hp : write mem q i e p = mem p := write_of_ne (apart hn hq).1.symm
    have hbelow := nodup_below (i := a (n + 1)) hn
    rw [below, hc, elim_some] at hbelow
    have hnodes := nodes_change (F := F) (fun j _ => congrFun hp j)
      fun j hj => write_rest (i := i) (e := e) hn hq hj
    rw [hnodes, hp, nodes_split (a (n + 1)), below, below, hc, elim_some, elim_some,
      ih hbelow hf]

/-- The places of the entries stay. -/
theorem find_write (hn : (nodes F mem n p).Nodup) (hf : find F mem n p a = some (q, i)) :
    find F (write mem q i e) n p b = find F mem n p b := by
  induction n generalizing p with
  | zero => rfl
  | succ n ih =>
    obtain ⟨c, hc, hf⟩ := bind_eq_some_iff.1 hf
    have hq := (mem_below hc).2 (find_mem hf)
    have hp : write mem q i e p = mem p := write_of_ne (apart hn hq).1.symm
    have hbelow := nodup_below (i := a (n + 1)) hn
    rw [below, hc, elim_some] at hbelow
    simp only [find, hp]
    by_cases hb : b (n + 1) = a (n + 1)
    · rw [hb, hc, bind_some, bind_some]
      exact ih hbelow hf
    · cases hd : F.down (mem p (b (n + 1))) with
      | none => rfl
      | some d => exact find_congr fun x hx => write_rest hn hq hb x ((mem_below hd).2 hx)

/-- The tree stays one: the entry is on the last level. -/
theorem Sound.write (hs : Sound F mem n p) (hn : (nodes F mem n p).Nodup)
    (hf : find F mem n p a = some (q, i)) : Sound F (write mem q i e) n p := by
  induction n generalizing p with
  | zero => trivial
  | succ n ih =>
    obtain ⟨c, hc, hf⟩ := bind_eq_some_iff.1 hf
    have hq := (mem_below hc).2 (find_mem hf)
    have hp : Radix.write mem q i e p = mem p := write_of_ne (apart hn hq).1.symm
    have hbelow := nodup_below (i := a (n + 1)) hn
    rw [below, hc, elim_some] at hbelow
    refine sound_change hs (i := a (n + 1)) (fun j _ => congrFun hp j)
      (fun j hj => write_rest hn hq hj) ?_
    rw [hp]
    rcases hs (a (n + 1)) with hb | ⟨d, hd, hs⟩
    · exact Or.inl hb
    · rw [hd, F.down_link] at hc
      obtain rfl := some.inj hc
      exact Or.inr ⟨d, hd, ih hs hbelow hf⟩

open Classical in
/-- **A lookup after a write**: the address itself, or another one. -/
theorem lookup_write (hn : (nodes F mem n p).Nodup) (hf : find F mem n p a = some (q, i)) :
    lookup F (write mem q i e) n p b =
      if ∀ l ≤ n, b l = a l then e else lookup F mem n p b := by
  unfold lookup
  rw [find_write hn hf]
  split
  · rename_i hab
    rw [find_congr_addr hab, hf]
    exact write_self
  · rename_i hab
    cases hb : find F mem n p b with
    | none => rfl
    | some loc =>
      obtain ⟨q', i'⟩ := loc
      simp only [elim_some]
      by_cases hq : q' = q
      · subst hq
        refine write_of_ne_index ?_
        rintro rfl
        exact hab (find_inj hn hf hb)
      · rw [write_of_ne hq]

/-! ## Trees that are taken apart -/

variable (F) in
/-- The nodes below some entries of the root. -/
def belowAll (mem : P → ι → E) (n : ℕ) (p : P) (is : List ι) : Multiset P :=
  (is.map fun i => below F mem n (mem p i)).sum

omit [DecidableEq ι] [DecidableEq P] in
theorem belowAll_cons :
    belowAll F mem n p (i :: is) = below F mem n (mem p i) + belowAll F mem n p is := by
  rw [belowAll, List.map_cons, List.sum_cons]
  rfl

omit [DecidableEq ι] [DecidableEq P] in
theorem mem_belowAll (hi : i ∈ is) (hx : x ∈ below F mem n (mem p i)) :
    x ∈ belowAll F mem n p is := by
  induction is with
  | nil => cases hi
  | cons j is ih =>
    rw [belowAll_cons, Multiset.mem_add]
    rcases List.mem_cons.1 hi with rfl | hi
    · exact Or.inl hx
    · exact Or.inr (ih hi)

omit [DecidableEq P] in
/-- Rows that are the same have the same nodes below them. -/
theorem belowAll_congr (hrow : ∀ i ∈ is, mem' p i = mem p i)
    (h : ∀ i ∈ is, ∀ x ∈ below F mem n (mem p i), mem' x = mem x) :
    belowAll F mem' n p is = belowAll F mem n p is := by
  unfold belowAll
  congr 1
  refine List.map_congr_left fun i hi => ?_
  rw [hrow i hi]
  exact below_congr (h i hi)

omit [DecidableEq P] in
/-- All entries, one after the other. -/
theorem nodes_eq_belowAll (hnd : is.Nodup) (hall : ∀ i, i ∈ is) :
    nodes F mem (n + 1) p = belowAll F mem n p is + {p} := by
  have huniv : is.toFinset = univ := by
    ext i
    simp [hall i]
  rw [nodes_succ, add_comm, belowAll, ← List.sum_toFinset _ hnd, huniv]

-- a tree is followed by the lemmas above, never by unfolding the sums
attribute [irreducible] nodes rest belowAll

end AudioPlayer.Radix
