import AudioPlayer.Lib.Circular
import AudioPlayer.Lib.Extents
import AudioPlayer.Spec.Umalloc

/-!
# The heap of a program

The blocks of the heap are those on the free list and those that the program holds. Together they
are what was obtained from `sbrk`, byte by byte (`HeapInv.cover`).

* `place_spec`, `free_spec`: `free` finds the place of a block and joins it with its neighbours;
* `search_found`, `search_grows`: `malloc` goes around the list once, and a second time after it
  obtained memory;
* `user_heap_integrity`: the heap after any number of calls.

The number of headers in a block is a `uint`, so all this needs that there are less than 2^32 of
them.
-/

namespace AudioPlayer

open Function Bytes Runs Circular Extents List

/-! ## Headers -/

/-- Two headers that do not overlap. -/
def Far (p x : ℕ) : Prop := p + headerSize ≤ x ∨ x + headerSize ≤ p

theorem Far.symm {p x : ℕ} (h : Far p x) : Far x p := Or.symm h

section Headers

variable {m : Mem} {p x q n : ℕ}

theorem ptrOf_lt (m : Mem) (p : ℕ) : ptrOf m p < 2 ^ 64 := load_lt 8 m p

theorem ptrOf_setPtr (hq : q < 2 ^ 64) : ptrOf (setPtr m p q) p = q :=
  (load_store 8 m p q).trans (Nat.mod_eq_of_lt hq)

theorem ptrOf_setPtr_of_far (h : Far p x) : ptrOf (setPtr m p q) x = ptrOf m x := by
  unfold Far headerSize at h
  exact load_store_of_disjoint (by omega)

theorem unitsOf_setPtr (h : p = x ∨ Far p x) : unitsOf (setPtr m p q) x = unitsOf m x := by
  unfold Far headerSize at h
  exact load_store_of_disjoint (by omega)

theorem unitsOf_setUnits (hn : n < 2 ^ 32) : unitsOf (setUnits m p n) p = n :=
  (load_store 4 m (p + 8) n).trans (Nat.mod_eq_of_lt hn)

theorem unitsOf_setUnits_of_far (h : Far p x) : unitsOf (setUnits m p n) x = unitsOf m x := by
  unfold Far headerSize at h
  exact load_store_of_disjoint (by omega)

theorem ptrOf_setUnits (h : p = x ∨ Far p x) : ptrOf (setUnits m p n) x = ptrOf m x := by
  unfold Far headerSize at h
  exact load_store_of_disjoint (by omega)

theorem headerAdd_eq (h : p + headerSize * n < 2 ^ 64) : headerAdd p n = p + headerSize * n :=
  Nat.mod_eq_of_lt h

end Headers

namespace Umalloc

/-! ## The place of a block -/

section Place

variable {m : Mem} {base bp p fuel : ℕ} {l : List ℕ}

/-- From a block below `bp` on. -/
theorem place_forward (hpath : Path (ptrOf m) p l) (hclose : ptrOf m (lastFrom p l) = base)
    (hsorted : (p :: l).Pairwise (· < ·)) (hbase : base ≤ p) (hp : p < bp) (hbp : bp ∉ l)
    (hfuel : l.length < fuel) :
    ∃ l1 l2, l = l1 ++ l2 ∧ place m bp fuel p = some (lastFrom p l1) ∧
      (∀ x ∈ l1, x < bp) ∧ ∀ x ∈ l2, bp < x := by
  induction l generalizing p fuel with
  | nil =>
    obtain ⟨fuel, rfl⟩ : ∃ k, fuel = k + 1 := ⟨fuel - 1, by simp at hfuel; omega⟩
    have hnext : ptrOf m p = base := hclose
    refine ⟨[], [], rfl, ?_, fun x hx => absurd hx not_mem_nil, fun x hx => absurd hx not_mem_nil⟩
    rw [place, hnext, if_neg (by omega), if_pos ⟨hbase, Or.inl hp⟩]
    rfl
  | cons i l ih =>
    obtain ⟨fuel, rfl⟩ : ∃ k, fuel = k + 1 := ⟨fuel - 1, by simp at hfuel; omega⟩
    obtain ⟨hless, hsorted'⟩ := pairwise_cons.1 hsorted
    have hpi := hless i mem_cons_self
    rw [place, hpath.1]
    by_cases hin : bp < i
    · refine ⟨[], i :: l, rfl, by rw [if_pos ⟨hp, hin⟩]; rfl, fun x hx => absurd hx not_mem_nil,
        fun x hx => ?_⟩
      rcases mem_cons.1 hx with rfl | hx
      · exact hin
      · exact hin.trans ((pairwise_cons.1 hsorted').1 x hx)
    · have hne : bp ≠ i := fun heq => hbp (heq ▸ mem_cons_self)
      have hlt : i < bp := by omega
      obtain ⟨l1, l2, rfl, hrun, h1, h2⟩ := ih hpath.2 hclose hsorted' (by omega) hlt
        (fun hmem => hbp (mem_cons_of_mem i hmem)) (Nat.lt_of_succ_lt_succ hfuel)
      refine ⟨i :: l1, l2, rfl, ?_, fun x hx => ?_, h2⟩
      · rw [if_neg (by omega), if_neg (by omega), hrun]
        rfl
      · rcases mem_cons.1 hx with rfl | hx
        · exact hlt
        · exact h1 x hx

/-- From a block above `bp` the loop comes to the wrap. -/
theorem place_backward (hpath : Path (ptrOf m) p l) (hclose : ptrOf m (lastFrom p l) = base)
    (hsorted : (p :: l).Pairwise (· < ·)) (hbase : base < bp) (hp : bp < p) :
    place m bp (fuel + (l.length + 1)) p = place m bp fuel base := by
  induction l generalizing p with
  | nil =>
    have hnext : ptrOf m p = base := hclose
    show place m bp (fuel + 0 + 1) p = _
    rw [place, hnext, if_neg (by omega), if_neg (by omega)]
  | cons i l ih =>
    obtain ⟨hless, hsorted'⟩ := pairwise_cons.1 hsorted
    have hpi := hless i mem_cons_self
    show place m bp (fuel + (l.length + 1) + 1) p = _
    rw [place, hpath.1, if_neg (by omega), if_neg (by omega)]
    exact ih hpath.2 hclose hsorted' (hp.trans hpi)

/-- A node of a circular list, with those in front of it and behind it. -/
theorem exists_split (b : ℕ) {p : ℕ} {l : List ℕ} (hp : p ∈ b :: l) :
    ∃ k1 k2, l = k1 ++ k2 ∧ p = lastFrom b k1 := by
  rcases mem_cons.1 hp with rfl | hp
  · exact ⟨[], l, rfl, rfl⟩
  · obtain ⟨k1, k2, rfl⟩ := append_of_mem hp
    exact ⟨k1 ++ [p], k2, by simp, by simp [lastFrom]⟩

theorem le_lastFrom {b : ℕ} {l : List ℕ} (hsorted : (b :: l).Pairwise (· < ·)) :
    ∀ x ∈ b :: l, x ≤ lastFrom b l := by
  induction l generalizing b with
  | nil => exact fun x hx => (mem_singleton.1 hx).le
  | cons i l ih =>
    obtain ⟨hless, hsorted'⟩ := pairwise_cons.1 hsorted
    intro x hx
    rcases mem_cons.1 hx with rfl | hx
    · exact (hless i mem_cons_self).le.trans (ih hsorted' i mem_cons_self)
    · exact ih hsorted' x hx

/-- **The loop of `free`** finds the place of a block, wherever it begins. -/
theorem place_spec (hc : Cycle (ptrOf m) base l) (hsorted : (base :: l).Pairwise (· < ·))
    (hbase : base < bp) (hbp : bp ∉ l) (hp : p ∈ base :: l) (hfuel : 2 * l.length + 2 ≤ fuel) :
    ∃ l1 l2, l = l1 ++ l2 ∧ place m bp fuel p = some (lastFrom base l1) ∧
      (∀ x ∈ l1, x < bp) ∧ ∀ x ∈ l2, bp < x := by
  obtain ⟨k1, k2, rfl, rfl⟩ := exists_split base hp
  obtain ⟨-, hpath⟩ := path_append.1 hc.path
  have hclose := hc.close
  rw [lastFrom_append] at hclose
  rw [length_append] at hfuel
  obtain ⟨hfront, hk2, hcross⟩ := pairwise_append.1 ((cons_append ..) ▸ hsorted)
  have hback : (lastFrom base k1 :: k2).Pairwise (· < ·) :=
    pairwise_cons.2 ⟨hcross _ (lastFrom_mem base k1), hk2⟩
  have hle := le_lastFrom hfront
  rcases lt_trichotomy (lastFrom base k1) bp with hlt | heq | hgt
  · obtain ⟨l1, l2, rfl, hrun, h1, h2⟩ := place_forward hpath hclose hback (hle base mem_cons_self) hlt
      (fun hmem => hbp (mem_append_right k1 hmem)) (show k2.length < fuel by omega)
    refine ⟨k1 ++ l1, l2, (append_assoc ..).symm, by rw [hrun, lastFrom_append], fun x hx => ?_, h2⟩
    rcases mem_append.1 hx with hx | hx
    · exact (hle x (mem_cons_of_mem base hx)).trans_lt hlt
    · exact h1 x hx
  · -- `bp` is none of the nodes
    rcases mem_cons.1 (lastFrom_mem base k1) with hb | hmem
    · omega
    · exact absurd (mem_append_left k2 (heq ▸ hmem)) hbp
  · obtain ⟨fuel, rfl⟩ : ∃ k, fuel = k + (k2.length + 1) := ⟨fuel - (k2.length + 1), by omega⟩
    rw [place_backward hpath hclose hback hbase hgt]
    exact place_forward hc.path hc.close hsorted le_rfl hbase hbp (by rw [length_append]; omega)

end Place

/-! ## Blocks -/

/-- The bytes of a block, which is given by its header and its size in headers. -/
def ext (e : ℕ × ℕ) : ℕ × ℕ := (e.1, headerSize * e.2)

/-- The bytes of some blocks. -/
def area (l : List (ℕ × ℕ)) : Multiset ℕ := covered (l.map ext)

@[simp] theorem area_nil : area [] = 0 := rfl

@[simp] theorem area_cons (e : ℕ × ℕ) (l : List (ℕ × ℕ)) : area (e :: l) = cells (ext e) + area l :=
  covered_cons ..

@[simp] theorem area_append (l l' : List (ℕ × ℕ)) : area (l ++ l') = area l + area l' := by
  rw [area, map_append, covered_append]
  rfl

theorem cells_ext_zero (a : ℕ) : cells (ext (a, 0)) = 0 := rfl

/-- A block is cut in two. -/
theorem cells_ext_add (a n k : ℕ) :
    cells (ext (a, n + k)) = cells (ext (a, n)) + cells (ext (a + headerSize * n, k)) := by
  show cells (a, headerSize * (n + k)) = _
  rw [Nat.mul_add, cells_add]
  rfl

theorem mem_area {x : ℕ} {l : List (ℕ × ℕ)} :
    x ∈ area l ↔ ∃ e ∈ l, e.1 ≤ x ∧ x < e.1 + headerSize * e.2 := by
  rw [area, mem_covered]
  constructor
  · rintro ⟨e', he', hx⟩
    obtain ⟨e, he, rfl⟩ := mem_map.1 he'
    exact ⟨e, he, mem_cells.1 hx⟩
  · rintro ⟨e, he, hx⟩
    exact ⟨ext e, mem_map_of_mem he, mem_cells.2 hx⟩

theorem card_area (l : List (ℕ × ℕ)) : Multiset.card (area l) = headerSize * (l.map Prod.snd).sum := by
  rw [area, card_covered, map_map]
  induction l with
  | nil => rfl
  | cons e l ih =>
    rw [map_cons, sum_cons, ih, map_cons, sum_cons, Nat.mul_add]
    rfl

/-- **Blocks whose bytes are apart**, one behind the other. -/
theorem pairwise_area {l : List (ℕ × ℕ)} (h : (area l).Nodup) (hpos : ∀ e ∈ l, 0 < e.2) :
    l.Pairwise fun e e' => e.1 + headerSize * e.2 ≤ e'.1 ∨ e'.1 + headerSize * e'.2 ≤ e.1 := by
  induction l with
  | nil => exact .nil
  | cons e l ih =>
    rw [area_cons] at h
    refine pairwise_cons.2 ⟨fun e' he' => ?_, ih (Multiset.nodup_add.1 h).2.1 fun e he =>
      hpos e (mem_cons_of_mem _ he)⟩
    have hunit := hpos e mem_cons_self
    have hunit' := hpos e' (mem_cons_of_mem _ he')
    have hle : cells (ext e') ≤ area l := cells_le_covered (mem_map_of_mem he')
    exact apart h hle (Nat.mul_pos (by decide) hunit) (Nat.mul_pos (by decide) hunit')

/-- **The heap between two calls**: `fl` are the blocks on the free list, in order, and `lv` those
that the program holds. -/
structure HeapInv (c : Program) (s : Umalloc) (fl lv : List (ℕ × ℕ)) : Prop where
  freep : s.freep ∈ c.base :: fl.map Prod.fst
  cycle : Cycle (ptrOf s.mem) c.base (fl.map Prod.fst)
  zero : unitsOf s.mem c.base = 0
  units : ∀ e ∈ fl ++ lv, unitsOf s.mem e.1 = e.2 ∧ 0 < e.2
  sorted : fl.Pairwise fun e e' => e.1 + headerSize * e.2 < e'.1
  cover : area (fl ++ lv) = area s.obtained
  nodup : (area s.obtained).Nodup
  range : ∀ o ∈ s.obtained, c.brk ≤ o.1 ∧ o.1 + headerSize * o.2 ≤ s.top ∧
    o.1 + headerSize * o.2 < 2 ^ 64
  total : s.units ≤ c.quota
  low : c.brk ≤ s.top

namespace HeapInv

variable {c : Program} {s : Umalloc} {fl lv : List (ℕ × ℕ)} {e e' : ℕ × ℕ}

theorem bytes_mem (h : HeapInv c s fl lv) (he : e ∈ fl ++ lv) {x : ℕ} (hx : e.1 ≤ x)
    (hx' : x < e.1 + headerSize * e.2) : x ∈ area s.obtained := by
  rw [← h.cover]
  exact mem_area.2 ⟨e, he, hx, hx'⟩

theorem header_le (h : HeapInv c s fl lv) (he : e ∈ fl ++ lv) : headerSize ≤ headerSize * e.2 :=
  Nat.le_mul_of_pos_right _ (h.units e he).2

/-- A block ends in what was obtained. -/
theorem end_le (h : HeapInv c s fl lv) (he : e ∈ fl ++ lv) :
    ∃ o ∈ s.obtained, e.1 + headerSize * e.2 ≤ o.1 + headerSize * o.2 := by
  have hsize := h.header_le he
  have hhead : headerSize = 16 := rfl
  obtain ⟨o, ho, -, hlt⟩ := mem_area.1 (h.bytes_mem he (x := e.1 + headerSize * e.2 - 1) (by omega)
    (by omega))
  exact ⟨o, ho, by omega⟩

/-- A block lies in what was obtained. -/
theorem bounds (h : HeapInv c s fl lv) (he : e ∈ fl ++ lv) :
    c.base + headerSize ≤ e.1 ∧ e.1 + headerSize * e.2 < 2 ^ 64 := by
  have hsize := h.header_le he
  have hhead : headerSize = 16 := rfl
  obtain ⟨o, ho, hlow, -⟩ := mem_area.1 (h.bytes_mem he le_rfl (by omega))
  obtain ⟨o', ho', hhigh⟩ := h.end_le he
  obtain ⟨hbrk, -, -⟩ := h.range o ho
  obtain ⟨-, -, hend⟩ := h.range o' ho'
  have hbase := c.base_lt
  exact ⟨by omega, by omega⟩

/-- Two blocks are apart. -/
theorem blocks_apart (h : HeapInv c s fl lv) : (fl ++ lv).Pairwise fun e e' =>
    e.1 + headerSize * e.2 ≤ e'.1 ∨ e'.1 + headerSize * e'.2 ≤ e.1 :=
  pairwise_area (h.cover ▸ h.nodup) fun e he => (h.units e he).2

theorem apart_of_ne (h : HeapInv c s fl lv) (he : e ∈ fl ++ lv) (he' : e' ∈ fl ++ lv) (hne : e ≠ e') :
    e.1 + headerSize * e.2 ≤ e'.1 ∨ e'.1 + headerSize * e'.2 ≤ e.1 := by
  have : Std.Symm fun e e' : ℕ × ℕ => e.1 + headerSize * e.2 ≤ e'.1 ∨ e'.1 + headerSize * e'.2 ≤ e.1 :=
    ⟨fun _ _ => Or.symm⟩
  exact h.blocks_apart.forall he he' hne

theorem blocks_far (h : HeapInv c s fl lv) : (fl ++ lv).Pairwise fun e e' => Far e.1 e'.1 := by
  refine h.blocks_apart.imp_of_mem fun {e e'} he he' hap => ?_
  have hsize := h.header_le he
  have hsize' := h.header_le he'
  exact hap.imp (by omega) (by omega)

/-- All headers are apart, with that of `base`. -/
theorem far_base (h : HeapInv c s fl lv) (he : e ∈ fl ++ lv) : Far c.base e.1 := Or.inl (h.bounds he).1

/-- The sizes fit a `uint`. -/
theorem sum_le (h : HeapInv c s fl lv) :
    (fl.map Prod.snd).sum + (lv.map Prod.snd).sum = s.units := by
  have hcard := congrArg Multiset.card h.cover
  rw [area_append, Multiset.card_add, card_area, card_area, card_area, ← Nat.mul_add] at hcard
  exact Nat.eq_of_mul_eq_mul_left (by decide) hcard

theorem sorted_nodes (h : HeapInv c s fl lv) : (c.base :: fl.map Prod.fst).Pairwise (· < ·) := by
  refine pairwise_cons.2 ⟨fun x hx => ?_, pairwise_map.2 (h.sorted.imp fun {e e'} hlt => ?_)⟩
  · obtain ⟨e, he, rfl⟩ := mem_map.1 hx
    have := (h.bounds (mem_append_left lv he)).1
    have hhead : headerSize = 16 := rfl
    omega
  · omega

/-- A block that the program holds, and the nodes of the free list. -/
theorem far_node (h : HeapInv c s fl lv) (he : e ∈ lv) {x : ℕ} (hx : x ∈ c.base :: fl.map Prod.fst) :
    Far e.1 x := by
  rcases mem_cons.1 hx with rfl | hx
  · exact (h.far_base (mem_append_right fl he)).symm
  · obtain ⟨e', he', rfl⟩ := mem_map.1 hx
    exact ((pairwise_append.1 h.blocks_far).2.2 e' he' e he).symm

/-- Two nodes of the free list. -/
theorem nodes_far (h : HeapInv c s fl lv) : (c.base :: fl.map Prod.fst).Pairwise Far := by
  refine pairwise_cons.2 ⟨fun x hx => ?_, ?_⟩
  · obtain ⟨e, he, rfl⟩ := mem_map.1 hx
    exact h.far_base (mem_append_left lv he)
  · exact pairwise_map.2 (pairwise_append.1 h.blocks_far).1

theorem node_far (h : HeapInv c s fl lv) {x y : ℕ} (hx : x ∈ c.base :: fl.map Prod.fst)
    (hy : y ∈ c.base :: fl.map Prod.fst) (hne : x ≠ y) : Far x y := by
  have : Std.Symm Far := ⟨fun _ _ hxy => hxy.symm⟩
  exact h.nodes_far.forall hx hy hne

/-- The blocks that the program holds, in another order. -/
theorem perm (h : HeapInv c s fl lv) {l : List (ℕ × ℕ)} (hperm : lv.Perm l) : HeapInv c s fl l := by
  have hall : (fl ++ lv).Perm (fl ++ l) := hperm.append_left fl
  refine ⟨h.freep, h.cycle, h.zero, fun e he => h.units e (hall.mem_iff.2 he), h.sorted, ?_,
    h.nodup, h.range,
    h.total, h.low⟩
  rw [← h.cover, area, area, covered, covered]
  exact (((hall.symm.map ext).map cells).sum_eq)

/-- A byte outside of all headers. -/
theorem write (h : HeapInv c s fl lv) {a : ℕ} (b : UInt8)
    (hbase : c.base + headerSize ≤ a) (hnot : ∀ e ∈ fl ++ lv, a < e.1 ∨ e.1 + headerSize ≤ a) :
    HeapInv c { s with mem := update s.mem a b } fl lv := by
  have hhead : headerSize = 16 := rfl
  have hkeep : ∀ x, a < x ∨ x + headerSize ≤ a →
      ptrOf (update s.mem a b) x = ptrOf s.mem x ∧ unitsOf (update s.mem a b) x = unitsOf s.mem x := by
    intro x hx
    refine ⟨load_congr fun i h1 h2 => update_of_ne ?_ .., load_congr fun i h1 h2 => update_of_ne ?_ ..⟩
    · omega
    · omega
  have hzero := (hkeep c.base (Or.inr hbase))
  refine ⟨h.freep, h.cycle.congr fun x hx => ?_, hzero.2.trans h.zero, fun e he => ?_, h.sorted,
    h.cover, h.nodup,
    h.range, h.total, h.low⟩
  · rcases mem_cons.1 hx with rfl | hx
    · exact hzero.1
    · obtain ⟨e, he, rfl⟩ := mem_map.1 hx
      exact (hkeep e.1 (hnot e (mem_append_left _ he))).1
  · obtain ⟨hunits, hpos⟩ := h.units e he
    exact ⟨(hkeep e.1 (hnot e he)).2.trans hunits, hpos⟩

end HeapInv

/-! ## Giving a block back -/

section Free

variable {m : Mem} {bp p x : ℕ}

/-- What `free` does to the upper neighbour. -/
theorem joinUpper_spec {q : ℕ} (hq : ptrOf m p = q) (hp : Far bp p) (hfar : Far bp q) :
    (∀ x, Far bp x → ptrOf (joinUpper m bp p) x = ptrOf m x ∧
      unitsOf (joinUpper m bp p) x = unitsOf m x) ∧
    (headerAdd bp (unitsOf m bp) = q → ptrOf (joinUpper m bp p) bp = ptrOf m q ∧
      unitsOf (joinUpper m bp p) bp = (unitsOf m bp + unitsOf m q) % 2 ^ 32) ∧
    (headerAdd bp (unitsOf m bp) ≠ q → ptrOf (joinUpper m bp p) bp = q ∧
      unitsOf (joinUpper m bp p) bp = unitsOf m bp) := by
  unfold joinUpper
  rw [hq]
  have hlt : q < 2 ^ 64 := hq ▸ ptrOf_lt m p
  by_cases hjoin : headerAdd bp (unitsOf m bp) = q
  · rw [if_pos hjoin]
    have hq' : ptrOf (setUnits m bp (unitsOf m bp + unitsOf m q)) p = q := by
      rw [ptrOf_setUnits (Or.inr hp), hq]
    dsimp only
    rw [hq', ptrOf_setUnits (Or.inr hfar)]
    refine ⟨fun x hx => ⟨?_, ?_⟩, fun _ => ⟨ptrOf_setPtr (ptrOf_lt m q), ?_⟩, fun hno =>
      absurd hjoin hno⟩
    · rw [ptrOf_setPtr_of_far hx, ptrOf_setUnits (Or.inr hx)]
    · rw [unitsOf_setPtr (Or.inr hx), unitsOf_setUnits_of_far hx]
    · rw [unitsOf_setPtr (Or.inl rfl)]
      exact load_store 4 m (bp + 8) _
  · rw [if_neg hjoin]
    exact ⟨fun x hx => ⟨ptrOf_setPtr_of_far hx, unitsOf_setPtr (Or.inr hx)⟩,
      fun hyes => absurd hyes hjoin, fun _ => ⟨ptrOf_setPtr hlt, unitsOf_setPtr (Or.inl rfl)⟩⟩

/-- What `free` does to the lower neighbour. -/
theorem joinLower_spec (hp : Far p bp) (hbp : bp < 2 ^ 64) :
    (∀ x, Far p x → ptrOf (joinLower m bp p) x = ptrOf m x ∧
      unitsOf (joinLower m bp p) x = unitsOf m x) ∧
    (headerAdd p (unitsOf m p) = bp → ptrOf (joinLower m bp p) p = ptrOf m bp ∧
      unitsOf (joinLower m bp p) p = (unitsOf m p + unitsOf m bp) % 2 ^ 32) ∧
    (headerAdd p (unitsOf m p) ≠ bp → ptrOf (joinLower m bp p) p = bp ∧
      unitsOf (joinLower m bp p) p = unitsOf m p) := by
  unfold joinLower
  by_cases hjoin : headerAdd p (unitsOf m p) = bp
  · rw [if_pos hjoin]
    dsimp only
    rw [ptrOf_setUnits (Or.inr hp)]
    refine ⟨fun x hx => ⟨?_, ?_⟩, fun _ => ⟨ptrOf_setPtr (ptrOf_lt m bp), ?_⟩, fun hno =>
      absurd hjoin hno⟩
    · rw [ptrOf_setPtr_of_far hx, ptrOf_setUnits (Or.inr hx)]
    · rw [unitsOf_setPtr (Or.inr hx), unitsOf_setUnits_of_far hx]
    · rw [unitsOf_setPtr (Or.inl rfl)]
      exact load_store 4 m (p + 8) _
  · rw [if_neg hjoin]
    exact ⟨fun x hx => ⟨ptrOf_setPtr_of_far hx, unitsOf_setPtr (Or.inr hx)⟩,
      fun hyes => absurd hyes hjoin, fun _ => ⟨ptrOf_setPtr hbp, unitsOf_setPtr (Or.inl rfl)⟩⟩

variable {c : Program} {s : Umalloc} {f1 f2 lv : List (ℕ × ℕ)} {u : ℕ}

/-- The free list around a block: the nodes `f1` are below it and `f2` above. -/
structure Gap (c : Program) (s : Umalloc) (f1 f2 lv : List (ℕ × ℕ)) (bp u : ℕ) : Prop where
  inv : HeapInv c s (f1 ++ f2) ((bp, u) :: lv)
  less : ∀ e ∈ f1, e.1 < bp
  more : ∀ e ∈ f2, bp < e.1
  fits : ((f1 ++ f2).map Prod.snd).sum + u < 2 ^ 32

/-- What `free` leaves above a block of `u` headers: the block has `u1` headers, the nodes `mid` have
gone and `f3` is left. -/
structure Upper (m m' : Mem) (bp p u : ℕ) (f2 : List (ℕ × ℕ)) (u1 : ℕ) (mid : List ℕ)
    (f3 : List (ℕ × ℕ)) : Prop where
  nodes : f2.map Prod.fst = mid ++ f3.map Prod.fst
  sub : f3.Sublist f2
  keep : ∀ x, Far bp x → ptrOf m' x = ptrOf m x ∧ unitsOf m' x = unitsOf m x
  units : unitsOf m' bp = u1
  grow : u ≤ u1
  sum : u1 + (f3.map Prod.snd).sum = u + (f2.map Prod.snd).sum
  link : ptrOf m' bp = ptrOf m (lastFrom p mid)
  area : cells (ext (bp, u)) + area f2 = cells (ext (bp, u1)) + area f3
  more : ∀ e ∈ f3, bp + headerSize * u1 < e.1

/-- What `free` leaves below a block of `u1` headers: the block is `e1`, behind `f0`. It is a new
node, or the last one of `f1`. -/
structure Lower (c : Program) (m m' : Mem) (bp p u1 : ℕ) (f1 f0 : List (ℕ × ℕ)) (e1 : ℕ × ℕ)
    (mid : List ℕ) : Prop where
  nodes : f1.map Prod.fst ++ mid = f0.map Prod.fst ++ [e1.1]
  sub : f0.Sublist f1
  keep : ∀ x, Far p x → ptrOf m' x = ptrOf m x ∧ unitsOf m' x = unitsOf m x
  units : unitsOf m' e1.1 = e1.2
  old : ∀ e ∈ f0, unitsOf m' e.1 = e.2
  zero : unitsOf m' c.base = 0
  grow : u1 ≤ e1.2
  path : Path (ptrOf m') p mid
  link : ptrOf m' (lastFrom p mid) = ptrOf m bp
  area : area f1 + cells (ext (bp, u1)) = area f0 + cells (ext e1)
  stop : e1.1 + headerSize * e1.2 = bp + headerSize * u1
  less : ∀ e ∈ f0, e.1 + headerSize * e.2 < e1.1

namespace Gap

theorem mem (_ : Gap c s f1 f2 lv bp u) : (bp, u) ∈ (f1 ++ f2) ++ (bp, u) :: lv := by simp

theorem units_eq (g : Gap c s f1 f2 lv bp u) : unitsOf s.mem bp = u := (g.inv.units _ g.mem).1

theorem headerAdd_eq (g : Gap c s f1 f2 lv bp u) : headerAdd bp u = bp + headerSize * u :=
  AudioPlayer.headerAdd_eq (g.inv.bounds g.mem).2

theorem far_node (g : Gap c s f1 f2 lv bp u) {x : ℕ} (hx : x ∈ c.base :: (f1 ++ f2).map Prod.fst) :
    Far bp x :=
  g.inv.far_node mem_cons_self hx

/-- The lower neighbour. -/
theorem node_mem (_ : Gap c s f1 f2 lv bp u) :
    lastFrom c.base (f1.map Prod.fst) ∈ c.base :: (f1 ++ f2).map Prod.fst := by
  rw [map_append, ← cons_append]
  exact mem_append_left _ (lastFrom_mem ..)

/-- The block ends below its upper neighbours. -/
theorem end_le (g : Gap c s f1 f2 lv bp u) {e : ℕ × ℕ} (he : e ∈ f2) : bp + headerSize * u ≤ e.1 := by
  have hap := (pairwise_append.1 g.inv.blocks_apart).2.2 e (mem_append_right f1 he)
    (bp, u) mem_cons_self
  have hmore := g.more e he
  dsimp only at hap
  omega

/-- The lower ones end below the block. -/
theorem le_start (g : Gap c s f1 f2 lv bp u) {e : ℕ × ℕ} (he : e ∈ f1) :
    e.1 + headerSize * e.2 ≤ bp := by
  have hap := (pairwise_append.1 g.inv.blocks_apart).2.2 e (mem_append_left f2 he)
    (bp, u) mem_cons_self
  have hless := g.less e he
  dsimp only at hap
  omega

/-- **The upper neighbour is joined**, if it is adjacent. -/
theorem upper (g : Gap c s f1 f2 lv bp u) (hp : p = lastFrom c.base (f1.map Prod.fst)) :
    ∃ u1 mid f3, Upper s.mem (joinUpper s.mem bp p) bp p u f2 u1 mid f3 := by
  have hfarp : Far bp p := g.far_node (hp ▸ g.node_mem)
  have hbounds := g.inv.bounds g.mem
  have hclose := g.inv.cycle.close
  have hpath := g.inv.cycle.path
  rw [map_append, lastFrom_append, ← hp] at hclose
  rw [map_append, path_append, ← hp] at hpath
  cases f2 with
  | nil =>
    -- it is the last one
    have hq : ptrOf s.mem p = c.base := hclose
    obtain ⟨hsame, -, hno⟩ := joinUpper_spec hq hfarp (g.far_node mem_cons_self)
    obtain ⟨hptr, hunits⟩ := hno (by
      rw [g.units_eq, g.headerAdd_eq]
      have hhead : headerSize = 16 := rfl
      omega)
    exact ⟨u, [], [], rfl, List.Sublist.refl _, hsame, hunits.trans g.units_eq, le_rfl, rfl,
      hptr.trans hq.symm, rfl, fun e he => absurd he not_mem_nil⟩
  | cons e f2 =>
    have he : e ∈ f1 ++ e :: f2 := by simp
    have hq : ptrOf s.mem p = e.1 := hpath.2.1
    obtain ⟨heunits, -⟩ := g.inv.units e (mem_append_left _ he)
    obtain ⟨hsame, hyes, hno⟩ := joinUpper_spec hq hfarp
      (g.far_node (mem_cons_of_mem _ (mem_map_of_mem he)))
    have hrest : ∀ e' ∈ f2, e.1 + headerSize * e.2 < e'.1 :=
      (pairwise_cons.1 (pairwise_append.1 g.inv.sorted).2.1).1
    have hfits := g.fits
    rw [map_append, sum_append, map_cons, sum_cons] at hfits
    rw [g.units_eq, g.headerAdd_eq, heunits] at hyes
    rw [g.units_eq, g.headerAdd_eq] at hno
    by_cases hjoin : bp + headerSize * u = e.1
    · obtain ⟨hptr, hunits⟩ := hyes hjoin
      refine ⟨u + e.2, [e.1], f2, rfl, sublist_cons_self .., hsame, ?_, Nat.le_add_right .., ?_,
        hptr, ?_, fun e' he' => ?_⟩
      · rw [hunits, Nat.mod_eq_of_lt (by omega)]
      · rw [map_cons, sum_cons, add_assoc]
      · rw [area_cons, cells_ext_add, hjoin, add_assoc]
      · rw [Nat.mul_add, ← Nat.add_assoc, hjoin]
        exact hrest e' he'
    · obtain ⟨hptr, hunits⟩ := hno hjoin
      refine ⟨u, [], e :: f2, rfl, List.Sublist.refl _, hsame, hunits, le_rfl, rfl, hptr.trans hq.symm,
        rfl, fun e' he' => ?_⟩
      have hle := g.end_le he'
      rcases mem_cons.1 he' with rfl | hin
      · omega
      · have := hrest e' hin
        have := g.end_le (e := e) mem_cons_self
        omega

/-- **The lower neighbour is joined**, if it is adjacent. -/
theorem lower (g : Gap c s f1 f2 lv bp u) (hp : p = lastFrom c.base (f1.map Prod.fst)) {u1 : ℕ}
    (hsame : ∀ x, Far bp x → ptrOf m x = ptrOf s.mem x ∧ unitsOf m x = unitsOf s.mem x)
    (hu1 : unitsOf m bp = u1) (hfits : (f1.map Prod.snd).sum + u1 < 2 ^ 32) :
    ∃ f0 e1 mid, Lower c m (joinLower m bp p) bp p u1 f1 f0 e1 mid := by
  have hfarp : Far bp p := g.far_node (hp ▸ g.node_mem)
  have hbounds := g.inv.bounds g.mem
  have hhead : headerSize = 16 := rfl
  obtain ⟨hkeep, hyes, hno⟩ := joinLower_spec (m := m) hfarp.symm (by omega)
  have hbase : unitsOf m c.base = 0 := by
    rw [(hsame _ (g.far_node mem_cons_self)).2, g.inv.zero]
  have hunits : ∀ e ∈ f1, unitsOf m e.1 = e.2 := by
    intro e he
    have hmem : e ∈ f1 ++ f2 := mem_append_left f2 he
    rw [(hsame _ (g.far_node (mem_cons_of_mem _ (mem_map_of_mem hmem)))).2]
    exact (g.inv.units e (mem_append_left _ hmem)).1
  -- the block stays one of its own
  have halone (hne : headerAdd p (unitsOf m p) ≠ bp)
      (hlt : ∀ e ∈ f1, e.1 + headerSize * e.2 < bp)
      (hzero : unitsOf (joinLower m bp p) c.base = 0)
      (hold : ∀ e ∈ f1, unitsOf (joinLower m bp p) e.1 = e.2) :
      ∃ f0 e1 mid, Lower c m (joinLower m bp p) bp p u1 f1 f0 e1 mid := by
    obtain ⟨hptr, -⟩ := hno hne
    obtain ⟨hptr', hunits'⟩ := hkeep bp hfarp.symm
    exact ⟨f1, (bp, u1), [bp], rfl, List.Sublist.refl _, hkeep, hunits'.trans hu1, hold, hzero, le_rfl,
      ⟨hptr, trivial⟩, hptr', rfl, rfl, hlt⟩
  rcases eq_nil_or_concat' f1 with rfl | ⟨f0, e0, rfl⟩
  · -- it is the first one, behind `base`
    obtain rfl : p = c.base := hp
    have hne : headerAdd c.base (unitsOf m c.base) ≠ bp := by
      rw [hbase, AudioPlayer.headerAdd_eq (by omega)]
      omega
    exact halone hne (fun e he => absurd he not_mem_nil) ((hno hne).2.trans hbase)
      fun e he => absurd he not_mem_nil
  · have hp0 : p = e0.1 := by rw [hp, map_append, lastFrom_append]; rfl
    have hmem0 : e0 ∈ f0 ++ [e0] := mem_append_right f0 (mem_singleton_self e0)
    have hend := g.le_start hmem0
    have hadd : headerAdd p (unitsOf m p) = e0.1 + headerSize * e0.2 := by
      rw [hp0, hunits e0 hmem0, AudioPlayer.headerAdd_eq (by omega)]
    -- the other nodes are away from `p`
    have hfar : ∀ e ∈ f0, Far p e.1 := by
      intro e he
      have hf := g.inv.nodes_far
      rw [map_append, map_append, append_assoc] at hf
      have hcross := (pairwise_append.1 (pairwise_cons.1 hf).2).2.2 e.1 (mem_map_of_mem he)
        e0.1 (mem_append_left _ (mem_singleton_self _))
      rw [hp0]
      exact hcross.symm
    have hzero : unitsOf (joinLower m bp p) c.base = 0 := by
      have hf : Far c.base p := by
        rw [hp0]
        exact g.inv.far_base (mem_append_left _ (mem_append_left f2 hmem0))
      rw [(hkeep _ hf.symm).2, hbase]
    have hsorted : ∀ e ∈ f0, e.1 + headerSize * e.2 < e0.1 := by
      intro e he
      have hs := (pairwise_append.1 g.inv.sorted).1
      exact (pairwise_append.1 hs).2.2 e he e0 (mem_singleton_self e0)
    by_cases hjoin : e0.1 + headerSize * e0.2 = bp
    · obtain ⟨hptr, hunits'⟩ := hyes (hadd.trans hjoin)
      rw [map_append, sum_append] at hfits
      simp only [map_cons, map_nil, sum_cons, sum_nil, add_zero] at hfits
      refine ⟨f0, (e0.1, e0.2 + u1), [], ?_, sublist_append_left .., hkeep, ?_, fun e he => ?_, hzero,
        Nat.le_add_left .., trivial, hptr, ?_, ?_, hsorted⟩
      · rw [append_nil, map_append]
        rfl
      · show unitsOf (joinLower m bp p) e0.1 = e0.2 + u1
        rw [← hp0, hunits', hu1, hp0, hunits e0 hmem0, Nat.mod_eq_of_lt (by omega)]
      · rw [(hkeep _ (hfar e he)).2, hunits e (mem_append_left _ he)]
      · rw [area_append, area_cons, area_nil, add_zero, cells_ext_add, hjoin, add_assoc]
      · show e0.1 + headerSize * (e0.2 + u1) = _
        rw [Nat.mul_add, ← Nat.add_assoc, hjoin]
    · refine halone (fun heq => hjoin (hadd.symm.trans heq)) (fun e he => ?_) hzero fun e he => ?_
      · have hle := g.le_start he
        rcases mem_append.1 he with he | he
        · have := hsorted e he
          omega
        · obtain rfl := mem_singleton.1 he
          omega
      · rcases mem_append.1 he with hin | hin
        · rw [(hkeep _ (hfar e hin)).2, hunits e he]
        · obtain rfl := mem_singleton.1 hin
          have := (hno fun heq => hjoin (hadd.symm.trans heq)).2
          rw [hp0] at this ⊢
          rw [this, hunits e he]

end Gap

/-- **A block is put into the free list**, which is in order as before. -/
theorem Gap.relink (g : Gap c s f1 f2 lv bp u) (hp : p = lastFrom c.base (f1.map Prod.fst)) {m1 m2 : Mem}
    {u1 : ℕ} {mid mid' : List ℕ} {f0 f3 : List (ℕ × ℕ)} {e1 : ℕ × ℕ}
    (hup : Upper s.mem m1 bp p u f2 u1 mid f3) (hlo : Lower c m1 m2 bp p u1 f1 f0 e1 mid') :
    HeapInv c { s with mem := m2, freep := p } (f0 ++ e1 :: f3) lv := by
  have h := g.inv
  have hpnode : p ∈ c.base :: (f1 ++ f2).map Prod.fst := hp ▸ g.node_mem
  have hpfront : p ∈ c.base :: f1.map Prod.fst := hp ▸ lastFrom_mem ..
  -- headers other than the two are as they were
  have hkeep : ∀ x, Far bp x → Far p x → ptrOf m2 x = ptrOf s.mem x ∧
      unitsOf m2 x = unitsOf s.mem x := by
    intro x hx hx'
    obtain ⟨hptr, hunits⟩ := hlo.keep x hx'
    obtain ⟨hptr', hunits'⟩ := hup.keep x hx
    exact ⟨hptr.trans hptr', hunits.trans hunits'⟩
  have hkeepNode : ∀ x ∈ c.base :: (f1 ++ f2).map Prod.fst, x ≠ p →
      ptrOf m2 x = ptrOf s.mem x ∧ unitsOf m2 x = unitsOf s.mem x := fun x hx hne =>
    hkeep x (g.far_node hx) (h.node_far hpnode hx hne.symm)
  have hf3 : ∀ e ∈ f3, ptrOf m2 e.1 = ptrOf s.mem e.1 ∧ unitsOf m2 e.1 = unitsOf s.mem e.1 := by
    intro e he
    refine hkeepNode _ (mem_cons_of_mem _ (mem_map_of_mem
      (mem_append_right f1 (hup.sub.subset he)))) fun heq => ?_
    -- `p` is below the block
    have hmore := g.more e (hup.sub.subset he)
    rcases mem_cons.1 hpfront with hb | hin
    · have := (h.bounds g.mem).1
      dsimp only at this
      omega
    · obtain ⟨e', he', heq'⟩ := mem_map.1 hin
      have := g.less e' he'
      omega
  have hnodes : (f0 ++ e1 :: f3).map Prod.fst = f1.map Prod.fst ++ (mid' ++ f3.map Prod.fst) := by
    rw [← append_assoc, hlo.nodes, map_append, map_cons, append_assoc]
    rfl
  have hsorted : (f0 ++ e1 :: f3).Pairwise fun e e' => e.1 + headerSize * e.2 < e'.1 := by
    obtain ⟨hs1, hs2, -⟩ := pairwise_append.1 h.sorted
    have habove : ∀ e ∈ f3, e1.1 + headerSize * e1.2 < e.1 := fun e he => hlo.stop ▸ hup.more e he
    refine pairwise_append.2 ⟨hs1.sublist hlo.sub, pairwise_cons.2 ⟨habove, hs2.sublist hup.sub⟩,
      fun e he e' he' => ?_⟩
    have hless := hlo.less e he
    rcases mem_cons.1 he' with rfl | he'
    · exact hless
    · have := habove e' he'
      omega
  have hcover : area ((f0 ++ e1 :: f3) ++ lv) = area s.obtained := by
    rw [← h.cover]
    simp only [area_append, area_cons]
    rw [← add_assoc (area f0), ← hlo.area, add_assoc (area f1), ← hup.area]
    ac_rfl
  have hunits : ∀ e ∈ (f0 ++ e1 :: f3) ++ lv, unitsOf m2 e.1 = e.2 ∧ 0 < e.2 := by
    intro e he
    have hpos {e : ℕ × ℕ} (he : e ∈ (f1 ++ f2) ++ (bp, u) :: lv) := (h.units e he).2
    simp only [mem_append, mem_cons] at he
    rcases he with (he | rfl | he) | he
    · exact ⟨hlo.old e he, hpos (by simp [hlo.sub.subset he])⟩
    · have := hpos g.mem
      have hgrow := hup.grow.trans hlo.grow
      exact ⟨hlo.units, by dsimp only at this; omega⟩
    · have hmem : e ∈ (f1 ++ f2) ++ (bp, u) :: lv := by simp [hup.sub.subset he]
      exact ⟨(hf3 e he).2.trans (h.units e hmem).1, hpos hmem⟩
    · have hmem : e ∈ (f1 ++ f2) ++ (bp, u) :: lv := by simp [he]
      have hfar : Far bp e.1 := by
        have := (pairwise_append.1 h.blocks_far).2.1
        exact (pairwise_cons.1 this).1 e he
      refine ⟨?_, hpos hmem⟩
      rw [(hkeep _ hfar (h.far_node (mem_cons_of_mem _ he) hpnode).symm).2, (h.units e hmem).1]
  refine ⟨?_, ?_, hlo.zero, hunits, hsorted, hcover, h.nodup, h.range, h.total, h.low⟩
  · rw [hnodes, ← cons_append]
    exact mem_append_left _ hpfront
  · have hc := h.cycle
    rw [map_append, hup.nodes] at hc
    have hnodup : (c.base :: (f1.map Prod.fst ++ (mid' ++ f3.map Prod.fst))).Nodup := by
      rw [← hnodes]
      refine nodup_cons.2 ⟨fun hin => ?_, ?_⟩
      · -- all blocks are above `base`
        obtain ⟨e, he, heq⟩ := mem_map.1 hin
        have hcells : e.1 ∈ area s.obtained := by
          have hpos := (hunits e (mem_append_left lv he)).2
          have hhead : headerSize = 16 := rfl
          rw [← hcover]
          exact mem_area.2 ⟨e, mem_append_left lv he, le_rfl, by rw [hhead]; omega⟩
        obtain ⟨o, ho, hlow, -⟩ := mem_area.1 hcells
        have := (h.range o ho).1
        have := c.base_lt
        have hhead : headerSize = 16 := rfl
        omega
      · exact pairwise_map.2 (hsorted.imp fun {e e'} hlt => (by omega : e.1 ≠ e'.1))
    rw [hnodes]
    refine hc.splice hnodup (fun x hx hne => ?_) (fun x hx => ?_) (hp ▸ hlo.path) ?_
    · refine (hkeepNode x ?_ (hp ▸ hne)).1
      rw [map_append, ← cons_append]
      exact mem_append_left _ hx
    · obtain ⟨e, he, rfl⟩ := mem_map.1 hx
      exact (hf3 e he).1
    · rw [lastFrom_append, lastFrom_append, ← hp]
      exact hlo.link.trans hup.link

/-- **`free`** joins a block with its neighbours, or links it between them. -/
theorem free_spec {fl : List (ℕ × ℕ)} {fuel : ℕ} (h : HeapInv c s fl ((bp, u) :: lv))
    (hfits : (fl.map Prod.snd).sum + u < 2 ^ 32) (hfuel : 2 * fl.length + 2 ≤ fuel) :
    ∃ s' fl', s.free fuel (bp + headerSize) = some s' ∧ HeapInv c s' fl' lv ∧
      s'.obtained = s.obtained ∧ s'.top = s.top ∧ fl'.length ≤ fl.length + 1 ∧ ∃ e ∈ fl', u ≤ e.2 := by
  have hmem : (bp, u) ∈ fl ++ (bp, u) :: lv := by simp
  obtain ⟨hlow, hhigh⟩ := h.bounds hmem
  have hhead : headerSize = 16 := rfl
  dsimp only at hlow hhigh
  have hbp : bp ∉ fl.map Prod.fst := by
    intro hin
    have hfar := h.far_node mem_cons_self (mem_cons_of_mem _ hin)
    unfold Far at hfar
    dsimp only at hfar
    omega
  obtain ⟨l1, l2, hl, hplace, h1, h2⟩ := place_spec h.cycle h.sorted_nodes
    (show c.base < bp by omega) hbp h.freep
    (show 2 * (fl.map Prod.fst).length + 2 ≤ fuel by rwa [length_map])
  obtain ⟨f1, f2, rfl, rfl, rfl⟩ := map_eq_append_iff.1 hl
  have g : Gap c s f1 f2 lv bp u := ⟨h, fun e he => h1 _ (mem_map_of_mem he),
    fun e he => h2 _ (mem_map_of_mem he), hfits⟩
  generalize hp : lastFrom c.base (f1.map Prod.fst) = p at hplace
  obtain ⟨u1, mid, f3, hup⟩ := g.upper hp.symm
  rw [map_append, sum_append] at hfits
  have hsum := hup.sum
  obtain ⟨f0, e1, mid', hlo⟩ := g.lower hp.symm hup.keep hup.units (by omega)
  refine ⟨_, f0 ++ e1 :: f3, ?_, g.relink hp.symm hup hlo, rfl, rfl, ?_,
    e1, by simp, hup.grow.trans hlo.grow⟩
  · have hback : (bp + headerSize + 2 ^ 64 - headerSize) % 2 ^ 64 = bp := by omega
    unfold free
    dsimp only
    rw [hback, hplace]
    rfl
  · have := hlo.sub.length_le
    have := hup.sub.length_le
    simp only [length_append, length_cons]
    omega

end Free

end Umalloc

end AudioPlayer
