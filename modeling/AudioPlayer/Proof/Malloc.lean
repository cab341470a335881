import AudioPlayer.Proof.Umalloc
import Mathlib.Algebra.Order.BigOperators.Group.List
import Mathlib.Algebra.Order.Group.Nat

/-!
# `malloc` (`user/umalloc.c`)

`malloc` goes around the free list from the roving pointer. It takes the first block that is large
enough; when it is back at the roving pointer, the program asks for more memory, and the next round
finds a block.

* `take_spec`: a block is taken off the list, or its tail is;
* `search_spec`: the loop returns, with a block or with 0;
* `malloc_spec`: so does `malloc`, the first call included.
-/

namespace AudioPlayer

open List Option Bytes Circular Extents

namespace Umalloc

/-! ## Taking a block -/

section Take

variable {c : Program} {s : Umalloc} {f1 f2 lv : List (ℕ × ℕ)} {a t n prevp : ℕ}

/-- **A block is taken off the list**, which has its size. -/
theorem take_all (h : HeapInv c s (f1 ++ (a, t) :: f2) lv)
    (hprev : prevp = lastFrom c.base (f1.map Prod.fst)) :
    HeapInv c { s with mem := setPtr s.mem prevp (ptrOf s.mem a), freep := prevp } (f1 ++ f2)
      ((a, t) :: lv) := by
  have hnode : prevp ∈ c.base :: (f1 ++ (a, t) :: f2).map Prod.fst := by
    rw [hprev, map_append, ← cons_append]
    exact mem_append_left _ (lastFrom_mem ..)
  have hnodes : ∀ x ∈ c.base :: (f1 ++ (a, t) :: f2).map Prod.fst, prevp = x ∨ Far prevp x := fun x hx =>
    (eq_or_ne prevp x).imp_right (h.node_far hnode hx)
  have hmem : ∀ e, e ∈ (f1 ++ f2) ++ (a, t) :: lv → e ∈ (f1 ++ (a, t) :: f2) ++ lv := fun e he => by
    simp only [mem_append, mem_cons] at he ⊢
    tauto
  refine ⟨?_, ?_, ?_, fun e he => ⟨?_, (h.units e (hmem e he)).2⟩, ?_, ?_, h.nodup, h.range,
    h.total, h.low⟩
  · show prevp ∈ c.base :: (f1 ++ f2).map Prod.fst
    rw [hprev, map_append, ← cons_append]
    exact mem_append_left _ (lastFrom_mem ..)
  · have hc : Cycle (ptrOf s.mem) c.base (f1.map Prod.fst ++ ([a] ++ f2.map Prod.fst)) := by
      have := h.cycle
      rwa [map_append] at this
    have hnodup : (c.base :: (f1.map Prod.fst ++ ([] ++ f2.map Prod.fst))).Nodup := by
      refine hc.nodup.sublist (List.Sublist.cons_cons _ (List.Sublist.append_left ?_ _))
      exact sublist_append_right ..
    have hsame : ∀ x ∈ c.base :: (f1 ++ (a, t) :: f2).map Prod.fst, x ≠ prevp →
        ptrOf (setPtr s.mem prevp (ptrOf s.mem a)) x = ptrOf s.mem x := fun x hx hne =>
      ptrOf_setPtr_of_far (h.node_far hnode hx hne.symm)
    have hcycle := hc.splice hnodup (fun x hx hne => hsame x ?_ (hprev ▸ hne))
      (fun x hx => hsame x ?_ ?_)
      trivial ?_
    · rwa [nil_append, ← map_append] at hcycle
    · rw [map_append, ← cons_append]
      exact mem_append_left _ hx
    · rw [map_append, map_cons]
      simp [hx]
    · rintro rfl
      -- it is in front of the block
      have hd := hc.nodup
      rw [← cons_append] at hd
      refine (nodup_append.1 hd).2.2 _ (lastFrom_mem ..) _ (mem_append_right _ ?_) rfl
      rwa [hprev] at hx
    · rw [append_nil, ← hprev, ptrOf_setPtr (ptrOf_lt ..), lastFrom_append]
      rfl
  · show unitsOf (setPtr _ _ _) c.base = 0
    rw [unitsOf_setPtr (hnodes _ mem_cons_self), h.zero]
  · show unitsOf (setPtr _ _ _) e.1 = e.2
    rw [unitsOf_setPtr, (h.units e (hmem e he)).1]
    rcases mem_append.1 (hmem e he) with hin | hin
    · exact hnodes _ (mem_cons_of_mem _ (mem_map_of_mem hin))
    · exact Or.inr (h.far_node hin hnode).symm
  · exact h.sorted.sublist (List.Sublist.append_left (sublist_cons_self ..) _)
  · rw [show area s.obtained = _ from h.cover.symm]
    simp only [area_append, area_cons]
    ac_rfl

/-- **The tail of a block is taken**, and the rest of it stays on the list. -/
theorem take_tail (prevp : ℕ) (h : HeapInv c s (f1 ++ (a, t) :: f2) lv) (hn : 0 < n) (hlt : n < t)
    (ht : t < 2 ^ 32) (hprev : prevp ∈ c.base :: (f1 ++ (a, t) :: f2).map Prod.fst) :
    HeapInv c { s with
        mem := setUnits (setUnits s.mem a (t - n)) (a + headerSize * (t - n)) n, freep := prevp }
      (f1 ++ (a, t - n) :: f2) ((a + headerSize * (t - n), n) :: lv) := by
  have hblock : (a, t) ∈ (f1 ++ (a, t) :: f2) ++ lv := by simp
  have hhead : headerSize = 16 := rfl
  have hsplit : headerSize * t = headerSize * (t - n) + headerSize * n := by
    rw [← Nat.mul_add, Nat.sub_add_cancel hlt.le]
  have hheads : headerSize ≤ headerSize * (t - n) ∧ headerSize ≤ headerSize * n :=
    ⟨Nat.le_mul_of_pos_right _ (by omega), Nat.le_mul_of_pos_right _ hn⟩
  have hcover : cells (ext (a, t)) + area ((f1 ++ f2) ++ lv) = area s.obtained := by
    rw [← h.cover]
    simp only [area_append, area_cons]
    ac_rfl
  -- the other blocks
  have hothers : ∀ e ∈ (f1 ++ f2) ++ lv, Far a e.1 ∧ Far (a + headerSize * (t - n)) e.1 ∧
      unitsOf s.mem e.1 = e.2 ∧ 0 < e.2 := by
    intro e he
    have hmem : e ∈ (f1 ++ (a, t) :: f2) ++ lv := by
      simp only [mem_append, mem_cons] at he ⊢
      tauto
    have hpair := pairwise_area (l := (a, t) :: ((f1 ++ f2) ++ lv)) (by
      rw [area_cons, hcover]
      exact h.nodup) (by
        intro e' he'
        refine (h.units e' ?_).2
        simp only [mem_append, mem_cons] at he' ⊢
        tauto)
    have hap := (pairwise_cons.1 hpair).1 e he
    have hsize := h.header_le hmem
    obtain ⟨hu, hpos⟩ := h.units e hmem
    dsimp only at hap
    refine ⟨?_, ?_, hu, hpos⟩
    · unfold Far
      omega
    · unfold Far
      omega
  have hself : Far a (a + headerSize * (t - n)) := Or.inl (by omega)
  have hbase := (h.bounds hblock).1
  dsimp only at hbase
  have hfar' : Far (a + headerSize * (t - n)) c.base := Or.inr (by omega)
  have hfara : Far a c.base := Or.inr hbase
  set m' := setUnits (setUnits s.mem a (t - n)) (a + headerSize * (t - n)) n with hm'
  have hptr : ∀ x, a = x ∨ Far a x → Far (a + headerSize * (t - n)) x → ptrOf m' x = ptrOf s.mem x := by
    intro x hx hx'
    rw [hm', ptrOf_setUnits (Or.inr hx'), ptrOf_setUnits hx]
  have hunits : ∀ x, Far a x → Far (a + headerSize * (t - n)) x → unitsOf m' x = unitsOf s.mem x := by
    intro x hx hx'
    rw [hm', unitsOf_setUnits_of_far hx', unitsOf_setUnits_of_far hx]
  have hnodes : (f1 ++ (a, t - n) :: f2).map Prod.fst = (f1 ++ (a, t) :: f2).map Prod.fst := by
    rw [map_append, map_append]
    rfl
  refine ⟨?_, ?_, ?_, fun e he => ?_, ?_, ?_, h.nodup, h.range, h.total, h.low⟩
  · rw [hnodes]
    exact hprev
  · rw [hnodes]
    refine h.cycle.congr fun x hx => ?_
    rcases mem_cons.1 hx with rfl | hx
    · exact hptr _ (Or.inr hfara) hfar'
    · obtain ⟨e, he, rfl⟩ := mem_map.1 hx
      simp only [mem_append, mem_cons] at he
      rcases he with he | rfl | he
      · obtain ⟨h1, h2, -⟩ := hothers e (by simp [he])
        exact hptr _ (Or.inr h1) h2
      · exact hptr _ (Or.inl rfl) hself.symm
      · obtain ⟨h1, h2, -⟩ := hothers e (by simp [he])
        exact hptr _ (Or.inr h1) h2
  · exact (hunits _ hfara hfar').trans h.zero
  · show unitsOf m' e.1 = e.2 ∧ 0 < e.2
    have hold : e ∈ (f1 ++ f2) ++ lv → unitsOf m' e.1 = e.2 ∧ 0 < e.2 := fun hin => by
      obtain ⟨h1, h2, hu, hpos⟩ := hothers e hin
      exact ⟨(hunits _ h1 h2).trans hu, hpos⟩
    simp only [mem_append, mem_cons] at he
    rcases he with (he | rfl | he) | rfl | he
    · exact hold (by simp [he])
    · refine ⟨?_, by dsimp only; omega⟩
      rw [hm', unitsOf_setUnits_of_far hself.symm, unitsOf_setUnits (by omega)]
    · exact hold (by simp [he])
    · exact ⟨unitsOf_setUnits (by omega), hn⟩
    · exact hold (by simp [he])
  · have hs := h.sorted
    rw [pairwise_append, pairwise_cons] at hs ⊢
    obtain ⟨hs1, ⟨hafter, hs2⟩, hbefore⟩ := hs
    refine ⟨hs1, ⟨fun e he => ?_, hs2⟩, fun e he e' he' => ?_⟩
    · have := hafter e he
      dsimp only at this ⊢
      omega
    · rcases mem_cons.1 he' with rfl | he'
      · exact hbefore e he (a, t) mem_cons_self
      · exact hbefore e he e' (mem_cons_of_mem _ he')
  · rw [show area s.obtained = _ from hcover.symm]
    have hcells : cells (ext (a, t)) = cells (ext (a, t - n)) +
        cells (ext (a + headerSize * (t - n), n)) := by
      rw [← cells_ext_add, Nat.sub_add_cancel hlt.le]
    rw [hcells]
    simp only [area_append, area_cons]
    ac_rfl

/-- **`malloc` takes a block.** -/
theorem take_spec (h : HeapInv c s (f1 ++ (a, t) :: f2) lv) (hn : 0 < n) (hle : n ≤ t) (ht : t < 2 ^ 32)
    (hprev : prevp = lastFrom c.base (f1.map Prod.fst)) :
    ∃ s' fl' a', s.take n prevp a = (s', a' + headerSize) ∧ HeapInv c s' fl' ((a', n) :: lv) ∧
      s'.obtained = s.obtained ∧ s'.top = s.top := by
  have hblock : (a, t) ∈ (f1 ++ (a, t) :: f2) ++ lv := by simp
  have hunits : unitsOf s.mem a = t := (h.units _ hblock).1
  have hbounds := (h.bounds hblock).2
  have hhead : headerSize = 16 := rfl
  dsimp only at hbounds
  have hsplit : headerSize * t = headerSize * (t - n) + headerSize * n := by
    rw [← Nat.mul_add, Nat.sub_add_cancel hle]
  have hheader : headerSize ≤ headerSize * n := Nat.le_mul_of_pos_right _ hn
  unfold take
  rw [hunits]
  by_cases hall : t = n
  · subst hall
    refine ⟨_, _, a, ?_, take_all h hprev, rfl, rfl⟩
    rw [if_pos rfl, headerAdd_eq (by omega), mul_one]
  · refine ⟨_, _, a + headerSize * (t - n), ?_, take_tail prevp h hn (by omega) ht ?_, rfl, rfl⟩
    · rw [if_neg hall]
      dsimp only
      rw [unitsOf_setUnits (by omega), headerAdd_eq (by omega), headerAdd_eq (by omega), mul_one]
    · rw [hprev, map_append, ← cons_append]
      exact mem_append_left _ (lastFrom_mem ..)

end Take

/-! ## The search -/

section Search

variable {c : Program} {s : Umalloc} {fl lv : List (ℕ × ℕ)} {n : ℕ} {gaps : List (Option ℕ)}
  {fuel : ℕ}

/-- **All the nodes of the free list** from the roving pointer on, which comes last. -/
theorem circle (h : HeapInv c s fl lv) : ∃ k, Path (ptrOf s.mem) s.freep (k ++ [s.freep]) ∧ s.freep ∉ k ∧
    k.length = fl.length ∧ ∀ x, x ∈ k ++ [s.freep] ↔ x ∈ c.base :: fl.map Prod.fst := by
  obtain ⟨l1, l2, hl, hp⟩ := exists_split c.base h.freep
  have hc := h.cycle
  rw [hl] at hc
  have haround := hc.around
  rw [← hp] at haround
  have hperm : (l2 ++ c.base :: l1).Perm (c.base :: (l1 ++ l2)) := by
    rw [← cons_append]
    exact perm_append_comm
  have hnodup := hperm.nodup_iff.2 hc.nodup
  have hlen : fl.length = l1.length + l2.length := by
    rw [← length_map (f := Prod.fst), hl, length_append]
  rw [hl]
  rcases eq_nil_or_concat' l1 with rfl | ⟨l0, p, rfl⟩
  · -- it is `base`
    replace hp : s.freep = c.base := hp
    rw [hp] at haround ⊢
    exact ⟨l2, haround, fun hin => (nodup_append.1 hnodup).2.2 _ hin _ mem_cons_self rfl,
      by simpa using hlen.symm, fun x => hperm.mem_iff⟩
  · obtain rfl : s.freep = p := by rw [hp, lastFrom_append, lastFrom, lastFrom]
    have hassoc : l2 ++ c.base :: (l0 ++ [s.freep]) = (l2 ++ c.base :: l0) ++ [s.freep] := by simp
    rw [hassoc] at haround hnodup hperm
    refine ⟨_, haround, fun hin => ?_, ?_, fun x => hperm.mem_iff⟩
    · exact (nodup_append.1 hnodup).2.2 _ hin _ mem_cons_self rfl
    · simp only [length_append, length_cons, length_nil] at hlen ⊢
      omega

/-- The loop passes blocks that are too small. -/
theorem search_skip {p : ℕ} {l : List ℕ} (fuel : ℕ) (hpath : Path (ptrOf s.mem) p l)
    (hsmall : ∀ x ∈ l, unitsOf s.mem x < n ∧ x ≠ s.freep) :
    s.search c n (fuel + l.length) p (ptrOf s.mem p) gaps =
      s.search c n fuel (lastFrom p l) (ptrOf s.mem (lastFrom p l)) gaps := by
  induction l generalizing p with
  | nil => rfl
  | cons i l ih =>
    obtain ⟨hlt, hne⟩ := hsmall i mem_cons_self
    rw [length_cons, ← add_assoc, search, hpath.1, if_neg (Nat.not_le.2 hlt), if_neg hne]
    exact ih hpath.2 fun x hx => hsmall x (mem_cons_of_mem _ hx)

/-- The size of a node. -/
theorem unitsOf_node (h : HeapInv c s fl lv) (hn : 0 < n) (hsmall : ∀ e ∈ fl, e.2 < n) {x : ℕ}
    (hx : x ∈ c.base :: fl.map Prod.fst) : unitsOf s.mem x < n := by
  rcases mem_cons.1 hx with rfl | hx
  · rwa [h.zero]
  · obtain ⟨e, he, rfl⟩ := mem_map.1 hx
    rw [(h.units e (mem_append_left _ he)).1]
    exact hsmall e he

/-- **No block is large enough**: the loop asks for more memory. -/
theorem search_around (h : HeapInv c s fl lv) (hn : 0 < n) (hsmall : ∀ e ∈ fl, e.2 < n)
    {s' : Umalloc} {r : Option ℕ} (hmore : s.morecore c fuel n (gaps.headD none) = some (s', r)) :
    s.search c n (fuel + 1 + fl.length) s.freep (ptrOf s.mem s.freep) gaps =
      r.elim (some (s', 0)) fun p => s'.search c n fuel p (ptrOf s'.mem p) gaps.tail := by
  obtain ⟨k, hpath, hlast, hlen, hmem⟩ := circle h
  obtain ⟨hk, hend⟩ := path_append.1 hpath
  have hsizes : ∀ x ∈ k ++ [s.freep], unitsOf s.mem x < n := fun x hx =>
    unitsOf_node h hn hsmall ((hmem x).1 hx)
  rw [← hlen, search_skip _ hk fun x hx => ⟨hsizes x (mem_append_left _ hx), fun heq => hlast (heq ▸ hx)⟩]
  have hfreep := hsizes s.freep (mem_append_right _ mem_cons_self)
  rw [search, hend.1, if_neg (Nat.not_le.2 hfreep), if_pos rfl, hmore]
  cases r <;> rfl

/-- **Some block is large enough**: the loop takes the first one. -/
theorem search_found (gaps : List (Option ℕ)) (h : HeapInv c s fl lv) (hn : 0 < n)
    (hfits : ∀ e ∈ fl, e.2 < 2 ^ 32) (hbig : ∃ e ∈ fl, n ≤ e.2) (hfuel : fl.length < fuel) :
    ∃ s' fl' a', s.search c n fuel s.freep (ptrOf s.mem s.freep) gaps = some (s', a' + headerSize) ∧
      HeapInv c s' fl' ((a', n) :: lv) ∧ s'.obtained = s.obtained ∧ s'.top = s.top := by
  obtain ⟨k, hpath, hlast, hlen, hmem⟩ := circle h
  -- the first node that is large enough
  obtain ⟨x, hx⟩ : ∃ x, (k ++ [s.freep]).find? (fun x => n ≤ unitsOf s.mem x) = some x := by
    rw [← isSome_iff_exists, List.find?_isSome]
    obtain ⟨e, he, hle⟩ := hbig
    refine ⟨e.1, (hmem _).2 (mem_cons_of_mem _ (mem_map_of_mem he)), ?_⟩
    rw [(h.units e (mem_append_left _ he)).1]
    exact decide_eq_true hle
  obtain ⟨hlarge, k1, k2, hk, hfirst⟩ := List.find?_eq_some_iff_append.1 hx
  replace hlarge := of_decide_eq_true hlarge
  rw [hk] at hpath hmem
  obtain ⟨hpath1, hlink, -⟩ := path_append.1 hpath
  have hshort : k1.length ≤ fl.length := by
    have := congrArg List.length hk
    simp only [length_append, length_cons, length_nil] at this
    omega
  have hpass : ∀ y ∈ k1, unitsOf s.mem y < n ∧ y ≠ s.freep := by
    intro y hy
    refine ⟨by simpa using hfirst y hy, ?_⟩
    rintro rfl
    -- the roving pointer is the last node only
    have hdrop := congrArg List.dropLast hk
    rw [dropLast_concat, dropLast_append_of_ne_nil (cons_ne_nil _ _)] at hdrop
    exact hlast (hdrop ▸ mem_append_left _ hy)
  -- it is a block of the list, and the node in front of it is that of the list
  have hnode : x ∈ c.base :: fl.map Prod.fst := (hmem x).1 (by simp)
  obtain ⟨e, he, rfl⟩ : ∃ e ∈ fl, e.1 = x := by
    rcases mem_cons.1 hnode with rfl | hin
    · rw [h.zero] at hlarge
      omega
    · exact mem_map.1 hin
  have hunits := (h.units e (mem_append_left _ he)).1
  obtain ⟨f1, f2, rfl⟩ := append_of_mem he
  have hcycle := h.cycle
  have hprev : lastFrom s.freep k1 = lastFrom c.base (f1.map Prod.fst) := by
    refine hcycle.next_inj ?_ ?_ (hlink.trans ?_)
    · rcases mem_cons.1 (lastFrom_mem s.freep k1) with heq | hin
      · rw [heq]
        exact h.freep
      · exact (hmem _).1 (mem_append_left _ hin)
    · rw [map_append, ← cons_append]
      exact mem_append_left _ (lastFrom_mem ..)
    · have hlist := hcycle.path
      rw [map_append, path_append] at hlist
      exact hlist.2.1.symm
  obtain ⟨s', fl', a', htake, hinv⟩ := take_spec h hn (hunits ▸ hlarge)
    (hfits e he) hprev
  refine ⟨s', fl', a', ?_, hinv⟩
  have hsplit : fuel = fuel - k1.length - 1 + 1 + k1.length := by omega
  rw [hsplit, search_skip _ hpath1 hpass, search, hlink, if_pos hlarge, htake]

/-! ## More memory -/

/-- **`sbrk` hands out a block**, which nobody holds yet. -/
theorem grow (h : HeapInv c s fl lv) {gap : ℕ} (hn : 0 < n) (hlt : n < 2 ^ 32)
    (hend : s.top + gap + n * headerSize < 2 ^ 64) (htotal : s.units + n ≤ c.quota) :
    HeapInv c { s with
        mem := setUnits s.mem (s.top + gap) n, top := s.top + gap + n * headerSize,
        obtained := (s.top + gap, n) :: s.obtained } fl ((s.top + gap, n) :: lv) := by
  have hhead : headerSize = 16 := rfl
  have hbase := c.base_lt
  have hlow := h.low
  have hcomm : n * headerSize = headerSize * n := mul_comm ..
  -- all the others end below it
  have hbelow : ∀ e ∈ fl ++ lv, e.1 + headerSize ≤ s.top := by
    intro e he
    obtain ⟨o, ho, hle⟩ := h.end_le he
    have hsize := h.header_le he
    have := (h.range o ho).2.1
    omega
  have hfar : ∀ e ∈ fl ++ lv, Far (s.top + gap) e.1 := fun e he => Or.inr (by have := hbelow e he; omega)
  have hfarbase : Far (s.top + gap) c.base := Or.inr (by omega)
  refine ⟨h.freep, h.cycle.congr fun x hx => ?_, ?_, fun e he => ?_, h.sorted, ?_, ?_,
    fun o ho => ?_, ?_, ?_⟩
  · refine ptrOf_setUnits (Or.inr ?_)
    rcases mem_cons.1 hx with rfl | hx
    · exact hfarbase
    · obtain ⟨e, he, rfl⟩ := mem_map.1 hx
      exact hfar e (mem_append_left _ he)
  · exact (unitsOf_setUnits_of_far hfarbase).trans h.zero
  · have hold : e ∈ fl ++ lv → unitsOf (setUnits s.mem (s.top + gap) n) e.1 = e.2 ∧ 0 < e.2 :=
      fun hin => by
      rw [unitsOf_setUnits_of_far (hfar e hin)]
      exact h.units e hin
    simp only [mem_append, mem_cons] at he
    rcases he with he | rfl | he
    · exact hold (mem_append_left _ he)
    · exact ⟨unitsOf_setUnits hlt, hn⟩
    · exact hold (mem_append_right _ he)
  · have hcover := h.cover
    simp only [area_append, area_cons] at hcover ⊢
    rw [← hcover]
    ac_rfl
  · show (area ((s.top + gap, n) :: s.obtained)).Nodup
    rw [area_cons, Multiset.nodup_add]
    refine ⟨nodup_cells _, h.nodup, Multiset.disjoint_left.2 fun {x} hx hx' => ?_⟩
    obtain ⟨o, ho, -, hxo⟩ := mem_area.1 hx'
    have := (h.range o ho).2.1
    have := (mem_cells.1 hx).1
    dsimp only [ext] at this
    omega
  · dsimp only
    rcases mem_cons.1 ho with rfl | ho
    · exact ⟨by dsimp only; omega, by dsimp only; omega, by dsimp only; omega⟩
    · obtain ⟨h1, h2, h3⟩ := h.range o ho
      exact ⟨h1, by omega, h3⟩
  · show (((s.top + gap, n) :: s.obtained).map Prod.snd).sum ≤ c.quota
    rw [map_cons, sum_cons]
    have : s.units = (s.obtained.map Prod.snd).sum := rfl
    dsimp only
    omega
  · dsimp only
    omega

/-- What `sbrk` does. -/
theorem sbrk_cases (s : Umalloc) (hn : 0 < n) (hlt : n * headerSize < 2 ^ 31) (gap : Option ℕ) :
    s.sbrk c n gap = some (s, none) ∨
      ∃ d, s.top + d + n * headerSize < 2 ^ 64 ∧ s.units + n ≤ c.quota ∧
        s.sbrk c n gap = some ({ s with
          top := s.top + d + n * headerSize, obtained := (s.top + d, n) :: s.obtained },
            some (s.top + d)) := by
  unfold sbrk
  rw [if_neg (by omega)]
  rcases gap with _ | d
  · exact Or.inl rfl
  · dsimp only
    split_ifs with hfull
    · exact Or.inl rfl
    · rw [not_or, not_le, not_lt] at hfull
      exact Or.inr ⟨d, hfull.1, hfull.2, rfl⟩

/-- **`morecore`** gives what `sbrk` hands out to `free`. -/
theorem morecore_some (h : HeapInv c s fl lv) {nu d fuel : ℕ} {gap : Option ℕ}
    (hnu : nu = if n < 4096 then 4096 else n)
    (hend : s.top + d + nu * headerSize < 2 ^ 64) (htotal : s.units + nu ≤ c.quota)
    (hs : s.sbrk c nu gap = some ({ s with
      top := s.top + d + nu * headerSize, obtained := (s.top + d, nu) :: s.obtained }, some (s.top + d)))
    (hfits : (fl.map Prod.snd).sum + nu < 2 ^ 32) (hfuel : 2 * fl.length + 2 ≤ fuel) :
    ∃ s' fl', s.morecore c fuel n gap = some (s', some s'.freep) ∧ HeapInv c s' fl' lv ∧
      s'.obtained = (s.top + d, nu) :: s.obtained ∧ s'.top = s.top + d + nu * headerSize ∧
      fl'.length ≤ fl.length + 1 ∧ ∃ e ∈ fl', nu ≤ e.2 := by
  have hpos : 0 < nu := by
    rw [hnu]
    split_ifs <;> omega
  have hheader : headerSize ≤ nu * headerSize := Nat.le_mul_of_pos_left _ hpos
  obtain ⟨s', fl', hfree, hinv, hrest⟩ := free_spec (grow h hpos (by omega) hend htotal) hfits hfuel
  refine ⟨s', fl', ?_, hinv, hrest⟩
  simp only [morecore, ← hnu, hs]
  dsimp only [bind_some]
  have hhead : headerSize = 16 := rfl
  rw [headerAdd_eq (by omega), mul_one, hfree]
  rfl

/-- **`morecore`** fails and changes nothing, or a block of the free list is large enough then. -/
theorem morecore_spec (h : HeapInv c s fl lv) (hquota : c.quota < 2 ^ 32) (hn : n * headerSize < 2 ^ 31)
    (hfuel : 2 * fl.length + 2 ≤ fuel) (gap : Option ℕ) :
    s.morecore c fuel n gap = some (s, none) ∨
      ∃ s' fl', s.morecore c fuel n gap = some (s', some s'.freep) ∧ HeapInv c s' fl' lv ∧
        fl'.length ≤ fl.length + 1 ∧ ∃ e ∈ fl', n ≤ e.2 := by
  have hhead : headerSize = 16 := rfl
  set nu := if n < 4096 then 4096 else n with hnu
  have hsize : 0 < nu ∧ n ≤ nu ∧ nu * headerSize < 2 ^ 31 := by
    rw [hnu]
    split_ifs <;> omega
  rcases sbrk_cases (c := c) s hsize.1 hsize.2.2 gap with hs | ⟨d, hend, htotal, hs⟩
  · left
    simp only [morecore, ← hnu, hs]
    rfl
  · have hsum := h.sum_le
    obtain ⟨s', fl', hmore, hinv, -, -, hlen, e, he, hle⟩ :=
      morecore_some h hnu hend htotal hs (by omega) hfuel
    exact Or.inr ⟨s', fl', hmore, hinv, hlen, e, he, hsize.2.1.trans hle⟩

/-- What `malloc` leaves: a new block, or the heap as the program had it. -/
def Gives (c : Program) (lv : List (ℕ × ℕ)) (n : ℕ) (s : Umalloc) (p : ℕ) : Prop :=
  ∃ fl, p = 0 ∧ HeapInv c s fl lv ∨ ∃ a, p = a + headerSize ∧ HeapInv c s fl ((a, n) :: lv)

/-- **The loop of `malloc`.** -/
theorem search_spec (h : HeapInv c s fl lv) (hquota : c.quota < 2 ^ 32) (hn : 0 < n)
    (hlt : n * headerSize < 2 ^ 31) (hfuel : 3 * fl.length + 4 ≤ fuel) :
    ∃ s' p, s.search c n fuel s.freep (ptrOf s.mem s.freep) gaps = some (s', p) ∧ Gives c lv n s' p := by
  have hfits : ∀ {s : Umalloc} {fl : List (ℕ × ℕ)}, HeapInv c s fl lv → ∀ e ∈ fl, e.2 < 2 ^ 32 := by
    intro s fl h e he
    have hle := le_sum_of_mem (mem_map_of_mem (f := Prod.snd) he)
    have hsum := h.sum_le
    have htotal := h.total
    omega
  by_cases hbig : ∃ e ∈ fl, n ≤ e.2
  · obtain ⟨s', fl', a', hsearch, hinv, -⟩ := search_found gaps h hn (hfits h) hbig
      (show fl.length < fuel by omega)
    exact ⟨s', _, hsearch, fl', Or.inr ⟨a', rfl, hinv⟩⟩
  · obtain ⟨k, rfl⟩ : ∃ k, fuel = k + 1 + fl.length := ⟨fuel - 1 - fl.length, by omega⟩
    have hsmall : ∀ e ∈ fl, e.2 < n := fun e he => Nat.not_le.1 fun hle => hbig ⟨e, he, hle⟩
    rcases morecore_spec h hquota hlt (show 2 * fl.length + 2 ≤ k by omega) (gaps.headD none) with
      hmore | ⟨s', fl', hmore, hinv, hlen, hbig'⟩
    · rw [search_around h hn hsmall hmore]
      exact ⟨s, 0, rfl, fl, Or.inl ⟨rfl, h⟩⟩
    · obtain ⟨s2, fl2, a', hsearch, hinv2, -⟩ := search_found gaps.tail hinv hn (hfits hinv) hbig'
        (show fl'.length < k by omega)
      rw [search_around h hn hsmall hmore]
      exact ⟨s2, _, hsearch, fl2, Or.inr ⟨a', rfl, hinv2⟩⟩

end Search

/-! ## `malloc` -/

section Malloc

variable {c : Program} {s : Umalloc} {fl lv : List (ℕ × ℕ)} {gaps : List (Option ℕ)}

/-- The heap that `malloc` searches: the first call makes `base` the only node. -/
def opened (c : Program) (s : Umalloc) : Umalloc :=
  if s.freep = 0 then { s with mem := setUnits (setPtr s.mem c.base c.base) c.base 0, freep := c.base }
  else s

/-- How many headers `malloc` takes. -/
def mallocUnits (nbytes : ℕ) : ℕ := ((nbytes + headerSize - 1) / headerSize + 1) % 2 ^ 32

theorem malloc_eq (s : Umalloc) (fuel nbytes : ℕ) :
    s.malloc c fuel nbytes gaps =
      (opened c s).search c (mallocUnits nbytes) fuel (opened c s).freep
      (ptrOf (opened c s).mem (opened c s).freep)
        gaps := rfl

/-- **The block has room** for the bytes and the header, and its size is an `int`. -/
theorem mallocUnits_spec {nbytes : ℕ} (h : nbytes < 2 ^ 31 - 32) :
    0 < mallocUnits nbytes ∧ mallocUnits nbytes * headerSize < 2 ^ 31 ∧
      nbytes + headerSize ≤ headerSize * mallocUnits nbytes := by
  unfold mallocUnits headerSize
  omega

/-- **The first call** finds an empty list. -/
theorem opened_fresh (hfreep : s.freep = 0) (hobtained : s.obtained = []) (hlow : c.brk ≤ s.top) :
    HeapInv c (opened c s) [] [] := by
  have hbase := c.base_lt
  have hbrk := c.brk_lt
  rw [opened, if_pos hfreep]
  refine ⟨mem_singleton_self _, ⟨trivial, ?_, nodup_singleton _⟩, unitsOf_setUnits (by decide),
    fun e he => absurd he not_mem_nil, .nil, ?_, ?_, ?_, ?_, hlow⟩
  · show ptrOf (setUnits (setPtr s.mem c.base c.base) c.base 0) c.base = c.base
    rw [ptrOf_setUnits (Or.inl rfl), ptrOf_setPtr (by omega)]
  · rw [hobtained]
    rfl
  · rw [hobtained]
    exact Multiset.nodup_zero
  · rw [hobtained]
    exact fun o ho => absurd ho not_mem_nil
  · show (s.obtained.map Prod.snd).sum ≤ c.quota
    rw [hobtained]
    exact Nat.zero_le _

/-- `freep` is not a null pointer then. -/
theorem opened_eq (h : HeapInv c s fl lv) : opened c s = s := by
  refine if_neg fun hzero => ?_
  have hpos := c.base_pos
  rcases mem_cons.1 h.freep with hbase | hin
  · omega
  · obtain ⟨e, he, heq⟩ := mem_map.1 hin
    have := (h.bounds (mem_append_left _ he)).1
    omega

/-- **`malloc`** returns, with a new block or with 0. -/
theorem malloc_spec (gaps : List (Option ℕ)) (h : HeapInv c (opened c s) fl lv)
    (hquota : c.quota < 2 ^ 32) {nbytes : ℕ}
    (hn : nbytes < 2 ^ 31 - 32) {fuel : ℕ} (hfuel : 3 * fl.length + 4 ≤ fuel) :
    ∃ s' p, s.malloc c fuel nbytes gaps = some (s', p) ∧ Gives c lv (mallocUnits nbytes) s' p := by
  obtain ⟨hpos, hlt, -⟩ := mallocUnits_spec hn
  rw [malloc_eq]
  exact search_spec h hquota hpos hlt hfuel

end Malloc

/-! ## More rounds

A call that returns does so with more rounds, and in the same way. -/

section Rounds

variable {c : Program} {s : Umalloc} {fuel : ℕ} (k : ℕ)

theorem place_mono {m : Mem} {bp p r : ℕ} (h : place m bp fuel p = some r) :
    place m bp (fuel + k) p = some r := by
  induction fuel generalizing p with
  | zero => cases h
  | succ fuel ih =>
    rw [add_right_comm, place]
    rw [place] at h
    split_ifs at h ⊢
    · exact h
    · exact h
    · exact ih h

theorem free_mono {ap : ℕ} {s' : Umalloc} (h : s.free fuel ap = some s') :
    s.free (fuel + k) ap = some s' := by
  obtain ⟨p, hp, hs'⟩ := map_eq_some_iff.1 h
  exact map_eq_some_iff.2 ⟨p, place_mono k hp, hs'⟩

theorem morecore_mono {n : ℕ} {gap : Option ℕ} {r : Umalloc × Option ℕ}
    (h : s.morecore c fuel n gap = some r) :
    s.morecore c (fuel + k) n gap = some r := by
  obtain ⟨⟨s1, p⟩, hs, hr⟩ := bind_eq_some_iff.1 h
  refine bind_eq_some_iff.2 ⟨(s1, p), hs, ?_⟩
  cases p with
  | none => exact hr
  | some hp =>
    obtain ⟨s2, hfree, hs2⟩ := map_eq_some_iff.1 hr
    exact map_eq_some_iff.2 ⟨s2, free_mono k hfree, hs2⟩

theorem search_mono {n prevp p : ℕ} {gaps : List (Option ℕ)} {r : Umalloc × ℕ}
    (h : s.search c n fuel prevp p gaps = some r) : s.search c n (fuel + k) prevp p gaps = some r := by
  induction fuel generalizing s prevp p gaps with
  | zero => cases h
  | succ fuel ih =>
    rw [add_right_comm, search]
    rw [search] at h
    split_ifs at h ⊢
    · exact h
    · obtain ⟨⟨s1, q⟩, hmore, hr⟩ := bind_eq_some_iff.1 h
      refine bind_eq_some_iff.2 ⟨(s1, q), morecore_mono k hmore, ?_⟩
      cases q with
      | none => exact hr
      | some q => exact ih hr
    · exact ih h

theorem malloc_mono {nbytes : ℕ} {gaps : List (Option ℕ)} {r : Umalloc × ℕ}
    (h : s.malloc c fuel nbytes gaps = some r) : s.malloc c (fuel + k) nbytes gaps = some r := by
  rw [malloc_eq] at h ⊢
  exact search_mono k h

end Rounds

end Umalloc

end AudioPlayer
