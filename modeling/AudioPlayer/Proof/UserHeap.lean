import AudioPlayer.Proof.Malloc

/-!
# The heap of a program over whole runs (`user/umalloc.c`)

A program calls `malloc` and `free` and writes to the bytes it was given. After every run the free
list is a circle in the order of addresses, no two blocks overlap, and the blocks cover all that
`sbrk` handed out (`Integrity`). The size of a block is a `uint`, so this needs that `sbrk` hands out
fewer than 2^32 headers: with more of them, a block that `free` joins from others can be too large
for its own header.
-/

namespace AudioPlayer

open List Bytes Circular Extents Runs

/-- The block with the header `p`. -/
def blockAt (m : Mem) (p : ℕ) : ℕ × ℕ := (p, unitsOf m p)

namespace UserHeap

open Umalloc

/-- The blocks of the nodes `free` and of the pointers that the program holds. -/
def blocks (s : UserHeap) (free : List ℕ) : List (ℕ × ℕ) :=
  free.map (blockAt s.heap.mem) ++ s.live.map fun x => blockAt s.heap.mem (x.1 - headerSize)

/-- **The heap is intact**, with the free list `free`: it is a circle through `base`, in the order of
addresses, without blocks that overlap or are adjacent. All the blocks are apart, they cover what
`sbrk` handed out, and those that the program holds have room for what it asked. -/
structure Integrity (c : Program) (s : UserHeap) (free : List ℕ) : Prop where
  circle : Cycle (ptrOf s.heap.mem) c.base free
  roving : s.heap.freep ∈ c.base :: free
  zero : unitsOf s.heap.mem c.base = 0
  above : ∀ p ∈ free, c.base + headerSize ≤ p
  ordered : (free.map (blockAt s.heap.mem)).Pairwise fun e e' => e.1 + headerSize * e.2 < e'.1
  room : ∀ x ∈ s.live, headerSize ≤ x.1 ∧
    x.2 + headerSize ≤ headerSize * unitsOf s.heap.mem (x.1 - headerSize)
  apart : (s.blocks free).Pairwise fun e e' => e.1 + headerSize * e.2 ≤ e'.1 ∨
    e'.1 + headerSize * e'.2 ≤ e.1
  cover : ∀ a, (∃ e ∈ s.blocks free, e.1 ≤ a ∧ a < e.1 + headerSize * e.2) ↔
    ∃ o ∈ s.heap.obtained, o.1 ≤ a ∧ a < o.1 + headerSize * o.2
  account : ((s.blocks free).map Prod.snd).sum = s.heap.units

/-! ## The invariant of a run -/

/-- No call of `malloc` was made. -/
structure Fresh (c : Program) (s : UserHeap) : Prop where
  freep : s.heap.freep = 0
  obtained : s.heap.obtained = []
  low : c.brk ≤ s.heap.top
  live : s.live = []

/-- A pointer that the program holds, with its block. -/
def Held (q : (ℕ × ℕ) × (ℕ × ℕ)) : Prop := q.1.1 = q.2.1 + headerSize ∧
    q.1.2 + headerSize ≤ headerSize * q.2.2

/-- The heap with the free list `fl` and the pointers and blocks `z` that the program holds. -/
structure Holds (c : Program) (s : UserHeap) (fl : List (ℕ × ℕ)) (z : List ((ℕ × ℕ) × (ℕ × ℕ))) :
    Prop where
  inv : HeapInv c s.heap fl (z.map Prod.snd)
  live : s.live = z.map Prod.fst
  held : ∀ q ∈ z, Held q

variable {c : Program} {s s' : UserHeap} {fl : List (ℕ × ℕ)} {z : List ((ℕ × ℕ) × (ℕ × ℕ))}

theorem Holds.blocks_eq (h : Holds c s fl z) :
    s.blocks (fl.map Prod.fst) = fl ++ z.map Prod.snd := by
  unfold blocks
  rw [h.live, map_map, map_map]
  congr 1
  · refine (map_congr_left fun e he => ?_).trans (map_id _)
    exact Prod.ext rfl (h.inv.units e (mem_append_left _ he)).1
  · refine map_congr_left fun q hq => ?_
    have hptr : q.1.1 - headerSize = q.2.1 := by
      rw [(h.held q hq).1, Nat.add_sub_cancel]
    show blockAt s.heap.mem (q.1.1 - headerSize) = q.2
    rw [hptr]
    exact Prod.ext rfl (h.inv.units q.2 (mem_append_right _ (mem_map_of_mem hq))).1

theorem Holds.integrity (h : Holds c s fl z) : Integrity c s (fl.map Prod.fst) := by
  have hblocks := h.blocks_eq
  have hfree : (fl.map Prod.fst).map (blockAt s.heap.mem) = fl := by
    rw [map_map]
    refine (map_congr_left fun e he => ?_).trans (map_id _)
    exact Prod.ext rfl (h.inv.units e (mem_append_left _ he)).1
  refine ⟨h.inv.cycle, h.inv.freep, h.inv.zero, fun p hp => ?_, ?_, fun x hx => ?_, ?_,
    fun a => ?_, ?_⟩
  · obtain ⟨e, he, rfl⟩ := mem_map.1 hp
    exact (h.inv.bounds (mem_append_left _ he)).1
  · rw [hfree]
    exact h.inv.sorted
  · rw [h.live] at hx
    obtain ⟨q, hq, rfl⟩ := mem_map.1 hx
    obtain ⟨hptr, hroom⟩ := h.held q hq
    have hunits := (h.inv.units q.2 (mem_append_right _ (mem_map_of_mem hq))).1
    rw [hptr, Nat.add_sub_cancel, hunits]
    exact ⟨Nat.le_add_left .., hroom⟩
  · rw [hblocks]
    exact h.inv.blocks_apart
  · rw [hblocks, ← mem_area, ← mem_area, h.inv.cover]
  · rw [hblocks, map_append, sum_append]
    exact h.inv.sum_le

/-! ## The calls -/

/-- The heap before a call of `malloc`. -/
theorem exists_opened (h : Fresh c s ∨ ∃ fl z, Holds c s fl z) :
    ∃ (fl : List (ℕ × ℕ)) (z : List ((ℕ × ℕ) × (ℕ × ℕ))),
      HeapInv c (opened c s.heap) fl (z.map Prod.snd) ∧
      s.live = z.map Prod.fst ∧ ∀ q ∈ z, Held q := by
  rcases h with h | ⟨fl, z, h⟩
  · exact ⟨[], [], opened_fresh h.freep h.obtained h.low, h.live, fun q hq => absurd hq not_mem_nil⟩
  · refine ⟨fl, z, ?_, h.live, h.held⟩
    rw [opened_eq h.inv]
    exact h.inv

/-- **`malloc`** returns, and the heap is as it should be. -/
theorem step_malloc (hquota : c.quota < 2 ^ 32) (h : Fresh c s ∨ ∃ fl z, Holds c s fl z) {nbytes : ℕ}
    (hn : nbytes < 2 ^ 31 - 32) (gaps : List (Option ℕ)) :
    ∃ N, ∀ fuel, N ≤ fuel →
      ∃ s', step c s (fuel, .malloc nbytes hn gaps) = some s' ∧ ∃ fl z, Holds c s' fl z := by
  obtain ⟨fl, z, hinv, hlive, hheld⟩ := exists_opened h
  refine ⟨3 * fl.length + 4, fun fuel hfuel => ?_⟩
  obtain ⟨heap, p, hmalloc, fl', hgives⟩ := malloc_spec gaps hinv hquota hn hfuel
  have hstep : step c s (fuel, .malloc nbytes hn gaps) =
      some (if p = 0 then { s with heap := heap } else ⟨heap, (p, nbytes) :: s.live⟩) := by
    rw [step, hmalloc]
    rfl
  refine ⟨_, hstep, fl', ?_⟩
  rcases hgives with ⟨rfl, hinv'⟩ | ⟨a, rfl, hinv'⟩
  · rw [if_pos rfl]
    exact ⟨z, hinv', hlive, hheld⟩
  · rw [if_neg (show a + headerSize ≠ 0 from Nat.succ_ne_zero _)]
    refine ⟨((a + headerSize, nbytes), (a, mallocUnits nbytes)) :: z, hinv', ?_, fun q hq => ?_⟩
    · exact congrArg (List.cons _) hlive
    · rcases mem_cons.1 hq with rfl | hq
      · exact ⟨rfl, (mallocUnits_spec hn).2.2⟩
      · exact hheld q hq

/-- **`free`** of a pointer that the program holds. -/
theorem step_free (hquota : c.quota < 2 ^ 32) (h : Holds c s fl z) {ap : ℕ}
    (hap : ap ∈ s.live.map Prod.fst) :
    ∃ N, ∀ fuel, N ≤ fuel → ∃ s', step c s (fuel, .free ap) = some s' ∧ ∃ fl z, Holds c s' fl z := by
  have hin : ∃ q ∈ z, q.1.1 = ap := by
    rw [h.live, map_map] at hap
    exact mem_map.1 hap
  obtain ⟨q0, hq0, heq0⟩ := hin
  obtain ⟨q, z1, z2, -, heq, rfl, herase⟩ := exists_of_eraseP (p := fun q => decide (q.1.1 = ap)) hq0
    (decide_eq_true heq0)
  replace heq := of_decide_eq_true heq
  have hq : q ∈ z1 ++ q :: z2 := mem_append_right _ mem_cons_self
  have hptr : ap = q.2.1 + headerSize := heq.symm.trans (h.held q hq).1
  have hinv := h.inv.perm (l := q.2 :: (z1 ++ z2).map Prod.snd) (by
    rw [map_append, map_append]
    exact perm_middle)
  have hsum := hinv.sum_le
  have htotal := hinv.total
  rw [map_cons, sum_cons] at hsum
  refine ⟨2 * fl.length + 2, fun fuel hfuel => ?_⟩
  obtain ⟨heap, fl', hfree, hinv', -⟩ := free_spec hinv
    (show (fl.map Prod.snd).sum + q.2.2 < 2 ^ 32 by omega) hfuel
  refine ⟨⟨heap, s.live.eraseP fun x => x.1 = ap⟩, ?_, fl', z1 ++ z2, hinv', ?_, fun q' hq' => ?_⟩
  · rw [step, if_pos hap, hptr, hfree]
    rfl
  · show s.live.eraseP (fun x => decide (x.1 = ap)) = _
    rw [h.live, eraseP_map, ← herase]
    rfl
  · refine h.held q' ?_
    rw [mem_append] at hq' ⊢
    exact hq'.imp_right (mem_cons_of_mem _)

/-- **A write** of the program to what it holds. -/
theorem step_write (h : Holds c s fl z) {a : ℕ} {b : UInt8}
    (ha : ∃ x ∈ s.live, x.1 ≤ a ∧ a < x.1 + x.2) :
    Holds c { s with heap := { s.heap with mem := Function.update s.heap.mem a b } } fl z := by
  obtain ⟨x, hx, hlow, hhigh⟩ := ha
  rw [h.live] at hx
  obtain ⟨q, hq, rfl⟩ := mem_map.1 hx
  obtain ⟨hptr, hroom⟩ := h.held q hq
  have hmem : q.2 ∈ fl ++ z.map Prod.snd := mem_append_right _ (mem_map_of_mem hq)
  have hbase := (h.inv.bounds hmem).1
  refine ⟨h.inv.write b (by omega) fun e he => ?_, h.live, h.held⟩
  by_cases heq : e = q.2
  · rw [heq]
    exact Or.inr (by omega)
  · have hsize := h.inv.header_le he
    have hap := h.inv.apart_of_ne he hmem heq
    omega

/-- Every call keeps the invariant, however many rounds it may take. -/
theorem step_inv (hquota : c.quota < 2 ^ 32) {call : ℕ × HeapCall}
    (h : Fresh c s ∨ ∃ fl z, Holds c s fl z)
    (hstep : step c s call = some s') : Fresh c s' ∨ ∃ fl z, Holds c s' fl z := by
  obtain ⟨fuel, call⟩ := call
  cases call with
  | malloc nbytes hn gaps =>
    obtain ⟨N, hN⟩ := step_malloc hquota h hn gaps
    obtain ⟨s1, hs1, hholds⟩ := hN (fuel + N) (Nat.le_add_left ..)
    obtain ⟨r, hr, rfl⟩ := Option.map_eq_some_iff.1 hstep
    -- it returns in the same way with more rounds
    rw [step, malloc_mono N hr] at hs1
    cases hs1
    exact Or.inr hholds
  | free ap =>
    have hap : ap ∈ s.live.map Prod.fst := by
      by_contra hno
      rw [step, if_neg hno] at hstep
      cases hstep
    rcases h with hfresh | ⟨fl, z, hholds⟩
    · rw [hfresh.live] at hap
      cases hap
    · obtain ⟨N, hN⟩ := step_free hquota hholds hap
      obtain ⟨s1, hs1, hholds'⟩ := hN (fuel + N) (Nat.le_add_left ..)
      rw [step, if_pos hap] at hstep hs1
      obtain ⟨heap, hheap, rfl⟩ := Option.map_eq_some_iff.1 hstep
      rw [free_mono N hheap] at hs1
      cases hs1
      exact Or.inr hholds'
  | write a b =>
    rw [step] at hstep
    split_ifs at hstep with ha
    cases hstep
    rcases h with hfresh | ⟨fl, z, hholds⟩
    · obtain ⟨x, hx, -⟩ := ha
      rw [hfresh.live] at hx
      cases hx
    · exact Or.inr ⟨fl, z, step_write hholds ha⟩

theorem boot_fresh (c : Program) (mem : Mem) : Fresh c (boot c mem) := ⟨rfl, rfl, le_rfl, rfl⟩

/-- **The heap of a program is intact after every run**, when `sbrk` hands out fewer than 2^32
headers in total, and the next call of `malloc` or `free` returns. -/
theorem user_heap_integrity (c : Program) (hquota : c.quota < 2 ^ 32) (mem : Mem)
    (calls : List (ℕ × HeapCall))
    (s : UserHeap) (hrun : exec (step c) (boot c mem) calls = some s) :
    (Fresh c s ∨ ∃ free, Integrity c s free) ∧
      (∀ nbytes hn gaps, ∃ N, ∀ fuel, N ≤ fuel → (step c s (fuel, .malloc nbytes hn gaps)).isSome) ∧
      ∀ ap ∈ s.live.map Prod.fst, ∃ N, ∀ fuel, N ≤ fuel → (step c s (fuel, .free ap)).isSome := by
  have hinv : Fresh c s ∨ ∃ fl z, Holds c s fl z :=
    exec_inv (fun s call s' h hstep => step_inv hquota h hstep) (Or.inl (boot_fresh c mem)) hrun
  refine ⟨?_, fun nbytes hn gaps => ?_, fun ap hap => ?_⟩
  · rcases hinv with hfresh | ⟨fl, z, hholds⟩
    · exact Or.inl hfresh
    · exact Or.inr ⟨_, hholds.integrity⟩
  · obtain ⟨N, hN⟩ := step_malloc hquota hinv hn gaps
    refine ⟨N, fun fuel hfuel => ?_⟩
    obtain ⟨s', hs', -⟩ := hN fuel hfuel
    rw [hs']
    rfl
  · rcases hinv with hfresh | ⟨fl, z, hholds⟩
    · rw [hfresh.live] at hap
      cases hap
    · obtain ⟨N, hN⟩ := step_free hquota hholds hap
      refine ⟨N, fun fuel hfuel => ?_⟩
      obtain ⟨s', hs', -⟩ := hN fuel hfuel
      rw [hs']
      rfl

/-- A program with 2^20 headers. -/
def smallProgram : Program := ⟨16, 32, 2 ^ 20, by decide, by decide, by decide⟩

/-- Two blocks are taken from the same piece of memory, and the first one is given back. -/
theorem user_heap_integrity_two :
    let calls : List (ℕ × HeapCall) :=
      [(4, .malloc 10 (by decide) [some 8]), (4, .malloc 20 (by decide) []), (4, .write 65560 7),
        (4, .free 65560)]
    smallProgram.quota < 2 ^ 32 ∧
      ∃ s, exec (step smallProgram) (boot smallProgram fun _ => 0) calls = some s ∧
        s.live = [(65512, 20)] ∧ ∃ free, Integrity smallProgram s free := by
  intro calls
  have hrun : (exec (step smallProgram) (boot smallProgram fun _ => 0) calls).any
      (fun s => decide (s.live = [(65512, 20)])) = true := by
    decide +kernel
  obtain ⟨s, hs, hlive⟩ := (Option.any_eq_true _ _).1 hrun
  replace hlive := of_decide_eq_true hlive
  refine ⟨by decide, s, hs, hlive, ?_⟩
  rcases (user_heap_integrity smallProgram (by decide) _ calls s hs).1 with hfresh | hfree
  · rw [hfresh.live] at hlive
    cases hlive
  · exact hfree

/-! ## Too much memory -/

/-- Blocks that cover one piece of memory, none of them adjacent to another. -/
theorem eq_single {b t : ℕ} (hsorted : fl.Pairwise fun e e' => e.1 + headerSize * e.2 < e'.1)
    (hpos : ∀ e ∈ fl, 0 < e.2) (ht : 0 < t) (harea : area fl = cells (ext (b, t))) :
    fl = [(b, t)] := by
  have hbyte : 0 < headerSize := by decide
  have hmem : ∀ x, (∃ e ∈ fl, e.1 ≤ x ∧ x < e.1 + headerSize * e.2) ↔
      b ≤ x ∧ x < b + headerSize * t := by
    intro x
    rw [← mem_area, harea]
    exact mem_cells
  have hstart : b < b + headerSize * t := Nat.lt_add_of_pos_right (Nat.mul_pos hbyte ht)
  obtain ⟨e0, he0, hle0, hlt0⟩ := (hmem b).2 ⟨le_rfl, hstart⟩
  obtain ⟨e, rest, rfl⟩ := exists_cons_of_ne_nil (ne_nil_of_mem he0)
  obtain ⟨hafter, -⟩ := pairwise_cons.1 hsorted
  have hin : ∀ e' ∈ e :: rest, b ≤ e'.1 ∧ e'.1 < b + headerSize * t := fun e' he' =>
    (hmem e'.1).1 ⟨e', he', le_rfl, Nat.lt_add_of_pos_right (Nat.mul_pos hbyte (hpos e' he'))⟩
  have hfirst := hin e mem_cons_self
  obtain rfl : rest = [] := by
    rcases rest with _ | ⟨e', rest⟩
    · rfl
    · -- the byte behind the first block belongs to none
      have hlt := hafter e' mem_cons_self
      have hlast := hin e' (mem_cons_of_mem _ mem_cons_self)
      obtain ⟨e'', he'', hle, hgt⟩ := (hmem (e.1 + headerSize * e.2)).2 ⟨by omega, by omega⟩
      rcases mem_cons.1 he'' with rfl | hmore
      · omega
      · have := hafter e'' hmore
        omega
  obtain rfl := mem_singleton.1 he0
  have hcard := congrArg Multiset.card harea
  rw [card_area, card_cells] at hcard
  have hsize : e0.2 = t := by
    refine Nat.eq_of_mul_eq_mul_left hbyte ?_
    simpa [ext] using hcard
  rw [← hsize, ← le_antisymm hle0 hfirst.1]

/-- **All the free memory is used**: `malloc` returns what `sbrk` hands out. -/
theorem malloc_top {s : Umalloc} {lv : List (ℕ × ℕ)} (h : HeapInv c (opened c s) [] lv) {nbytes : ℕ}
    (hn : nbytes < 2 ^ 31 - 32) (hbig : 4096 ≤ mallocUnits nbytes)
    (hend : s.top + mallocUnits nbytes * headerSize < 2 ^ 64)
    (htotal : (opened c s).units + mallocUnits nbytes ≤ c.quota) (fuel : ℕ) :
    ∃ s', s.malloc c (fuel + 3) nbytes [some 0] = some (s', s.top + headerSize) ∧
      HeapInv c s' [] ((s.top, mallocUnits nbytes) :: lv) ∧
        s'.top = s.top + mallocUnits nbytes * headerSize := by
  obtain ⟨hpos, hlt, -⟩ := mallocUnits_spec hn
  rw [malloc_eq]
  generalize mallocUnits nbytes = n at hpos hlt hbig hend htotal ⊢
  have htop : (opened c s).top = s.top := by
    unfold opened
    split_ifs <;> rfl
  rw [← htop] at hend ⊢
  generalize opened c s = s0 at h hend htotal ⊢
  have hhead : headerSize = 16 := rfl
  have hfits : n < 2 ^ 32 := by
    have hle : n ≤ n * headerSize := Nat.le_mul_of_pos_right n (by decide)
    omega
  have hs : s0.sbrk c n (some 0) = some ({ s0 with
      top := s0.top + 0 + n * headerSize, obtained := (s0.top + 0, n) :: s0.obtained },
        some (s0.top + 0)) := by
    unfold sbrk
    rw [if_neg (by omega)]
    exact if_neg (by omega)
  obtain ⟨s1, fl1, hmore, hinv1, hobt1, htop1, hlen1, hbig1⟩ := morecore_some h
    (if_neg (Nat.not_lt.2 hbig)).symm hend htotal hs (by simpa using hfits)
    (show _ ≤ fuel + 2 by simp)
  have hempty := h.cover
  -- what was handed out is free
  have hcover1 := hinv1.cover
  rw [hobt1, area_append, area_cons, ← hempty, nil_append] at hcover1
  have hfree1 := eq_single hinv1.sorted (fun e he => (hinv1.units e (mem_append_left _ he)).2) hpos
    (Multiset.add_left_inj.1 hcover1)
  subst hfree1
  obtain ⟨s2, fl2, a, hsearch, hinv2, hobt2, htop2⟩ := search_found [] hinv1 hpos
    (by simpa using hfits) hbig1 (show _ < fuel + 2 by simp)
  -- and all of it is taken
  have hsum1 := hinv1.sum_le
  have hsum2 := hinv2.sum_le
  have hunits : s2.units = s1.units := by rw [Umalloc.units, hobt2, Umalloc.units]
  rw [hunits, ← hsum1] at hsum2
  obtain rfl : fl2 = [] := by
    rcases fl2 with _ | ⟨e, fl2⟩
    · rfl
    · have := (hinv2.units e (by simp)).2
      simp only [map_cons, sum_cons, map_nil, sum_nil] at hsum2
      omega
  have hcover2 := hinv2.cover
  rw [hobt2, ← hinv1.cover, nil_append, area_cons, area_append, Multiset.add_left_inj] at hcover2
  obtain ⟨rfl, -⟩ := Prod.mk.inj (singleton_inj.1 (eq_single (pairwise_singleton _ (s0.top + 0, n))
    (by simpa using hpos) hpos hcover2.symm))
  refine ⟨s2, ?_, hinv2, htop2.trans htop1⟩
  rw [show fuel + 3 = fuel + 2 + 1 + ([] : List (ℕ × ℕ)).length from rfl,
    search_around h hpos (by simp) hmore]
  exact hsearch

/-- A program with more memory than the size of a block can count. -/
def hugeProgram : Program := ⟨16, 32, 2 ^ 60, by decide, by decide, by decide⟩

/-- The largest block that a program asks for. -/
def hugeUnits : ℕ := 2 ^ 27 - 1

/-- Where the block `k` begins. -/
def hugeBlock (k : ℕ) : ℕ := 32 + headerSize * (k * hugeUnits)

def hugeBlocks : ℕ → List (ℕ × ℕ)
  | 0 => []
  | k + 1 => (hugeBlock k, hugeUnits) :: hugeBlocks k

def hugeLive : ℕ → List (ℕ × ℕ)
  | 0 => []
  | k + 1 => (hugeBlock k + headerSize, 2 ^ 31 - 33) :: hugeLive k

theorem hugeBlock_succ (k : ℕ) : hugeBlock (k + 1) = hugeBlock k + headerSize * hugeUnits := by
  unfold hugeBlock
  generalize hugeUnits = u
  rw [Nat.succ_mul k u, Nat.mul_add, Nat.add_assoc]

/-- One block more. -/
def hugeMalloc : ℕ × HeapCall := (100, .malloc (2 ^ 31 - 33) (by decide) [some 0])

theorem sum_hugeBlocks (k : ℕ) : ((hugeBlocks k).map Prod.snd).sum = k * hugeUnits := by
  induction k with
  | zero => exact (zero_mul _).symm
  | succ k ih => rw [hugeBlocks, map_cons, sum_cons, ih, Nat.succ_mul, add_comm]

/-- **Up to 33 blocks**, one behind the other. -/
theorem huge_mallocs (mem : Mem) {k : ℕ} (hk : k ≤ 33) :
    ∃ s, exec (step hugeProgram) (boot hugeProgram mem) (List.replicate k hugeMalloc) = some s ∧
      HeapInv hugeProgram (opened hugeProgram s.heap) [] (hugeBlocks k) ∧ s.live = hugeLive k ∧
      s.heap.top = hugeBlock k ∧ (0 < k → opened hugeProgram s.heap = s.heap) := by
  induction k with
  | zero => exact ⟨_, rfl, opened_fresh rfl rfl le_rfl, rfl, rfl, fun h => absurd h (lt_irrefl 0)⟩
  | succ k ih =>
    obtain ⟨s, hrun, hinv, hlive, htop, -⟩ := ih (by omega)
    have hcall : mallocUnits (2 ^ 31 - 33) = hugeUnits := by decide
    have hbytes : hugeUnits * headerSize = 2 ^ 31 - 16 := by decide
    have hunits : hugeUnits = 2 ^ 27 - 1 := rfl
    have hprod : k * hugeUnits ≤ 32 * hugeUnits := Nat.mul_le_mul_right _ (by omega)
    have hsum := hinv.sum_le
    rw [sum_hugeBlocks, map_nil, sum_nil, zero_add] at hsum
    have hquota : hugeProgram.quota = 2 ^ 60 := rfl
    have hstart : hugeBlock k = 32 + 16 * (k * hugeUnits) := rfl
    obtain ⟨heap, hmalloc, hinv', htop'⟩ := malloc_top hinv
      (show 2 ^ 31 - 33 < 2 ^ 31 - 32 by decide) (by decide)
      (by rw [hcall, htop]; omega) (by rw [hcall]; omega) 97
    rw [hcall, htop] at hinv' htop'
    refine ⟨⟨heap, hugeLive (k + 1)⟩, ?_, ?_, rfl, ?_, fun _ => opened_eq hinv'⟩
    · rw [replicate_succ']
      refine exec_snoc hrun ?_
      rw [hugeMalloc, step, hmalloc, htop, hlive]
      exact congrArg some (if_neg (show hugeBlock k + headerSize ≠ 0 from Nat.succ_ne_zero _))
    · rw [opened_eq hinv']
      exact hinv'
    · rw [htop', hugeBlock_succ, mul_comm]

/-- The block `k` is given back. -/
def hugeFree (k : ℕ) : ℕ × HeapCall := (100, .free (hugeBlock k + headerSize))

/-- All the blocks are asked for, and `i` of them are given back, the last one first. -/
def hugeCalls (i : ℕ) : List (ℕ × HeapCall) :=
  List.replicate 33 hugeMalloc ++ (List.range i).map fun j => hugeFree (32 - j)

theorem hugeCalls_succ {i k : ℕ} (hk : k + i = 32) :
    hugeCalls (i + 1) = hugeCalls i ++ [hugeFree k] := by
  obtain rfl : k = 32 - i := by omega
  rw [hugeCalls, range_succ, map_append, ← append_assoc]
  rfl

/-- The program gives back the last block that it holds. -/
theorem step_hugeFree {k : ℕ} {heap : Umalloc} (hlive : s.live = hugeLive (k + 1))
    (hfree : s.heap.free 100 (hugeBlock k + headerSize) = some heap) :
    step hugeProgram s (hugeFree k) = some ⟨heap, hugeLive k⟩ := by
  rw [hugeLive] at hlive
  rw [hugeFree, step, hlive, if_pos (by simp), hfree]
  simp

/-- **Up to 32 of them are given back**, and the free memory is one piece. -/
theorem huge_frees (mem : Mem) {i k : ℕ} (hk : k + i = 33) (hi : i ≤ 32) :
    ∃ s fl, exec (step hugeProgram) (boot hugeProgram mem) (hugeCalls i) = some s ∧
      HeapInv hugeProgram s.heap fl (hugeBlocks k) ∧ s.live = hugeLive k ∧
      area fl = cells (ext (hugeBlock k, i * hugeUnits)) ∧ fl.length ≤ i := by
  induction i generalizing k with
  | zero =>
    obtain ⟨s, hrun, hinv, hlive, -, hopened⟩ := huge_mallocs mem (show k ≤ 33 by omega)
    rw [hopened (by omega)] at hinv
    obtain rfl : k = 33 := hk
    refine ⟨s, [], ?_, hinv, hlive, ?_, le_rfl⟩
    · rw [hugeCalls, range_zero, map_nil, append_nil]
      exact hrun
    · rw [zero_mul, cells_ext_zero, area_nil]
  | succ i ih =>
    obtain ⟨s, fl, hrun, hinv, hlive, harea, hlen⟩ := ih (k := k + 1) (by omega) (by omega)
    have hunits : hugeUnits = 2 ^ 27 - 1 := rfl
    have hprod : i * hugeUnits ≤ 31 * hugeUnits := Nat.mul_le_mul_right _ (by omega)
    rw [hugeBlocks] at hinv
    have hcard := congrArg Multiset.card harea
    rw [card_area, card_cells] at hcard
    have hsize : (fl.map Prod.snd).sum = i * hugeUnits :=
      Nat.eq_of_mul_eq_mul_left (show 0 < headerSize by decide) hcard
    obtain ⟨heap, fl', hfree, hinv', hobt, -, hlen', -⟩ := free_spec hinv (by omega)
      (show _ ≤ 100 by omega)
    refine ⟨⟨heap, hugeLive k⟩, fl', ?_, hinv', rfl, ?_, by omega⟩
    · rw [hugeCalls_succ (k := k) (by omega)]
      exact exec_snoc hrun (step_hugeFree hlive hfree)
    · -- the block is in front of the piece
      have hcover := hinv'.cover.trans ((congrArg area hobt).trans hinv.cover.symm)
      rw [area_append, area_append, area_cons, ← add_assoc, Multiset.add_left_inj, harea,
        hugeBlock_succ] at hcover
      rw [hcover, Nat.succ_mul i hugeUnits, add_comm (i * hugeUnits), cells_ext_add]
      exact add_comm _ _

/-- `free` joins the only two blocks there are, and their sizes are added as a `uint`. -/
theorem free_last {s : Umalloc} {b u t fuel : ℕ} (h : HeapInv c s [(b + headerSize * u, t)] [(b, u)])
    (hfuel : 4 ≤ fuel) :
    ∃ s', s.free fuel (b + headerSize) = some s' ∧ s'.obtained = s.obtained ∧ s'.freep = c.base ∧
      ptrOf s'.mem c.base = b ∧ ptrOf s'.mem b = c.base ∧ unitsOf s'.mem b = (u + t) % 2 ^ 32 := by
  have hhead : headerSize = 16 := rfl
  obtain ⟨hlow, hhigh⟩ := h.bounds (e := (b, u)) (by simp)
  have hsize := h.header_le (e := (b, u)) (by simp)
  dsimp only at hlow hhigh hsize
  generalize hq : b + headerSize * u = q at h hhigh
  have hunits : unitsOf s.mem b = u := (h.units (b, u) (by simp)).1
  have hunitsq : unitsOf s.mem q = t := (h.units (q, t) (by simp)).1
  have hfirst : ptrOf s.mem c.base = q := h.cycle.path.1
  have hclose : ptrOf s.mem q = c.base := h.cycle.close
  -- the place of the block is behind `base`
  obtain ⟨l1, l2, hl, hplace, hless, -⟩ := place_spec h.cycle h.sorted_nodes
    (show c.base < b by omega)
    (by simp; omega) h.freep (show _ ≤ fuel by simpa using hfuel)
  obtain rfl : l1 = [] := by
    rcases l1 with _ | ⟨x, l1⟩
    · rfl
    · have hx : x = q := (List.cons.inj hl).1.symm
      have := hless x mem_cons_self
      omega
  obtain ⟨hkeep, hjoin, -⟩ := joinUpper_spec hfirst (show Far b c.base from Or.inr (by omega))
    (Or.inl (by omega))
  obtain ⟨hptr, hsum⟩ := hjoin (by rw [hunits, headerAdd_eq (by omega), hq])
  have hbase := (hkeep c.base (Or.inr (by omega))).2
  obtain ⟨hkeep', -, hlink⟩ := joinLower_spec (m := joinUpper s.mem b c.base)
    (show Far c.base b from Or.inl (by omega)) (by omega)
  obtain ⟨hptr', -⟩ := hlink (by
    rw [hbase, h.zero, headerAdd_eq (by omega)]
    omega)
  obtain ⟨hsame, hsame'⟩ := hkeep' b (Or.inl (by omega))
  have hback : (b + headerSize + 2 ^ 64 - headerSize) % 2 ^ 64 = b := by omega
  have hfree : s.free fuel (b + headerSize) =
      some { s with mem := joinLower (joinUpper s.mem b c.base) b c.base, freep := c.base } := by
    unfold free
    dsimp only
    rw [hback, hplace]
    rfl
  refine ⟨_, hfree, rfl, rfl, ?_, ?_, ?_⟩
  · dsimp only
    rw [hptr']
  · dsimp only
    rw [hsame, hptr, hclose]
  · dsimp only
    rw [hsame', hsum, hunits, hunitsq]

/-- A free list of one block, whose size is not that of the memory. -/
theorem not_integrity {b : ℕ} (hlive : s.live = []) (hfirst : ptrOf s.heap.mem c.base = b)
    (hnext : ptrOf s.heap.mem b = c.base) (hb : b ≠ c.base)
    (hsize : unitsOf s.heap.mem b ≠ s.heap.units) (free : List ℕ) : ¬ Integrity c s free := by
  intro h
  have hpath := h.circle.path
  have hnodup := h.circle.nodup
  rcases free with _ | ⟨x, _ | ⟨y, free⟩⟩
  · have hclose : ptrOf s.heap.mem c.base = c.base := h.circle.close
    exact hb (hfirst.symm.trans hclose)
  · obtain rfl : b = x := hfirst.symm.trans hpath.1
    have haccount := h.account
    rw [blocks, hlive] at haccount
    exact hsize (by simpa [blockAt] using haccount)
  · -- the circle has closed before it comes to `y`
    obtain rfl : b = x := hfirst.symm.trans hpath.1
    obtain rfl : c.base = y := hnext.symm.trans hpath.2.1
    simp at hnodup

/-- **The size of a block wraps**: the free list does not account for the memory any more. -/
theorem user_heap_wraps :
    ∃ calls s, exec (step hugeProgram) (boot hugeProgram fun _ => 0) calls = some s ∧
      ¬ (Fresh hugeProgram s ∨ ∃ free, Integrity hugeProgram s free) := by
  obtain ⟨s, fl, hrun, hinv, hlive, harea, -⟩ := huge_frees (fun _ => 0) (i := 32) (k := 1) rfl le_rfl
  have hpos : 0 < 32 * hugeUnits := by decide
  have hfl := eq_single hinv.sorted (fun e he => (hinv.units e (mem_append_left _ he)).2) hpos harea
  rw [hfl, hugeBlocks, hugeBlocks, hugeBlock_succ] at hinv
  have hunits := hinv.sum_le
  obtain ⟨heap, hfree, hobt, hfreep, hfirst, hnext, hsize⟩ := free_last hinv (show 4 ≤ 100 by decide)
  refine ⟨hugeCalls 32 ++ [hugeFree 0], ⟨heap, hugeLive 0⟩, exec_snoc hrun
    (step_hugeFree hlive hfree), ?_⟩
  rintro (hfresh | ⟨free, hfree⟩)
  · have hzero := hfresh.freep
    rw [hfreep] at hzero
    cases hzero
  · refine not_integrity (s := ⟨heap, hugeLive 0⟩) (b := hugeBlock 0) rfl hfirst hnext
      (by decide) ?_ free hfree
    dsimp only
    rw [hsize, Umalloc.units, hobt]
    simp only [map_cons, map_nil, sum_cons, sum_nil] at hunits
    rw [Umalloc.units] at hunits
    rw [← hunits]
    decide

end UserHeap

end AudioPlayer
