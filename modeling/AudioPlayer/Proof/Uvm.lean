import AudioPlayer.Proof.PageTable

/-!
# The memory of a process, and what its page table holds

`Image h pagetable np f R`: the page table maps the first `np` virtual pages, and the two pages at
the top, as `f` says, and holds the pages those `np` are mapped to. `uvmalloc`, `uvmdealloc` and
`uvmcopy` keep that with a new number of pages, and where `kalloc` returns 0 with the old one.
`procPagetable_spec` makes such a page table and `procFreepagetable_spec` gives all of it back.
-/

namespace AudioPlayer

open Function Radix Option

/-- The number of pages below `PGROUNDUP(sz)`. -/
abbrev npages (sz : ℕ) : ℕ := pgRoundUp sz / pgsize

theorem pgRoundUp_eq {sz : ℕ} (h : sz ≤ 2 ^ 63) : pgRoundUp sz = (sz + 4095) / 4096 * 4096 := by
  show (sz + 4095) % 2 ^ 64 / 4096 * 4096 = _
  rw [Nat.mod_eq_of_lt (by omega)]

theorem npages_eq {sz : ℕ} (h : sz ≤ 2 ^ 63) : npages sz = (sz + 4095) / 4096 := by
  show pgRoundUp sz / 4096 = _
  rw [pgRoundUp_eq h]
  omega

theorem pgRoundUp_npages {sz : ℕ} (h : sz ≤ 2 ^ 63) : pgRoundUp sz = npages sz * pgsize := by
  rw [npages_eq h, pgRoundUp_eq h]

theorem npages_page {k : ℕ} (hk : k ≤ 2 ^ 26) : npages (k * pgsize) = k := by
  rw [npages_eq (by show k * 4096 ≤ 2 ^ 63; omega)]
  show (k * 4096 + 4095) / 4096 = k
  omega

/-- The virtual pages of `TRAMPOLINE` and `TRAPFRAME`. -/
def isTop (k : ℕ) : Prop := k = 2 ^ 26 - 1 ∨ k = 2 ^ 26 - 2

/-- The mapping of a process with `np` pages. -/
structure UserMap (np : ℕ) (f : ℕ → Pte) : Prop where
  user : ∀ k < np, (f k).v = true ∧ (f k).r = true
  top : ∀ k, isTop k → (f k).v = true ∧ (f k).r = true
  rest : ∀ k < 2 ^ 27, np ≤ k → ¬ isTop k → f k = .zero

theorem isTop.ge {k : ℕ} (hk : isTop k) : 2 ^ 26 - 2 ≤ k := by
  rcases hk with rfl | rfl <;> omega

namespace Heap

variable {h h' : Heap} {pagetable np n k : ℕ} {f f' : ℕ → Pte} {R : Multiset ℕ} {sz : ℕ}

theorem pagesAt_add (f : ℕ → Pte) (k m n : ℕ) :
    pagesAt f k (m + n) = pagesAt f k m + pagesAt f (k + m) n := by
  unfold pagesAt
  rw [Multiset.coe_add, ← List.map_append, List.range'_append_1]

/-- A page table with the memory of a process. -/
structure Image (h : Heap) (pagetable np : ℕ) (f : ℕ → Pte) (R : Multiset ℕ) : Prop where
  tab : Tab h pagetable f (pagesAt f 0 np + R)
  map : UserMap np f

theorem image_zero (ht : Tab h pagetable f R) (hm : UserMap 0 f) : Image h pagetable 0 f R := by
  refine ⟨?_, hm⟩
  rwa [show pagesAt f 0 0 = 0 from rfl, zero_add]

/-- Memory has an end, and user memory stays far below the trapframe. -/
theorem Image.np_le (hi : Image h pagetable np f R) : np ≤ 2 ^ 15 := by
  have hcard := hi.tab.owns.card_le
  rw [Multiset.card_add, Multiset.card_add, card_pagesAt] at hcard
  omega

/-- The pages from `np` on are given back. -/
theorem Image.shrink (hi : Image h pagetable (np + n) f R) :
    ∃ h', h.uvmunmap pagetable (np * pgsize) n true = some h' ∧
      Image h' pagetable np (without f np n) R ∧ Kept pagetable (pagesAt f 0 np + R) h h' := by
  have hle := hi.np_le
  have ht := hi.tab
  have hold : pagesAt (without f np n) 0 np = pagesAt f 0 np :=
    pagesAt_congr fun j _ hj => by rw [without, if_neg (by omega)]
  rw [pagesAt_add, zero_add, add_comm (pagesAt f 0 np), add_assoc] at ht
  obtain ⟨h', hrun, ht', hkept⟩ := unmapLoop_spec true ht (by omega) fun j _ hj =>
    (hi.map.user j hj).imp_right onlyV_of_r
  rw [← hold] at ht'
  refine ⟨h', ?_, ⟨ht', fun k hk => ?_, fun k hk => ?_, fun k hk hnp hnt => ?_⟩, hkept⟩
  · rw [uvmunmap, if_neg (by rw [Nat.mul_mod_left]; decide)]
    exact hrun
  · rw [without, if_neg (by omega)]
    exact hi.map.user k (by omega)
  · have := hk.ge
    rw [without, if_neg (by omega)]
    exact hi.map.top k hk
  · unfold without
    split
    · rfl
    · exact hi.map.rest k hk (by omega) hnt

/-- The first `np` pages and the two pages at the top are mapped as before. -/
def SameMap (np : ℕ) (f f' : ℕ → Pte) : Prop := ∀ k, k < np ∨ isTop k → f' k = f k

theorem SameMap.refl (np : ℕ) (f : ℕ → Pte) : SameMap np f f := fun _ _ => rfl

theorem SameMap.user {np : ℕ} (h : SameMap np f f') : ∀ k < np, f' k = f k := fun k hk => h k (Or.inl hk)

theorem sameMap_without (hle : np + n ≤ 2 ^ 15) : SameMap np f (without f np n) := by
  rintro k (hk | hk)
  · exact if_neg (by omega)
  · have := hk.ge
    exact if_neg (by omega)

/-- **What `uvmdealloc` does.** -/
theorem uvmdealloc_spec (hi : Image h pagetable np f R) (hsz : sz ≤ 2 ^ 63)
    (hnp : np = npages sz) (newsz : ℕ) :
    ∃ h' f', h.uvmdealloc pagetable sz newsz = some (h', min newsz sz) ∧
      Image h' pagetable (npages (min newsz sz)) f' R ∧
      Kept pagetable (pagesAt f 0 (npages (min newsz sz)) + R) h h' ∧
      SameMap (npages (min newsz sz)) f f' := by
  subst hnp
  by_cases hge : newsz ≥ sz
  · rw [Nat.min_eq_right hge]
    refine ⟨h, f, ?_, hi, ⟨Agree.refl _ _, le_rfl⟩, SameMap.refl _ _⟩
    rw [uvmdealloc, if_pos hge]
  · rw [Nat.min_eq_left (by omega)]
    have hnewsz : newsz ≤ 2 ^ 63 := by omega
    have hnew := npages_eq hnewsz
    have hold := npages_eq hsz
    obtain ⟨n, hn⟩ : ∃ n, npages sz = npages newsz + n := ⟨npages sz - npages newsz, by omega⟩
    rw [hn] at hi
    have hle := hi.np_le
    obtain ⟨h', hrun, hi', hkept⟩ := hi.shrink
    unfold uvmdealloc
    rw [if_neg hge, pgRoundUp_npages hsz, pgRoundUp_npages hnewsz, hn]
    by_cases hlt : npages newsz * pgsize < (npages newsz + n) * pgsize
    · have hcount : ((npages newsz + n) * pgsize - npages newsz * pgsize) / pgsize = n := by
        show ((npages newsz + n) * 4096 - npages newsz * 4096) / 4096 = n
        omega
      refine ⟨h', _, ?_, hi', hkept, sameMap_without hle⟩
      rw [if_pos hlt]
      dsimp only
      rw [hcount, hrun]
      rfl
    · -- the last page is the same
      have hzero : n = 0 := by
        change ¬ npages newsz * 4096 < (npages newsz + n) * 4096 at hlt
        omega
      subst hzero
      exact ⟨h, f, if_neg hlt, hi, ⟨Agree.refl _ _, le_rfl⟩, SameMap.refl _ _⟩

/-- A page is taken for the next virtual page, and mapped there. -/
theorem Image.extend (hi : Image h pagetable np f R) {z : ℕ} {perm : Pte} (hr : perm.r = true)
    (ht : Tab h' pagetable (update f np { perm with page := z, v := true })
      ({z} + (pagesAt f 0 np + R))) :
    Image h' pagetable (np + 1) (update f np { perm with page := z, v := true }) R := by
  have hle := hi.np_le
  have hold : pagesAt (update f np { perm with page := z, v := true }) 0 np =
      pagesAt f 0 np := pagesAt_congr fun j _ hj => by rw [update_of_ne (by omega)]
  refine ⟨?_, fun k hk => ?_, fun k hk => ?_, fun k hk hnp hnt => ?_⟩
  · rw [pagesAt_add, hold, zero_add, pagesAt_succ, update_self, add_assoc,
      add_left_comm]
    simpa [pagesAt] using ht
  · by_cases heq : k = np
    · rw [heq, update_self]
      exact ⟨rfl, hr⟩
    · rw [update_of_ne heq]
      exact hi.map.user k (by omega)
  · have := hk.ge
    rw [update_of_ne (by omega)]
    exact hi.map.top k hk
  · rw [update_of_ne (by omega)]
    exact hi.map.rest k hk (by omega) hnt

/-- `uvmalloc` gives the `m` pages back that it has taken. -/
theorem undo_spec {m : ℕ} (hi : Image h pagetable (np + m) f R) :
    ∃ h' f', ((h.uvmdealloc pagetable ((np + m) * pgsize) (np * pgsize)).map fun (h, _) => (h, 0)) =
        some (h', 0) ∧ Kept pagetable (pagesAt f 0 np + R) h h' ∧ Image h' pagetable np f' R ∧
      SameMap np f f' := by
  have hle := hi.np_le
  have hsz : (np + m) * pgsize ≤ 2 ^ 63 := by
    show (np + m) * 4096 ≤ 2 ^ 63
    omega
  have hmin : min (np * pgsize) ((np + m) * pgsize) = np * pgsize :=
    Nat.min_eq_left (Nat.mul_le_mul_right _ (Nat.le_add_right _ _))
  obtain ⟨h', f', hrun, hi', hkept, hsame⟩ :=
    uvmdealloc_spec hi hsz (npages_page (by omega)).symm (np * pgsize)
  rw [hmin, npages_page (by omega)] at hi' hsame hkept
  exact ⟨h', f', by rw [hrun]; rfl, hkept, hi', hsame⟩

/-- All pages of a process below page `np` can be used by it. -/
def Accessible (np : ℕ) (f : ℕ → Pte) : Prop := ∀ k < np, (f k).u = true

/-- The virtual pages from `a` up to `b` can be used, and hold zeros. -/
def Fresh (h : Heap) (f : ℕ → Pte) (a b : ℕ) : Prop :=
  ∀ k, a ≤ k → k < b → (f k).u = true ∧ h.mem (f k).page = filled 0

theorem fresh_empty (h : Heap) (f : ℕ → Pte) (a : ℕ) : Fresh h f a a :=
  fun k hk hk' => absurd hk' (by omega)

theorem mem_pagesAt {j : ℕ} (hk : k ≤ j) (hj : j < k + n) : (f j).page ∈ pagesAt f k n :=
  List.mem_map.2 ⟨j, List.mem_range'_1.2 ⟨hk, hj⟩, rfl⟩

/-- A page of zeros is added. -/
theorem Fresh.extend {a m z : ℕ} (hf : Fresh h f a (a + m)) (hz : h'.mem z = filled 0)
    (ha : Agree h h' (pagesAt f 0 (a + m) + R)) :
    Fresh h' (update f (a + m) { Pte.user with page := z, v := true }) a (a + (m + 1)) := by
  intro k hk hk'
  by_cases heq : k = a + m
  · rw [heq, update_self]
    exact ⟨rfl, hz⟩
  · rw [update_of_ne heq, ha.left.mem _ (mem_pagesAt (Nat.zero_le k) (by omega))]
    exact hf k hk (by omega)

/-- The loop of `uvmalloc` behind `m` pages: it ends with all pages, or with none of them. -/
theorem allocLoop_spec {newsz m : ℕ} (hi : Image h pagetable (np + m) f R)
    (hf : Fresh h f np (np + m)) :
    ∃ h' r f', allocLoop pagetable (np * pgsize) newsz n h ((np + m) * pgsize) = some (h', r) ∧
      Kept pagetable (pagesAt f 0 np + R) h h' ∧ SameMap np f f' ∧
      ((r = newsz ∧ Image h' pagetable (np + m + n) f' R ∧ Fresh h' f' np (np + m + n)) ∨
        (r = 0 ∧ Image h' pagetable np f' R)) := by
  induction n generalizing h f m with
  | zero =>
    exact ⟨h, newsz, f, rfl, ⟨Agree.refl _ _, le_rfl⟩, SameMap.refl _ _, Or.inl ⟨rfl, hi, hf⟩⟩
  | succ n ih =>
    have hlow : pagesAt f 0 np + R ≤ pagesAt f 0 (np + m) + R := by
      rw [pagesAt_add, add_assoc, add_left_comm]
      exact Multiset.le_add_left _ _
    unfold allocLoop
    obtain ⟨h1, ⟨hk, ht1⟩ | ⟨z, hk, ht1⟩, hkept1⟩ := hi.tab.kalloc
    · obtain ⟨h', f', hrun, hkept', hi', hsame⟩ := undo_spec ⟨ht1, hi.map⟩
      rw [hk]
      exact ⟨h', 0, f', hrun, (hkept1.mono hlow).trans hkept', hsame, Or.inr ⟨rfl, hi'⟩⟩
    · obtain ⟨ht2, hkept2⟩ := ht1.setPage (filled 0)
      have hle := hi.np_le
      have hnew : (f (np + m)).v = false := by
        rw [hi.map.rest (np + m) (by omega) le_rfl fun ht => by have := ht.ge; omega]
      obtain ⟨h3, r, hmap, hkept3, hr⟩ := mappages_spec ht2 (by omega) hnew z .user
      have hkept := (hkept1.trans hkept2).trans hkept3.right
      rw [hk]
      dsimp only
      rw [hmap, bind_some]
      rcases hr with ⟨rfl, ht3⟩ | ⟨rfl, ht3⟩
      · have hzero : h3.mem z = filled 0 :=
          (hkept3.agree.left.mem z (Multiset.mem_singleton_self z)).trans (update_self ..)
        have hsame3 : SameMap np f
            (update f (np + m) { Pte.user with page := z, v := true }) := by
          rintro k (hk | hk)
          · exact update_of_ne (by omega) _ _
          · have := hk.ge
            exact update_of_ne (by omega) _ _
        obtain ⟨h', r, f', hrun, hkept', hsame, hend⟩ := ih (hi.extend rfl ht3)
          (hf.extend hzero hkept.agree)
        rw [pagesAt_congr fun j _ hj => by rw [hsame3.user j (by omega)]] at hkept'
        refine ⟨h', r, f', ?_, (hkept.mono hlow).trans hkept', fun k hk => ?_, ?_⟩
        · rw [← Nat.succ_mul]
          exact hrun
        · rw [hsame k hk, hsame3 k hk]
        · rwa [show np + m + (n + 1) = np + (m + 1) + n by omega]
      · -- there is no page for the page table: the page of the process is freed first
        obtain ⟨h4, hfree, ht4, hkept4, -⟩ := ht3.kfree
        obtain ⟨h', f', hrun, hkept', hi', hsame⟩ := undo_spec ⟨ht4, hi.map⟩
        refine ⟨h', 0, f', ?_, ((hkept.trans hkept4).mono hlow).trans hkept', hsame,
          Or.inr ⟨rfl, hi'⟩⟩
        dsimp only
        rw [if_pos (by decide), hfree]
        exact hrun

/-- **What `uvmalloc` does**: it reaches the new size, or returns 0 with the pages there were. -/
theorem uvmalloc_spec (newsz : ℕ) (hi : Image h pagetable np f R) (hsz : sz ≤ 2 ^ 63)
    (hnp : np = npages sz) :
    ∃ h' r f', h.uvmalloc pagetable sz newsz = some (h', r) ∧
      Kept pagetable (pagesAt f 0 np + R) h h' ∧
      Image h' pagetable (if r = 0 then np else npages r) f' R ∧ SameMap np f f' ∧
      Fresh h' f' np (if r = 0 then np else npages r) ∧
      (r = 0 ∨ r = max newsz sz) ∧ r ≤ 2 ^ 27 := by
  have hle := hi.np_le
  have hn := npages_eq hsz
  rw [← hnp] at hn
  unfold uvmalloc
  by_cases hlt : newsz < sz
  · rw [if_pos hlt]
    have hsz0 : sz ≠ 0 := by omega
    refine ⟨h, sz, f, rfl, ⟨Agree.refl _ _, le_rfl⟩, ?_, SameMap.refl _ _, ?_, ?_, ?_⟩
    · rw [if_neg hsz0, ← hnp]
      exact hi
    · rw [if_neg hsz0, ← hnp]
      exact fresh_empty _ _ _
    · omega
    · omega
  · rw [if_neg hlt, pgRoundUp_npages hsz, ← hnp]
    obtain ⟨h', r, f', hrun, hkept, hsame, hend⟩ :=
      allocLoop_spec (n := (newsz - np * pgsize + (pgsize - 1)) / pgsize) (m := 0) hi
        (fresh_empty _ _ _)
    refine ⟨h', r, f', hrun, hkept, ?_⟩
    rcases hend with ⟨rfl, hi', hf'⟩ | ⟨rfl, hi'⟩
    · -- the loop counts the pages from the old end to the new one
      have hcount : (r - np * pgsize + (pgsize - 1)) / pgsize = (r - np * 4096 + 4095) / 4096 := rfl
      rw [hcount, add_zero] at hi' hf'
      have hle' := hi'.np_le
      have hnp' : (if r = 0 then np else npages r) = np + (r - np * 4096 + 4095) / 4096 := by
        have hr := npages_eq (show r ≤ 2 ^ 63 by omega)
        split
        · omega
        · omega
      rw [hnp']
      exact ⟨hi', hsame, hf', by omega, by omega⟩
    · rw [if_pos rfl]
      exact ⟨hi', hsame, fresh_empty _ _ _, by omega, by omega⟩

/-- What was added to pages that can be used can be used. -/
theorem Fresh.accessible {m : ℕ} (hf : Fresh h f' np m) (hsame : SameMap np f f')
    (hu : Accessible np f) : Accessible m f' := by
  intro k hk
  by_cases hold : k < np
  · rw [hsame.user k hold]
    exact hu k hold
  · exact (hf k (by omega) hk).1

/-- What `growproc` leaves: a process of size `sz'`, with the pages it had in common with the old
one, and pages of zeros. -/
structure Resized (pagetable sz : ℕ) (f : ℕ → Pte) (R : Multiset ℕ) (h h' : Heap) (sz' : ℕ)
    (f' : ℕ → Pte) : Prop where
  image : Image h' pagetable (npages sz') f' R
  size : sz' ≤ 2 ^ 27
  kept : Kept pagetable (pagesAt f 0 (npages (min sz' sz)) + R) h h'
  same : SameMap (npages (min sz' sz)) f f'
  fresh : Fresh h' f' (npages sz) (npages sz')

theorem Resized.refl (hi : Image h pagetable (npages sz) f R) (hsz : sz ≤ 2 ^ 27) :
    Resized pagetable sz f R h h sz f :=
  ⟨hi, hsz, ⟨Agree.refl _ _, le_rfl⟩, SameMap.refl _ _, fresh_empty _ _ _⟩

/-- **What `growproc` does.** -/
theorem growproc_spec (hi : Image h pagetable (npages sz) f R) (hsz : sz ≤ 2 ^ 27) (n : ℤ) :
    ∃ h' sz' r f', h.growproc pagetable sz n = some (h', sz', r) ∧
      Resized pagetable sz f R h h' sz' f' ∧
      (r = -1 ∧ sz' = sz ∧ 0 < n ∨ r = 0 ∧ sz' =
        if n > 0 then max ((sz + n) % 2 ^ 32).toNat sz
        else if n < 0 then min ((sz + n) % 2 ^ 32).toNat sz else sz) := by
  have hmod : sz % 2 ^ 32 = sz := Nat.mod_eq_of_lt (by omega)
  have hsz63 : sz ≤ 2 ^ 63 := by omega
  unfold growproc
  rw [hmod]
  dsimp only
  by_cases hpos : n > 0
  · obtain ⟨h', r, f', hrun, hkept, hi', hsame, hfresh, hr, hr27⟩ := uvmalloc_spec
      ((sz + n) % 2 ^ 32).toNat hi hsz63 rfl
    rw [if_pos hpos, hrun, map_some, Nat.mod_eq_of_lt (show r < 2 ^ 32 by omega), if_pos hpos]
    dsimp only
    by_cases hzero : r = 0
    · rw [if_pos hzero] at hi' hfresh ⊢
      refine ⟨h', sz, -1, f', rfl, ⟨hi', hsz, ?_, ?_, hfresh⟩, Or.inl ⟨rfl, rfl, hpos⟩⟩
      · rwa [min_self]
      · rwa [min_self]
    · rw [if_neg hzero] at hi' hfresh ⊢
      have hmin : min r sz = sz := by omega
      refine ⟨h', r, 0, f', rfl, ⟨hi', hr27, ?_, ?_, hfresh⟩, Or.inr ⟨rfl, by omega⟩⟩
      · rwa [hmin]
      · rwa [hmin]
  · rw [if_neg hpos, if_neg hpos]
    by_cases hneg : n < 0
    · obtain ⟨h', f', hrun, hi', hkept, hsame⟩ := uvmdealloc_spec hi hsz63 rfl ((sz + n) % 2 ^ 32).toNat
      rw [if_pos hneg, hrun, map_some, if_pos hneg]
      set sz' := min ((sz + n) % 2 ^ 32).toNat sz
      have hle : sz' ≤ sz := min_le_right ..
      have hmin : min sz' sz = sz' := Nat.min_eq_left hle
      refine ⟨h', sz', 0, f', ?_, ⟨hi', by omega, ?_, ?_, ?_⟩, Or.inr ⟨rfl, rfl⟩⟩
      · dsimp only
        rw [Nat.mod_eq_of_lt (by omega)]
      · rwa [hmin]
      · rwa [hmin]
      · -- there are no more pages than before
        have hnp := npages_eq hsz63
        have hnp' := npages_eq (show sz' ≤ 2 ^ 63 by omega)
        exact fun k hk hk' => absurd hk' (by omega)
    · rw [if_neg hneg, if_neg hneg]
      exact ⟨h, sz, 0, f, rfl, Resized.refl hi hsz, Or.inr ⟨rfl, rfl⟩⟩

/-! ## Making and freeing page tables -/

/-- `uvmfree` behind the two pages at the top. -/
theorem uvmfree_spec (ht : Tab h pagetable f (pagesAt f 0 np + R)) (hnp : np = npages sz)
    (hsz : sz ≤ 2 ^ 63) (hle : np ≤ 2 ^ 26) (huser : ∀ k < np, (f k).v = true ∧ (f k).r = true)
    (hrest : ∀ k < 2 ^ 27, np ≤ k → f k = .zero) :
    ∃ h', h.uvmfree pagetable sz = some h' ∧ Owns h' R ∧ Agree h h' R := by
  have hn := npages_eq hsz
  rw [← hnp] at hn
  -- user memory
  obtain ⟨h1, hunmap, ht1, hkept⟩ : ∃ h1,
      (if sz > 0 then h.uvmunmap pagetable 0 (pgRoundUp sz / pgsize) true else some h) = some h1 ∧
      Tab h1 pagetable (without f 0 np) R ∧ Kept pagetable R h h1 := by
    by_cases hpos : sz > 0
    · obtain ⟨h1, hrun, ht1, hkept⟩ := unmapLoop_spec (k := 0) true ht (by omega)
        fun j _ hj => (huser j (by omega)).imp_right onlyV_of_r
      refine ⟨h1, ?_, ht1, hkept⟩
      rw [if_pos hpos, uvmunmap, if_neg (by decide), ← hrun, zero_mul, hnp]
    · have hzero : np = 0 := by omega
      subst hzero
      refine ⟨h, if_neg hpos, Tab.congr ?_ fun k _ => if_neg (by omega), Agree.refl _ _, le_rfl⟩
      simpa [pagesAt] using ht
  have hblank : ∀ a, (lookup sv39 h1.mem 2 pagetable a).v = false := by
    intro a
    obtain ⟨k, hk, ha⟩ := exists_page a
    have hleaf := ht1.maps k hk
    rw [leaf, lookup_congr_addr ha] at hleaf
    rw [hleaf, without]
    split
    · rfl
    · rw [hrest k hk (by omega)]
  obtain ⟨h', hfree, ho, ha⟩ := freewalk_spec ht1.sound hblank ht1.owns
  refine ⟨h', ?_, ho, hkept.agree.trans ha⟩
  rw [uvmfree, hunmap, bind_some]
  exact hfree

/-- One of the two pages at the top is unmapped. -/
theorem unmap_top (ht : Tab h pagetable f R) (hk : isTop k) (hv : (f k).v = true ∧ (f k).r = true) :
    ∃ h', h.uvmunmap pagetable (k * pgsize) 1 false = some h' ∧
      Tab h' pagetable (update f k .zero) R ∧ Kept pagetable R h h' := by
  have hle : k + 1 ≤ 2 ^ 26 := by rcases hk with rfl | rfl <;> omega
  obtain ⟨h', hrun, ht', hkept⟩ := unmapLoop_spec (k := k) (n := 1) false
    (show Tab h pagetable f (0 + R) by rwa [zero_add]) hle
    fun j hj hj' => (show j = k by omega) ▸ hv.imp_right onlyV_of_r
  refine ⟨h', ?_, ht'.congr fun j _ => ?_, hkept⟩
  · rw [uvmunmap, if_neg (by rw [Nat.mul_mod_left]; decide)]
    exact hrun
  · by_cases hj : j = k
    · rw [hj, update_self, without, if_pos (by omega)]
    · rw [update_of_ne hj, without, if_neg (by omega)]

/-- **What `proc_freepagetable` does** with the page table of a process. -/
theorem procFreepagetable_spec (hi : Image h pagetable np f R) (hsz : sz ≤ 2 ^ 63)
    (hnp : np = npages sz) :
    ∃ h', h.procFreepagetable pagetable sz = some h' ∧ Owns h' R ∧ Agree h h' R := by
  have hle := hi.np_le
  obtain ⟨h1, hrun1, ht1, hkept1⟩ := unmap_top hi.tab (Or.inl rfl) (hi.map.top _ (Or.inl rfl))
  obtain ⟨h2, hrun2, ht2, hkept2⟩ := unmap_top ht1 (Or.inr rfl) (by
    rw [update_of_ne (by decide)]
    exact hi.map.top _ (Or.inr rfl))
  set g := update (update f (2 ^ 26 - 1) Pte.zero) (2 ^ 26 - 2) Pte.zero with hg
  have hlow : ∀ k < np, g k = f k := fun k hk => by
    rw [hg, update_of_ne (by omega), update_of_ne (by omega)]
  have hpages : pagesAt g 0 np = pagesAt f 0 np :=
    pagesAt_congr fun j _ hj => by rw [hlow j (by omega)]
  rw [← hpages] at ht2
  obtain ⟨h', hrun3, ho, ha⟩ := uvmfree_spec ht2 hnp hsz (by omega)
    (fun k hk => by rw [hlow k hk]; exact hi.map.user k hk) fun k hk hge => by
      by_cases h1 : k = 2 ^ 26 - 2
      · rw [hg, h1, update_self]
      · by_cases h2 : k = 2 ^ 26 - 1
        · rw [hg, h2, update_of_ne (by decide), update_self]
        · rw [hg, update_of_ne h1, update_of_ne h2]
          exact hi.map.rest k hk hge fun ht => ht.elim h2 h1
  refine ⟨h', ?_, ho, (hkept1.agree.trans hkept2.agree).right.trans ha⟩
  rw [procFreepagetable, show trampolineVa = (2 ^ 26 - 1) * pgsize from rfl, hrun1, bind_some,
    show trapframeVa = (2 ^ 26 - 2) * pgsize from rfl, hrun2]
  exact hrun3

/-- A page table that maps nothing is freed. -/
theorem uvmfree_empty (ht : Tab h pagetable f R) (hf : ∀ k < 2 ^ 27, f k = .zero) :
    ∃ h', h.uvmfree pagetable 0 = some h' ∧ Owns h' R ∧ Agree h h' R := by
  have ht0 : Tab h pagetable f (pagesAt f 0 0 + R) := by
    rwa [show pagesAt f 0 0 = 0 from rfl, zero_add]
  exact uvmfree_spec ht0 rfl (by decide) (by decide) (fun k hk => absurd hk (Nat.not_lt_zero k))
    fun k hk _ => hf k hk

/-- **What `proc_pagetable` does**: a page table without user memory, or nothing. -/
theorem procPagetable_spec (trapframe : ℕ) (ho : Owns h R) :
    ∃ h' r, h.procPagetable trapframe = some (h', r) ∧ Agree h h' R ∧
      (r = none ∧ Owns h' R ∨ ∃ pagetable f, r = some pagetable ∧ Image h' pagetable 0 f R) := by
  unfold procPagetable uvmcreate
  obtain ⟨h1, ⟨hk, ho1⟩ | ⟨z, hk, ho1⟩, ha1⟩ := kalloc_spec ho
  · rw [hk]
    exact ⟨h1, none, rfl, ha1, Or.inl ⟨rfl, ho1⟩⟩
  · rw [hk]
    dsimp only
    have hz : z ∉ R := ho1.notMem (Multiset.mem_singleton_self z)
    -- a page of zeros is a page table that maps nothing
    have hblank : ∀ i, (h1.setPage z (filled 0)).mem z i = sv39.blank := by
      intro i
      exact (congrFun (update_self ..) i).trans filled_zero
    have ht1 : Tab (h1.setPage z (filled 0)) z (fun _ => .zero) R := by
      refine ⟨?_, sound_blank hblank, fun k _ => lookup_blank hblank⟩
      rw [nodes_blank hblank]
      exact ho1
    have ha2 := ha1.trans (agree_setPage (c := filled 0) hz)
    rw [show trampolineVa = (2 ^ 26 - 1) * pgsize from rfl,
      show trapframeVa = (2 ^ 26 - 2) * pgsize from rfl]
    obtain ⟨h3, r, hmap3, hkept3, ⟨rfl, ht3⟩ | ⟨rfl, ht3⟩⟩ := mappages_spec ht1
      (k := 2 ^ 26 - 1) (by decide) rfl (h1.setPage z (filled 0)).trampoline
      ⟨0, false, true, false, true, false, 0⟩
    · obtain ⟨h4, r, hmap4, hkept4, ⟨rfl, ht4⟩ | ⟨rfl, ht4⟩⟩ := mappages_spec ht3
        (k := 2 ^ 26 - 2) (by decide) (by rw [update_of_ne (by decide)]) trapframe
        ⟨0, false, true, true, false, false, 0⟩
      · simp only [hmap3, bind_some, hmap4]
        refine ⟨h4, some z, rfl, (ha2.trans hkept3.agree).trans hkept4.agree,
          Or.inr ⟨z, _, rfl, image_zero ht4 ⟨?_, ?_, ?_⟩⟩⟩
        · exact fun k hk => absurd hk (Nat.not_lt_zero k)
        · rintro k (rfl | rfl)
          · rw [update_of_ne (by decide), update_self]
            exact ⟨rfl, rfl⟩
          · rw [update_self]
            exact ⟨rfl, rfl⟩
        · intro k _ _ hnt
          rw [update_of_ne fun hk => hnt (Or.inr hk),
            update_of_ne fun hk => hnt (Or.inl hk)]
      · -- the trampoline is unmapped first
        obtain ⟨h5, hunmap, ht5, hkept5⟩ := unmap_top ht4 (Or.inl rfl)
          (by rw [update_self]; exact ⟨rfl, rfl⟩)
        obtain ⟨h', hfree, ho', ha'⟩ := uvmfree_empty ht5 fun k _ => by
          rw [update_idem]
          exact congrFun (update_eq_self _ _) k
        refine ⟨h', none, ?_, ?_, Or.inl ⟨rfl, ho'⟩⟩
        · simp only [hmap3, bind_some, hmap4]
          rw [if_neg (by decide), if_pos (by decide), hunmap, bind_some, hfree]
          rfl
        · exact ((ha2.trans hkept3.agree).trans hkept4.agree).trans (hkept5.agree.trans ha')
    · -- a page-table page for the trampoline is missing
      obtain ⟨h', hfree, ho', ha'⟩ := uvmfree_empty ht3 fun _ _ => rfl
      refine ⟨h', none, ?_, (ha2.trans hkept3.agree).trans ha', Or.inl ⟨rfl, ho'⟩⟩
      simp only [hmap3, bind_some]
      rw [if_pos (by decide), hfree]
      rfl

/-- **What `uvmclear` does** to a page of a process. -/
theorem uvmclear_spec (hi : Image h pagetable np f R) (hk : k < np) :
    ∃ h', h.uvmclear pagetable (k * pgsize) = some h' ∧
      Image h' pagetable np (update f k { f k with u := false }) R ∧
      Kept pagetable R h h' := by
  have hle := hi.np_le
  obtain ⟨page, i, hw, hmem⟩ := hi.tab.walk_of_valid (by omega) (hi.map.user k hk).1
  obtain ⟨ht', hkept, -⟩ := hi.tab.setPte (by omega) hw { f k with u := false }
  have hpages : pagesAt (update f k { f k with u := false }) 0 np = pagesAt f 0 np := by
    refine pagesAt_congr fun j _ _ => ?_
    by_cases hj : j = k
    · rw [hj, update_self]
    · rw [update_of_ne hj]
  rw [← hpages] at ht'
  refine ⟨_, ?_, ⟨ht', fun j hj => ?_, fun j hj => ?_, fun j hj hge hnt => ?_⟩, hkept.right⟩
  · rw [uvmclear, if_neg (page_lt_maxva (by omega)), hw]
    simp only [hmem]
  · by_cases hjk : j = k
    · rw [hjk, update_self]
      exact hi.map.user k hk
    · rw [update_of_ne hjk]
      exact hi.map.user j hj
  · have := hj.ge
    rw [update_of_ne (by omega)]
    exact hi.map.top j hj
  · rw [update_of_ne (by omega)]
    exact hi.map.rest j hj hge hnt

/-! ## `uvmcopy` -/

/-- The loop of `uvmcopy` behind `m` pages. The page table of the parent is among the pages of
others. -/
theorem copyLoop_spec {old m : ℕ} (hi : Image h pagetable m f R)
    (hold : nodes sv39 h.mem 2 old ≤ R)
    (hv : ∀ k < m + n, (leaf h.mem old k).v = true ∧ (leaf h.mem old k).r = true) :
    ∃ h' ok f', copyLoop old pagetable n h (m * pgsize) = some (h', ok) ∧ Agree h h' R ∧
      Image h' pagetable (if ok then m + n else 0) f' R := by
  -- where memory is missing, the pages so far are given back
  have hundo : ∀ {h1 : Heap} {m : ℕ} {f : ℕ → Pte}, Image h1 pagetable m f R →
      ∃ h' f', ((h1.uvmunmap pagetable 0 (m * pgsize / pgsize) true).map fun h => (h, false)) =
        some (h', false) ∧ Agree h1 h' R ∧ Image h' pagetable 0 f' R := by
    intro h1 m f hi1
    rw [← zero_add m] at hi1
    obtain ⟨h', hrun, hi', hkept⟩ := hi1.shrink
    rw [Nat.mul_div_cancel m (by decide)]
    exact ⟨h', _, by rw [← zero_mul pgsize, hrun]; rfl, hkept.agree.right, hi'⟩
  induction n generalizing h f m with
  | zero => exact ⟨h, true, f, rfl, Agree.refl _ _, hi⟩
  | succ n ih =>
    have hle := hi.np_le
    obtain ⟨hmv, hmr⟩ := hv m (by omega)
    obtain ⟨page, i, hw, hmem⟩ := walk_of_leaf hmv
    unfold copyLoop
    rw [if_neg (page_lt_maxva (by omega)), hw]
    simp only [hmem, hmv, Bool.not_true, Bool.false_eq_true, if_false]
    obtain ⟨h1, ⟨hk, ht1⟩ | ⟨z, hk, ht1⟩, hkept1⟩ := hi.tab.kalloc
    · rw [hk]
      obtain ⟨h', f', hrun, ha', hi'⟩ := hundo ⟨ht1, hi.map⟩
      exact ⟨h', false, f', hrun, hkept1.right.agree.trans ha', hi'⟩
    · obtain ⟨ht2, hkept2⟩ := ht1.setPage (h1.mem (leaf h.mem old m).page)
      have hnew : (f m).v = false := by
        rw [hi.map.rest m (by omega) le_rfl fun ht => by have := ht.ge; omega]
      obtain ⟨h3, r, hmap, hkept3, hr⟩ := mappages_spec ht2 (by omega) hnew z
        { leaf h.mem old m with page := 0, v := true }
      have hkept := (hkept1.trans hkept2).right.agree.trans hkept3.right.right.agree
      rw [hk]
      simp only [hmap, bind_some]
      rcases hr with ⟨rfl, ht3⟩ | ⟨rfl, ht3⟩
      · rw [if_neg (by decide), ← Nat.succ_mul]
        have hnodes : ∀ x ∈ nodes sv39 h.mem 2 old, h3.mem x = h.mem x :=
          fun x hx => hkept.mem x (Multiset.mem_of_le hold hx)
        obtain ⟨h', ok, f', hrun, ha', hi'⟩ := ih (m := m + 1) (hi.extend hmr ht3)
          (by rwa [nodes_congr hnodes]) fun k hk => by
            rw [leaf, lookup_congr hnodes]
            exact hv k (by omega)
        refine ⟨h', ok, f', hrun, hkept.trans ha', ?_⟩
        rwa [show m + (n + 1) = m + 1 + n by omega]
      · rw [if_pos (by decide)]
        obtain ⟨h4, hfree, ht4, hkept4, -⟩ := ht3.kfree
        obtain ⟨h', f', hrun, ha', hi'⟩ := hundo ⟨ht4, hi.map⟩
        rw [hfree, bind_some]
        exact ⟨h', false, f', hrun, (hkept.trans hkept4.right.agree).trans ha', hi'⟩

/-- **What `uvmcopy` does**: the child has as many pages as the parent, or none. -/
theorem uvmcopy_spec {old sz : ℕ} (hi : Image h pagetable 0 f R) (hold : nodes sv39 h.mem 2 old ≤ R)
    (hsz : sz ≤ 2 ^ 63)
    (hv : ∀ k < npages sz, (leaf h.mem old k).v = true ∧ (leaf h.mem old k).r = true) :
    ∃ h' ok f', h.uvmcopy old pagetable sz = some (h', ok) ∧ Agree h h' R ∧
      Image h' pagetable (if ok then npages sz else 0) f' R := by
  have hn := npages_eq hsz
  obtain ⟨h', ok, f', hrun, ha, hi'⟩ := copyLoop_spec (n := npages sz) hi hold fun k hk =>
    hv k (by omega)
  rw [zero_mul] at hrun
  rw [zero_add] at hi'
  refine ⟨h', ok, f', ?_, ha, hi'⟩
  rw [← hrun, hn]
  rfl

end Heap

end AudioPlayer
