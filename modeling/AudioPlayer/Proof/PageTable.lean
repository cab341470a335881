import AudioPlayer.Spec.Uvm

/-!
# Page tables and the pages they hold

`Owns h held` says that the pages of the allocator are on the free list or in `held`, each once.
So a page that somebody else holds is not in a page table, and a write to the one leaves the
other alone (`Agree`). `Tab h pagetable f R` is a page table that maps the virtual pages as `f`
says, next to the pages `R` of others:

* `walkAlloc_spec`: `walk` may add page-table pages, and changes no mapping;
* `mappages_spec`, `unmapLoop_spec`: the mapping changes at the pages that are named;
* `freewalk_spec`: a page table without mappings is given back, page by page.

None of them panics.
-/

namespace AudioPlayer

open Function Radix Option

namespace Heap

variable {h h' h1 h2 : Heap} {R R' held : Multiset ℕ} {x z : ℕ}

theorem pages_nodup (h : Heap) : h.pages.Nodup := List.nodup_range'

theorem mem_pages : x ∈ h.pages ↔ h.base ≤ x ∧ x < phystop := by
  rw [pages, Multiset.mem_coe, List.mem_range'_1]
  omega

theorem card_pages_le (h : Heap) : Multiset.card h.pages ≤ 2 ^ 15 := by
  have hbase : 0x80000 ≤ h.base := h.base_ge
  have hstop : phystop = 0x88000 := rfl
  rw [pages, Multiset.coe_card, List.length_range']
  omega

/-- The allocator's pages are on the free list or in `held`, each once. -/
def Owns (h : Heap) (held : Multiset ℕ) : Prop := (h.freelist : Multiset ℕ) + held = h.pages

theorem Owns.nodup (ho : Owns h held) : held.Nodup := by
  have hn := h.pages_nodup
  rw [← ho, Multiset.nodup_add] at hn
  exact hn.2.1

theorem Owns.mem_range (ho : Owns h held) (hx : x ∈ held) : h.base ≤ x ∧ x < phystop := by
  rw [← mem_pages, ← ho]
  exact Multiset.mem_add.2 (Or.inr hx)

theorem Owns.card_le (ho : Owns h held) : Multiset.card held ≤ 2 ^ 15 := by
  refine le_trans ?_ h.card_pages_le
  rw [← ho, Multiset.card_add]
  exact Nat.le_add_left _ _

theorem Owns.nodup_left (ho : Owns h (held + R)) : held.Nodup := (Multiset.nodup_add.1 ho.nodup).1

/-- The rest of what is held is not in a part of it. -/
theorem Owns.notMem (ho : Owns h (held + R)) (hx : x ∈ held) : x ∉ R :=
  Multiset.disjoint_left.1 (Multiset.nodup_add.1 ho.nodup).2.2 hx

/-- The pages `R` have the same contents. -/
structure Agree (h h' : Heap) (R : Multiset ℕ) : Prop where
  mem : ∀ x ∈ R, h'.mem x = h.mem x
  base : h'.base = h.base
  trampoline : h'.trampoline = h.trampoline

theorem Agree.refl (h : Heap) (R : Multiset ℕ) : Agree h h R := ⟨fun _ _ => rfl, rfl, rfl⟩

theorem Agree.trans (ha : Agree h h1 R) (hb : Agree h1 h2 R) : Agree h h2 R :=
  ⟨fun x hx => (hb.mem x hx).trans (ha.mem x hx), hb.base.trans ha.base,
    hb.trampoline.trans ha.trampoline⟩

theorem Agree.mono (ha : Agree h h' R) (hle : R' ≤ R) : Agree h h' R' :=
  ⟨fun x hx => ha.mem x (Multiset.mem_of_le hle hx), ha.base, ha.trampoline⟩

theorem Agree.left (ha : Agree h h' (R + R')) : Agree h h' R := ha.mono (Multiset.le_add_right _ _)

theorem Agree.right (ha : Agree h h' (R + R')) : Agree h h' R' := ha.mono (Multiset.le_add_left _ _)

theorem agree_setPage {c : Fin 512 → Pte} (hz : z ∉ R) : Agree h (h.setPage z c) R := by
  refine ⟨fun x hx => update_of_ne ?_ _ _, rfl, rfl⟩
  rintro rfl
  exact hz hx

/-- **What `kalloc` does.** It returns 0 and changes no page, or it takes one. -/
theorem kalloc_spec (ho : Owns h held) :
    ∃ h', (h.kalloc = (h', none) ∧ Owns h' held ∨
      ∃ z, h.kalloc = (h', some z) ∧ Owns h' ({z} + held)) ∧ Agree h h' held := by
  unfold kalloc
  split
  · exact ⟨_, Or.inl ⟨rfl, ho⟩, fun _ _ => rfl, rfl, rfl⟩
  · exact ⟨_, Or.inl ⟨rfl, ho⟩, fun _ _ => rfl, rfl, rfl⟩
  · rename_i r next hfree _
    have ho' : (next : Multiset ℕ) + ({r} + held) = h.pages := by
      rw [← ho, hfree, ← Multiset.cons_coe, ← Multiset.singleton_add, add_assoc]
      exact add_left_comm (next : Multiset ℕ) {r} held
    have hr : r ∉ held := by
      have hn := h.pages_nodup
      rw [← ho', Multiset.nodup_add, Multiset.singleton_add, Multiset.nodup_cons] at hn
      exact hn.2.1.1
    exact ⟨_, Or.inr ⟨r, rfl, ho'⟩, fun x hx => (agree_setPage hr).mem x hx, rfl, rfl⟩

/-- **What `kfree` does** with a page that is held. -/
theorem kfree_spec (ho : Owns h ({z} + held)) :
    ∃ h', h.kfree z = some h' ∧ Owns h' held ∧ Agree h h' held := by
  have hz := ho.mem_range (Multiset.mem_add.2 (Or.inl (Multiset.mem_singleton_self z)))
  have hnot := ho.notMem (Multiset.mem_singleton_self z)
  refine ⟨_, if_pos hz, ?_, fun x hx => (agree_setPage hnot).mem x hx, rfl, rfl⟩
  show ((z :: h.freelist : List ℕ) : Multiset ℕ) + held = h.pages
  rw [← ho, ← Multiset.cons_coe, ← Multiset.singleton_add, add_assoc]
  exact add_left_comm {z} (h.freelist : Multiset ℕ) held

/-- A page of zeros has no valid entry. -/
theorem filled_zero {j : Fin 512} : filled 0 j = .zero := rfl

/-! ## `walk` that adds page-table pages -/

/-- A table with `n` levels below its root has grown, and maps what it mapped. -/
structure Grows (n p : ℕ) (R : Multiset ℕ) (h h' : Heap) : Prop where
  owns : Owns h' (nodes sv39 h'.mem n p + R)
  le : nodes sv39 h.mem n p ≤ nodes sv39 h'.mem n p
  sound : Sound sv39 h'.mem n p
  lookup : ∀ a, lookup sv39 h'.mem n p a = lookup sv39 h.mem n p a
  agree : Agree h h' R

variable {n p c : ℕ} {i : Fin 512}

theorem Grows.trans (ha : Grows n p R h h1) (hb : Grows n p R h1 h2) : Grows n p R h h2 :=
  ⟨hb.owns, ha.le.trans hb.le, hb.sound, fun a => (hb.lookup a).trans (ha.lookup a),
    ha.agree.trans hb.agree⟩

/-- Pages of others can be taken, freed and written. -/
theorem grows_of_agree (hs : Sound sv39 h.mem n p) (ha : Agree h h' (nodes sv39 h.mem n p + R))
    (ho : Owns h' (nodes sv39 h.mem n p + R)) : Grows n p R h h' := by
  have hn := nodes_congr fun x hx => ha.left.mem x hx
  refine ⟨?_, ?_, hs.congr ha.left.mem, fun a => lookup_congr ha.left.mem, ha.right⟩
  · rw [hn]
    exact ho
  · rw [hn]

theorem nodes_eq (e : Pte) (he : h.mem p i = e) : nodes sv39 h.mem (n + 1) p =
    below sv39 h.mem n e + rest sv39 h.mem n p i := by
  rw [nodes_split i, he]

/-- `walk` goes down to a page-table page that exists. -/
theorem Grows.descend (hs : Sound sv39 h.mem (n + 1) p) (hc : h.mem p i = .table c)
    (ho : Owns h (nodes sv39 h.mem (n + 1) p + R))
    (hg : Grows n c (rest sv39 h.mem n p i + R) h h') :
    Grows (n + 1) p R h h' ∧ h'.mem p i = .table c := by
  have hn : (nodes sv39 h.mem (n + 1) p).Nodup := ho.nodup_left
  have hroot : h'.mem p = h.mem p := hg.agree.left.mem p self_mem_rest
  have hrest : ∀ j ≠ i, ∀ x ∈ below sv39 h.mem n (h.mem p j), h'.mem x = h.mem x :=
    fun j hj x hx => hg.agree.left.mem x (mem_rest hj hx)
  have hkeep : ∀ j ≠ i, h'.mem p j = h.mem p j := fun j _ => congrFun hroot j
  have hi : h'.mem p i = sv39.link c := (congrFun hroot i).trans hc
  have hnodes := nodes_change hkeep hrest
  rw [hi, below_link] at hnodes
  have hold : nodes sv39 h.mem (n + 1) p = nodes sv39 h.mem n c + rest sv39 h.mem n p i := by
    rw [nodes_eq (sv39.link c) hc, below_link]
  refine ⟨⟨?_, ?_, ?_, fun a => ?_, hg.agree.right⟩, hi⟩
  · rw [hnodes, add_assoc]
    exact hg.owns
  · rw [hnodes, hold]
    exact add_le_add_left hg.le _
  · exact sound_change hs hkeep hrest (Or.inr ⟨c, hi, hg.sound⟩)
  · by_cases ha : a (n + 1) = i
    · rw [lookup_succ, lookup_succ, ha, hi, show h.mem p i = sv39.link c from hc, sv39.down_link,
        elim_some, elim_some]
      exact hg.lookup a
    · exact lookup_change hkeep hrest ha

/-- `walk` adds a page-table page. -/
theorem Grows.extend (hs : Sound sv39 h.mem (n + 1) p) (hi : h.mem p i = .zero)
    (ho : Owns h (nodes sv39 h.mem (n + 1) p + R))
    (hz : Owns h1 ({z} + (nodes sv39 h.mem (n + 1) p + R)))
    (ha : Agree h h1 (nodes sv39 h.mem (n + 1) p + R)) :
    Grows (n + 1) p R h ((h1.setPage z (filled 0)).setPte p i (.table z)) := by
  have hn : (nodes sv39 h.mem (n + 1) p).Nodup := ho.nodup_left
  have hfresh := hz.notMem (Multiset.mem_singleton_self z)
  rw [Multiset.mem_add, not_or] at hfresh
  have hpz : p ≠ z := by
    rintro rfl
    exact hfresh.1 self_mem
  set h2 := (h1.setPage z (filled 0)).setPte p i (.table z) with hh2
  -- what is written: the page `z`, and the entry `i` of `p`
  have hother : ∀ x ≠ z, x ≠ p → h2.mem x = h1.mem x := fun x hxz hxp =>
    (update_of_ne hxp _ _).trans (update_of_ne hxz _ _)
  have hblank : ∀ j, h2.mem z j = sv39.blank := by
    intro j
    have : h2.mem z = filled 0 := (update_of_ne hpz.symm _ _).trans (update_self ..)
    rw [this]
    exact filled_zero
  have hlink : h2.mem p i = sv39.link z :=
    (congrFun (update_self ..) i).trans (update_self ..)
  have hkeep : ∀ j ≠ i, h2.mem p j = h.mem p j := by
    intro j hj
    refine (congrFun (update_self ..) j).trans ((update_of_ne hj _ _).trans ?_)
    refine (congrFun (update_of_ne hpz _ _) j).trans ?_
    exact congrFun (ha.left.mem p self_mem) j
  have hrest : ∀ j ≠ i, ∀ x ∈ below sv39 h.mem n (h.mem p j), h2.mem x = h.mem x := by
    intro j _ x hx
    have hxn := mem_of_below hx
    rw [hother x _ (apart hn hx).1]
    · exact ha.left.mem x hxn
    · rintro rfl
      exact hfresh.1 hxn
  have hnodes := nodes_change hkeep hrest
  rw [hlink, below_link, nodes_blank hblank] at hnodes
  have hold : nodes sv39 h.mem (n + 1) p = rest sv39 h.mem n p i := by
    rw [nodes_eq sv39.blank hi, below_blank, zero_add]
  rw [← hold] at hnodes
  refine ⟨?_, ?_, ?_, fun a => ?_, ⟨fun x hx => ?_, ha.base, ha.trampoline⟩⟩
  · rw [hnodes, add_assoc]
    exact hz
  · rw [hnodes]
    exact Multiset.le_add_left _ _
  · exact sound_change hs hkeep hrest (Or.inr ⟨z, hlink, sound_blank hblank⟩)
  · by_cases hai : a (n + 1) = i
    · rw [lookup_succ, lookup_succ, hai, hlink, show h.mem p i = sv39.blank from hi, sv39.down_link,
        sv39.down_blank, elim_some, elim_none]
      exact lookup_blank hblank
    · exact lookup_change hkeep hrest hai
  · have hxn : x ∉ nodes sv39 h.mem (n + 1) p := fun hxn => ho.notMem hxn hx
    rw [hother x]
    · exact ha.right.mem x hx
    · rintro rfl
      exact hfresh.2 hx
    · rintro rfl
      exact hxn self_mem

/-- **What `walk` does when it may allocate**, from a level down. -/
theorem walkLevels_spec (va : ℕ) (hs : Sound sv39 h.mem n p) (ho : Owns h (nodes sv39 h.mem n p + R)) :
    ∃ h' r, walkLevels n h p va = (h', r) ∧ Grows n p R h h' ∧
      ∀ loc, r = some loc → find sv39 h'.mem n p (fun l => px l va) = some loc := by
  induction n generalizing h p R with
  | zero =>
    refine ⟨h, _, rfl, grows_of_agree hs (Agree.refl _ _) ho, fun loc hloc => ?_⟩
    exact hloc
  | succ n ih =>
    -- the step below a page-table page `c` that entry `px (n + 1) va` leads to
    have hdown : ∀ {h1 : Heap} {c : ℕ}, Sound sv39 h1.mem (n + 1) p →
        Owns h1 (nodes sv39 h1.mem (n + 1) p + R) → h1.mem p (px (n + 1) va) = .table c →
        ∃ h' r, walkLevels n h1 c va = (h', r) ∧ Grows (n + 1) p R h1 h' ∧
          ∀ loc, r = some loc → find sv39 h'.mem (n + 1) p (fun l => px l va) = some loc := by
      intro h1 c hs1 ho1 hc
      have hchild : Sound sv39 h1.mem n c := by
        rcases hs1 (px (n + 1) va) with hb | ⟨q, hq, hsq⟩
        · rw [hc] at hb
          cases hb
        · rw [hc] at hq
          obtain rfl : c = q := congrArg Pte.page hq
          exact hsq
      have howns := ho1
      rw [nodes_eq (sv39.link c) hc, below_link, add_assoc] at howns
      obtain ⟨h', r, hw, hg, hfind⟩ := ih hchild howns
      obtain ⟨hg', hroot⟩ := Grows.descend hs1 hc ho1 hg
      refine ⟨h', r, hw, hg', fun loc hloc => ?_⟩
      rw [find, hroot]
      exact hfind loc hloc
    unfold walkLevels
    rcases hs (px (n + 1) va) with hb | ⟨c, hc, -⟩
    · have hv : (h.mem p (px (n + 1) va)).v = false := by rw [hb]; rfl
      simp only [hv, Bool.false_eq_true, if_false]
      obtain ⟨h1, ⟨hk, ho1⟩ | ⟨z, hk, ho1⟩, ha⟩ := kalloc_spec ho
      · rw [hk]
        refine ⟨h1, none, rfl, grows_of_agree hs ha ho1, fun loc hloc => ?_⟩
        cases hloc
      · rw [hk]
        have hg := Grows.extend hs hb ho ho1 ha
        have hlink : ((h1.setPage z (filled 0)).setPte p (px (n + 1) va) (.table z)).mem p
            (px (n + 1) va) = .table z :=
          (congrFun (update_self ..) _).trans (update_self ..)
        obtain ⟨h', r, hw, hg', hfind⟩ := hdown hg.sound hg.owns hlink
        exact ⟨h', r, hw, hg.trans hg', hfind⟩
    · have hv : (h.mem p (px (n + 1) va)).v = true := by rw [hc]; rfl
      have hpage : (h.mem p (px (n + 1) va)).page = c := by rw [hc]; rfl
      simp only [hv, if_true, hpage]
      exact hdown hs ho hc

/-! ## The mapping of a page table -/

/-- The index of a virtual page at a level. -/
theorem px_page (l k : ℕ) : (px l (k * pgsize)).val = k / 512 ^ l % 512 := by
  have hpow : 2 ^ (12 + 9 * l) = pgsize * 512 ^ l := by
    rw [Nat.pow_add, Nat.pow_mul]
  show k * pgsize / 2 ^ (12 + 9 * l) % 512 = k / 512 ^ l % 512
  rw [hpow, mul_comm k, Nat.mul_div_mul_left _ _ (by decide)]

theorem px_pgRoundDown (l a : ℕ) : px l (pgRoundDown a) = px l a := by
  have hpow : 2 ^ (12 + 9 * l) = pgsize * 512 ^ l := by
    rw [Nat.pow_add, Nat.pow_mul]
  refine Fin.ext ?_
  show a / pgsize * pgsize / 2 ^ (12 + 9 * l) % 512 = a / 2 ^ (12 + 9 * l) % 512
  rw [hpow, ← Nat.div_div_eq_div_mul, ← Nat.div_div_eq_div_mul, Nat.mul_div_cancel _ (by decide)]

theorem walk_pgRoundDown (m : PageMem) (pagetable a : ℕ) :
    walk m pagetable (pgRoundDown a) = walk m pagetable a := by
  simp only [walk, px_pgRoundDown]

theorem page_eq_of_px {k k' : ℕ} (hk : k < 2 ^ 27) (hk' : k' < 2 ^ 27)
    (h : ∀ l ≤ 2, px l (k * pgsize) = px l (k' * pgsize)) : k = k' := by
  have h0 := congrArg Fin.val (h 0 (by decide))
  have h1 := congrArg Fin.val (h 1 (by decide))
  have h2 := congrArg Fin.val (h 2 (by decide))
  simp only [px_page] at h0 h1 h2
  omega

theorem exists_page (a : ℕ → Fin 512) : ∃ k < 2 ^ 27, ∀ l ≤ 2, px l (k * pgsize) = a l := by
  have h0 := (a 0).isLt
  have h1 := (a 1).isLt
  have h2 := (a 2).isLt
  refine ⟨(a 0).val + 512 * (a 1).val + 512 ^ 2 * (a 2).val, by omega, fun l hl => Fin.ext ?_⟩
  rw [px_page]
  obtain rfl | rfl | rfl : l = 0 ∨ l = 1 ∨ l = 2 := by omega
  · omega
  · omega
  · omega

theorem walk_eq_find (m : PageMem) (pagetable va : ℕ) :
    walk m pagetable va = find sv39 m 2 pagetable fun l => px l va := by
  simp only [walk, find, sv39]
  by_cases h2 : (m pagetable (px 2 va)).v = true
  · by_cases h1 : (m (m pagetable (px 2 va)).page (px 1 va)).v = true <;> simp [h2, h1]
  · simp [h2]

/-- A page below `MAXVA`. -/
theorem page_lt_maxva {k : ℕ} (hk : k < 2 ^ 26) : ¬ k * pgsize ≥ maxva := by
  show ¬ k * 4096 ≥ 2 ^ 38
  omega

theorem pgRoundDown_page (k : ℕ) : pgRoundDown (k * pgsize) = k * pgsize := by
  show k * 4096 / 4096 * 4096 = k * 4096
  omega

/-- A page table that maps the virtual pages as `f` says, next to the pages `R` of others. -/
structure Tab (h : Heap) (pagetable : ℕ) (f : ℕ → Pte) (R : Multiset ℕ) : Prop where
  owns : Owns h (nodes sv39 h.mem 2 pagetable + R)
  sound : Sound sv39 h.mem 2 pagetable
  maps : ∀ k < 2 ^ 27, leaf h.mem pagetable k = f k

/-- The pages `R` of others are as they were, and the page table lost no page. -/
structure Kept (pagetable : ℕ) (R : Multiset ℕ) (h h' : Heap) : Prop where
  agree : Agree h h' R
  le : nodes sv39 h.mem 2 pagetable ≤ nodes sv39 h'.mem 2 pagetable

variable {pagetable : ℕ} {f f' : ℕ → Pte} {k pa : ℕ} {perm : Pte}

theorem Kept.trans (ha : Kept pagetable R h h1) (hb : Kept pagetable R h1 h2) :
    Kept pagetable R h h2 :=
  ⟨ha.agree.trans hb.agree, ha.le.trans hb.le⟩

theorem Kept.mono (ha : Kept pagetable R h h') (hle : R' ≤ R) : Kept pagetable R' h h' :=
  ⟨ha.agree.mono hle, ha.le⟩

theorem Kept.right (ha : Kept pagetable (R + R') h h') : Kept pagetable R' h h' :=
  ha.mono (Multiset.le_add_left _ _)

theorem Tab.congr (ht : Tab h pagetable f R) (hf : ∀ k < 2 ^ 27, f' k = f k) :
    Tab h pagetable f' R :=
  ⟨ht.owns, ht.sound, fun k hk => (ht.maps k hk).trans (hf k hk).symm⟩

theorem Tab.of_grows (ht : Tab h pagetable f R) (hg : Grows 2 pagetable R h h') :
    Tab h' pagetable f R ∧ Kept pagetable R h h' :=
  ⟨⟨hg.owns, hg.sound, fun k hk => (hg.lookup _).trans (ht.maps k hk)⟩, hg.agree, hg.le⟩

theorem kept_of_agree (ha : Agree h h' (nodes sv39 h.mem 2 pagetable + R)) :
    Kept pagetable R h h' :=
  ⟨ha.right, (nodes_congr ha.left.mem).ge⟩

/-- What others hold changes. -/
theorem Tab.frame (ht : Tab h pagetable f R) (ha : Agree h h' (nodes sv39 h.mem 2 pagetable))
    (ho : Owns h' (nodes sv39 h.mem 2 pagetable + R')) : Tab h' pagetable f R' := by
  refine ⟨?_, ht.sound.congr ha.mem, fun k hk => ?_⟩
  · rw [nodes_congr ha.mem]
    exact ho
  · exact (lookup_congr ha.mem).trans (ht.maps k hk)

theorem Tab.kalloc (ht : Tab h pagetable f R) :
    ∃ h', (h.kalloc = (h', none) ∧ Tab h' pagetable f R ∨
      ∃ z, h.kalloc = (h', some z) ∧ Tab h' pagetable f ({z} + R)) ∧ Kept pagetable R h h' := by
  obtain ⟨h', ⟨hk, ho⟩ | ⟨z, hk, ho⟩, ha⟩ := kalloc_spec ht.owns
  · exact ⟨h', Or.inl ⟨hk, ht.frame ha.left ho⟩, kept_of_agree ha⟩
  · rw [add_left_comm] at ho
    exact ⟨h', Or.inr ⟨z, hk, ht.frame ha.left ho⟩, kept_of_agree ha⟩

theorem Tab.kfree (ht : Tab h pagetable f ({z} + R)) :
    ∃ h', h.kfree z = some h' ∧ Tab h' pagetable f R ∧ Kept pagetable R h h' ∧
      ∀ va, walk h'.mem pagetable va = walk h.mem pagetable va := by
  have ho := ht.owns
  rw [add_left_comm] at ho
  obtain ⟨h', hk, ho', ha⟩ := kfree_spec ho
  refine ⟨h', hk, ht.frame ha.left ho', kept_of_agree ha, fun va => ?_⟩
  rw [walk_eq_find, walk_eq_find, find_congr ha.left.mem]

/-- A page that is held is written. -/
theorem Tab.setPage (ht : Tab h pagetable f ({z} + R)) (c : Fin 512 → Pte) :
    Tab (h.setPage z c) pagetable f ({z} + R) ∧ Kept pagetable R h (h.setPage z c) := by
  have ho := ht.owns
  rw [add_left_comm] at ho
  have ha : Agree h (h.setPage z c) (nodes sv39 h.mem 2 pagetable + R) :=
    agree_setPage (ho.notMem (Multiset.mem_singleton_self z))
  exact ⟨ht.frame ha.left ht.owns, kept_of_agree ha⟩

/-- The place of an entry that is mapped. -/
theorem walk_of_leaf {mem : PageMem} (hv : (leaf mem pagetable k).v = true) :
    ∃ page i, walk mem pagetable (k * pgsize) = some (page, i) ∧
      mem page i = leaf mem pagetable k := by
  unfold leaf lookup at hv ⊢
  rw [walk_eq_find]
  cases hf : find sv39 mem 2 pagetable (fun l => px l (k * pgsize)) with
  | none =>
    rw [hf] at hv
    cases hv
  | some loc => exact ⟨loc.1, loc.2, rfl, rfl⟩

theorem Tab.walk_of_valid (ht : Tab h pagetable f R) (hk : k < 2 ^ 27) (hv : (f k).v = true) :
    ∃ page i, walk h.mem pagetable (k * pgsize) = some (page, i) ∧ h.mem page i = f k := by
  rw [← ht.maps k hk] at hv ⊢
  exact walk_of_leaf hv

/-- **The entry of a virtual page is written.** -/
theorem Tab.setPte (ht : Tab h pagetable f R) (hk : k < 2 ^ 27) {page : ℕ} {i : Fin 512}
    (hw : walk h.mem pagetable (k * pgsize) = some (page, i)) (pte : Pte) :
    Tab (h.setPte page i pte) pagetable (update f k pte) R ∧
      Kept pagetable R h (h.setPte page i pte) ∧ h.mem page i = f k := by
  rw [walk_eq_find] at hw
  have hn := ht.owns.nodup_left
  have hnodes : nodes sv39 (h.setPte page i pte).mem 2 pagetable = nodes sv39 h.mem 2 pagetable :=
    nodes_write hn hw
  have hpage : page ∉ R := ht.owns.notMem (find_mem hw)
  refine ⟨⟨?_, ht.sound.write hn hw, fun k' hk' => ?_⟩, ⟨agree_setPage hpage, hnodes.ge⟩, ?_⟩
  · rw [hnodes]
    exact ht.owns
  · refine (lookup_write hn hw).trans ?_
    by_cases hkk : k' = k
    · subst hkk
      rw [if_pos fun _ _ => rfl, update_self]
    · rw [if_neg fun hpx => hkk (page_eq_of_px hk' hk hpx), update_of_ne hkk]
      exact ht.maps k' hk'
  · have hm := ht.maps k hk
    unfold leaf lookup at hm
    rw [hw] at hm
    exact hm

/-- **What `walk` does when it may allocate.** -/
theorem walkAlloc_spec (ht : Tab h pagetable f R) (hk : k < 2 ^ 26) :
    ∃ h' r, h.walkAlloc pagetable (k * pgsize) = some (h', r) ∧ Tab h' pagetable f R ∧
      Kept pagetable R h h' ∧
      ∀ loc, r = some loc → walk h'.mem pagetable (k * pgsize) = some loc := by
  obtain ⟨h', r, hw, hg, hfind⟩ := walkLevels_spec (k * pgsize) ht.sound ht.owns
  obtain ⟨ht', hkept⟩ := ht.of_grows hg
  refine ⟨h', r, ?_, ht', hkept, fun loc hloc => ?_⟩
  · rw [walkAlloc, if_neg (page_lt_maxva hk), hw]
  · rw [walk_eq_find]
    exact hfind loc hloc

/-- The mapping with `n` virtual pages from `k` on mapped to the pages from `pa` on. -/
def mapped (f : ℕ → Pte) (k n pa : ℕ) (perm : Pte) : ℕ → Pte := fun j =>
  if k ≤ j ∧ j < k + n then { perm with page := pa + (j - k), v := true } else f j

/-- A first page is mapped, and then the others. -/
theorem mapped_update (f : ℕ → Pte) (k n pa : ℕ) (perm : Pte) (j : ℕ) :
    mapped (update f k { perm with page := pa, v := true }) (k + 1) n (pa + 1) perm j =
      mapped f k (n + 1) pa perm j := by
  unfold mapped
  by_cases hj : j = k
  · subst hj
    rw [if_neg (by omega), if_pos (by omega), update_self, Nat.sub_self, add_zero]
  · rw [update_of_ne hj]
    by_cases hin : k + 1 ≤ j ∧ j < k + 1 + n
    · rw [if_pos hin, if_pos (by omega), show pa + 1 + (j - (k + 1)) = pa + (j - k) by omega]
    · rw [if_neg hin, if_neg (by omega)]

theorem mapped_zero (f : ℕ → Pte) (k pa : ℕ) (perm : Pte) (j : ℕ) : mapped f k 0 pa perm j = f j :=
  if_neg (by omega)

/-- One round of `mappages`: the entry is written, or there is no place for it. -/
theorem Tab.map (ht : Tab h pagetable f R) (hk : k < 2 ^ 26) (hv : (f k).v = false) (pte : Pte) :
    ∃ h1, (h.walkAlloc pagetable (k * pgsize) = some (h1, none) ∧ Tab h1 pagetable f R ∧
        Kept pagetable R h h1) ∨
      ∃ page i, h.walkAlloc pagetable (k * pgsize) = some (h1, some (page, i)) ∧
        (h1.mem page i).v = false ∧
        Tab (h1.setPte page i pte) pagetable (update f k pte) R ∧
        Kept pagetable R h (h1.setPte page i pte) := by
  obtain ⟨h1, r, hw, ht1, hkept, hloc⟩ := walkAlloc_spec ht hk
  refine ⟨h1, ?_⟩
  cases r with
  | none => exact Or.inl ⟨hw, ht1, hkept⟩
  | some loc =>
    obtain ⟨page, i⟩ := loc
    obtain ⟨ht2, hkept2, hmem⟩ := ht1.setPte (Nat.lt_trans hk (by decide)) (hloc _ rfl) pte
    exact Or.inr ⟨page, i, hw, by rw [hmem, hv], ht2, hkept.trans hkept2⟩

/-- **What `mappages` does** with pages that are not mapped: it maps all of them, or those before
the first one for which there is no page-table page. -/
theorem mapLoop_spec (ht : Tab h pagetable f R) (hk : k + n < 2 ^ 26)
    (hv : ∀ j, k ≤ j → j ≤ k + n → (f j).v = false) (pa : ℕ) (perm : Pte) :
    ∃ h' r m, mapLoop pagetable perm n h (k * pgsize) pa = some (h', r) ∧ Kept pagetable R h h' ∧
      Tab h' pagetable (mapped f k m pa perm) R ∧ (r = 0 ∧ m = n + 1 ∨ r = -1 ∧ m ≤ n) := by
  induction n generalizing h f k pa with
  | zero =>
    obtain ⟨h1, ⟨hw, ht1, hkept⟩ | ⟨page, i, hw, hold, ht1, hkept⟩⟩ :=
      ht.map (k := k) hk (hv k le_rfl le_rfl) { perm with page := pa, v := true }
    · refine ⟨h1, -1, 0, ?_, hkept, ht1.congr fun j _ => mapped_zero .., Or.inr ⟨rfl, le_rfl⟩⟩
      unfold mapLoop
      rw [hw]
      rfl
    · refine ⟨_, 0, 1, ?_, hkept, ht1.congr fun j _ => ?_, Or.inl ⟨rfl, rfl⟩⟩
      · unfold mapLoop
        rw [hw]
        simp only [bind_some, hold, Bool.false_eq_true, if_false]
      · rw [← mapped_update, mapped_zero]
  | succ n ih =>
    obtain ⟨h1, ⟨hw, ht1, hkept⟩ | ⟨page, i, hw, hold, ht1, hkept⟩⟩ :=
      ht.map (by omega) (hv k le_rfl (by omega)) { perm with page := pa, v := true }
    · refine ⟨h1, -1, 0, ?_, hkept, ht1.congr fun j _ => mapped_zero .., Or.inr ⟨rfl, by omega⟩⟩
      unfold mapLoop
      rw [hw]
      rfl
    · obtain ⟨h', r, m, hrun, hkept', ht', hend⟩ := ih ht1 (k := k + 1) (by omega)
        (fun j hj hj' => by
          rw [update_of_ne (by omega)]
          exact hv j (by omega) (by omega)) (pa + 1)
      refine ⟨h', r, m + 1, ?_, hkept.trans hkept', ht'.congr fun j _ => ?_, by omega⟩
      · unfold mapLoop
        rw [hw]
        simp only [bind_some, hold, Bool.false_eq_true, if_false]
        rw [← Nat.succ_mul]
        exact hrun
      · rw [mapped_update]

/-- `mappages` of one page. -/
theorem mappages_spec (ht : Tab h pagetable f R) (hk : k < 2 ^ 26) (hv : (f k).v = false)
    (pa : ℕ) (perm : Pte) :
    ∃ h' r, h.mappages pagetable (k * pgsize) pgsize pa perm = some (h', r) ∧
      Kept pagetable R h h' ∧
      (r = 0 ∧ Tab h' pagetable (update f k { perm with page := pa, v := true }) R ∨
        r = -1 ∧ Tab h' pagetable f R) := by
  have hlast : (pgRoundDown (k * pgsize + pgsize - 1) - k * pgsize) / pgsize = 0 := by
    show ((k * 4096 + 4096 - 1) / 4096 * 4096 - k * 4096) / 4096 = 0
    omega
  obtain ⟨h', r, m, hrun, hkept, ht', hend⟩ := mapLoop_spec (n := 0) ht hk
    (fun j hj hj' => (show j = k by omega) ▸ hv) pa perm
  refine ⟨h', r, ?_, hkept, ?_⟩
  · simp only [mappages, if_neg (show ¬ pgsize = 0 by decide), pgRoundDown_page, hlast]
    exact hrun
  · rcases hend with ⟨rfl, rfl⟩ | ⟨rfl, hm⟩
    · refine Or.inl ⟨rfl, ht'.congr fun j _ => ?_⟩
      rw [← mapped_update, mapped_zero]
    · obtain rfl : m = 0 := by omega
      exact Or.inr ⟨rfl, ht'.congr fun j _ => (mapped_zero ..).symm⟩

/-- The pages that the virtual pages from `k` on are mapped to. -/
def pagesAt (f : ℕ → Pte) (k n : ℕ) : Multiset ℕ := (List.range' k n).map fun j => (f j).page

theorem pagesAt_succ (f : ℕ → Pte) (k n : ℕ) :
    pagesAt f k (n + 1) = {(f k).page} + pagesAt f (k + 1) n := by
  rw [pagesAt, List.range'_succ, List.map_cons, ← Multiset.cons_coe, Multiset.singleton_add]
  rfl

theorem pagesAt_congr (h : ∀ j, k ≤ j → j < k + n → (f' j).page = (f j).page) :
    pagesAt f' k n = pagesAt f k n := by
  unfold pagesAt
  congr 1
  refine List.map_congr_left fun j hj => ?_
  rw [List.mem_range'_1] at hj
  exact h j hj.1 hj.2

theorem card_pagesAt (f : ℕ → Pte) (k n : ℕ) : Multiset.card (pagesAt f k n) = n := by
  simp [pagesAt]

/-- The mapping without the `n` virtual pages from `k` on. -/
def without (f : ℕ → Pte) (k n : ℕ) : ℕ → Pte := fun j => if k ≤ j ∧ j < k + n then .zero else f j

theorem onlyV_of_r {pte : Pte} (h : pte.r = true) : pte.onlyV = false := by simp [Pte.onlyV, h]

/-- **What `uvmunmap` does** with pages that are mapped, freeing them or not. -/
theorem unmapLoop_spec (doFree : Bool) (ht : Tab h pagetable f ((if doFree then pagesAt f k n else 0) + R))
    (hk : k + n ≤ 2 ^ 26) (hv : ∀ j, k ≤ j → j < k + n → (f j).v = true ∧ (f j).onlyV = false) :
    ∃ h', unmapLoop pagetable doFree n h (k * pgsize) = some h' ∧
      Tab h' pagetable (without f k n) R ∧ Kept pagetable R h h' := by
  induction n generalizing h f k with
  | zero =>
    have ht' : Tab h pagetable (without f k 0) R := by
      refine Tab.congr ?_ fun j _ => if_neg (by omega)
      cases doFree <;> simpa [pagesAt] using ht
    exact ⟨h, rfl, ht', Agree.refl _ _, le_rfl⟩
  | succ n ih =>
    have hk27 : k < 2 ^ 27 := by omega
    obtain ⟨hkv, hleaf⟩ := hv k le_rfl (by omega)
    obtain ⟨page, i, hw, hmem⟩ := ht.walk_of_valid hk27 hkv
    -- the page is freed, or kept
    obtain ⟨h1, hfree, ht1, hkept1, hw1⟩ : ∃ h1,
        (if doFree then h.kfree (f k).page else some h) = some h1 ∧
        Tab h1 pagetable f ((if doFree then pagesAt f (k + 1) n else 0) + R) ∧
        Kept pagetable ((if doFree then pagesAt f (k + 1) n else 0) + R) h h1 ∧
        walk h1.mem pagetable (k * pgsize) = some (page, i) := by
      cases doFree with
      | false => exact ⟨h, rfl, ht, ⟨Agree.refl _ _, le_rfl⟩, hw⟩
      | true =>
        simp only [if_true, pagesAt_succ, add_assoc] at ht ⊢
        obtain ⟨h1, hfree, ht1, hkept1, hsame⟩ := ht.kfree
        exact ⟨h1, hfree, ht1, hkept1, (hsame _).trans hw⟩
    obtain ⟨ht2, hkept2, -⟩ := ht1.setPte hk27 hw1 .zero
    -- the other pages are mapped as before
    have hother : ∀ j ≠ k, update f k Pte.zero j = f j :=
      fun j hj => update_of_ne hj _ _
    have hrest : pagesAt (update f k .zero) (k + 1) n = pagesAt f (k + 1) n :=
      pagesAt_congr fun j hj _ => by rw [hother j (by omega)]
    rw [← hrest] at ht2
    obtain ⟨h', hloop, ht', hkept'⟩ := ih ht2 (by omega) fun j hj hj' => by
      rw [hother j (by omega)]
      exact hv j (by omega) (by omega)
    refine ⟨h', ?_, ht'.congr fun j _ => ?_, ?_⟩
    · unfold unmapLoop
      rw [if_neg (page_lt_maxva (by omega)), hw]
      simp only [hmem, hkv, hleaf, Bool.not_true, Bool.false_eq_true, if_false]
      rw [hfree, bind_some, ← Nat.succ_mul]
      exact hloop
    · unfold without
      by_cases hj : j = k
      · subst hj
        rw [if_pos (by omega), if_neg (by omega), update_self]
      · rw [hother j hj]
        by_cases hin : k ≤ j ∧ j < k + (n + 1)
        · rw [if_pos hin, if_pos (by omega)]
        · rw [if_neg hin, if_neg (by omega)]
    · exact (hkept1.right.trans hkept2.right).trans hkept'

/-! ## `freewalk` -/

/-- Entries that are not valid need no work. -/
theorem freeEntries_invalid (free : Heap → ℕ → Option Heap) {is : List (Fin 512)}
    (hv : ∀ i ∈ is, (h.mem p i).v = false) : freeEntries free p is h = h.kfree p := by
  induction is with
  | nil => rfl
  | cons i is ih =>
    have hi := hv i List.mem_cons_self
    unfold freeEntries
    simp only [Pte.isTable, hi, Bool.false_and, Bool.false_eq_true, if_false]
    exact ih fun j hj => hv j (List.mem_cons_of_mem _ hj)

/-- `freewalk` at one page: the tables below the entries `is`, and then the page itself. -/
theorem freeEntries_spec {free : Heap → ℕ → Option Heap}
    (hfree : ∀ {h : Heap} {q : ℕ} {R : Multiset ℕ}, Sound sv39 h.mem n q →
      (∀ a, (lookup sv39 h.mem n q a).v = false) → Owns h (nodes sv39 h.mem n q + R) →
      ∃ h', free h q = some h' ∧ Owns h' R ∧ Agree h h' R)
    {is : List (Fin 512)} (hnd : is.Nodup)
    (hs : ∀ i ∈ is, h.mem p i = .zero ∨ ∃ q, h.mem p i = .table q ∧ Sound sv39 h.mem n q ∧
      ∀ a, (lookup sv39 h.mem n q a).v = false)
    (ho : Owns h (belowAll sv39 h.mem n p is + ({p} + R))) :
    ∃ h', freeEntries free p is h = some h' ∧ Owns h' R ∧ Agree h h' R := by
  induction is generalizing h with
  | nil =>
    rw [belowAll, List.map_nil, List.sum_nil, zero_add] at ho
    exact kfree_spec ho
  | cons i is ih =>
    obtain ⟨hi, hnd⟩ := List.nodup_cons.1 hnd
    rw [belowAll_cons] at ho
    rcases hs i List.mem_cons_self with hb | ⟨q, hq, hsq, hvq⟩
    · rw [hb, show Pte.zero = sv39.blank from rfl, below_blank, zero_add] at ho
      unfold freeEntries
      rw [hb]
      exact ih hnd (fun j hj => hs j (List.mem_cons_of_mem _ hj)) ho
    · rw [hq, show Pte.table q = sv39.link q from rfl, below_link, add_assoc] at ho
      obtain ⟨h1, hf, ho1, ha⟩ := hfree hsq hvq ho
      -- the entry is cleared; the tables below the other entries are still there
      have hp := ho1
      rw [add_left_comm] at hp
      replace hp := hp.notMem (Multiset.mem_singleton_self p)
      rw [Multiset.mem_add, not_or] at hp
      have hrow : ∀ j ∈ is, (h1.setPte p i .zero).mem p j = h.mem p j := by
        intro j hj
        have hji : j ≠ i := by
          rintro rfl
          exact hi hj
        refine (congrFun (update_self ..) j).trans ((update_of_ne hji _ _).trans ?_)
        exact congrFun (ha.right.left.mem p (Multiset.mem_singleton_self p)) j
      have hbelow : ∀ j ∈ is, ∀ x ∈ below sv39 h.mem n (h.mem p j),
          (h1.setPte p i .zero).mem x = h.mem x := by
        intro j hj x hx
        have hsum := mem_belowAll hj hx
        refine (update_of_ne ?_ _ _).trans (ha.left.mem x hsum)
        rintro rfl
        exact hp.1 hsum
      have ho2 : Owns (h1.setPte p i .zero)
          (belowAll sv39 (h1.setPte p i .zero).mem n p is + ({p} + R)) := by
        rw [belowAll_congr hrow hbelow]
        exact ho1
      have hs2 : ∀ j ∈ is, (h1.setPte p i .zero).mem p j = .zero ∨
          ∃ q, (h1.setPte p i .zero).mem p j = .table q ∧
            Sound sv39 (h1.setPte p i .zero).mem n q ∧
            ∀ a, (lookup sv39 (h1.setPte p i .zero).mem n q a).v = false := by
        intro j hj
        rw [hrow j hj]
        rcases hs j (List.mem_cons_of_mem _ hj) with hb | ⟨q', hq', hsq', hvq'⟩
        · exact Or.inl hb
        · have hmem : ∀ x ∈ nodes sv39 h.mem n q', (h1.setPte p i .zero).mem x = h.mem x := by
            intro x hx
            refine hbelow j hj x ?_
            rw [hq', show Pte.table q' = sv39.link q' from rfl, below_link]
            exact hx
          refine Or.inr ⟨q', hq', hsq'.congr hmem, fun a => ?_⟩
          rw [lookup_congr hmem]
          exact hvq' a
      obtain ⟨h', hl, ho', ha'⟩ := ih hnd hs2 ho2
      refine ⟨h', ?_, ho', (ha.right.right.trans (agree_setPage hp.2)).trans ha'⟩
      unfold freeEntries
      rw [hq]
      simp only [Pte.isTable, Bool.not_false, Bool.and_true, if_true]
      rw [hf]
      exact hl

/-- **What `freewalk` does** with a table in which nothing is mapped. -/
theorem freewalk_spec (hs : Sound sv39 h.mem n p) (hv : ∀ a, (lookup sv39 h.mem n p a).v = false)
    (ho : Owns h (nodes sv39 h.mem n p + R)) :
    ∃ h', freewalk (n + 1) h p = some h' ∧ Owns h' R ∧ Agree h h' R := by
  induction n generalizing h p R with
  | zero =>
    have hrow : ∀ i ∈ List.finRange 512, (h.mem p i).v = false := fun i _ => hv fun _ => i
    have hleaf : nodes sv39 h.mem 0 p = {p} := by rw [nodes]
    rw [hleaf] at ho
    unfold freewalk
    rw [freeEntries_invalid _ hrow]
    exact kfree_spec ho
  | succ n ih =>
    have hall : nodes sv39 h.mem (n + 1) p = belowAll sv39 h.mem n p (List.finRange 512) + {p} :=
      nodes_eq_belowAll (List.nodup_finRange 512) List.mem_finRange
    rw [hall, add_assoc] at ho
    refine freeEntries_spec ih (List.nodup_finRange 512) (fun i _ => ?_) ho
    rcases hs i with hb | ⟨q, hq, hsq⟩
    · exact Or.inl hb
    · refine Or.inr ⟨q, hq, hsq, fun a => ?_⟩
      -- an address below the entry, as an address of the whole table
      have hlook := hv (update a (n + 1) i)
      rw [lookup_succ, update_self, hq, sv39.down_link, elim_some] at hlook
      have haddr : ∀ l ≤ n, update a (n + 1) i l = a l :=
        fun l hl => update_of_ne (by omega) _ _
      rwa [lookup_congr_addr haddr] at hlook

end Heap

end AudioPlayer
