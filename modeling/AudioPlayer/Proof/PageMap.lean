import AudioPlayer.Proof.PageTable

/-!
# A page table is a finite map

`lookupPte` is the map: the entry `walk` finds for an address, if it is valid. `Changed` says
what an operation does to it, at some pages in a row. `walk` that may allocate changes nothing,
`mappages` and `uvmunmap` change the pages they are given (`page_table_map`).

A page table is kept as a tree by all of them (`PageTable`), and begins as a page of zeros
(`pageTable_uvmcreate`).
-/

namespace AudioPlayer

open Radix

namespace Heap

variable {h h' : Heap} {pagetable k n : ℕ} {m m' m1 : PageMem} {f : ℕ → Pte} {R : Multiset ℕ}

/-- A page table: its pages form a tree of three levels, and are different pages that the
allocator has given out. -/
structure PageTable (h : Heap) (pagetable : ℕ) : Prop where
  sound : Sound sv39 h.mem 2 pagetable
  owns : ∃ R, Owns h (nodes sv39 h.mem 2 pagetable + R)

/-- The entry that `walk` finds for `va`, if it is valid. -/
def lookupPte (m : PageMem) (pagetable va : ℕ) : Option Pte :=
  (walk m pagetable va).bind fun loc => if (m loc.1 loc.2).v then some (m loc.1 loc.2) else none

/-- An entry, if it is valid. -/
def ifValid (pte : Pte) : Option Pte := if pte.v then some pte else none

theorem lookupPte_eq (m : PageMem) (pagetable va : ℕ) :
    lookupPte m pagetable va = ifValid (leaf m pagetable (va / pgsize)) := by
  rw [lookupPte, ← walk_pgRoundDown, walk_eq_find, ifValid, leaf, lookup]
  show (find sv39 m 2 pagetable fun l => px l (va / pgsize * pgsize)).bind _ = _
  cases find sv39 m 2 pagetable fun l => px l (va / pgsize * pgsize) with
  | none => rfl
  | some loc => rfl

theorem PageTable.tab (hp : PageTable h pagetable) : ∃ R, Tab h pagetable (leaf h.mem pagetable) R :=
  hp.owns.imp fun _ ho => ⟨ho, hp.sound, fun _ _ => rfl⟩

theorem Tab.pageTable (ht : Tab h pagetable f R) : PageTable h pagetable := ⟨ht.sound, R, ht.owns⟩

theorem page_lt {va : ℕ} (hva : va < maxva) : va / pgsize < 2 ^ 26 := by
  change va < 2 ^ 38 at hva
  show va / 4096 < 2 ^ 26
  omega

theorem Tab.lookupPte (ht : Tab h pagetable f R) {va : ℕ} (hva : va < maxva) :
    lookupPte h.mem pagetable va = ifValid (f (va / pgsize)) := by
  rw [lookupPte_eq, ht.maps _ (Nat.lt_trans (page_lt hva) (by decide))]

/-- The `n` pages from page `first` on have other entries, and all other pages the same. -/
def Changed (m m' : PageMem) (pagetable first n : ℕ) (g : ℕ → Option Pte) : Prop :=
  ∀ va < maxva, lookupPte m' pagetable va =
    if first ≤ va / pgsize ∧ va / pgsize < first + n then g (va / pgsize - first)
    else lookupPte m pagetable va

/-- The number of pages that `size` bytes from `va` on meet. -/
def pageCount (va size : ℕ) : ℕ := (va + size - 1) / pgsize - va / pgsize + 1

/-- The pages mapped there are the allocator's, different, and not those of the page table. -/
def Freeable (h : Heap) (pagetable first n : ℕ) : Prop :=
  ∃ R, Owns h (nodes sv39 h.mem 2 pagetable + (pagesAt (leaf h.mem pagetable) first n + R))

/-- **`walk` that may allocate** leaves the map. -/
theorem PageTable.walkAlloc (hp : PageTable h pagetable) {va : ℕ} (hva : va < maxva) :
    ∃ h' r, h.walkAlloc pagetable va = some (h', r) ∧ PageTable h' pagetable ∧
      ∀ a, lookupPte h'.mem pagetable a = lookupPte h.mem pagetable a := by
  obtain ⟨R, ho⟩ := hp.owns
  obtain ⟨h', r, hw, hg, -⟩ := walkLevels_spec va hp.sound ho
  refine ⟨h', r, by rw [Heap.walkAlloc, if_neg (by omega), hw], ⟨hg.sound, R, hg.owns⟩, fun a => ?_⟩
  rw [lookupPte_eq, lookupPte_eq, leaf, hg.lookup]
  rfl

/-- A page of the range has a byte of it. -/
theorem invalid_of_free {va size j : ℕ} (hpos : 0 < size)
    (hfree : ∀ a, va ≤ a → a < va + size → lookupPte m pagetable a = none)
    (hj : va / pgsize ≤ j) (hj' : j ≤ (va + size - 1) / pgsize) : (leaf m pagetable j).v = false := by
  have hbyte : max va (j * pgsize) / pgsize = j := by
    change va / 4096 ≤ j at hj
    show max va (j * 4096) / 4096 = j
    omega
  have hin : max va (j * pgsize) < va + size := by
    change j ≤ (va + size - 1) / 4096 at hj'
    show max va (j * 4096) < va + size
    omega
  have hnone := hfree (max va (j * pgsize)) (Nat.le_max_left ..) hin
  rw [lookupPte_eq, hbyte, ifValid] at hnone
  cases hv : (leaf m pagetable j).v with
  | false => rfl
  | true =>
    rw [if_pos hv] at hnone
    cases hnone

/-- **`mappages`** maps the pages of a range that is free, or a first part of them. -/
theorem PageTable.mappages (hp : PageTable h pagetable) {va size : ℕ} (pa : ℕ) (perm : Pte)
    (hpos : 0 < size) (hend : va + size ≤ maxva)
    (hfree : ∀ a, va ≤ a → a < va + size → lookupPte h.mem pagetable a = none) :
    ∃ h' r n, h.mappages pagetable va size (pa / pgsize) perm = some (h', r) ∧
      PageTable h' pagetable ∧
      Changed h.mem h'.mem pagetable (va / pgsize) n
        (fun k => some { perm with page := (pa + k * pgsize) / pgsize, v := true }) ∧
      (r = 0 ∧ n = pageCount va size ∨ r = -1 ∧ n < pageCount va size) := by
  obtain ⟨R, ht⟩ := hp.tab
  have hlast : (va + size - 1) / pgsize < 2 ^ 26 := page_lt (by omega)
  have hmono : va / pgsize ≤ (va + size - 1) / pgsize := Nat.div_le_div_right (by omega)
  have hsplit : va / pgsize + ((va + size - 1) / pgsize - va / pgsize) = (va + size - 1) / pgsize :=
    Nat.add_sub_cancel' hmono
  have hv : ∀ j, va / pgsize ≤ j → j ≤ va / pgsize + ((va + size - 1) / pgsize - va / pgsize) →
      (leaf h.mem pagetable j).v = false := by
    intro j hj hj'
    rw [hsplit] at hj'
    exact invalid_of_free hpos hfree hj hj'
  obtain ⟨h', r, n, hrun, -, ht', hr⟩ := mapLoop_spec ht (by omega) hv (pa / pgsize) perm
  refine ⟨h', r, n, ?_, ht'.pageTable, fun a ha => ?_, ?_⟩
  · have hcount : (pgRoundDown (va + size - 1) - pgRoundDown va) / pgsize =
        (va + size - 1) / pgsize - va / pgsize := by
      show ((va + size - 1) / 4096 * 4096 - va / 4096 * 4096) / 4096 = _ / 4096 - va / 4096
      omega
    rw [Heap.mappages, if_neg (by omega)]
    dsimp only
    rw [hcount]
    exact hrun
  · rw [ht'.lookupPte ha, ht.lookupPte ha, mapped]
    split
    · dsimp only
      rw [Nat.add_mul_div_right _ _ (by decide)]
      rfl
    · rfl
  · unfold pageCount
    omega

/-- **`uvmunmap`** removes the pages of a range that is mapped. -/
theorem PageTable.uvmunmap (hp : PageTable h pagetable) {va n : ℕ} (doFree : Bool)
    (halign : va % pgsize = 0) (hend : va + n * pgsize ≤ maxva)
    (hmap : ∀ k < n, ∃ pte, lookupPte h.mem pagetable (va + k * pgsize) = some pte ∧ pte.onlyV = false)
    (hpages : doFree = true → Freeable h pagetable (va / pgsize) n) :
    ∃ h', h.uvmunmap pagetable va n doFree = some h' ∧ PageTable h' pagetable ∧
      Changed h.mem h'.mem pagetable (va / pgsize) n fun _ => none := by
  have hva : va = va / pgsize * pgsize := (Nat.div_mul_cancel (Nat.dvd_of_mod_eq_zero halign)).symm
  have hpage : ∀ k, (va + k * pgsize) / pgsize = va / pgsize + k := fun k =>
    Nat.add_mul_div_right _ _ (by decide)
  have hle : va / pgsize + n ≤ 2 ^ 26 := by
    change va + n * 4096 ≤ 2 ^ 38 at hend
    show va / 4096 + n ≤ 2 ^ 26
    omega
  have hv : ∀ j, va / pgsize ≤ j → j < va / pgsize + n →
      (leaf h.mem pagetable j).v = true ∧ (leaf h.mem pagetable j).onlyV = false := by
    intro j hj hj'
    obtain ⟨pte, hlook, hleaf⟩ := hmap (j - va / pgsize) (by omega)
    rw [lookupPte_eq, hpage, Nat.add_sub_cancel' hj, ifValid] at hlook
    split at hlook
    · rename_i hvalid
      rw [Option.some.inj hlook]
      exact ⟨by rwa [Option.some.inj hlook] at hvalid, hleaf⟩
    · cases hlook
  obtain ⟨R, ht⟩ : ∃ R, Tab h pagetable (leaf h.mem pagetable)
      ((if doFree then pagesAt (leaf h.mem pagetable) (va / pgsize) n else 0) + R) := by
    cases doFree with
    | false =>
      obtain ⟨R, ht⟩ := hp.tab
      exact ⟨R, by simpa using ht⟩
    | true =>
      obtain ⟨R, ho⟩ := hpages rfl
      exact ⟨R, ho, hp.sound, fun _ _ => rfl⟩
  obtain ⟨h', hrun, ht', -⟩ := unmapLoop_spec doFree ht hle hv
  refine ⟨h', ?_, ht'.pageTable, fun a ha => ?_⟩
  · rw [Heap.uvmunmap, if_neg (not_not.2 halign), hva]
    exact hrun
  · rw [ht'.lookupPte ha, ht.lookupPte ha, without]
    split
    · rfl
    · rfl

/-- **Pages are mapped and unmapped again.** An entry without a flag would not be a leaf. -/
theorem PageTable.restore (hp : PageTable h pagetable) {va size pa : ℕ} {perm : Pte} (doFree : Bool)
    (hpos : 0 < size) (hend : va + size ≤ maxva)
    (hfree : ∀ a, va ≤ a → a < va + size → lookupPte h.mem pagetable a = none)
    (hflag : { perm with v := true }.onlyV = false)
    (hrun : h.mappages pagetable va size (pa / pgsize) perm = some (h', 0))
    (hpages : doFree = true → Freeable h' pagetable (va / pgsize) (pageCount va size)) :
    ∃ h'', h'.uvmunmap pagetable (pgRoundDown va) (pageCount va size) doFree = some h'' ∧
      PageTable h'' pagetable ∧
      ∀ a < maxva, lookupPte h''.mem pagetable a = lookupPte h.mem pagetable a := by
  obtain ⟨h1, r, n, hrun1, hp', hmap, hr⟩ := hp.mappages pa perm hpos hend hfree
  rw [hrun] at hrun1
  cases hrun1
  obtain rfl : n = pageCount va size := by omega
  have hnext : va / pgsize + pageCount va size = (va + size - 1) / pgsize + 1 := by
    have : va / pgsize ≤ (va + size - 1) / pgsize := Nat.div_le_div_right (by omega)
    unfold pageCount
    omega
  have hdown : pgRoundDown va / pgsize = va / pgsize := Nat.mul_div_cancel _ (by decide)
  have hpage : ∀ k, (pgRoundDown va + k * pgsize) / pgsize = va / pgsize + k := fun k => by
    rw [Nat.add_mul_div_right _ _ (by decide), hdown]
  have hlast : pgRoundDown va + pageCount va size * pgsize ≤ maxva := by
    change va + size ≤ 2 ^ 38 at hend
    have hcount : va / 4096 + pageCount va size = (va + size - 1) / 4096 + 1 := hnext
    show va / 4096 * 4096 + pageCount va size * 4096 ≤ 2 ^ 38
    omega
  obtain ⟨h'', hunmap, hp'', hgone⟩ := hp'.uvmunmap doFree
    (show pgRoundDown va % pgsize = 0 from Nat.mul_mod_left ..) hlast (fun k hk => by
      have hlt : pgRoundDown va + k * pgsize < maxva := by
        have : (k + 1) * pgsize ≤ pageCount va size * pgsize := Nat.mul_le_mul_right _ hk
        have : (k + 1) * pgsize = k * pgsize + pgsize := Nat.succ_mul ..
        have : 0 < pgsize := by decide
        omega
      refine ⟨{ perm with page := (pa + k * pgsize) / pgsize, v := true }, ?_, hflag⟩
      rw [hmap _ hlt, hpage, if_pos (by omega), Nat.add_sub_cancel_left]) (hdown ▸ hpages)
  refine ⟨h'', hunmap, hp'', fun a ha => ?_⟩
  rw [hgone a ha, hdown]
  split
  · rename_i hin
    rw [lookupPte_eq, ifValid, invalid_of_free hpos hfree hin.1 (by omega)]
    rfl
  · rename_i hout
    rw [hmap a ha, if_neg hout]

/-- **A page table is a finite map**, and these are its operations. What `mappages` maps can be
unmapped again; its pages can be freed with that if they are the allocator's. -/
theorem page_table_map (hp : PageTable h pagetable) :
    (∀ va < maxva, ∃ h' r, h.walkAlloc pagetable va = some (h', r) ∧ PageTable h' pagetable ∧
      ∀ a, lookupPte h'.mem pagetable a = lookupPte h.mem pagetable a) ∧
    (∀ va size pa perm, 0 < size → va + size ≤ maxva →
      (∀ a, va ≤ a → a < va + size → lookupPte h.mem pagetable a = none) →
      ∃ h' r n, h.mappages pagetable va size (pa / pgsize) perm = some (h', r) ∧
        PageTable h' pagetable ∧
        Changed h.mem h'.mem pagetable (va / pgsize) n
          (fun k => some { perm with page := (pa + k * pgsize) / pgsize, v := true }) ∧
        (r = 0 ∧ n = pageCount va size ∨ r = -1 ∧ n < pageCount va size)) ∧
    (∀ va n doFree, va % pgsize = 0 → va + n * pgsize ≤ maxva →
      (∀ k < n, ∃ pte, lookupPte h.mem pagetable (va + k * pgsize) = some pte ∧ pte.onlyV = false) →
      (doFree = true → Freeable h pagetable (va / pgsize) n) →
      ∃ h', h.uvmunmap pagetable va n doFree = some h' ∧ PageTable h' pagetable ∧
        Changed h.mem h'.mem pagetable (va / pgsize) n fun _ => none) ∧
    (∀ va size pa perm h' doFree, 0 < size → va + size ≤ maxva →
      (∀ a, va ≤ a → a < va + size → lookupPte h.mem pagetable a = none) →
      { perm with v := true }.onlyV = false →
      h.mappages pagetable va size (pa / pgsize) perm = some (h', 0) →
      (doFree = true → Freeable h' pagetable (va / pgsize) (pageCount va size)) →
      ∃ h'', h'.uvmunmap pagetable (pgRoundDown va) (pageCount va size) doFree = some h'' ∧
        PageTable h'' pagetable ∧
        ∀ a < maxva, lookupPte h''.mem pagetable a = lookupPte h.mem pagetable a) :=
  ⟨fun _ hva => hp.walkAlloc hva,
    fun _ _ pa perm hpos hend hfree => hp.mappages pa perm hpos hend hfree,
    fun _ _ doFree halign hend hmap hpages => hp.uvmunmap doFree halign hend hmap hpages,
    fun _ _ _ _ _ doFree hpos hend hfree hflag => hp.restore doFree hpos hend hfree hflag⟩

/-- **A new page table** maps nothing. -/
theorem pageTable_uvmcreate {held : Multiset ℕ} (ho : Owns h held)
    (hrun : h.uvmcreate = (h', some pagetable)) :
    PageTable h' pagetable ∧ ∀ va, lookupPte h'.mem pagetable va = none := by
  unfold uvmcreate at hrun
  obtain ⟨h1, ⟨hk, -⟩ | ⟨z, hk, ho1⟩, -⟩ := kalloc_spec ho
  · rw [hk] at hrun
    cases hrun
  · rw [hk] at hrun
    obtain ⟨rfl, hz⟩ := Prod.mk.inj hrun
    obtain rfl := Option.some.inj hz
    have hblank : ∀ i, (h1.setPage z (filled 0)).mem z i = sv39.blank := by
      intro i
      exact (congrFun (Function.update_self ..) i).trans filled_zero
    refine ⟨⟨sound_blank hblank, held, ?_⟩, fun va => ?_⟩
    · rw [nodes_blank hblank]
      exact ho1
    · rw [lookupPte_eq, leaf, lookup_blank hblank]
      rfl

/-- The last four pages of memory are free. -/
def fourPages : Heap := ⟨0x87ffc, by decide, 0, fun _ => filled 0, List.range' 0x87ffc 4, []⟩

/-- A page table in the first of them. -/
def newTable : Heap := fourPages.uvmcreate.1

theorem newTable_ok : PageTable newTable 0x87ffc ∧ ∀ va, lookupPte newTable.mem 0x87ffc va = none :=
  pageTable_uvmcreate (show Owns fourPages 0 from add_zero _) rfl

/-- Two bytes in two pages are mapped. -/
theorem page_table_map_new : PageTable newTable 0x87ffc ∧
    ∃ h' r n, newTable.mappages 0x87ffc (5 * pgsize - 1) 2 (7 * pgsize / pgsize) .user = some (h', r) ∧
      PageTable h' 0x87ffc ∧
      Changed newTable.mem h'.mem 0x87ffc ((5 * pgsize - 1) / pgsize) n
        (fun k => some { Pte.user with page := (7 * pgsize + k * pgsize) / pgsize, v := true }) ∧
      (r = 0 ∧ n = 2 ∨ r = -1 ∧ n < 2) := by
  obtain ⟨-, hmap, -, -⟩ := page_table_map newTable_ok.1
  exact ⟨newTable_ok.1, hmap (5 * pgsize - 1) 2 (7 * pgsize) .user (by decide) (by decide)
    fun a _ _ => newTable_ok.2 a⟩

/-- **What was mapped cannot be unmapped** when it has no flag, or when a page is to be freed that is
not the allocator's. -/
theorem page_table_map_panics : PageTable newTable 0x87ffc ∧
    (∀ va, lookupPte newTable.mem 0x87ffc va = none) ∧
    ((newTable.mappages 0x87ffc 0 pgsize 7 .zero).any fun r =>
      decide (r.2 = 0) && (r.1.uvmunmap 0x87ffc 0 1 false).isNone) = true ∧
    ((newTable.mappages 0x87ffc 0 pgsize 7 .user).any fun r =>
      decide (r.2 = 0) && (r.1.uvmunmap 0x87ffc 0 1 true).isNone) = true :=
  ⟨newTable_ok.1, newTable_ok.2, by decide +kernel, by decide +kernel⟩

end Heap

end AudioPlayer
