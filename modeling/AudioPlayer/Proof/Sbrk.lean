import AudioPlayer.Proof.UserCopy
import AudioPlayer.Proof.UserMem

/-!
# `sbrk` moves the break

`growproc` adds pages of zeros or removes the last pages, and changes the size by `n`, or it fails
and changes nothing (`growproc_iff`). It does so for all `n` that leave a size of at least 0. For
any other `n` the new size wraps around, and `uvmdealloc` takes that for a size it need not
shrink to: `growproc` returns 0, and nothing has happened.
-/

namespace AudioPlayer

open Radix

namespace Heap

/-- The byte at the virtual address `a`, which the process may or may not access. -/
def memByte (m : PageMem) (pagetable a : ℕ) : UInt8 :=
  byteAt m ((leaf m pagetable (a / pgsize)).page * pgsize + a % pgsize)

/-- The break of a process of size `sz` was moved by `n`, or not at all. Below the pages of the
trapframe and the trampoline, the pages up to the break are mapped. -/
def MovesBreak (h : Heap) (pagetable sz : ℕ) (n : ℤ) (h' : Heap) (sz' : ℕ) (r : ℤ) : Prop :=
  (r = 0 ∧ (sz' : ℤ) = sz + n ∧
    (∀ k < 2 ^ 26 - 2, (leaf h'.mem pagetable k).v = true ↔ k < npages sz') ∧
    (∀ a < min sz sz', memByte h'.mem pagetable a = memByte h.mem pagetable a) ∧
    ∀ a, npages sz * pgsize ≤ a → a < npages sz' * pgsize → memByte h'.mem pagetable a = 0) ∨
  (r = -1 ∧ sz' = sz ∧ (∀ k < 2 ^ 26, leaf h'.mem pagetable k = leaf h.mem pagetable k) ∧
    ∀ a < npages sz * pgsize, memByte h'.mem pagetable a = memByte h.mem pagetable a)

variable {h h' : Heap} {pagetable sz sz' a : ℕ} {f f' : ℕ → Pte} {R : Multiset ℕ}

theorem page_div (page a : ℕ) : (page * pgsize + a % pgsize) / pgsize = page := by
  rw [mul_comm, Nat.mul_add_div (by decide), Nat.div_eq_of_lt (Nat.mod_lt _ (by decide)), add_zero]

theorem byteAt_congr {m m' : PageMem} {pa : ℕ} (hm : m' (pa / pgsize) = m (pa / pgsize)) :
    byteAt m' pa = byteAt m pa := by
  rw [byteAt, byteAt, hm]

theorem byteAt_filled_zero {m : PageMem} {pa : ℕ} (hm : m (pa / pgsize) = filled 0) : byteAt m pa = 0 := by
  rw [byteAt, hm, filled_zero]
  simp [Pte.toNat]

theorem page_lt_npages (hsz : sz ≤ 2 ^ 27) (ha : a < sz) : a / pgsize < npages sz := by
  rw [npages_eq (by omega)]
  show a / 4096 < (sz + 4095) / 4096
  omega

theorem page_lt_of_lt {np : ℕ} (ha : a < np * pgsize) : a / pgsize < np :=
  Nat.div_lt_of_lt_mul (by rwa [mul_comm] at ha)

theorem npages_le (hsz : sz ≤ 2 ^ 27) : npages sz ≤ 2 ^ 15 := by
  rw [npages_eq (by omega)]
  omega

/-- What is mapped before and after is in the same place, and has the same contents. -/
theorem Resized.memByte (hres : Resized pagetable sz f R h h' sz' f')
    (hi : Image h pagetable (npages sz) f R) (ha : a / pgsize < npages (min sz' sz)) :
    memByte h'.mem pagetable a = memByte h.mem pagetable a := by
  have hle := npages_le ((min_le_left sz' sz).trans hres.size)
  have hk : a / pgsize < 2 ^ 27 := by omega
  rw [Heap.memByte, Heap.memByte, hres.image.tab.maps _ hk, hi.tab.maps _ hk, hres.same.user _ ha]
  refine byteAt_congr ?_
  rw [page_div]
  exact hres.kept.agree.left.mem _ (mem_pagesAt (Nat.zero_le _) (by omega))

/-- The pages up to the break are mapped. -/
theorem Image.mapped_iff (hi : Image h pagetable (npages sz) f R) {k : ℕ} (hk : k < 2 ^ 26 - 2) :
    (leaf h.mem pagetable k).v = true ↔ k < npages sz := by
  rw [hi.tab.maps k (by omega)]
  refine ⟨fun hv => ?_, fun hlt => (hi.map.user k hlt).1⟩
  by_contra hge
  rw [hi.map.rest k (by omega) (by omega) fun ht => by have := ht.ge; omega] at hv
  cases hv

/-- A process that has the size it had is mapped as it was. -/
theorem Resized.leaf_eq (hres : Resized pagetable sz f R h h' sz f')
    (hi : Image h pagetable (npages sz) f R) {k : ℕ} (hk : k < 2 ^ 26) :
    leaf h'.mem pagetable k = leaf h.mem pagetable k := by
  have hsame := hres.same
  rw [min_self] at hsame
  rw [hres.image.tab.maps k (by omega), hi.tab.maps k (by omega)]
  by_cases hin : k < npages sz ∨ isTop k
  · exact hsame k hin
  · rw [not_or] at hin
    rw [hres.image.map.rest k (by omega) (by omega) hin.2, hi.map.rest k (by omega) (by omega) hin.2]

end Heap

open Heap

/-- **`sbrk` moves the break by `n` or not at all** exactly where the new size is not negative. It
does not panic. -/
theorem growproc_iff {h : Heap} {pagetable sz : ℕ} {f : ℕ → Pte} {R : Multiset ℕ} {n : ℤ}
    (hi : Heap.Image h pagetable (npages sz) f R) (hsz : sz ≤ 2 ^ 27) (hn : -2 ^ 31 ≤ n ∧ n < 2 ^ 31) :
    (∃ h' sz' r, h.growproc pagetable sz n = some (h', sz', r) ∧
      MovesBreak h pagetable sz n h' sz' r) ↔ 0 ≤ (sz : ℤ) + n := by
  obtain ⟨h', sz', r, f', hrun, hres, hr⟩ := growproc_spec hi hsz n
  rw [hrun]
  constructor
  · rintro ⟨h1, sz1, r1, hret, hmoves⟩
    obtain ⟨rfl, rfl, rfl⟩ := by simpa only [Option.some.injEq, Prod.mk.injEq] using hret
    rcases hmoves with ⟨-, hsum, -⟩ | ⟨hfail, -⟩
    · omega
    · -- only growing can fail
      rcases hr with ⟨-, -, hpos⟩ | ⟨hzero, -⟩
      · omega
      · rw [hzero] at hfail
        cases hfail
  · intro hpos
    refine ⟨h', sz', r, rfl, ?_⟩
    rcases hr with ⟨rfl, rfl, -⟩ | ⟨rfl, hsum⟩
    · exact Or.inr ⟨rfl, rfl, fun k hk => hres.leaf_eq hi hk, fun a ha => hres.memByte hi (by
        rw [min_self]
        exact page_lt_of_lt ha)⟩
    · have hnew : (sz' : ℤ) = sz + n := by
        rw [hsum]
        split
        · omega
        · split <;> omega
      refine Or.inl ⟨rfl, hnew, fun k hk => hres.image.mapped_iff hk, fun a ha => ?_, fun a ha ha' => ?_⟩
      · rw [Nat.min_comm] at ha
        exact hres.memByte hi (page_lt_npages ((min_le_left ..).trans hres.size) ha)
      · have hk := page_lt_of_lt ha'
        have hle := hres.image.np_le
        have hge : npages sz ≤ a / pgsize := (Nat.le_div_iff_mul_le (by decide)).2 ha
        rw [memByte, hres.image.tab.maps _ (by omega)]
        refine byteAt_filled_zero ?_
        rw [page_div]
        exact (hres.fresh _ hge hk).2

/-- The first process is one page large. -/
theorem firstProc : ∃ h pagetable trapframe f R,
    Heap.Image h pagetable (npages pgsize) f ({trapframe} + R) ∧ pgsize ≤ 2 ^ 27 := by
  have hrun : (MemSys.boot (phystop - 20) 0x80007 2 (by decide) (fun _ => filled 0)).any
      (fun m => decide ((m.table.proc 0).state ≠ .unused ∧ (m.space 0).sz = pgsize)) = true := by
    decide +kernel
  obtain ⟨m, hboot, hm⟩ := (Option.any_eq_true _ _).1 hrun
  obtain ⟨hused, hsz⟩ := of_decide_eq_true hm
  have hok := MemSys.boot_ok hboot
  obtain ⟨trapframe, pagetable, hv⟩ := hok.used 0 hused
  have hi := hok.image hv
  rw [hsz] at hi
  exact ⟨_, _, _, _, _, hi, by decide⟩

/-- A process of one page grows by a page. -/
theorem growproc_iff_onePage : ∃ h pagetable f R,
    Heap.Image h pagetable (npages pgsize) f R ∧ pgsize ≤ 2 ^ 27 ∧
    ∃ h' sz' r, h.growproc pagetable pgsize 4096 = some (h', sz', r) ∧
      MovesBreak h pagetable pgsize 4096 h' sz' r := by
  obtain ⟨h, pagetable, trapframe, f, R, hi, hsz⟩ := firstProc
  exact ⟨h, pagetable, f, {trapframe} + R, hi, hsz, (growproc_iff hi hsz (by decide)).2 (by decide)⟩

/-- **A process of one page is made smaller by two.** It is told that this was done. -/
theorem growproc_ignored : ∃ h pagetable f R,
    Heap.Image h pagetable (npages pgsize) f R ∧ pgsize ≤ 2 ^ 27 ∧
    h.growproc pagetable pgsize (-8192) = some (h, pgsize, 0) ∧
    ¬ MovesBreak h pagetable pgsize (-8192) h pgsize 0 := by
  obtain ⟨h, pagetable, trapframe, f, R, hi, hsz⟩ := firstProc
  refine ⟨h, pagetable, f, {trapframe} + R, hi, hsz, rfl, ?_⟩
  rintro (⟨-, hsum, -⟩ | ⟨hfail, -⟩)
  · cases hsum
  · cases hfail

end AudioPlayer
