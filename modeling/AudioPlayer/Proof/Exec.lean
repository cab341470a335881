import AudioPlayer.Proof.ExecStack
import AudioPlayer.Proof.Uvm

/-!
# The pages of `exec`

While `exec` builds the new page table, the old one is among the pages of others. At its end one
of the two is given back: the old one when `exec` succeeds, the new one on every other way out
(`exec_spec`). So are the pages of the arguments (`sysExec_spec`). The file can be anything. How it is
read does not matter (`execLoad_shows`).
-/

namespace AudioPlayer

open Function Radix Option

namespace Heap

variable {h h' : Heap} {pagetable np n k : ℕ} {f f' : ℕ → Pte} {R S : Multiset ℕ}
  {argv : List KString}

/-- What others hold changes. -/
theorem Image.frame {R' : Multiset ℕ} (hi : Image h pagetable np f R)
    (ha : Agree h h' (nodes sv39 h.mem 2 pagetable))
    (ho : Owns h' (nodes sv39 h.mem 2 pagetable + (pagesAt f 0 np + R'))) :
    Image h' pagetable np f R' :=
  ⟨hi.tab.frame ha ho, hi.map⟩

/-- The pages `S` of others, in front. -/
theorem Image.owns (hi : Image h pagetable np f (S + R)) :
    Owns h (S + (nodes sv39 h.mem 2 pagetable + (pagesAt f 0 np + R))) := by
  rw [add_left_comm S, add_left_comm S]
  exact hi.tab.owns

/-- Others take the pages `S`. -/
theorem Image.take (hi : Image h pagetable np f R)
    (ha : Agree h h' (nodes sv39 h.mem 2 pagetable + (pagesAt f 0 np + R)))
    (ho : Owns h' (S + (nodes sv39 h.mem 2 pagetable + (pagesAt f 0 np + R)))) :
    Image h' pagetable np f (S + R) := by
  refine hi.frame ha.left ?_
  rwa [add_left_comm S, add_left_comm S] at ho

/-- The memory of the process is written. -/
theorem Image.write {m' : PageMem} (hi : Image h pagetable np f R)
    (hm : ∀ q ∉ pagesAt f 0 np, m' q = h.mem q) :
    Image { h with mem := m' } pagetable np f R ∧ Agree h { h with mem := m' } R := by
  have ho := hi.tab.owns
  rw [add_left_comm] at ho
  have ha : Agree h { h with mem := m' } (nodes sv39 h.mem 2 pagetable + R) :=
    ⟨fun x hx => hm x fun hx' => ho.notMem hx' hx, rfl, rfl⟩
  exact ⟨hi.frame ha.left hi.tab.owns, ha.right⟩

/-- Where a page of the process lies. -/
theorem Image.walkaddr_eq (hi : Image h pagetable np f R) (hk : k < np) (hu : (f k).u = true) :
    walkaddr h.mem pagetable (k * pgsize) = (f k).page * pgsize ∧ (f k).page ≠ 0 := by
  have hle := hi.np_le
  obtain ⟨page, i, hw, hmem⟩ := hi.tab.walk_of_valid (by omega) (hi.map.user k hk).1
  -- the page is the allocator's, and not page 0
  have hrange := hi.tab.owns.mem_range (Multiset.mem_add.2 (Or.inr (Multiset.mem_add.2
    (Or.inl (mem_pagesAt (f := f) (Nat.zero_le k) (by omega : k < 0 + np))))))
  have hbase : 0x80000 ≤ h.base := h.base_ge
  refine ⟨?_, by omega⟩
  rw [walkaddr, if_neg (page_lt_maxva (by omega)), hw]
  simp only [hmem, (hi.map.user k hk).1, hu, Bool.not_true, Bool.false_eq_true, if_false]

/-! ## The program headers -/

section Load

variable {σ : Type} {read : FileReader σ} {P : σ → Prop} {s : σ}

/-- Reading keeps `P`, and stores at most the bytes it is asked for. -/
def Reads (read : FileReader σ) (P : σ → Prop) : Prop :=
  ∀ s off n s' bytes, P s → read s off n = some (s', bytes) → P s' ∧ bytes.length ≤ n

/-- `readi` panics. -/
def ReadPanics (read : FileReader σ) (P : σ → Prop) : Prop := ∃ s off n, P s ∧ read s off n = none

theorem reads_file (f : ExecFile) : Reads f.reader fun _ => True := by
  rintro s off n s' bytes - hrun
  obtain ⟨-, rfl⟩ := Prod.mk.inj (some.inj hrun)
  refine ⟨trivial, ?_⟩
  rw [Bytes.length_slice]
  unfold ExecFile.readi
  split
  · exact Nat.zero_le n
  · split <;> omega

/-- `loadseg` does not panic: its segment lies in the memory of the program. It writes there. -/
theorem loadsegLoop_spec (hread : Reads read P) (offset sz : ℕ) (hi : Image h pagetable np f R)
    (hu : Accessible np f) {j : ℕ} (hk : k + j + n ≤ np) (hs : P s) :
    (∃ m' s' ok, loadsegLoop read pagetable (k * pgsize) offset sz n h.mem s (j * pgsize) =
        some (m', s', ok) ∧ P s' ∧ ∀ q ∉ pagesAt f 0 np, m' q = h.mem q) ∨
      (loadsegLoop read pagetable (k * pgsize) offset sz n h.mem s (j * pgsize) = none ∧
        ReadPanics read P) := by
  induction n generalizing j h s with
  | zero => exact Or.inl ⟨h.mem, s, true, rfl, hs, fun _ _ => rfl⟩
  | succ n ih =>
    have hkj : k + j < np := by omega
    obtain ⟨hpa, hpage⟩ := hi.walkaddr_eq hkj (hu (k + j) hkj)
    unfold loadsegLoop
    dsimp only
    rw [← add_mul, hpa, if_neg (Nat.mul_ne_zero hpage (by decide))]
    generalize hbytes : (if sz - j * pgsize < pgsize then sz - j * pgsize else pgsize) = len
    cases hr : read s ((offset + j * pgsize) % 2 ^ 32) len with
    | none => exact Or.inr ⟨rfl, s, _, _, hs, hr⟩
    | some r =>
      obtain ⟨s', bytes⟩ := r
      obtain ⟨hs', hlen⟩ := hread _ _ _ _ _ hs hr
      rw [bind_some]
      dsimp only
      -- the bytes stay in the page
      have hwrite : ∀ q, q ∉ pagesAt f 0 np →
          writeBytes h.mem ((f (k + j)).page * pgsize) bytes q = h.mem q := by
        intro q hq
        refine writeBytes_of_ne fun i hi' => ?_
        have hlt : i < pgsize := by
          have : len ≤ pgsize := by rw [← hbytes]; split <;> omega
          omega
        rw [mul_comm, Nat.mul_add_div (by decide), Nat.div_eq_of_lt hlt, add_zero]
        rintro rfl
        exact hq (mem_pagesAt (Nat.zero_le _) (by omega))
      split
      · exact Or.inl ⟨_, s', false, rfl, hs', hwrite⟩
      · rw [← Nat.succ_mul]
        rcases ih (hi.write hwrite).1 (j := j + 1) (by omega) hs' with
          ⟨m', s'', ok, hrun, hs'', hm'⟩ | hfail
        · exact Or.inl ⟨m', s'', ok, hrun, hs'', fun q hq => (hm' q hq).trans (hwrite q hq)⟩
        · exact Or.inr hfail

theorem loadseg_spec (hread : Reads read P) (offset : ℕ) {sz : ℕ} (hi : Image h pagetable np f R)
    (hu : Accessible np f) (hk : k * pgsize + sz ≤ np * pgsize) (hs : P s) :
    (∃ m' s' ok, loadseg read h.mem pagetable (k * pgsize) s offset sz = some (m', s', ok) ∧ P s' ∧
        ∀ q ∉ pagesAt f 0 np, m' q = h.mem q) ∨
      (loadseg read h.mem pagetable (k * pgsize) s offset sz = none ∧ ReadPanics read P) := by
  have hrounds : k + 0 + (sz + (pgsize - 1)) / pgsize ≤ np := by
    change k * 4096 + sz ≤ np * 4096 at hk
    show k + 0 + (sz + 4095) / 4096 ≤ np
    omega
  have hloop := loadsegLoop_spec hread offset sz hi hu hrounds hs
  rwa [zero_mul] at hloop

/-- **The program headers.** Whatever they say, what is mapped is counted by the size. -/
theorem loadLoop_spec (hread : Reads read P) (n off : ℕ) {sz : ℕ}
    (hi : Image h pagetable (npages sz) f R) (hsz : sz ≤ 2 ^ 27) (hu : Accessible (npages sz) f)
    (hs : P s) :
    (∃ h' s' sz' ok f', loadLoop read pagetable n h s off sz = some (h', s', sz', ok) ∧ P s' ∧
        Agree h h' R ∧ Image h' pagetable (npages sz') f' R ∧ sz' ≤ 2 ^ 27) ∨
      (loadLoop read pagetable n h s off sz = none ∧ ReadPanics read P) := by
  induction n generalizing h f off sz s with
  | zero => exact Or.inl ⟨h, s, sz, true, f, rfl, hs, Agree.refl _ _, hi, hsz⟩
  | succ n ih =>
    unfold loadLoop
    dsimp only
    cases hr : read s off proghdrSize with
    | none => exact Or.inr ⟨rfl, s, _, _, hs, hr⟩
    | some r =>
    obtain ⟨s1, hdr⟩ := r
    obtain ⟨hs1, -⟩ := hread _ _ _ _ _ hs hr
    rw [bind_some]
    dsimp only
    have hstop : ∃ h' s' sz' ok f', some (h, s1, sz, false) = some (h', s', sz', ok) ∧ P s' ∧
        Agree h h' R ∧ Image h' pagetable (npages sz') f' R ∧ sz' ≤ 2 ^ 27 :=
      ⟨h, s1, sz, false, f, rfl, hs1, Agree.refl _ _, hi, hsz⟩
    by_cases hlen : hdr.length ≠ proghdrSize
    · rw [if_pos hlen]
      exact Or.inl hstop
    rw [if_neg hlen]
    generalize hph : Proghdr.ofBytes (Bytes.ofList hdr) = ph
    by_cases htype : ph.type ≠ 1
    · rw [if_pos htype]
      exact ih _ hi hsz hu hs1
    rw [if_neg htype]
    by_cases hfile : ph.memsz < ph.filesz
    · rw [if_pos hfile]
      exact Or.inl hstop
    rw [if_neg hfile]
    by_cases hwrap : (ph.vaddr + ph.memsz) % 2 ^ 64 < ph.vaddr
    · rw [if_pos hwrap]
      exact Or.inl hstop
    rw [if_neg hwrap]
    -- the end of the segment does not wrap around
    have hend : (ph.vaddr + ph.memsz) % 2 ^ 64 = ph.vaddr + ph.memsz := by
      have hv : ph.vaddr < 2 ^ 64 := hph ▸ Bytes.load_lt 8 _ _
      have hm : ph.memsz < 2 ^ 64 := hph ▸ Bytes.load_lt 8 _ _
      omega
    obtain ⟨h1, r, f1, hrun, hkept, hi1, hsame, hfresh, hr, hr27⟩ := uvmalloc_spec _ hi
      (show sz ≤ 2 ^ 63 by omega) rfl
    have ha1 := hkept.agree.right
    have hu1 := hfresh.accessible hsame hu
    rw [hend, hrun, bind_some]
    dsimp only
    by_cases hr0 : r = 0
    · rw [if_pos hr0] at hi1 ⊢
      exact Or.inl ⟨h1, s1, sz, false, f1, rfl, hs1, ha1, hi1, hsz⟩
    rw [if_neg hr0] at hi1 hu1 ⊢
    by_cases halign : ph.vaddr % pgsize ≠ 0
    · rw [if_pos halign]
      exact Or.inl ⟨h1, s1, r, false, f1, rfl, hs1, ha1, hi1, hr27⟩
    rw [if_neg halign]
    have hva : ph.vaddr = ph.vaddr / pgsize * pgsize := by
      rw [not_not] at halign
      exact (Nat.div_mul_cancel (Nat.dvd_of_mod_eq_zero halign)).symm
    have hin : ph.vaddr / pgsize * pgsize + ph.filesz % 2 ^ 32 ≤ npages r * pgsize := by
      have hnp := npages_eq (show r ≤ 2 ^ 63 by omega)
      rw [← hva]
      show ph.vaddr + ph.filesz % 2 ^ 32 ≤ npages r * 4096
      omega
    have hload := loadseg_spec hread (ph.off % 2 ^ 32) hi1 hu1 hin hs1
    rw [← hva] at hload
    rcases hload with ⟨m', s2, ok, hload, hs2, hm'⟩ | ⟨hload, hfail⟩
    · rw [hload, bind_some]
      obtain ⟨hi2, ha2⟩ := hi1.write hm'
      have ha2 := ha1.trans ha2
      dsimp only
      cases ok with
      | false => exact Or.inl ⟨_, s2, r, false, f1, rfl, hs2, ha2, hi2, hr27⟩
      | true =>
        rcases ih ((off + proghdrSize) % 2 ^ 32) hi2 hr27 hu1 hs2 with
          ⟨h', s', sz', ok, f', hrun', hs', ha', hi', hsz'⟩ | hfail
        · exact Or.inl ⟨h', s', sz', ok, f', hrun', hs', ha2.trans ha', hi', hsz'⟩
        · exact Or.inr hfail
    · rw [hload]
      exact Or.inr ⟨rfl, hfail⟩

/-- What `exec` holds when it is done with the file, next to the pages `R`. -/
def Loaded (h : Heap) (l : ExecLoad) (R : Multiset ℕ) : Prop :=
  (l.pagetable = none ∧ l.ok = false ∧ Owns h R) ∨
    ∃ pagetable f, l.pagetable = some pagetable ∧ Image h pagetable (npages l.sz) f R ∧ l.sz ≤ 2 ^ 27

/-- **`exec` up to the end of the program headers.** It panics only where `readi` does. -/
theorem execLoad_spec (hread : Reads read P) (trapframe : ℕ) (ho : Owns h R) (hs : P s) :
    (∃ h' s' l, h.execLoad read trapframe s = some (h', s', l) ∧ P s' ∧ Agree h h' R ∧
        Loaded h' l R) ∨
      (h.execLoad read trapframe s = none ∧ ReadPanics read P) := by
  unfold execLoad
  cases hr : read s 0 elfhdrSize with
  | none => exact Or.inr ⟨rfl, s, _, _, hs, hr⟩
  | some r =>
    obtain ⟨s1, hdr⟩ := r
    obtain ⟨hs1, -⟩ := hread _ _ _ _ _ hs hr
    rw [bind_some]
    dsimp only
    have hstop : ∃ h' s' l, some (h, s1, (⟨none, 0, 0, false⟩ : ExecLoad)) = some (h', s', l) ∧ P s' ∧
        Agree h h' R ∧ Loaded h' l R :=
      ⟨h, s1, _, rfl, hs1, Agree.refl _ _, Or.inl ⟨rfl, rfl, ho⟩⟩
    by_cases hlen : hdr.length ≠ elfhdrSize
    · rw [if_pos hlen]
      exact Or.inl hstop
    rw [if_neg hlen]
    generalize Elfhdr.ofBytes (Bytes.ofList hdr) = elf
    by_cases hmagic : elf.magic ≠ elfMagic
    · rw [if_pos hmagic]
      exact Or.inl hstop
    rw [if_neg hmagic]
    obtain ⟨h1, r, hrun, ha1, ⟨rfl, ho1⟩ | ⟨pagetable, f1, rfl, hi1⟩⟩ := procPagetable_spec trapframe ho
    · rw [hrun, bind_some]
      exact Or.inl ⟨h1, s1, _, rfl, hs1, ha1, Or.inl ⟨rfl, rfl, ho1⟩⟩
    rw [hrun, bind_some]
    dsimp only
    have hempty : Image h1 pagetable (npages 0) f1 R := hi1
    rcases loadLoop_spec hread elf.phnum (elf.phoff % 2 ^ 32) hempty (Nat.zero_le _)
        (fun k hk => absurd hk (Nat.not_lt_zero k)) hs1 with
      ⟨h2, s2, sz, ok, f2, hload, hs2, ha2, hi2, hsz2⟩ | ⟨hload, hfail⟩
    · rw [hload]
      exact Or.inl ⟨h2, s2, _, rfl, hs2, ha1.trans ha2, Or.inr ⟨pagetable, f2, rfl, hi2, hsz2⟩⟩
    · rw [hload]
      exact Or.inr ⟨rfl, hfail⟩

/-! ## Readers of one file -/

/-- Reading gives the contents of `file`, and keeps `P`. -/
def Shows (read : FileReader σ) (P : σ → Prop) (file : ExecFile) : Prop :=
  ∀ s off n, P s → ∃ s', read s off n = some (s', Bytes.slice file.data off (file.readi off n)) ∧ P s'

variable {file : ExecFile}

theorem loadsegLoop_shows (hread : Shows read P file) (va offset sz n i : ℕ) (m : PageMem) (hs : P s) :
    ∃ s', P s' ∧ loadsegLoop read pagetable va offset sz n m s i =
      (loadsegLoop file.reader pagetable va offset sz n m () i).map fun r => (r.1, s', r.2.2) := by
  induction n generalizing m s i with
  | zero => exact ⟨s, hs, rfl⟩
  | succ n ih =>
    unfold loadsegLoop
    dsimp only
    split
    · exact ⟨s, hs, rfl⟩
    · generalize (if sz - i < pgsize then sz - i else pgsize) = len
      obtain ⟨s', hr, hs'⟩ := hread s ((offset + i) % 2 ^ 32) len hs
      rw [hr, ExecFile.reader, bind_some, bind_some]
      dsimp only
      split
      · exact ⟨s', hs', rfl⟩
      · exact ih _ _ hs'

theorem loadLoop_shows (hread : Shows read P file) (n off sz : ℕ) (h : Heap) (hs : P s) :
    ∃ s', P s' ∧ loadLoop read pagetable n h s off sz =
      (loadLoop file.reader pagetable n h () off sz).map fun r => (r.1, s', r.2.2) := by
  induction n generalizing h s off sz with
  | zero => exact ⟨s, hs, rfl⟩
  | succ n ih =>
    obtain ⟨s1, hr, hs1⟩ := hread s off proghdrSize hs
    unfold loadLoop
    dsimp only
    rw [hr, ExecFile.reader, bind_some, bind_some]
    dsimp only
    generalize Bytes.slice file.data off (file.readi off proghdrSize) = hdr
    by_cases hlen : hdr.length ≠ proghdrSize
    · rw [if_pos hlen, if_pos hlen]
      exact ⟨s1, hs1, rfl⟩
    rw [if_neg hlen, if_neg hlen]
    generalize Proghdr.ofBytes (Bytes.ofList hdr) = ph
    by_cases htype : ph.type ≠ 1
    · rw [if_pos htype, if_pos htype]
      exact ih _ _ _ hs1
    rw [if_neg htype, if_neg htype]
    by_cases hfile : ph.memsz < ph.filesz
    · rw [if_pos hfile, if_pos hfile]
      exact ⟨s1, hs1, rfl⟩
    rw [if_neg hfile, if_neg hfile]
    by_cases hwrap : (ph.vaddr + ph.memsz) % 2 ^ 64 < ph.vaddr
    · rw [if_pos hwrap, if_pos hwrap]
      exact ⟨s1, hs1, rfl⟩
    rw [if_neg hwrap, if_neg hwrap]
    cases h.uvmalloc pagetable sz ((ph.vaddr + ph.memsz) % 2 ^ 64) with
    | none => exact ⟨s1, hs1, rfl⟩
    | some r =>
      obtain ⟨h1, sz1⟩ := r
      rw [bind_some, bind_some]
      dsimp only
      by_cases hsz : sz1 = 0
      · rw [if_pos hsz, if_pos hsz]
        exact ⟨s1, hs1, rfl⟩
      rw [if_neg hsz, if_neg hsz]
      by_cases halign : ph.vaddr % pgsize ≠ 0
      · rw [if_pos halign, if_pos halign]
        exact ⟨s1, hs1, rfl⟩
      rw [if_neg halign, if_neg halign]
      obtain ⟨s2, hs2, hload⟩ := loadsegLoop_shows hread ph.vaddr (ph.off % 2 ^ 32)
        (ph.filesz % 2 ^ 32) ((ph.filesz % 2 ^ 32 + (pgsize - 1)) / pgsize) 0 h1.mem hs1
      rw [loadseg, loadseg, hload]
      cases loadsegLoop file.reader pagetable ph.vaddr (ph.off % 2 ^ 32) (ph.filesz % 2 ^ 32)
          ((ph.filesz % 2 ^ 32 + (pgsize - 1)) / pgsize) h1.mem () 0 with
      | none => exact ⟨s2, hs2, rfl⟩
      | some r =>
        obtain ⟨m, -, _ | _⟩ := r
        · exact ⟨s2, hs2, rfl⟩
        · exact ih _ _ _ hs2

/-- **A reader of `file` loads what `file` says.** -/
theorem execLoad_shows (hread : Shows read P file) (h : Heap) (trapframe : ℕ) (hs : P s) :
    ∃ s', h.execLoad read trapframe s =
      (h.execLoad file.reader trapframe ()).map fun r => (r.1, s', r.2.2) := by
  obtain ⟨s1, hr, hs1⟩ := hread s 0 elfhdrSize hs
  unfold execLoad
  rw [hr, ExecFile.reader, bind_some, bind_some]
  dsimp only
  generalize Bytes.slice file.data 0 (file.readi 0 elfhdrSize) = hdr
  by_cases hlen : hdr.length ≠ elfhdrSize
  · rw [if_pos hlen, if_pos hlen]
    exact ⟨s1, rfl⟩
  rw [if_neg hlen, if_neg hlen]
  generalize Elfhdr.ofBytes (Bytes.ofList hdr) = elf
  by_cases hmagic : elf.magic ≠ elfMagic
  · rw [if_pos hmagic, if_pos hmagic]
    exact ⟨s1, rfl⟩
  rw [if_neg hmagic, if_neg hmagic]
  rcases h.procPagetable trapframe with _ | ⟨h1, _ | pagetable⟩
  · exact ⟨s1, rfl⟩
  · exact ⟨s1, rfl⟩
  · rw [bind_some, bind_some]
    dsimp only
    obtain ⟨s2, -, hload⟩ := loadLoop_shows hread elf.phnum (elf.phoff % 2 ^ 32)
      0 h1 hs1
    refine ⟨s2, ?_⟩
    rw [hload, map_map, map_map]
    rfl

end Load

theorem execBad_spec {l : ExecLoad} (hl : Loaded h l R) :
    ∃ h', h.execBad l.pagetable l.sz = some h' ∧ Owns h' R ∧ Agree h h' R := by
  rcases hl with ⟨hpt, -, ho⟩ | ⟨pagetable, f, hpt, hi, hsz⟩
  · exact ⟨h, by rw [hpt]; rfl, ho, Agree.refl _ _⟩
  · rw [hpt]
    exact procFreepagetable_spec hi (by omega) rfl

/-! ## The stack and the new image -/

/-- The page of the stack, below the end of the memory. -/
theorem Image.stackPage (hi : Image h pagetable (np + 1) f R) (hu : (f np).u = true) :
    StackPage h.mem pagetable (np * pgsize) (f np).page := by
  obtain ⟨hwalk, hpos⟩ := hi.walkaddr_eq (Nat.lt_succ_self np) hu
  refine ⟨pgRoundDown_page np, hwalk, hpos, fun hmem => ?_⟩
  refine hi.tab.owns.notMem hmem (Multiset.mem_add.2 (Or.inl ?_))
  exact mem_pagesAt (Nat.zero_le np) (by omega)

/-- The page below the stack, which the process cannot use. -/
theorem Image.guard (hi : Image h pagetable np f R) (hk : k < np) (hu : (f k).u = false) {a : ℕ}
    (ha : a / pgsize = k) : ¬ UserPage h.mem pagetable a := by
  have hle := hi.np_le
  obtain ⟨page, i, hw, hmem⟩ := hi.tab.walk_of_valid (by omega) (hi.map.user k hk).1
  rw [← ha, show a / pgsize * pgsize = pgRoundDown a from rfl, walk_pgRoundDown] at hw
  rintro ⟨-, hany⟩
  rw [hw] at hany
  simp [hmem, hu] at hany

/-- What a new image starts with: its arguments in the last page, and below it a page that the program
cannot use. -/
structure NewStack (h : Heap) (pagetable sz sp : ℕ) (argv : List KString) : Prop where
  aligned : sz % pgsize = 0
  two : 2 * pgsize ≤ sz
  args : ∃ ps, ArgvAt h.mem pagetable sz sp argv ps
  mapped : ∀ a, sz - pgsize ≤ a → a < sz → UserPage h.mem pagetable a
  guard : ∀ a, sz - 2 * pgsize ≤ a → a < sz - pgsize → ¬ UserPage h.mem pagetable a

theorem NewStack.congr {sz sp : ℕ} {page : ℕ}
    (hn : NewStack h pagetable sz sp argv)
    (hm : ∀ x ∈ nodes sv39 h.mem 2 pagetable, h'.mem x = h.mem x)
    (hstack : StackPage h.mem pagetable (sz - pgsize) page)
    (hpage : h'.mem page = h.mem page) : NewStack h' pagetable sz sp argv := by
  have hstack' : StackPage h'.mem pagetable (sz - pgsize) page := by
    refine ⟨hstack.aligned, ?_, hstack.pos, ?_⟩
    · rw [walkaddr_congr hm, hstack.walk]
    · rw [nodes_congr hm]
      exact hstack.apart
  obtain ⟨ps, hargs⟩ := hn.args
  refine ⟨hn.aligned, hn.two, ⟨ps, hargs.congr fun a hlow hhigh => ?_⟩, fun a hlow hhigh => ?_,
    fun a hlow hhigh => ?_⟩
  · obtain ⟨i, rfl⟩ : ∃ i, a = sz - pgsize + i := ⟨a - (sz - pgsize), by omega⟩
    have hi : i < pgsize := by
      have := hn.two
      omega
    have hdiv : (page * pgsize + i) / pgsize = page := by
      rw [mul_comm, Nat.mul_add_div (by decide), Nat.div_eq_of_lt hi, add_zero]
    rw [hstack'.userMem_eq hi, hstack.userMem_eq hi, byteAt, byteAt, hdiv, hpage]
  · rw [userPage_congr hm]
    exact hn.mapped a hlow hhigh
  · rw [userPage_congr hm]
    exact hn.guard a hlow hhigh

/-- `exec` fails behind the program headers, and gives the new page table back. -/
def Undone (R : Multiset ℕ) (h : Heap) (r : Option (Heap × Option (ℕ × ℕ))) : Prop :=
  ∃ h', r = some (h', none) ∧ Owns h' R ∧ Agree h h' R

/-- `exec` has everything that the new image needs. -/
def Stacked (R : Multiset ℕ) (h : Heap) (pagetable : ℕ) (argv : List KString)
    (r : Option (Heap × Option (ℕ × ℕ))) : Prop :=
  ∃ h' sz sp f', r = some (h', some (sz, sp)) ∧
    Image h' pagetable (npages sz) f' R ∧ Agree h h' R ∧ sz ≤ 2 ^ 27 ∧
    (∃ page ∈ pagesAt f' 0 (npages sz), StackPage h'.mem pagetable (sz - pgsize) page) ∧
    NewStack h' pagetable sz sp argv

/-- **`exec` behind the program headers.** There is no memory for the stack, or it depends on the
arguments only. -/
theorem execStack_spec {sz : ℕ} (hi : Image h pagetable (npages sz) f R) (hsz : sz ≤ 2 ^ 27) :
    (∀ argv, Undone R h (h.execStack pagetable sz argv)) ∨
    ∀ argv, (argv.length = maxarg ∧ h.execStack pagetable sz argv = none) ∨
      (¬ StackFits argv ∧ Undone R h (h.execStack pagetable sz argv)) ∨
      (StackFits argv ∧ Stacked R h pagetable argv (h.execStack pagetable sz argv)) := by
  have hround := pgRoundUp_npages (show sz ≤ 2 ^ 63 by omega)
  have hle := hi.np_le
  have hsame : npages (pgRoundUp sz) = npages sz := by rw [hround, npages_page (by omega)]
  have hpages : npages sz * pgsize ≤ 2 ^ 27 := by
    show npages sz * 4096 ≤ 2 ^ 27
    omega
  have hbound : pgRoundUp sz ≤ 2 ^ 63 := by omega
  obtain ⟨h1, r, f1, hrun, hkept, hi1, -, hfresh, hr, hr27⟩ := uvmalloc_spec _ hi hbound hsame.symm
  have ha1 := hkept.agree.right
  unfold execStack
  dsimp only
  rw [hrun]
  simp only [bind_some]
  by_cases hr0 : r = 0
  · refine Or.inl fun argv => ?_
    rw [if_pos hr0] at hi1 ⊢
    rw [← hsame] at hi1
    obtain ⟨h2, hbad, ho, ha⟩ := execBad_spec (l := ⟨some pagetable, pgRoundUp sz, 0, true⟩)
      (Or.inr ⟨pagetable, f1, rfl, hi1, hround.trans_le hpages⟩)
    exact ⟨h2, by rw [hbad]; rfl, ho, ha1.trans ha⟩
  refine Or.inr fun argv => ?_
  rw [if_neg hr0] at hi1 hfresh ⊢
  -- the guard page is the first one of the stack
  have hr' : r = (npages sz + 2) * pgsize := by
    obtain hr | hr := hr
    · exact absurd hr hr0
    · rw [hr, hround, add_mul, max_eq_left (Nat.le_add_right _ _)]
  have hnr : npages r = npages sz + 2 := by rw [hr', npages_page (by omega)]
  have hguard : r - 2 * pgsize = npages sz * pgsize := by rw [hr', add_mul, Nat.add_sub_cancel]
  rw [hnr] at hi1 hfresh
  obtain ⟨h2, hclear, hi2, hkept2⟩ := uvmclear_spec (k := npages sz) hi1 (by omega)
  have ha2 := ha1.trans hkept2.agree
  rw [hguard, hclear, bind_some]
  set f2 := update f1 (npages sz) { f1 (npages sz) with u := false } with hf2
  -- the stack is the second one
  have hstack := (show Image h2 pagetable (npages sz + 1 + 1) f2 R from hi2).stackPage (by
    rw [hf2, update_of_ne (by omega)]
    exact (hfresh (npages sz + 1) (by omega) (by omega)).1)
  have htop : (npages sz + 1) * pgsize + pgsize = r := by
    rw [hr', ← Nat.succ_mul]
  obtain ⟨hargs, hpush⟩ | ⟨m', sp, hpush, hpushed, hfits, hfails⟩ := pushStack_spec hstack argv
  · rw [htop] at hpush
    exact Or.inl ⟨hargs, by rw [hpush]; rfl⟩
  rw [htop] at hpush hfits
  rw [hpush, bind_some]
  dsimp only
  have hframe : ∀ q, q ∉ pagesAt f2 0 (npages sz + 2) → m' q = h2.mem q := by
    refine fun q hq => hpushed.frame q ?_
    rintro rfl
    exact hq (mem_pagesAt (Nat.zero_le _) (by omega))
  obtain ⟨hi3, ha3⟩ := hi2.write hframe
  have ha3 := ha2.trans ha3
  right
  by_cases hfit : StackFits argv
  · obtain ⟨p, ps, rfl, hargv⟩ := hfits hfit
    refine Or.inr ⟨hfit, { h2 with mem := m' }, r, p, f2, rfl, by rw [hnr]; exact hi3, ha3, hr27,
      ⟨_, mem_pagesAt (Nat.zero_le (npages sz + 1)) (by omega), ?_⟩,
      ?_, ?_, ⟨ps, hargv⟩, fun a hlow hhigh => ?_, fun a hlow hhigh => ?_⟩
    · rw [← htop, Nat.add_sub_cancel]
      exact hpushed.stack
    · rw [hr', Nat.mul_mod_left]
    · rw [hr', add_mul]
      exact Nat.le_add_left ..
    · rw [← htop, Nat.add_sub_cancel] at hlow
      obtain ⟨i, rfl⟩ := Nat.exists_eq_add_of_le hlow
      exact (mapped_iff.1 (hpushed.stack.mapped (by omega))).1
    · refine hi3.guard (k := npages sz) (by omega) (by rw [hf2, update_self]) ?_
      rw [hguard] at hlow
      have hhigh' : a < (npages sz + 1) * pgsize := by omega
      exact Nat.div_eq_of_lt_le hlow hhigh'
  · rw [hfails hfit]
    obtain ⟨h4, hbad, ho, ha⟩ := execBad_spec (l := ⟨some pagetable, r, 0, true⟩)
      (Or.inr ⟨pagetable, f2, rfl, by rw [hnr]; exact hi3, hr27⟩)
    exact Or.inl ⟨hfit, h4, by dsimp only; rw [hbad]; rfl, ho, ha3.trans ha⟩

/-- The pages of a page table, of the memory below it and of the others. -/
def Image.held (h : Heap) (pagetable np : ℕ) (f : ℕ → Pte) (R : Multiset ℕ) : Multiset ℕ :=
  nodes sv39 h.mem 2 pagetable + (pagesAt f 0 np + R)

theorem Image.held_add : Image.held h pagetable np f (S + R) = S + Image.held h pagetable np f R := by
  unfold Image.held
  rw [add_left_comm (pagesAt f 0 np), add_left_comm]

/-- The pages that are others' to an image, seen from one of those others. -/
theorem Image.swap {old m : ℕ} {g : ℕ → Pte} {h0 : Heap}
    (hi : Image h pagetable np f (Image.held h0 old m g R)) :
    Owns h (nodes sv39 h0.mem 2 old + (pagesAt g 0 m + Image.held h pagetable np f R)) := by
  have ho := hi.tab.owns
  unfold Image.held at ho ⊢
  rwa [← add_assoc, add_left_comm, add_left_comm _ (pagesAt g 0 m), add_assoc] at ho

/-- How `exec` leaves the heap: on -1 the process keeps what it has, else it has a new image and its
trapframe was written. -/
def Execed (trapframe old np : ℕ) (f : ℕ → Pte) (R : Multiset ℕ) (h h' : Heap) : Option ExecImage → Prop
  | none => Owns h' (Image.held h old np f ({trapframe} + R)) ∧
    Agree h h' (Image.held h old np f ({trapframe} + R))
  | some image =>
    ∃ f', Image h' image.pagetable (npages image.sz) f' ({trapframe} + R) ∧ Agree h h' R ∧
      image.sz ≤ 2 ^ 27

/-- **The old image is freed at last**, with the new one among the pages of others. -/
theorem Image.freeOld {old oldsz m : ℕ} {h1 : Heap} (hi : Image h old m f R) (hsz : oldsz ≤ 2 ^ 63)
    (hm : m = npages oldsz) (ha : Agree h h1 (nodes sv39 h.mem 2 old))
    (hi1 : Image h1 pagetable np f' (Image.held h old m f R)) :
    ∃ h', h1.procFreepagetable old oldsz = some h' ∧ Image h' pagetable np f' R ∧
      Agree h1 h' (Image.held h1 pagetable np f' R) := by
  obtain ⟨h', hfree, ho, ha'⟩ := procFreepagetable_spec (hi.frame ha hi1.swap) hsz hm
  exact ⟨h', hfree, hi1.frame ha'.left ho, ha'⟩

theorem setPte_self (h : Heap) (x : ℕ) (i : Fin 512) (pte : Pte) : (h.setPte x i pte).mem x i = pte := by
  show update h.mem x (update (h.mem x) i pte) x i = pte
  rw [update_self, update_self]

theorem setPte_of_ne (h : Heap) (x : ℕ) {i j : Fin 512} (hij : j ≠ i) (pte : Pte) :
    (h.setPte x i pte).mem x j = h.mem x j := by
  show update h.mem x (update (h.mem x) i pte) x j = _
  rw [update_self, update_of_ne hij]

/-- **`exec` commits to the new image**, and the registers point to its stack. -/
theorem execCommit_spec {tf old oldsz m : ℕ} {h1 : Heap} (image : ExecImage)
    (hi : Image h old m f ({tf} + R)) (hsz : oldsz ≤ 2 ^ 63) (hm : m = npages oldsz)
    (ha : Agree h h1 (nodes sv39 h.mem 2 old))
    (hi1 : Image h1 pagetable np f' (Image.held h old m f ({tf} + R))) :
    ∃ h', h1.execCommit tf old oldsz image = some h' ∧ Image h' pagetable np f' ({tf} + R) ∧
      Agree h1 h' (Image.held h1 pagetable np f' R) ∧
      (h'.mem tf trapA1).toNat = image.sp ∧ (h'.mem tf trapSp).toNat = image.sp := by
  -- the trapframe is in neither image
  have htf : tf ∉ nodes sv39 h.mem 2 old + (pagesAt f 0 m + Image.held h1 pagetable np f' R) := by
    have ho := hi1.swap
    rw [Image.held_add, add_left_comm (pagesAt f 0 m), add_left_comm] at ho
    exact ho.notMem (Multiset.mem_singleton_self tf)
  obtain ⟨hold, hrest⟩ := not_or.1 (mt Multiset.mem_add.2 htf)
  have hnew := (not_or.1 (mt Multiset.mem_add.2 hrest)).2
  unfold execCommit
  dsimp only
  set h2 := ((h1.setPte tf trapA1 (.ofNat image.sp)).setPte tf trapEpc (.ofNat image.entry)).setPte tf
    trapSp (.ofNat image.sp) with hh2
  have hwrite {M : Multiset ℕ} (hM : tf ∉ M) : Agree h1 h2 M :=
    ((agree_setPage hM).trans (agree_setPage hM)).trans (agree_setPage hM)
  have ha2 := hwrite hnew
  have hi2 := hi1.frame ha2.left (show Owns h2 _ from hi1.tab.owns)
  obtain ⟨h', hfree, hi', ha'⟩ := hi.freeOld hsz hm (ha.trans (hwrite hold)) hi2
  have htrap : h'.mem tf = h2.mem tf := ha'.right.right.left.mem tf (Multiset.mem_singleton_self tf)
  have hnodes : nodes sv39 h2.mem 2 pagetable = nodes sv39 h1.mem 2 pagetable := nodes_congr ha2.left.mem
  refine ⟨h', hfree, hi', ha2.trans ?_, ?_, ?_⟩
  · rw [Image.held_add, Image.held, hnodes] at ha'
    exact ha'.right
  · rw [htrap, hh2, setPte_of_ne _ _ (by decide), setPte_of_ne _ _ (by decide), setPte_self,
      Pte.toNat_ofNat]
  · rw [htrap, hh2, setPte_self, Pte.toNat_ofNat]

/-- **`exec` loses no page.** -/
theorem exec_spec {trapframe old oldsz : ℕ} (file : Option ExecFile)
    (hargs : argv.length ≠ maxarg) (hi : Image h old np f ({trapframe} + R)) (hsz : oldsz ≤ 2 ^ 63)
    (hnp : np = npages oldsz) :
    ∃ h' image, h.exec trapframe old oldsz file argv = some (h', image) ∧
      Execed trapframe old np f R h h' image := by
  unfold exec
  cases file with
  | none => exact ⟨h, none, rfl, hi.tab.owns, Agree.refl _ _⟩
  | some file =>
    dsimp only
    rcases execLoad_spec (reads_file file) trapframe hi.tab.owns trivial with
      ⟨h1, s, l, hload, -, ha1, hl⟩ | ⟨-, hfail⟩
    · rw [hload, bind_some]
      dsimp only
      have hbad : ∃ h' image, ((h1.execBad l.pagetable l.sz).map fun h => (h, (none : Option ExecImage))) =
          some (h', image) ∧ Execed trapframe old np f R h h' image := by
        obtain ⟨h2, hbad, ho2, ha2⟩ := execBad_spec hl
        exact ⟨h2, none, by rw [hbad]; rfl, ho2, ha1.trans ha2⟩
      rcases id hl with ⟨hpt, -, -⟩ | ⟨pagetable, f1, hpt, hi1, hsz1⟩
      · rw [hpt] at hbad ⊢
        exact hbad
      · cases hok : l.ok with
        | false =>
          rw [hpt] at hbad ⊢
          exact hbad
        | true =>
          rw [hpt]
          dsimp only
          have hcases : Undone (Image.held h old np f ({trapframe} + R)) h1
                (h1.execStack pagetable l.sz argv) ∨
              Stacked (Image.held h old np f ({trapframe} + R)) h1 pagetable argv
                (h1.execStack pagetable l.sz argv) := by
            rcases execStack_spec hi1 hsz1 with hno | hstack
            · exact Or.inl (hno argv)
            · rcases hstack argv with ⟨hmax, -⟩ | ⟨-, hno⟩ | ⟨-, hyes⟩
              · exact absurd hmax hargs
              · exact Or.inl hno
              · exact Or.inr hyes
          rcases hcases with ⟨h2, hrun, ho2, ha2⟩ | ⟨h2, sz, sp, f', hrun, hi2, ha2, hsz', -⟩
          · rw [hrun, bind_some]
            exact ⟨h2, none, rfl, ho2, ha1.trans ha2⟩
          · have ha2 := ha1.trans ha2
            obtain ⟨h', hcommit, hi', ha', -⟩ := execCommit_spec ⟨pagetable, sz, l.entry, sp, argv.length⟩
              hi hsz hnp ha2.left hi2
            rw [hrun, bind_some]
            dsimp only
            rw [hcommit]
            exact ⟨h', _, rfl, f', hi', ha2.right.right.right.trans ha'.right.right, hsz'⟩
    · obtain ⟨s, off, n, -, hnone⟩ := hfail
      cases hnone

/-- The page of an argument is `kalloc`'s, also when its string cannot be read. -/
theorem fetchArgs_spec (fetch : ℕ → ArgFetch) (n i : ℕ) (ho : Owns h R) :
    ∃ h' pages argv, fetchArgs fetch n i h = (h', pages, argv) ∧
      Owns h' ((pages : Multiset ℕ) + R) ∧ Agree h h' R := by
  induction n generalizing h i R with
  | zero => exact ⟨h, [], none, rfl, by rwa [Multiset.coe_nil, zero_add], Agree.refl _ _⟩
  | succ n ih =>
    have hnone {h : Heap} (ho : Owns h R) : Owns h ((([] : List ℕ) : Multiset ℕ) + R) := by
      rwa [Multiset.coe_nil, zero_add]
    obtain ⟨h1, halloc, ha1⟩ := kalloc_spec ho
    unfold fetchArgs
    cases fetch i with
    | badAddr => exact ⟨h, [], none, rfl, hnone ho, Agree.refl _ _⟩
    | null => exact ⟨h, [], some [], rfl, hnone ho, Agree.refl _ _⟩
    | badStr =>
      obtain ⟨hk, ho1⟩ | ⟨page, hk, ho1⟩ := halloc
      · rw [hk]
        exact ⟨h1, [], none, rfl, hnone ho1, ha1⟩
      · rw [hk]
        exact ⟨h1, [page], none, rfl, ho1, ha1⟩
    | str s hlen =>
      obtain ⟨hk, ho1⟩ | ⟨page, hk, ho1⟩ := halloc
      · rw [hk]
        exact ⟨h1, [], none, rfl, hnone ho1, ha1⟩
      · obtain ⟨h', pages, argv, hrun, ho', ha'⟩ := ih (i + 1) ho1
        rw [hk]
        dsimp only
        rw [hrun]
        refine ⟨h', page :: pages, _, rfl, ?_, ha1.trans ha'.right⟩
        rw [← Multiset.cons_coe, ← Multiset.singleton_add, add_assoc, add_left_comm]
        exact ho'

/-- There is room for the null pointer behind the arguments. -/
theorem fetchArgs_length {fetch : ℕ → ArgFetch} {n i : ℕ}
    (hrun : (fetchArgs fetch n i h).2.2 = some argv) : argv.length < n := by
  induction n generalizing h i argv with
  | zero => cases hrun
  | succ n ih =>
    unfold fetchArgs at hrun
    cases hf : fetch i with
    | badAddr =>
      rw [hf] at hrun
      cases hrun
    | null =>
      rw [hf] at hrun
      cases hrun
      exact Nat.succ_pos n
    | badStr =>
      rw [hf] at hrun
      rcases hk : h.kalloc with ⟨h1, _ | page⟩ <;> simp [hk] at hrun
    | str s hlen =>
      rw [hf] at hrun
      rcases hk : h.kalloc with ⟨h1, _ | page⟩
      · simp [hk] at hrun
      · simp only [hk, map_eq_some_iff] at hrun
        obtain ⟨rest, hrest, rfl⟩ := hrun
        exact Nat.succ_lt_succ (ih hrest)

theorem freeArgs_spec (pages : List ℕ) (ho : Owns h ((pages : Multiset ℕ) + R)) :
    ∃ h', h.freeArgs pages = some h' ∧ Owns h' R ∧ Agree h h' R := by
  induction pages generalizing h with
  | nil => exact ⟨h, rfl, by rwa [Multiset.coe_nil, zero_add] at ho, Agree.refl _ _⟩
  | cons page pages ih =>
    rw [← Multiset.cons_coe, ← Multiset.singleton_add, add_assoc] at ho
    obtain ⟨h1, hfree, ho1, ha1⟩ := kfree_spec ho
    obtain ⟨h', hrun, ho', ha'⟩ := ih ho1
    refine ⟨h', ?_, ho', ha1.right.trans ha'⟩
    rw [freeArgs, hfree, bind_some, hrun]

/-- **`sys_exec` loses no page.** The pages of the arguments are given back in either case. -/
theorem sysExec_spec {trapframe old oldsz : ℕ} (path : Bool) (fetch : ℕ → ArgFetch)
    (file : Option ExecFile) (hi : Image h old np f ({trapframe} + R)) (hsz : oldsz ≤ 2 ^ 63)
    (hnp : np = npages oldsz) :
    ∃ h' image, h.sysExec trapframe old oldsz path fetch file = some (h', image) ∧
      Execed trapframe old np f R h h' image := by
  unfold sysExec
  cases path with
  | false => exact ⟨h, none, rfl, hi.tab.owns, Agree.refl _ _⟩
  | true =>
    obtain ⟨h1, pages, argv, hfetch, ho1, ha1⟩ := fetchArgs_spec fetch maxarg 0 hi.tab.owns
    rw [Bool.not_true, if_neg Bool.false_ne_true, hfetch]
    cases argv with
    | none =>
      obtain ⟨h2, hfree, ho2, ha2⟩ := freeArgs_spec pages ho1
      refine ⟨h2, none, ?_, ho2, ha1.trans ha2⟩
      dsimp only
      rw [hfree]
      rfl
    | some argv =>
      have hi1 := hi.take ha1 ho1
      rw [add_left_comm] at hi1
      have hargs := fetchArgs_length (show (fetchArgs fetch maxarg 0 h).2.2 = some argv by rw [hfetch])
      obtain ⟨h2, image, hrun, hdone⟩ := exec_spec file hargs.ne hi1 hsz hnp
      dsimp only
      rw [hrun, bind_some]
      dsimp only
      cases image with
      | none =>
        obtain ⟨ho2, ha2⟩ := hdone
        have hsame : Image.held h1 old np f ({trapframe} + R) = Image.held h old np f ({trapframe} + R) := by
          rw [Image.held, Image.held, nodes_congr ha1.left.mem]
        rw [add_left_comm, Image.held_add, hsame] at ho2 ha2
        obtain ⟨h3, hfree, ho3, ha3⟩ := freeArgs_spec pages ho2
        refine ⟨h3, none, ?_, ho3, ha1.trans (ha2.right.trans ha3)⟩
        rw [hfree]
        rfl
      | some image =>
        obtain ⟨f', hi2, ha2, hsz'⟩ := hdone
        rw [add_left_comm] at hi2
        obtain ⟨h3, hfree, ho3, ha3⟩ := freeArgs_spec pages hi2.owns
        refine ⟨h3, some image, ?_, f', hi2.frame ha3.left ho3, ?_, hsz'⟩
        · rw [hfree]
          rfl
        · exact ha1.right.right.right.trans (ha2.right.trans ha3.right.right.right)

end Heap

end AudioPlayer
