import AudioPlayer.Lib.Writes
import AudioPlayer.Proof.PageTable
import Mathlib.Tactic.Ring

/-!
# Copies from and to user space

The three copies go from page to page, and stop at the first byte the user may not access.
`phys` is where the byte at a virtual address lies in memory. What `copyout` leaves are writes of
its bytes one after another at the addresses `phys` gives, since two virtual pages can be the same
page of memory. That one of them is a page of the page table itself has to be excluded: `copyout`
would change the table it walks.

* `byteAt_writeBytes`: a `memmove` into the words of memory, byte by byte;
* `copyinLoop_spec`, `copyoutLoop_spec`, `copyinstrLoop_spec`: what the loops do;
* `user_copies`: when the copies succeed, and what they have copied.
-/

namespace AudioPlayer

open Function Radix Heap List

/-! ## Bytes of memory -/

theorem Pte.toNat_ofNat (n : ℕ) : (Pte.ofNat n).toNat = n := by
  simp only [Pte.toNat, Pte.ofNat, Nat.toNat_testBit]
  omega

theorem setDigit_succ (n k : ℕ) (b : UInt8) :
    setDigit n (k + 1) b = setDigit (n / 256) k b * 256 + n % 256 := by
  have hmod : n % 256 ^ (k + 1) = n % 256 + 256 * (n / 256 % 256 ^ k) := by
    rw [Nat.pow_succ', Nat.mod_mul]
  have hdiv : n / 256 ^ (k + 1 + 1) = n / 256 / 256 ^ (k + 1) := by
    rw [Nat.pow_succ', Nat.div_div_eq_div_mul]
  rw [setDigit, setDigit, hmod, hdiv]
  ring

/-- The bytes of a number of which one was replaced. -/
theorem digit_setDigit (n k j : ℕ) (b : UInt8) :
    setDigit n k b / 256 ^ j % 256 = if j = k then b.toNat else n / 256 ^ j % 256 := by
  have hb := b.toNat_lt
  induction k generalizing n j with
  | zero =>
    have hset : setDigit n 0 b = n / 256 * 256 + b.toNat := by simp [setDigit, Nat.mod_one]
    cases j with
    | zero =>
      rw [hset, if_pos rfl, Nat.pow_zero, Nat.div_one]
      omega
    | succ j =>
      rw [hset, if_neg (Nat.succ_ne_zero j), Nat.pow_succ', ← Nat.div_div_eq_div_mul,
        ← Nat.div_div_eq_div_mul]
      congr 2
      omega
  | succ k ih =>
    rw [setDigit_succ]
    cases j with
    | zero =>
      rw [if_neg (Nat.succ_ne_zero k).symm, Nat.pow_zero, Nat.div_one, Nat.div_one]
      omega
    | succ j =>
      rw [Nat.pow_succ', ← Nat.div_div_eq_div_mul, ← Nat.div_div_eq_div_mul,
        show (setDigit (n / 256) k b * 256 + n % 256) / 256 = setDigit (n / 256) k b by omega, ih]
      simp only [Nat.add_right_cancel_iff]

variable {m m' : PageMem} {mem : ℕ → UInt8} {pagetable : ℕ} {src : List UInt8} {a : ℕ}
  {bs : List UInt8}

theorem byteAt_toNat (m : PageMem) (pa : ℕ) :
    (byteAt m pa).toNat = (m (pa / pgsize) (wordAt pa)).toNat / 256 ^ (pa % 8) % 256 :=
  UInt8.toNat_ofNat'

/-- **A byte is written**, and no other one. -/
theorem byteAt_setByte (m : PageMem) (pa : ℕ) (b : UInt8) :
    byteAt (setByte m pa b) = update (byteAt m) pa b := by
  funext q
  refine UInt8.toNat.inj ?_
  rw [byteAt_toNat, setByte]
  by_cases hpage : q / pgsize = pa / pgsize
  · rw [hpage, update_self]
    by_cases hword : wordAt q = wordAt pa
    · -- the byte is in the word that is written
      have hval : q % 4096 / 8 = pa % 4096 / 8 := congrArg Fin.val hword
      have hq : q = pa ↔ q % 8 = pa % 8 := by
        simp only [pgsize] at hpage
        omega
      rw [hword, update_self, Pte.toNat_ofNat, digit_setDigit]
      by_cases hqp : q = pa
      · rw [if_pos (hq.1 hqp), hqp, update_self]
      · rw [if_neg (fun h => hqp (hq.2 h)), update_of_ne hqp, byteAt_toNat, hpage, hword]
    · have hqp : q ≠ pa := fun h => hword (congrArg wordAt h)
      rw [update_of_ne hword, update_of_ne hqp, byteAt_toNat, hpage]
  · have hqp : q ≠ pa := fun h => hpage (congrArg (· / pgsize) h)
    rw [update_of_ne hpage, update_of_ne hqp, byteAt_toNat]

theorem setByte_of_ne {pa q : ℕ} (b : UInt8) (h : pa / pgsize ≠ q) : setByte m pa b q = m q :=
  update_of_ne (Ne.symm h) _ _

/-- The bytes of `bs` with the addresses they go to. -/
def placed (addr : ℕ → ℕ) (bs : List UInt8) : List (ℕ × UInt8) := bs.mapIdx fun j b => (addr j, b)

theorem placed_cons (addr : ℕ → ℕ) (b : UInt8) (bs : List UInt8) :
    placed addr (b :: bs) = (addr 0, b) :: placed (fun j => addr (j + 1)) bs :=
  mapIdx_cons

theorem placed_append (addr : ℕ → ℕ) (bs cs : List UInt8) :
    placed addr (bs ++ cs) = placed addr bs ++ placed (fun j => addr (j + bs.length)) cs :=
  mapIdx_append

theorem placed_congr {addr addr' : ℕ → ℕ}
    (h : ∀ j < bs.length, addr j = addr' j) : placed addr bs = placed addr' bs := by
  unfold placed
  refine mapIdx_eq_mapIdx_iff.2 fun j hj => ?_
  rw [h j hj]

/-- What is written at different addresses is there. -/
theorem apply_placed {addr : ℕ → ℕ}
    (hinj : ∀ i < bs.length, ∀ j < bs.length, addr i = addr j → i = j) (d : ℕ → UInt8) {j : ℕ}
    (hj : j < bs.length) : Writes.apply (placed addr bs) d (addr j) = bs[j] := by
  have hmem : (addr j, bs[j]) ∈ placed addr bs := mem_mapIdx.2 ⟨j, hj, rfl⟩
  have haddr : (placed addr bs).map Prod.fst = (List.range bs.length).map addr :=
    ext_getElem (by simp [placed]) fun j _ _ => by simp [placed]
  refine Writes.apply_of_mem ?_ hmem d
  rw [haddr]
  exact List.Nodup.map_on (fun i hi j hj => hinj i (mem_range.1 hi) j (mem_range.1 hj))
    nodup_range

/-- **A `memmove` into memory.** -/
theorem byteAt_writeBytes (m : PageMem) (pa : ℕ) (bs : List UInt8) :
    byteAt (writeBytes m pa bs) = Writes.apply (placed (pa + ·) bs) (byteAt m) := by
  induction bs generalizing m pa with
  | nil => rfl
  | cons b bs ih =>
    rw [writeBytes, ih, byteAt_setByte, placed_cons, Writes.apply_cons]
    congr 3
    funext j
    omega

theorem writeBytes_of_ne {pa q : ℕ} (h : ∀ j < bs.length, (pa + j) / pgsize ≠ q) :
    writeBytes m pa bs q = m q := by
  induction bs generalizing m pa with
  | nil => rfl
  | cons b bs ih =>
    rw [writeBytes, ih, setByte_of_ne]
    · exact h 0 (Nat.succ_pos _)
    · intro j hj
      rw [add_assoc, add_comm 1 j]
      exact h (j + 1) (Nat.succ_lt_succ hj)

/-! ## The bytes of a process -/

/-- The user may access the byte at `a`. -/
def Mapped (m : PageMem) (pagetable a : ℕ) : Prop := walkaddr m pagetable (pgRoundDown a) ≠ 0

/-- Where the byte at `a` lies. -/
def phys (m : PageMem) (pagetable a : ℕ) : ℕ :=
  walkaddr m pagetable (pgRoundDown a) + (a - pgRoundDown a)

theorem pgsize_eq : pgsize = 4096 := rfl

theorem pgRoundDown_eq (a : ℕ) : pgRoundDown a = a / 4096 * 4096 := rfl

theorem Mapped.lt (h : Mapped m pagetable a) : a < maxva := by
  by_contra hge
  refine h (if_pos ?_)
  have hmax : maxva = 2 ^ 26 * 4096 := rfl
  rw [pgRoundDown_eq]
  omega

theorem pgRoundDown_add {a j : ℕ} (h : a - pgRoundDown a + j < pgsize) :
    pgRoundDown (a + j) = pgRoundDown a := by
  rw [pgRoundDown_eq, pgsize_eq] at h
  rw [pgRoundDown_eq, pgRoundDown_eq]
  omega

theorem phys_add {a j : ℕ} (h : a - pgRoundDown a + j < pgsize) :
    phys m pagetable (a + j) = walkaddr m pagetable (pgRoundDown a) + (a - pgRoundDown a) + j := by
  have hle : pgRoundDown a ≤ a := Nat.div_mul_le_self a pgsize
  rw [phys, pgRoundDown_add h]
  omega

/-- `n` bytes from `a` on, as the user sees them. -/
def userBytes (m : PageMem) (mem : ℕ → UInt8) (pagetable a n : ℕ) : List UInt8 :=
  (List.range n).map fun j => mem (phys m pagetable (a + j))

theorem length_userBytes (a n : ℕ) : (userBytes m mem pagetable a n).length = n := by
  simp [userBytes]

theorem userBytes_add (a n k : ℕ) : userBytes m mem pagetable a (n + k) =
    userBytes m mem pagetable a n ++ userBytes m mem pagetable (a + n) k := by
  simp only [userBytes, range_add, map_append, map_map, Function.comp_def,
    add_assoc]

/-- In one page they are next to each other. -/
theorem userBytes_page {a n : ℕ} (h : a - pgRoundDown a + n ≤ pgsize) :
    userBytes m mem pagetable a n =
      bytesAt mem (walkaddr m pagetable (pgRoundDown a) + (a - pgRoundDown a)) n := by
  refine map_congr_left fun j hj => ?_
  rw [phys_add (lt_of_lt_of_le (Nat.add_lt_add_left (mem_range.1 hj) _) h)]

/-- A round of a copy: it ends with the page, and the next one begins with the next page. -/
structure Round (a len n : ℕ) : Prop where
  pos : 0 < n
  le : n ≤ len
  inside : a - pgRoundDown a + n ≤ pgsize
  next : n < len → pgRoundDown a + pgsize = a + n

theorem round {a len : ℕ} (hpos : len > 0) : Round a len (min (pgsize - (a - pgRoundDown a)) len) := by
  have hdown : pgRoundDown a ≤ a ∧ a < pgRoundDown a + pgsize := by
    rw [pgRoundDown_eq, pgsize_eq]
    omega
  exact ⟨by omega, by omega, by omega, by omega⟩

/-- The address of the next page is below `MAXVA` or this address, and does not wrap around. -/
theorem next_page (h : Mapped m pagetable a) :
    (pgRoundDown a + pgsize) % 2 ^ 64 = pgRoundDown a + pgsize := by
  have hlt : a < 2 ^ 38 := h.lt
  rw [pgRoundDown_eq, pgsize_eq]
  omega

theorem Round.mapped {a len n j : ℕ} (hr : Round a len n) (h : Mapped m pagetable a) (hj : j < n) :
    Mapped m pagetable (a + j) := by
  have := hr.inside
  rw [Mapped, pgRoundDown_add (by omega)]
  exact h

/-! ## `copyin` -/

/-- What a copy of `len` bytes from `srcva` on may come to: all of them are mapped and copied,
or those before the first one that is not. -/
structure CopyOK (m : PageMem) (mem : ℕ → UInt8) (pagetable srcva len : ℕ) (c : List UInt8 × ℤ) :
    Prop where
  bytes : c.1 = userBytes m mem pagetable srcva c.1.length
  mapped : ∀ j < c.1.length, Mapped m pagetable (srcva + j)
  result : (c.2 = 0 ∧ c.1.length = len) ∨
    (c.2 = -1 ∧ c.1.length < len ∧ ¬ Mapped m pagetable (srcva + c.1.length))

/-- Nothing is copied. -/
theorem copyOK_nil {srcva len : ℕ} {r : ℤ}
    (h : (r = 0 ∧ len = 0) ∨ (r = -1 ∧ len > 0 ∧ ¬ Mapped m pagetable srcva)) :
    CopyOK m mem pagetable srcva len ([], r) := by
  refine ⟨rfl, fun j hj => absurd hj (Nat.not_lt_zero j), ?_⟩
  exact h.imp (fun h => ⟨h.1, h.2.symm⟩) id

/-- **`copyin` copies up to the first byte that is not mapped.** -/
theorem copyinLoop_spec : ∀ (fuel srcva len : ℕ), len ≤ fuel →
    CopyOK m mem pagetable srcva len (copyinLoop m mem pagetable fuel srcva len) := by
  intro fuel
  induction fuel with
  | zero =>
    intro srcva len hlen
    exact copyOK_nil (Or.inl ⟨rfl, Nat.le_zero.1 hlen⟩)
  | succ fuel ih =>
    intro srcva len hlen
    unfold copyinLoop
    by_cases hpos : len > 0
    · rw [if_pos hpos]
      dsimp only
      by_cases hpa : walkaddr m pagetable (pgRoundDown srcva) = 0
      · rw [if_pos hpa]
        exact copyOK_nil (Or.inr ⟨rfl, hpos, not_not.2 hpa⟩)
      · rw [if_neg hpa, next_page hpa]
        have hround := round (a := srcva) hpos
        set n := min (pgsize - (srcva - pgRoundDown srcva)) len
        obtain ⟨hbytes, hmapped, hend⟩ := ih (pgRoundDown srcva + pgsize) (len - n)
          (by have := hround.pos; omega)
        set rest := copyinLoop m mem pagetable fuel (pgRoundDown srcva + pgsize) (len - n)
        rw [← userBytes_page hround.inside]
        have hlength : (userBytes m mem pagetable srcva n ++ rest.1).length = n + rest.1.length := by
          rw [length_append, length_userBytes]
        have hrest : rest.1.length ≤ len - n := by
          rcases hend with ⟨-, hall⟩ | ⟨-, hpart, -⟩ <;> omega
        -- the bytes behind this page are those of the next rounds
        have hnext : n < len → pgRoundDown srcva + pgsize = srcva + n := hround.next
        refine ⟨?_, ?_, ?_⟩
        · show userBytes m mem pagetable srcva n ++ rest.1 = _
          rw [hlength, userBytes_add]
          rcases lt_or_ge n len with hlt | hge
          · rw [← hnext hlt, ← hbytes]
          · have hnil : rest.1.length = 0 := by omega
            rw [length_eq_zero_iff.1 hnil]
            rfl
        · intro j hj
          rw [show (_ ++ rest.1, rest.2).1.length = n + rest.1.length from hlength] at hj
          rcases lt_or_ge j n with hlt | hge
          · exact hround.mapped hpa hlt
          · have hj' := hmapped (j - n) (by omega)
            rwa [hnext (by omega), add_assoc, Nat.add_sub_cancel' hge] at hj'
        · show (rest.2 = 0 ∧ _) ∨ (rest.2 = -1 ∧ _)
          rw [show (_ ++ rest.1, rest.2).1.length = n + rest.1.length from hlength]
          have hle := hround.le
          rcases hend with ⟨hret, hall⟩ | ⟨hret, hpart, hun⟩
          · exact Or.inl ⟨hret, by omega⟩
          · refine Or.inr ⟨hret, by omega, ?_⟩
            rwa [hnext (by omega), add_assoc] at hun
    · rw [if_neg hpos]
      exact copyOK_nil (Or.inl ⟨rfl, by omega⟩)

theorem copyin_spec (m : PageMem) (mem : ℕ → UInt8) (pagetable srcva len : ℕ) :
    CopyOK m mem pagetable srcva len (copyin m mem pagetable srcva len) :=
  copyinLoop_spec len srcva len le_rfl

/-! ## `copyout` -/

/-- The walk reads pages of the page table only. -/
theorem walkaddr_congr (h : ∀ x ∈ nodes sv39 m 2 pagetable, m' x = m x) (va : ℕ) :
    walkaddr m' pagetable va = walkaddr m pagetable va := by
  unfold walkaddr
  rw [Heap.walk_eq_find, Heap.walk_eq_find, find_congr h]
  cases hf : find sv39 m 2 pagetable fun l => px l va with
  | none => rfl
  | some loc => simp only [h loc.1 (find_mem hf)]

theorem phys_congr (h : ∀ x ∈ nodes sv39 m 2 pagetable, m' x = m x) :
    phys m' pagetable = phys m pagetable := by
  funext a
  rw [phys, phys, walkaddr_congr h]

theorem mapped_congr (h : ∀ x ∈ nodes sv39 m 2 pagetable, m' x = m x) (a : ℕ) :
    Mapped m' pagetable a ↔ Mapped m pagetable a := by
  rw [Mapped, Mapped, walkaddr_congr h]

/-- No byte from `a` on is in a page of the page table. -/
def Outside (m : PageMem) (pagetable a len : ℕ) : Prop :=
  ∀ j < len, Mapped m pagetable (a + j) → phys m pagetable (a + j) / pgsize ∉ nodes sv39 m 2 pagetable

/-- What a copy of `src` to `dstva` may come to: the first `n` bytes are written, all of them or
those before the first one that is not mapped, and no other page changes. -/
structure CopyoutOK (m : PageMem) (pagetable dstva : ℕ) (src : List UInt8) (n : ℕ) (c : PageMem × ℤ) :
    Prop where
  bytes : byteAt c.1 =
    Writes.apply (placed (fun j => phys m pagetable (dstva + j)) (src.take n)) (byteAt m)
  frame : ∀ q, (∀ j < n, phys m pagetable (dstva + j) / pgsize ≠ q) → c.1 q = m q
  mapped : ∀ j < n, Mapped m pagetable (dstva + j)
  result : (c.2 = 0 ∧ n = src.length) ∨
    (c.2 = -1 ∧ n < src.length ∧ ¬ Mapped m pagetable (dstva + n))

theorem copyoutOK_nil {dstva : ℕ} {r : ℤ}
    (h : (r = 0 ∧ src.length = 0) ∨ (r = -1 ∧ src.length > 0 ∧ ¬ Mapped m pagetable dstva)) :
    CopyoutOK m pagetable dstva src 0 (m, r) := by
  refine ⟨rfl, fun _ _ => rfl, fun j hj => absurd hj (Nat.not_lt_zero j), ?_⟩
  exact h.imp (fun h => ⟨h.1, h.2.symm⟩) id

/-- **`copyout` writes up to the first byte that is not mapped.** -/
theorem copyoutLoop_spec {fuel dstva : ℕ} (hlen : src.length ≤ fuel)
    (hout : Outside m pagetable dstva src.length) :
    ∃ n, CopyoutOK m pagetable dstva src n (copyoutLoop pagetable fuel m dstva src) := by
  induction fuel generalizing m dstva src with
  | zero => exact ⟨0, copyoutOK_nil (Or.inl ⟨rfl, Nat.le_zero.1 hlen⟩)⟩
  | succ fuel ih =>
    unfold copyoutLoop
    by_cases hpos : src.length > 0
    · rw [if_pos hpos]
      dsimp only
      by_cases hpa : walkaddr m pagetable (pgRoundDown dstva) = 0
      · rw [if_pos hpa]
        exact ⟨0, copyoutOK_nil (Or.inr ⟨rfl, hpos, not_not.2 hpa⟩)⟩
      · rw [if_neg hpa, next_page hpa]
        have hround := round (a := dstva) hpos
        set n := min (pgsize - (dstva - pgRoundDown dstva)) src.length
        have hphys : ∀ j < n, walkaddr m pagetable (pgRoundDown dstva) +
            (dstva - pgRoundDown dstva) + j = phys m pagetable (dstva + j) := fun j hj =>
          (phys_add (by have := hround.inside; omega)).symm
        have htake : (src.take n).length = n := length_take_of_le hround.le
        -- this round leaves the page table alone
        set m1 := writeBytes m (walkaddr m pagetable (pgRoundDown dstva) +
          (dstva - pgRoundDown dstva)) (src.take n) with hm1
        have hframe1 : ∀ q, (∀ j < n, phys m pagetable (dstva + j) / pgsize ≠ q) → m1 q = m q := by
          intro q hq
          refine writeBytes_of_ne fun j hj => ?_
          rw [htake] at hj
          rw [hphys j hj]
          exact hq j hj
        have hsame : ∀ x ∈ nodes sv39 m 2 pagetable, m1 x = m x := by
          intro x hx
          refine hframe1 x fun j hj => ?_
          rintro rfl
          exact hout j (lt_of_lt_of_le hj hround.le) (hround.mapped hpa hj) hx
        have hnodes := nodes_congr hsame
        have hbytes1 : byteAt m1 = Writes.apply
            (placed (fun j => phys m pagetable (dstva + j)) (src.take n)) (byteAt m) := by
          rw [hm1, byteAt_writeBytes, placed_congr fun j hj => hphys j (htake ▸ hj)]
        have hdrop : (src.drop n).length = src.length - n := length_drop
        obtain ⟨k, hbytes, hframe, hmapped, hend⟩ := @ih m1 (src.drop n) (pgRoundDown dstva + pgsize)
          (by have := hround.pos; omega) (by
            intro j hj hmap
            rw [hround.next (by omega), add_assoc] at hmap ⊢
            rw [mapped_congr hsame] at hmap
            rw [phys_congr hsame, hnodes]
            exact hout (n + j) (by omega) hmap)
        rw [phys_congr hsame] at hbytes hframe
        simp only [mapped_congr hsame] at hmapped hend
        set c := copyoutLoop pagetable fuel m1 (pgRoundDown dstva + pgsize) (src.drop n)
        have hk : k ≤ src.length - n := by
          rcases hend with ⟨-, hall⟩ | ⟨-, hpart, -⟩ <;> omega
        -- the bytes behind this page are those of the next rounds
        have hnext : ∀ j < k, pgRoundDown dstva + pgsize + j = dstva + (n + j) := by
          intro j hj
          have := hround.next (by omega)
          omega
        refine ⟨n + k, ?_, ?_, ?_, ?_⟩
        · have hsplit : src.take (n + k) = src.take n ++ (src.drop n).take k := take_add
          have hplaced : placed (fun j => phys m pagetable (pgRoundDown dstva + pgsize + j))
              ((src.drop n).take k) =
              placed (fun j => phys m pagetable (dstva + (j + n))) ((src.drop n).take k) := by
            refine placed_congr fun j hj => ?_
            rw [hnext j (lt_of_lt_of_le hj (length_take_le _ _)), add_comm n j]
          rw [hbytes, hbytes1, hsplit, placed_append, htake, Writes.apply_append, hplaced]
        · intro q hq
          rw [hframe q fun j hj => ?_, hframe1 q fun j hj => hq j (by omega)]
          rw [hnext j hj]
          exact hq (n + j) (by omega)
        · intro j hj
          rcases lt_or_ge j n with hlt | hge
          · exact hround.mapped hpa hlt
          · have hj' := hmapped (j - n) (by omega)
            rwa [hnext (j - n) (by omega), Nat.add_sub_cancel' hge] at hj'
        · have hle := hround.le
          rcases hend with ⟨hret, hall⟩ | ⟨hret, hpart, hun⟩
          · exact Or.inl ⟨hret, by omega⟩
          · refine Or.inr ⟨hret, by omega, ?_⟩
            rwa [hround.next (by omega), add_assoc] at hun
    · rw [if_neg hpos]
      exact ⟨0, copyoutOK_nil (Or.inl ⟨rfl, by omega⟩)⟩

theorem copyout_spec {dstva : ℕ} (hout : Outside m pagetable dstva src.length) :
    ∃ n, CopyoutOK m pagetable dstva src n (copyout m pagetable dstva src) :=
  copyoutLoop_spec le_rfl hout

/-- A copy that does not leave its page. -/
theorem copyout_page (h : Mapped m pagetable a)
    (hin : a - pgRoundDown a + src.length ≤ pgsize) :
    copyout m pagetable a src = (writeBytes m (phys m pagetable a) src, 0) := by
  cases src with
  | nil => rfl
  | cons b bs =>
    have hn : min (pgsize - (a - pgRoundDown a)) (b :: bs).length = (b :: bs).length := by omega
    show copyoutLoop pagetable (bs.length + 1) m a (b :: bs) = _
    unfold copyoutLoop
    rw [if_pos (length_pos_iff.2 (cons_ne_nil b bs))]
    dsimp only
    rw [if_neg h, hn, take_length, drop_length]
    cases bs.length with
    | zero => rfl
    | succ n => rfl

theorem copyout_unmapped (h : ¬ Mapped m pagetable a) (hsrc : src ≠ []) :
    copyout m pagetable a src = (m, -1) := by
  cases src with
  | nil => exact absurd rfl hsrc
  | cons b bs =>
    show copyoutLoop pagetable (bs.length + 1) m a (b :: bs) = _
    unfold copyoutLoop
    rw [if_pos (length_pos_iff.2 (cons_ne_nil b bs))]
    exact if_pos (not_not.1 h)

/-! ## `copyinstr` -/

theorem bytesAt_succ (p n : ℕ) : bytesAt mem p (n + 1) = mem p :: bytesAt mem (p + 1) n := by
  rw [bytesAt, range_succ_eq_map, map_cons, map_map]
  refine congrArg (_ :: ·) (map_congr_left fun j _ => ?_)
  show mem (p + (j + 1)) = mem (p + 1 + j)
  congr 1
  omega

/-- The inner loop copies up to the first NUL, which it copies too. -/
theorem copystrPage_spec (mem : ℕ → UInt8) (n p : ℕ) :
    (∃ k < n, (∀ j < k, mem (p + j) ≠ 0) ∧ mem (p + k) = 0 ∧
      copystrPage mem n p = (bytesAt mem p (k + 1), true)) ∨
    ((∀ j < n, mem (p + j) ≠ 0) ∧ copystrPage mem n p = (bytesAt mem p n, false)) := by
  induction n generalizing p with
  | zero => exact Or.inr ⟨fun j hj => absurd hj (Nat.not_lt_zero j), rfl⟩
  | succ n ih =>
    unfold copystrPage
    by_cases hnul : mem p = 0
    · refine Or.inl ⟨0, Nat.succ_pos n, fun j hj => absurd hj (Nat.not_lt_zero j), hnul, ?_⟩
      rw [if_pos hnul, bytesAt_succ, hnul]
      rfl
    · have hshift : ∀ k, (∀ j < k, mem (p + 1 + j) ≠ 0) → ∀ j < k + 1, mem (p + j) ≠ 0 := by
        intro k h j hj
        cases j with
        | zero => exact hnul
        | succ j =>
          rw [← add_assoc, add_right_comm]
          exact h j (by omega)
      rw [if_neg hnul]
      rcases ih (p + 1) with ⟨k, hk, hne, hzero, hrun⟩ | ⟨hne, hrun⟩
      · refine Or.inl ⟨k + 1, by omega, hshift k hne, ?_, ?_⟩
        · rwa [← add_assoc, add_right_comm]
        · rw [hrun, bytesAt_succ p]
      · refine Or.inr ⟨hshift n hne, ?_⟩
        rw [hrun, bytesAt_succ p]

/-- What `copyinstr` may come to: the string and its NUL are copied, or the bytes before the first
one that is not mapped, or `max` bytes without a NUL. -/
structure StrOK (m : PageMem) (mem : ℕ → UInt8) (pagetable srcva max n : ℕ) (c : List UInt8 × ℤ) :
    Prop where
  le : n ≤ max
  before : ∀ j < n, Mapped m pagetable (srcva + j) ∧ mem (phys m pagetable (srcva + j)) ≠ 0
  result : (c.2 = 0 ∧ n < max ∧ Mapped m pagetable (srcva + n) ∧
      mem (phys m pagetable (srcva + n)) = 0 ∧ c.1 = userBytes m mem pagetable srcva (n + 1)) ∨
    (c.2 = -1 ∧ (n < max → ¬ Mapped m pagetable (srcva + n)) ∧
      c.1 = userBytes m mem pagetable srcva n)

theorem strOK_nil {srcva max : ℕ} (h : max > 0 → ¬ Mapped m pagetable srcva) :
    StrOK m mem pagetable srcva max 0 ([], -1) :=
  ⟨Nat.zero_le _, fun j hj => absurd hj (Nat.not_lt_zero j), Or.inr ⟨rfl, h, rfl⟩⟩

theorem copyinstrLoop_spec : ∀ (fuel srcva max : ℕ), max ≤ fuel →
    ∃ n, StrOK m mem pagetable srcva max n (copyinstrLoop m mem pagetable fuel srcva max) := by
  intro fuel
  induction fuel with
  | zero => exact fun srcva max hmax => ⟨0, strOK_nil fun hpos => absurd hmax (by omega)⟩
  | succ fuel ih =>
    intro srcva max hmax
    unfold copyinstrLoop
    by_cases hpos : max > 0
    · rw [if_pos hpos]
      dsimp only
      by_cases hpa : walkaddr m pagetable (pgRoundDown srcva) = 0
      · rw [if_pos hpa]
        exact ⟨0, strOK_nil fun _ => not_not.2 hpa⟩
      · rw [if_neg hpa, next_page hpa]
        have hround := round (a := srcva) hpos
        set n := min (pgsize - (srcva - pgRoundDown srcva)) max
        have hphys : ∀ j < n, walkaddr m pagetable (pgRoundDown srcva) +
            (srcva - pgRoundDown srcva) + j = phys m pagetable (srcva + j) := fun j hj =>
          (phys_add (by have := hround.inside; omega)).symm
        have hle := hround.le
        rcases copystrPage_spec mem n (walkaddr m pagetable (pgRoundDown srcva) +
          (srcva - pgRoundDown srcva)) with ⟨k, hk, hne, hzero, hrun⟩ | ⟨hne, hrun⟩
        · rw [hrun, if_pos rfl]
          refine ⟨k, by omega, fun j hj => ⟨hround.mapped hpa (by omega), ?_⟩, Or.inl
            ⟨rfl, by omega, hround.mapped hpa hk, ?_, ?_⟩⟩
          · rw [← hphys j (by omega)]
            exact hne j hj
          · rw [← hphys k hk]
            exact hzero
          · exact (userBytes_page (by have := hround.inside; omega)).symm
        · rw [hrun, if_neg Bool.false_ne_true]
          obtain ⟨k, hk, hbefore, hend⟩ := ih (pgRoundDown srcva + pgsize) (max - n)
            (by have := hround.pos; omega)
          set rest := copyinstrLoop m mem pagetable fuel (pgRoundDown srcva + pgsize) (max - n)
          dsimp only
          rw [← userBytes_page hround.inside]
          refine ⟨n + k, by omega, ?_, ?_⟩
          · intro j hj
            rcases lt_or_ge j n with hlt | hge
            · refine ⟨hround.mapped hpa hlt, ?_⟩
              rw [← hphys j hlt]
              exact hne j hlt
            · have hj' := hbefore (j - n) (by omega)
              rwa [hround.next (by omega), add_assoc, Nat.add_sub_cancel' hge] at hj'
          · rcases hend with ⟨hret, hlt, hmap, hzero, hbytes⟩ | ⟨hret, hun, hbytes⟩
            · rw [hround.next (by omega), add_assoc] at hmap hzero
              rw [hround.next (by omega)] at hbytes
              refine Or.inl ⟨hret, by omega, hmap, hzero, ?_⟩
              show _ ++ rest.1 = _
              rw [hbytes, add_assoc, userBytes_add srcva n]
            · refine Or.inr ⟨hret, fun hlt => ?_, ?_⟩
              · have hun := hun (by omega)
                rwa [hround.next (by omega), add_assoc] at hun
              · show _ ++ rest.1 = _
                rw [hbytes, userBytes_add]
                rcases lt_or_ge n max with hlt | hge
                · rw [hround.next hlt]
                · obtain rfl : k = 0 := by omega
                  simp [userBytes]
    · rw [if_neg hpos]
      exact ⟨0, strOK_nil fun h => absurd h hpos⟩

theorem copyinstr_spec (m : PageMem) (mem : ℕ → UInt8) (pagetable srcva max : ℕ) :
    ∃ n, StrOK m mem pagetable srcva max n (copyinstr m mem pagetable srcva max) :=
  copyinstrLoop_spec max srcva max le_rfl

/-! ## The copies -/

/-- The page of `a` is below `MAXVA`, valid and user-accessible. -/
def UserPage (m : PageMem) (pagetable a : ℕ) : Prop :=
  a < maxva ∧ (walk m pagetable a).any (fun loc => (m loc.1 loc.2).v && (m loc.1 loc.2).u) = true

instance (m : PageMem) (pagetable a : ℕ) : Decidable (UserPage m pagetable a) :=
  inferInstanceAs (Decidable (_ ∧ _))

/-- The page of memory that the page of `a` is mapped to. -/
def pageAt (m : PageMem) (pagetable a : ℕ) : ℕ :=
  (walk m pagetable a).elim 0 fun loc => (m loc.1 loc.2).page

theorem userPage_congr (h : ∀ x ∈ nodes sv39 m 2 pagetable, m' x = m x) (a : ℕ) :
    UserPage m' pagetable a ↔ UserPage m pagetable a := by
  unfold UserPage
  rw [Heap.walk_eq_find, Heap.walk_eq_find, find_congr h]
  cases hf : find sv39 m 2 pagetable fun l => px l a with
  | none => rfl
  | some loc => simp only [Option.any_some, h loc.1 (find_mem hf)]

/-- `walkaddr` cannot tell a page at address 0 from one that is not there. -/
theorem mapped_iff :
    Mapped m pagetable a ↔ UserPage m pagetable a ∧ pageAt m pagetable a ≠ 0 := by
  have hmax : pgRoundDown a ≥ maxva ↔ ¬ a < maxva := by
    have : maxva = 2 ^ 26 * 4096 := rfl
    rw [pgRoundDown_eq]
    omega
  rw [Mapped, walkaddr, walk_pgRoundDown, UserPage, pageAt]
  by_cases hlt : a < maxva
  · rw [if_neg (fun h => hmax.1 h hlt)]
    cases walk m pagetable a with
    | none => simp
    | some loc =>
      have hpg : pgsize ≠ 0 := by decide
      cases hv : (m loc.1 loc.2).v <;> cases hu : (m loc.1 loc.2).u <;> simp [hlt, hv, hu, hpg]
  · rw [if_pos (hmax.2 hlt)]
    simp [hlt]

/-- `copyin` of `len` bytes: it succeeds when all are mapped, and copies a part of them if not. -/
structure CopiedIn (m : PageMem) (pagetable va len : ℕ) (c : List UInt8 × ℤ) : Prop where
  result : c.2 = 0 ∨ c.2 = -1
  succeeds : c.2 = 0 ↔ ∀ j < len, UserPage m pagetable (va + j) ∧ pageAt m pagetable (va + j) ≠ 0
  bytes : c.2 = 0 → c.1 = userBytes m (byteAt m) pagetable va len
  part : ∃ n ≤ len, c.1 = userBytes m (byteAt m) pagetable va n ∧
    ∀ j < n, UserPage m pagetable (va + j)

/-- `copyout` of `src`: it succeeds when all bytes are mapped. It leaves all pages alone that are
not mapped for them. -/
structure CopiedOut (m : PageMem) (pagetable va : ℕ) (src : List UInt8) (c : PageMem × ℤ) : Prop where
  result : c.2 = 0 ∨ c.2 = -1
  succeeds : c.2 = 0 ↔
    ∀ j < src.length, UserPage m pagetable (va + j) ∧ pageAt m pagetable (va + j) ≠ 0
  bytes : c.2 = 0 →
    byteAt c.1 = Writes.apply (placed (fun j => phys m pagetable (va + j)) src) (byteAt m)
  /-- where no page of memory is mapped twice, the user reads what was written -/
  back : c.2 = 0 → (∀ i < src.length, ∀ j < src.length,
    phys m pagetable (va + i) = phys m pagetable (va + j) → i = j) →
    userBytes c.1 (byteAt c.1) pagetable va src.length = src
  frame : ∀ q, (∀ j < src.length, UserPage m pagetable (va + j) →
    phys m pagetable (va + j) / pgsize ≠ q) → c.1 q = m q

/-- `copyinstr` of at most `max` bytes: it succeeds when it can read up to a NUL, and copies the
bytes up to the first one. -/
structure CopiedStr (m : PageMem) (pagetable va max : ℕ) (c : List UInt8 × ℤ) : Prop where
  result : c.2 = 0 ∨ c.2 = -1
  succeeds : c.2 = 0 ↔ ∃ k < max, byteAt m (phys m pagetable (va + k)) = 0 ∧
    ∀ j ≤ k, UserPage m pagetable (va + j) ∧ pageAt m pagetable (va + j) ≠ 0
  string : c.2 = 0 → ∃ k < max, byteAt m (phys m pagetable (va + k)) = 0 ∧
    (∀ j < k, byteAt m (phys m pagetable (va + j)) ≠ 0) ∧
    c.1 = userBytes m (byteAt m) pagetable va (k + 1)
  part : ∃ n ≤ max, c.1 = userBytes m (byteAt m) pagetable va n ∧
    ∀ j < n, UserPage m pagetable (va + j)

theorem copiedIn (m : PageMem) (pagetable va len : ℕ) :
    CopiedIn m pagetable va len (copyin m (byteAt m) pagetable va len) := by
  obtain ⟨hbytes, hmapped, hend⟩ := copyin_spec m (byteAt m) pagetable va len
  set c := copyin m (byteAt m) pagetable va len
  have hpart : c.1.length ≤ len := by rcases hend with ⟨-, h⟩ | ⟨-, h, -⟩ <;> omega
  refine ⟨hend.imp And.left And.left, ?_, ?_, ?_⟩
  · simp only [← mapped_iff]
    rcases hend with ⟨hret, hall⟩ | ⟨hret, hlt, hun⟩
    · rw [hall] at hmapped
      exact ⟨fun _ => hmapped, fun _ => hret⟩
    · exact ⟨fun h => absurd (hret.symm.trans h) (by decide), fun h => absurd (h _ hlt) hun⟩
  · intro hret
    rcases hend with ⟨-, hall⟩ | ⟨hfail, -, -⟩
    · rwa [hall] at hbytes
    · exact absurd (hfail.symm.trans hret) (by decide)
  · exact ⟨c.1.length, hpart, hbytes, fun j hj => (mapped_iff.1 (hmapped j hj)).1⟩

theorem copiedOut {va : ℕ} (hout : Outside m pagetable va src.length) :
    CopiedOut m pagetable va src (copyout m pagetable va src) := by
  obtain ⟨n, hbytes, hframe, hmapped, hend⟩ := copyout_spec hout
  set c := copyout m pagetable va src
  have hall : c.2 = 0 → n = src.length := by
    intro hret
    rcases hend with ⟨-, hall⟩ | ⟨hfail, -, -⟩
    · exact hall
    · exact absurd (hfail.symm.trans hret) (by decide)
  have hwhole : c.2 = 0 →
      byteAt c.1 = Writes.apply (placed (fun j => phys m pagetable (va + j)) src) (byteAt m) := by
    intro hret
    rw [hbytes, hall hret, take_length]
  have hn : n ≤ src.length := by rcases hend with ⟨-, h⟩ | ⟨-, h, -⟩ <;> omega
  refine ⟨hend.imp And.left And.left, ?_, hwhole, fun hret hinj => ?_, fun q hq => ?_⟩
  · simp only [← mapped_iff]
    rcases hend with ⟨hret, hall⟩ | ⟨hret, hlt, hun⟩
    · rw [hall] at hmapped
      exact ⟨fun _ => hmapped, fun _ => hret⟩
    · exact ⟨fun h => absurd (hret.symm.trans h) (by decide), fun h => absurd (h _ hlt) hun⟩
  · -- the page table is as it was
    have hsame : ∀ x ∈ nodes sv39 m 2 pagetable, c.1 x = m x := by
      refine fun x hx => hframe x fun j hj => ?_
      rintro rfl
      exact hout j (by omega) (hmapped j hj) hx
    refine ext_getElem (length_userBytes _ _) fun j hj hj' => ?_
    simp only [userBytes, getElem_map, getElem_range, phys_congr hsame, hwhole hret]
    exact apply_placed hinj _ hj'
  · exact hframe q fun j hj => hq j (by omega) (mapped_iff.1 (hmapped j hj)).1

theorem copiedStr (m : PageMem) (pagetable va max : ℕ) :
    CopiedStr m pagetable va max (copyinstr m (byteAt m) pagetable va max) := by
  obtain ⟨n, hn, hbefore, hend⟩ := copyinstr_spec m (byteAt m) pagetable va max
  set c := copyinstr m (byteAt m) pagetable va max
  refine ⟨hend.imp And.left And.left, ?_, ?_, ?_⟩
  · simp only [← mapped_iff]
    rcases hend with ⟨hret, hlt, hmap, hzero, -⟩ | ⟨hret, hun, -⟩
    · refine ⟨fun _ => ⟨n, hlt, hzero, fun j hj => ?_⟩, fun _ => hret⟩
      rcases lt_or_ge j n with hjn | hjn
      · exact (hbefore j hjn).1
      · rwa [show j = n by omega]
    · refine ⟨fun h => absurd (hret.symm.trans h) (by decide), ?_⟩
      -- the NUL is not among the bytes before the end, which is not behind it either
      rintro ⟨k, hk, hzero, hall⟩
      rcases lt_or_ge k n with hkn | hkn
      · exact absurd hzero (hbefore k hkn).2
      · exact absurd (hall n hkn) (hun (by omega))
  · intro hret
    rcases hend with ⟨-, hlt, hmap, hzero, hbytes⟩ | ⟨hfail, -, -⟩
    · exact ⟨n, hlt, hzero, fun j hj => (hbefore j hj).2, hbytes⟩
    · exact absurd (hfail.symm.trans hret) (by decide)
  · rcases hend with ⟨-, hlt, hmap, -, hbytes⟩ | ⟨-, -, hbytes⟩
    · refine ⟨n + 1, hlt, hbytes, fun j hj => ?_⟩
      rcases lt_or_ge j n with hjn | hjn
      · exact (mapped_iff.1 (hbefore j hjn).1).1
      · rw [show j = n by omega]
        exact (mapped_iff.1 hmap).1
    · exact ⟨n, hn, hbytes, fun j hj => (mapped_iff.1 (hbefore j hj).1).1⟩

/-- **Copies from and to user space**, for any page table, addresses and lengths. An address is
a number here, so a range that goes beyond `2 ^ 64` has bytes that are not mapped. -/
theorem user_copies (m : PageMem) (pagetable va len max : ℕ) (src : List UInt8) :
    CopiedIn m pagetable va len (copyin m (byteAt m) pagetable va len) ∧
    (Outside m pagetable va src.length →
      CopiedOut m pagetable va src (copyout m pagetable va src)) ∧
    CopiedStr m pagetable va max (copyinstr m (byteAt m) pagetable va max) :=
  ⟨copiedIn m pagetable va len, copiedOut, copiedStr m pagetable va max⟩

/-- Page table 1 maps the first two virtual pages to the pages 6 and 4. -/
def twoPages : PageMem := fun p i =>
  if p = 3 ∧ i = 1 then ⟨4, true, true, true, true, true, 0⟩
  else if i = 0 then
    if p = 1 then .table 2 else if p = 2 then .table 3
    else if p = 3 then ⟨6, true, true, true, true, true, 0⟩ else .zero
  else .zero

theorem outside_twoPages : Outside twoPages 1 4094 4 := by
  have hblank : ∀ p ≠ 3, ∀ j ≠ 0, twoPages p j = .zero := fun p hp j hj =>
    (if_neg fun h => hp h.1).trans (if_neg hj)
  have hnodes : nodes sv39 twoPages 2 1 = {3} + {2} + {1} := by
    rw [nodes_single (i := 0) (q := 2) rfl (hblank 1 (by decide)),
      nodes_single (i := 0) (q := 3) rfl (hblank 2 (by decide)), nodes]
  have hpages : ∀ j < 4, phys twoPages 1 (4094 + j) / pgsize ∉ ({3} + {2} + {1} : Multiset ℕ) := by
    decide +kernel
  intro j hj _
  rw [hnodes]
  exact hpages j hj

/-- Two bytes on one page and two on the other. -/
theorem user_copies_twoPages :
    pageAt twoPages 1 4095 = 6 ∧ pageAt twoPages 1 4096 = 4 ∧ Outside twoPages 1 4094 4 ∧
    CopiedIn twoPages 1 4094 4 (copyin twoPages (byteAt twoPages) 1 4094 4) ∧
    CopiedOut twoPages 1 4094 [1, 2, 3, 4] (copyout twoPages 1 4094 [1, 2, 3, 4]) ∧
    CopiedStr twoPages 1 4094 4 (copyinstr twoPages (byteAt twoPages) 1 4094 4) := by
  obtain ⟨hin, hout, hstr⟩ := user_copies twoPages 1 4094 4 4 [1, 2, 3, 4]
  exact ⟨by decide +kernel, by decide +kernel, outside_twoPages, hin, hout outside_twoPages, hstr⟩

/-- Page table 1 maps the first virtual page to page 0, virtual page 510 to its own last level
and virtual page 511 to page 4. -/
def oddPages : PageMem := fun p i =>
  if p = 1 ∧ i = 0 then .table 2 else if p = 2 ∧ i = 0 then .table 3
  else if p = 3 ∧ i = 0 then ⟨0, true, true, true, true, true, 0⟩
  else if p = 3 ∧ i = 510 then ⟨3, true, true, true, true, true, 0⟩
  else if p = 3 ∧ i = 511 then ⟨4, true, true, true, true, true, 0⟩ else .zero

/-- **Two page tables that are in the way.** A page at physical address 0 is valid and the user's,
and cannot be copied from. A `copyout` over the last level of the page table unmaps the page it
comes to next. -/
theorem user_copies_fail :
    (UserPage oddPages 1 0 ∧ (copyin oddPages (byteAt oddPages) 1 0 1).2 = -1) ∧
    ((∀ j < 9, UserPage oddPages 1 (511 * pgsize - 8 + j) ∧
      pageAt oddPages 1 (511 * pgsize - 8 + j) ≠ 0) ∧
      (copyout oddPages 1 (511 * pgsize - 8) (List.replicate 9 0)).2 = -1) := by
  refine ⟨⟨by decide +kernel, by decide +kernel⟩, fun j hj => ?_, by decide +kernel⟩
  have hall : (List.range 9).all (fun j => decide (UserPage oddPages 1 (511 * pgsize - 8 + j) ∧
      pageAt oddPages 1 (511 * pgsize - 8 + j) ≠ 0)) = true := by decide +kernel
  exact of_decide_eq_true (all_eq_true.1 hall j (mem_range.2 hj))

end AudioPlayer
