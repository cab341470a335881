import AudioPlayer.Proof.UserCopy
import AudioPlayer.Spec.Exec

/-!
# The stack of a new program

`exec` writes the arguments into the page below `sz`, each below the one before it, and the array of
the pointers to them below all of them. `argSpace` is what an argument takes. Everything is
there in the end since a write below an address leaves what is above it (`Pushed`).

* `pushArgs_spec`: the loop over the arguments, which fails when they do not fit;
* `pushStack_spec`: all of it.
-/

namespace AudioPlayer

open List Radix

/-- Memory as a process sees it. -/
def userMem (m : PageMem) (pagetable : ℕ) : Bytes.Mem := fun a => byteAt m (phys m pagetable a)

/-- The page from `base` on is the user's, and not a page of the page table. -/
structure StackPage (m : PageMem) (pagetable base page : ℕ) : Prop where
  aligned : pgRoundDown base = base
  walk : walkaddr m pagetable base = page * pgsize
  pos : page ≠ 0
  apart : page ∉ nodes sv39 m 2 pagetable

variable {m m' m1 : PageMem} {pagetable base page o o' i : ℕ} {argv : List KString}
  {bs : List UInt8}

theorem byteAt_writeBytes_add {pa : ℕ} (hi : i < bs.length) :
    byteAt (writeBytes m pa bs) (pa + i) = bs[i] := by
  rw [byteAt_writeBytes]
  exact apply_placed (fun i _ j _ h => Nat.add_left_cancel h) _ hi

theorem byteAt_writeBytes_of_disjoint {pa q : ℕ}
    (h : q < pa ∨ pa + bs.length ≤ q) : byteAt (writeBytes m pa bs) q = byteAt m q := by
  rw [byteAt_writeBytes]
  refine Writes.apply_of_notMem (fun hmem => ?_) _
  obtain ⟨w, hw, rfl⟩ := mem_map.1 hmem
  obtain ⟨j, hj, rfl⟩ := mem_mapIdx.1 hw
  dsimp only at h
  omega

namespace StackPage

theorem mapped (h : StackPage m pagetable base page) (hi : i < pgsize) :
    Mapped m pagetable (base + i) := by
  rw [Mapped, pgRoundDown_add (by rw [h.aligned]; omega), h.aligned, h.walk]
  exact Nat.mul_ne_zero h.pos (by decide)

theorem phys_eq (h : StackPage m pagetable base page) (hi : i < pgsize) :
    phys m pagetable (base + i) = page * pgsize + i := by
  rw [phys_add (by rw [h.aligned]; omega), h.aligned, h.walk, Nat.sub_self, add_zero]

theorem userMem_eq (h : StackPage m pagetable base page) (hi : i < pgsize) :
    userMem m pagetable (base + i) = byteAt m (page * pgsize + i) := by
  rw [userMem, h.phys_eq hi]

theorem base_lt (h : StackPage m pagetable base page) : base < 2 ^ 38 :=
  (h.mapped (i := 0) (by decide)).lt

theorem dvd (h : StackPage m pagetable base page) : base % 4096 = 0 := by
  have := h.aligned
  rw [pgRoundDown_eq] at this
  omega

/-- Another page than those of the page table changes. -/
theorem congr (h : StackPage m pagetable base page) (hm : ∀ q ≠ page, m' q = m q) :
    StackPage m' pagetable base page := by
  have hsame : ∀ x ∈ nodes sv39 m 2 pagetable, m' x = m x := by
    refine fun x hx => hm x ?_
    rintro rfl
    exact h.apart hx
  refine ⟨h.aligned, ?_, h.pos, ?_⟩
  · rw [walkaddr_congr hsame, h.walk]
  · rw [nodes_congr hsame]
    exact h.apart

end StackPage

/-- Something was written below offset `o` of the page. -/
structure Pushed (m m' : PageMem) (pagetable base page o : ℕ) : Prop where
  stack : StackPage m' pagetable base page
  frame : ∀ q ≠ page, m' q = m q
  above : ∀ i, o ≤ i → i < pgsize → userMem m' pagetable (base + i) = userMem m pagetable (base + i)

theorem Pushed.refl (h : StackPage m pagetable base page) (o : ℕ) : Pushed m m pagetable base page o :=
  ⟨h, fun _ _ => rfl, fun _ _ _ => rfl⟩

theorem Pushed.trans (h : Pushed m m1 pagetable base page o) (h' : Pushed m1 m' pagetable base page o')
    (hle : o' ≤ o) : Pushed m m' pagetable base page o :=
  ⟨h'.stack, fun q hq => (h'.frame q hq).trans (h.frame q hq), fun i hi hlt =>
    (h'.above i (by omega) hlt).trans (h.above i hi hlt)⟩

/-- What is above the next write is still there. -/
theorem Pushed.slice {n : ℕ} (h : Pushed m m' pagetable base page o) (hi : o ≤ i) (hn : i + n ≤ pgsize) :
    Bytes.slice (userMem m' pagetable) (base + i) n = Bytes.slice (userMem m pagetable) (base + i) n := by
  refine Bytes.slice_congr fun a ha ha' => ?_
  have := h.above (a - base) (by omega) (by omega)
  rwa [Nat.add_sub_cancel' (by omega)] at this

/-- **A write into the page.** -/
theorem StackPage.push (h : StackPage m pagetable base page)
    (hpos : 0 < bs.length) (hin : o + bs.length ≤ o') (ho' : o' ≤ pgsize) :
    ∃ m', copyout m pagetable (base + o) bs = (m', 0) ∧ Pushed m m' pagetable base page o' ∧
      Bytes.slice (userMem m' pagetable) (base + o) bs.length = bs := by
  have hdown : pgRoundDown (base + o) = base := by
    rw [pgRoundDown_add (by rw [h.aligned]; omega), h.aligned]
  have hframe : ∀ q ≠ page, writeBytes m (page * pgsize + o) bs q = m q := by
    intro q hq
    refine writeBytes_of_ne fun j hj => ?_
    rw [add_assoc, mul_comm, Nat.mul_add_div (by decide), Nat.div_eq_of_lt (by omega),
      add_zero]
    exact Ne.symm hq
  have hst := h.congr hframe
  refine ⟨writeBytes m (page * pgsize + o) bs, ?_, ⟨hst, hframe, fun i hi hlt => ?_⟩, ?_⟩
  · rw [copyout_page (h.mapped (by omega)) (by rw [hdown]; omega), h.phys_eq (by omega)]
  · rw [hst.userMem_eq hlt, h.userMem_eq hlt, byteAt_writeBytes_of_disjoint (by omega)]
  · refine ext_getElem (Bytes.length_slice ..) fun j hj hj' => ?_
    simp only [Bytes.slice, getElem_map, getElem_range]
    rw [add_assoc, hst.userMem_eq (by omega), ← add_assoc, byteAt_writeBytes_add hj']

/-! ## The arguments -/

/-- `n` bytes rounded up to 16. -/
def pad16 (n : ℕ) : ℕ := (n + 15) / 16 * 16

/-- What an argument takes on the stack. -/
def argSpace (s : KString) : ℕ := pad16 (s.bytes.length + 1)

/-- What the arguments take. -/
def argsSpace (argv : List KString) : ℕ := (argv.map argSpace).sum

/-- Where the arguments are, from the stack pointer `sp` down. -/
def pointers : ℕ → List KString → List ℕ
  | _, [] => []
  | sp, s :: argv => (sp - argSpace s) :: pointers (sp - argSpace s) argv

theorem length_pointers (sp : ℕ) (argv : List KString) : (pointers sp argv).length = argv.length := by
  induction argv generalizing sp with
  | nil => rfl
  | cons s argv ih => rw [pointers, length_cons, length_cons, ih]

/-- There is a copy of the string at `p`, with its NUL. -/
def ArgString (m : PageMem) (pagetable p : ℕ) (s : KString) : Prop :=
  Bytes.slice (userMem m pagetable) p (s.bytes.length + 1) = s.bytes ++ [0]

theorem argsSpace_cons (s : KString) (argv : List KString) :
    argsSpace (s :: argv) = argSpace s + argsSpace argv := by
  rw [argsSpace, map_cons, sum_cons, argsSpace]

theorem pad16_ge (n : ℕ) : n ≤ pad16 n ∧ pad16 n % 16 = 0 := by
  unfold pad16
  omega

/-- The stack pointer of the source for `len` bytes more, rounded down. When there is no room it is
below the page, or it wraps around and is far above. -/
theorem nextSp {len : ℕ} (h : StackPage m pagetable base page) (ho : o ≤ pgsize) (hal : o % 16 = 0)
    (hlen : len ≤ 2 ^ 27) :
    let sp := (base + o + 2 ^ 64 - len) % 2 ^ 64
    if pad16 len ≤ o then sp - sp % 16 = base + (o - pad16 len)
    else sp - sp % 16 < base ∨ maxva ≤ sp - sp % 16 := by
  intro sp
  have hbase := h.base_lt
  have hdvd := h.dvd
  have hmax : maxva = 2 ^ 38 := rfl
  have hpg : pgsize = 4096 := rfl
  have hspace : pad16 len = (len + 15) / 16 * 16 := rfl
  split
  · omega
  · omega

theorem nextSp_arg (h : StackPage m pagetable base page) (ho : o ≤ pgsize) (hal : o % 16 = 0)
    (s : KString) :
    let sp := (base + o + 2 ^ 64 - (s.bytes.length + 1)) % 2 ^ 64
    if argSpace s ≤ o then sp - sp % 16 = base + (o - argSpace s)
    else sp - sp % 16 < base ∨ maxva ≤ sp - sp % 16 :=
  nextSp h ho hal s.fits

/-- **The arguments are pushed**, or they do not fit. -/
theorem pushArgs_spec (h : StackPage m pagetable base page) (ho : o ≤ pgsize) (hal : o % 16 = 0)
    {argc : ℕ} (hargc : argc ≤ maxarg) (argv : List KString) :
    ∃ m', Pushed m m' pagetable base page o ∧
      (argsSpace argv ≤ o ∧ argc + argv.length ≤ maxarg →
        pushArgs pagetable base argc m (base + o) argv =
          (m', some (base + (o - argsSpace argv), pointers (base + o) argv)) ∧
        List.Forall₂ (ArgString m' pagetable) (pointers (base + o) argv) argv) ∧
      (¬ (argsSpace argv ≤ o ∧ argc + argv.length ≤ maxarg) →
        pushArgs pagetable base argc m (base + o) argv = (m', none)) := by
  induction argv generalizing m o argc with
  | nil =>
    exact ⟨m, Pushed.refl h o, fun _ => ⟨rfl, .nil⟩, fun hno => absurd ⟨Nat.zero_le _, hargc⟩ hno⟩
  | cons s argv ih =>
    have hsp := nextSp_arg h ho hal s
    dsimp only at hsp
    obtain ⟨hge, hmod⟩ : s.bytes.length + 1 ≤ argSpace s ∧ argSpace s % 16 = 0 := pad16_ge _
    unfold pushArgs
    dsimp only
    rw [argsSpace_cons, length_cons]
    by_cases hfull : argc ≥ maxarg
    · rw [if_pos hfull]
      exact ⟨m, Pushed.refl h o, fun hfit => absurd hfit.2 (by omega), fun _ => rfl⟩
    rw [if_neg hfull]
    by_cases hroom : argSpace s ≤ o
    · rw [if_pos hroom] at hsp
      obtain ⟨m1, hout, hpush, hstr⟩ := h.push (o := o - argSpace s)
        (show 0 < (s.bytes ++ [0]).length by simp) (by rw [length_append]; simp only [length_singleton]; omega) ho
      rw [hsp, if_neg (by omega), hout]
      obtain ⟨m', hpush', hfits, hfails⟩ := ih (o := o - argSpace s) hpush.stack
        (by omega) (by omega) (show argc + 1 ≤ maxarg by omega)
      have hbase : base + o - argSpace s = base + (o - argSpace s) := by omega
      refine ⟨m', hpush.trans hpush' (Nat.sub_le ..), fun hfit => ?_, fun hno => ?_⟩
      · obtain ⟨hrun, hall⟩ := hfits (by omega)
        dsimp only
        rw [if_neg (by decide), hrun, pointers, hbase, ← Nat.sub_sub]
        refine ⟨rfl, .cons ?_ hall⟩
        -- the other arguments are below this one
        have hlen : (s.bytes ++ [0]).length = s.bytes.length + 1 := length_append
        rw [hlen] at hstr
        rw [ArgString, hpush'.slice le_rfl (by omega)]
        exact hstr
      · dsimp only
        rw [if_neg (by decide), hfails (by omega)]
        rfl
    · rw [if_neg hroom] at hsp
      refine ⟨m, Pushed.refl h o, fun hfit => absurd hfit.1 (by omega), fun _ => ?_⟩
      generalize (base + o + 2 ^ 64 - (s.bytes.length + 1)) % 2 ^ 64 = sp at hsp ⊢
      rcases hsp with hlow | hhigh
      · rw [if_pos hlow]
      · have hbase := h.base_lt
        have hmax : maxva = 2 ^ 38 := rfl
        rw [if_neg (by omega), copyout_unmapped (fun hmap => absurd hmap.lt (by omega)) (by simp)]
        exact if_pos (show (-1 : ℤ) < 0 by decide)

theorem pointers_le {sp : ℕ} : ∀ p ∈ pointers sp argv ++ [0], p ≤ sp := by
  induction argv generalizing sp with
  | nil => simp [pointers]
  | cons s argv ih =>
    intro p hp
    rw [pointers, cons_append] at hp
    rcases mem_cons.1 hp with rfl | hp
    · exact Nat.sub_le ..
    · exact (ih p hp).trans (Nat.sub_le ..)

/-- The arguments are below each other. -/
theorem pointers_apart {sp : ℕ} (hfit : argsSpace argv ≤ sp) :
    (∀ a ∈ (pointers sp argv).zip argv,
      sp - argsSpace argv ≤ a.1 ∧ a.1 + (a.2.bytes.length + 1) ≤ sp) ∧
    ((pointers sp argv).zip argv).Pairwise fun a b => b.1 + (b.2.bytes.length + 1) ≤ a.1 := by
  induction argv generalizing sp with
  | nil => exact ⟨by simp [pointers], by simp [pointers]⟩
  | cons s argv ih =>
    rw [argsSpace_cons] at hfit ⊢
    have hge : s.bytes.length + 1 ≤ argSpace s := (pad16_ge _).1
    obtain ⟨hin, hapart⟩ := ih (show argsSpace argv ≤ sp - argSpace s by omega)
    rw [pointers, zip_cons_cons, pairwise_cons]
    refine ⟨fun a ha => ?_, fun a ha => (hin a ha).2, hapart⟩
    rcases mem_cons.1 ha with rfl | ha
    · dsimp only
      omega
    · have := hin a ha
      omega

theorem argsSpace_mod (argv : List KString) : argsSpace argv % 16 = 0 := by
  induction argv with
  | nil => rfl
  | cons s argv ih =>
    have hmod : argSpace s % 16 = 0 := (pad16_ge _).2
    rw [argsSpace_cons]
    omega

/-! ## The array -/

theorem load_of_slice {k : ℕ} {b b' : Bytes.Mem} {p q : ℕ} (h : Bytes.slice b p k = Bytes.slice b' q k) :
    Bytes.load k b p = Bytes.load k b' q := by
  induction k generalizing p q with
  | zero => rfl
  | succ k ih =>
    rw [Bytes.slice_succ, Bytes.slice_succ] at h
    obtain ⟨hhead, htail⟩ := List.cons.inj h
    rw [Bytes.load, Bytes.load, hhead, ih htail]

theorem length_uint64Bytes (n : ℕ) : (uint64Bytes n).length = 8 := Bytes.length_slice ..

theorem length_flatMap_uint64 (ns : List ℕ) : (ns.flatMap uint64Bytes).length = 8 * ns.length := by
  induction ns with
  | nil => rfl
  | cons n ns ih =>
    rw [flatMap_cons, length_append, length_uint64Bytes, ih, length_cons]
    omega

theorem drop_flatMap_uint64 {ns : List ℕ} (hi : i < ns.length) :
    ((ns.flatMap uint64Bytes).drop (8 * i)).take 8 = uint64Bytes ns[i] := by
  induction ns generalizing i with
  | nil => exact absurd hi (Nat.not_lt_zero i)
  | cons n ns ih =>
    have hlen := length_uint64Bytes n
    rw [flatMap_cons]
    cases i with
    | zero => rw [mul_zero, drop_zero, take_left' hlen, getElem_cons_zero]
    | succ i =>
      rw [show 8 * (i + 1) = (uint64Bytes n).length + 8 * i by omega, ← drop_drop,
        drop_left, ih (by simpa using hi), getElem_cons_succ]

/-- **An array of words is read back.** -/
theorem load_array {b : Bytes.Mem} {p : ℕ} {ns : List ℕ}
    (h : Bytes.slice b p (8 * ns.length) = ns.flatMap uint64Bytes) (hi : i < ns.length)
    (hlt : ns[i] < 2 ^ 64) : Bytes.load 8 b (p + 8 * i) = ns[i] := by
  have hslice : Bytes.slice b (p + 8 * i) 8 = uint64Bytes ns[i] := by
    rw [← drop_flatMap_uint64 hi, ← h, Bytes.slice_drop_take b p (by omega)]
  rw [load_of_slice hslice, Bytes.load_store]
  exact Nat.mod_eq_of_lt hlt

/-! ## The stack -/

/-- The strings and the array fit into a page. -/
def StackFits (argv : List KString) : Prop :=
  argv.length < maxarg ∧ argsSpace argv + pad16 ((argv.length + 1) * 8) ≤ pgsize

/-- What a program finds on its stack: at `sp` an array of pointers to its arguments, with a null
pointer at its end, and above it the arguments. -/
structure ArgvAt (m : PageMem) (pagetable sz sp : ℕ) (argv : List KString) (ps : List ℕ) : Prop where
  aligned : sp % 16 = 0
  low : sz - pgsize ≤ sp
  array : ∀ i ≤ argv.length, Bytes.load 8 (userMem m pagetable) (sp + 8 * i) = ps.getD i 0
  strings : List.Forall₂ (ArgString m pagetable) ps argv
  inside : ∀ a ∈ ps.zip argv,
    sp + 8 * (argv.length + 1) ≤ a.1 ∧ a.1 + (a.2.bytes.length + 1) ≤ sz
  apart : (ps.zip argv).Pairwise fun a b => b.1 + (b.2.bytes.length + 1) ≤ a.1
  top : sp + 8 * (argv.length + 1) ≤ sz

/-- What is on the stack depends on the last page only. -/
theorem ArgvAt.congr {sz sp : ℕ} {ps : List ℕ}
    (h : ArgvAt m pagetable sz sp argv ps)
    (hm : ∀ a, sz - pgsize ≤ a → a < sz → userMem m' pagetable a = userMem m pagetable a) :
    ArgvAt m' pagetable sz sp argv ps := by
  have hlow := h.low
  have htop := h.top
  refine ⟨h.aligned, hlow, fun i hi => ?_, ?_, h.inside, h.apart, htop⟩
  · rw [← h.array i hi]
    exact Bytes.load_congr fun a ha ha' => hm a (by omega) (by omega)
  · obtain ⟨hlen, hall⟩ := List.forall₂_iff_zip.1 h.strings
    refine List.forall₂_iff_zip.2 ⟨hlen, fun {p s} hmem => ?_⟩
    obtain ⟨hp, hp'⟩ := h.inside _ hmem
    dsimp only at hp hp'
    rw [ArgString, ← hall hmem]
    exact Bytes.slice_congr fun a ha ha' => hm a (by omega) (by omega)

/-- **The stack of a new program.** There is no room for a null pointer behind `MAXARG` others. -/
theorem pushStack_spec (h : StackPage m pagetable base page) (argv : List KString) :
    (argv.length = maxarg ∧ pushStack m pagetable (base + pgsize) argv = none) ∨
    ∃ m' sp, pushStack m pagetable (base + pgsize) argv = some (m', sp) ∧
      Pushed m m' pagetable base page pgsize ∧
      (StackFits argv → ∃ p ps, sp = some p ∧ ArgvAt m' pagetable (base + pgsize) p argv ps) ∧
      (¬ StackFits argv → sp = none) := by
  obtain ⟨m1, hpush, hfits, hfails⟩ := pushArgs_spec h le_rfl (by decide) (Nat.zero_le maxarg) argv
  unfold pushStack
  rw [Nat.add_sub_cancel]
  dsimp only
  by_cases hfit : argsSpace argv ≤ pgsize ∧ 0 + argv.length ≤ maxarg
  · obtain ⟨hrun, hstr⟩ := hfits hfit
    have hlen : (pointers (base + pgsize) argv ++ [0]).length = argv.length + 1 := by
      rw [length_append, length_pointers, length_singleton]
    have hal : (pgsize - argsSpace argv) % 16 = 0 := by
      have := argsSpace_mod argv
      have hpg : pgsize = 4096 := rfl
      omega
    have hsp := nextSp hpush.stack (Nat.sub_le pgsize (argsSpace argv)) hal
      (show (argv.length + 1) * 8 ≤ 2 ^ 27 by have : maxarg = 32 := rfl; omega)
    dsimp only at hsp
    rw [hrun]
    dsimp only
    rw [length_pointers]
    by_cases hargs : argv.length = maxarg
    · exact Or.inl ⟨hargs, if_pos hargs.ge⟩
    right
    rw [if_neg (by omega), hlen]
    obtain ⟨hge, hmod⟩ := pad16_ge ((argv.length + 1) * 8)
    by_cases hroom : pad16 ((argv.length + 1) * 8) ≤ pgsize - argsSpace argv
    · rw [if_pos hroom] at hsp
      set o := pgsize - argsSpace argv - pad16 ((argv.length + 1) * 8) with ho
      have hbytes : ((pointers (base + pgsize) argv ++ [0]).flatMap uint64Bytes).length =
          8 * (argv.length + 1) := by rw [length_flatMap_uint64, hlen]
      obtain ⟨m', hout, hpush', harray⟩ := hpush.stack.push
        (by omega : 0 < ((pointers (base + pgsize) argv ++ [0]).flatMap uint64Bytes).length)
        (show o + ((pointers (base + pgsize) argv ++ [0]).flatMap uint64Bytes).length ≤
          pgsize - argsSpace argv by omega) (Nat.sub_le ..)
      rw [hsp, if_neg (by omega), hout]
      refine ⟨m', some (base + o), rfl, hpush.trans hpush' (Nat.sub_le ..), fun _ => ?_,
        fun hno => absurd ⟨by omega, by omega⟩ hno⟩
      obtain ⟨hin, hapart⟩ := pointers_apart (show argsSpace argv ≤ base + pgsize by omega)
      have hdvd := h.dvd
      refine ⟨base + o, pointers (base + pgsize) argv, rfl, by omega, by omega, fun i hi => ?_, ?_,
        fun a ha => ?_, hapart, by omega⟩
      · rw [hbytes, ← hlen] at harray
        have hi' : i < (pointers (base + pgsize) argv ++ [0]).length := by omega
        have hlt := pointers_le _ (getElem_mem hi')
        have hbase := h.base_lt
        have hpg : pgsize = 4096 := rfl
        rw [load_array harray hi' (by omega), getD_eq_getElem?_getD, getElem_append]
        split
        · rename_i hlt'
          rw [List.getElem?_eq_getElem hlt', Option.getD_some]
        · rename_i hge'
          rw [List.getElem?_eq_none (by omega), Option.getD_none]
          simp
      · -- the array is below the arguments
        obtain ⟨hleng, hall⟩ := List.forall₂_iff_zip.1 hstr
        refine List.forall₂_iff_zip.2 ⟨hleng, fun {p s} hmem => ?_⟩
        have hstring := hall hmem
        obtain ⟨hlow, hhigh⟩ := hin _ hmem
        dsimp only at hlow hhigh
        obtain ⟨q, rfl⟩ : ∃ q, p = base + q := ⟨p - base, by omega⟩
        rw [ArgString, hpush'.slice (by omega) (by omega)]
        exact hstring
      · have := hin a ha
        omega
    · rw [if_neg hroom] at hsp
      refine ⟨m1, none, ?_, hpush, fun hstack => absurd hstack.2 (by omega), fun _ => rfl⟩
      generalize (base + (pgsize - argsSpace argv) + 2 ^ 64 - (argv.length + 1) * 8) % 2 ^ 64 = sp
        at hsp ⊢
      rcases hsp with hlow | hhigh
      · rw [if_pos hlow]
      · have hbase := h.base_lt
        have hmax : maxva = 2 ^ 38 := rfl
        have hne : (pointers (base + pgsize) argv ++ [0]).flatMap uint64Bytes ≠ [] := by
          intro hnil
          have := length_flatMap_uint64 (pointers (base + pgsize) argv ++ [0])
          rw [hnil, hlen] at this
          cases this
        rw [if_neg (by omega), copyout_unmapped (fun hmap => absurd hmap.lt (by omega)) hne]
        exact if_pos (show (-1 : ℤ) < 0 by decide)
  · right
    rw [hfails hfit]
    exact ⟨m1, none, rfl, hpush, fun hstack => absurd hstack (by unfold StackFits; omega),
      fun _ => rfl⟩

end AudioPlayer
