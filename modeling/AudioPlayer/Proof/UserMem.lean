import AudioPlayer.Proof.Exec
import AudioPlayer.Proof.Proc
import AudioPlayer.Spec.UserMem
import Mathlib.Algebra.BigOperators.Group.Finset.Basic
import Mathlib.Algebra.Order.BigOperators.Group.Finset

/-!
# No page is lost

Between two calls every page of the allocator is on the free list or has one owner: a page table,
the memory of a process, its trapframe, the kernel or a pipe (`MemOK`). A call works on one slot,
and finds its page table as an `Image` among the pages of all others (`MemOK.image`). What it
leaves is put back by `MemOK.set`. Every call is then a case of a lemma about the heap, and none
of them panics (`call_spec`).
-/

namespace AudioPlayer

open Function Radix Option

namespace Heap

variable {h h' : Heap} {pagetable np trapframe : ℕ} {f : ℕ → Pte} {R : Multiset ℕ}

/-- The pages of a process in use are given back. -/
theorem freeproc_spec {sz : ℕ} (hi : Image h pagetable (npages sz) f ({trapframe} + R))
    (hsz : sz ≤ 2 ^ 63) :
    ∃ h', h.freeproc ⟨some trapframe, some pagetable, sz⟩ = some h' ∧ Owns h' R ∧ Agree h h' R := by
  obtain ⟨h1, hfree, ho1, ha1⟩ := kfree_spec hi.owns
  obtain ⟨h2, hrun, ho2, ha2⟩ := procFreepagetable_spec (hi.frame ha1.left ho1) hsz rfl
  refine ⟨h2, ?_, ho2, ha1.right.right.trans ha2⟩
  rw [freeproc]
  dsimp only
  rw [hfree, bind_some, hrun]

/-- `allocproc` takes a trapframe and an empty page table, or nothing. -/
theorem allocproc_spec (ho : Owns h R) :
    ∃ h' r, h.allocproc .free = some (h', r) ∧ Agree h h' R ∧
      (r = none ∧ Owns h' R ∨ ∃ trapframe pagetable f,
        r = some ⟨some trapframe, some pagetable, 0⟩ ∧ Image h' pagetable 0 f ({trapframe} + R)) := by
  unfold allocproc
  obtain ⟨h1, ⟨hk, ho1⟩ | ⟨trapframe, hk, ho1⟩, ha1⟩ := kalloc_spec ho
  · rw [hk]
    exact ⟨h1, none, rfl, ha1, Or.inl ⟨rfl, ho1⟩⟩
  · rw [hk]
    dsimp only
    obtain ⟨h2, r, hrun, ha2, ⟨rfl, ho2⟩ | ⟨pagetable, f, rfl, hi2⟩⟩ :=
      procPagetable_spec trapframe ho1
    · rw [hrun, bind_some]
      -- the trapframe goes back
      obtain ⟨h3, hfree, ho3, ha3⟩ := kfree_spec ho2
      refine ⟨h3, none, ?_, ha1.trans (ha2.right.trans ha3), Or.inl ⟨rfl, ho3⟩⟩
      simp only [freeproc, hfree, bind_some, map_some]
    · rw [hrun, bind_some]
      exact ⟨h2, _, rfl, ha1.trans ha2.right, Or.inr ⟨trapframe, pagetable, f, rfl, hi2⟩⟩

/-- The free list is what is not held. -/
theorem Owns.freelist_eq (ho : Owns h R) (ho' : Owns h' R) (hbase : h'.base = h.base) :
    (h'.freelist : Multiset ℕ) = h.freelist := by
  have hpages : h'.pages = h.pages := by
    unfold pages
    rw [hbase]
  exact add_right_cancel (ho'.trans (hpages.trans ho.symm))

end Heap

namespace ProcTable

variable {t : ProcTable} {s : Slot} {mem copy : Bool}

theorem proc_set_self (t : ProcTable) (s : Slot) (pr : Proc) : (t.set s pr).proc s = pr :=
  update_self ..

theorem proc_set_of_ne {q : Slot} (hq : q ≠ s) (pr : Proc) : (t.set s pr).proc q = t.proc q :=
  update_of_ne hq _ _

/-- `fork` returns while there are process ids. -/
theorem fork_isSome (p : Slot) (mem copy : Bool) (hpid : t.nextpid + 1 < 2 ^ 31) :
    ∃ t' r, t.fork p mem copy = some (t', r) := by
  unfold fork allocproc allocpid
  rw [if_pos hpid]
  cases t.findUnused with
  | none => exact ⟨_, _, rfl⟩
  | some s => exact ⟨_, _, rfl⟩

/-- A `fork` without memory frees the slot it has taken. -/
theorem fork_failed (p : Slot) (hfind : t.findUnused = some s) (hpid : t.nextpid + 1 < 2 ^ 31)
    (hno : ¬ (mem ∧ copy)) :
    ∃ t', t.fork p mem copy = some (t', none) ∧ (t'.proc s).state = .unused ∧
      ∀ q ≠ s, t'.proc q = t.proc q := by
  obtain ⟨t', r, hfork⟩ := fork_isSome p mem copy hpid
  rcases fork_spec hfork with ⟨-, hnone, -⟩ | ⟨s', hfind', ⟨rfl, -, rfl⟩ | ⟨-, hmem, hcopy, -⟩⟩
  · rw [hfind] at hnone
    cases hnone
  · obtain rfl := some.inj (hfind.symm.trans hfind')
    refine ⟨_, hfork, ?_, fun q hq => proc_set_of_ne hq _⟩
    rw [freeproc, proc_set_self]
  · exact absurd ⟨hmem, hcopy⟩ hno

/-- A `fork` with memory makes a process of the slot. -/
theorem fork_done (p : Slot) (hfind : t.findUnused = some s) (hpid : t.nextpid + 1 < 2 ^ 31) :
    ∃ t' pid, t.fork p true true = some (t', some pid) ∧ (t'.proc s).state = .runnable ∧
      ∀ q ≠ s, t'.proc q = t.proc q := by
  obtain ⟨t', r, hfork⟩ := fork_isSome p true true hpid
  rcases fork_spec hfork with ⟨-, hnone, -⟩ | ⟨s', hfind', ⟨-, hno, -⟩ | ⟨rfl, -, -, rfl⟩⟩
  · rw [hfind] at hnone
    cases hnone
  · exact absurd ⟨rfl, rfl⟩ hno
  · obtain rfl := some.inj (hfind.symm.trans hfind')
    refine ⟨_, _, hfork, ?_, fun q hq => proc_set_of_ne hq _⟩
    rw [proc_set_self]

end ProcTable

namespace MemSys

open Heap

variable {m m' : MemSys} {p q : Slot} {mem mem' : PageMem} {sp : UserSpace}
  {base trapframe pagetable : ℕ}
  {R : Multiset ℕ}

/-! ## The pages of a slot -/

/-- The fields of a slot in use. -/
structure Valid (mem : PageMem) (sp : UserSpace) (trapframe pagetable : ℕ) : Prop where
  eq : sp = ⟨some trapframe, some pagetable, sp.sz⟩
  sz : sp.sz ≤ 2 ^ 27
  sound : Sound sv39 mem 2 pagetable
  map : UserMap (npages sp.sz) (leaf mem pagetable)

/-- A slot without a page table. -/
theorem pages_none (mem : PageMem) (trapframe : Option ℕ) (sz : ℕ) :
    tables mem ⟨trapframe, none, sz⟩ = 0 ∧ userPages mem ⟨trapframe, none, sz⟩ = 0 := by
  unfold tables userPages
  rw [elim_none, elim_none]
  exact ⟨rfl, rfl⟩

theorem spacePages_free (mem : PageMem) : spacePages mem .free = 0 := by
  unfold spacePages
  rw [(pages_none mem none 0).1, (pages_none mem none 0).2]
  rfl

theorem tables_le (mem : PageMem) (sp : UserSpace) : tables mem sp ≤ spacePages mem sp := by
  unfold spacePages
  rw [add_assoc]
  exact Multiset.le_add_right _ _

theorem tables_some (mem : PageMem) (trapframe : Option ℕ) (pagetable sz : ℕ) :
    tables mem ⟨trapframe, some pagetable, sz⟩ = nodes sv39 mem 2 pagetable := by
  unfold tables
  rw [elim_some]

theorem userPages_some (mem : PageMem) (trapframe : Option ℕ) (pagetable sz : ℕ) :
    userPages mem ⟨trapframe, some pagetable, sz⟩ = pagesAt (leaf mem pagetable) 0 (npages sz) := by
  unfold userPages pagesAt
  rw [elim_some, ← List.range_eq_range', ← Multiset.map_coe, Multiset.coe_range]

theorem spacePages_some (mem : PageMem) (trapframe pagetable sz : ℕ) :
    spacePages mem ⟨some trapframe, some pagetable, sz⟩ =
      nodes sv39 mem 2 pagetable + pagesAt (leaf mem pagetable) 0 (npages sz) + {trapframe} := by
  unfold spacePages
  rw [tables_some, userPages_some, elim_some]

/-- The pages of a slot depend on its page table only. -/
theorem pages_congr (h : ∀ x ∈ tables mem sp, mem' x = mem x) :
    tables mem' sp = tables mem sp ∧ userPages mem' sp = userPages mem sp := by
  obtain ⟨trapframe, pagetable, sz⟩ := sp
  cases pagetable with
  | none =>
    obtain ⟨htables, hpages⟩ := pages_none mem trapframe sz
    obtain ⟨htables', hpages'⟩ := pages_none mem' trapframe sz
    exact ⟨htables'.trans htables.symm, hpages'.trans hpages.symm⟩
  | some pagetable =>
    rw [tables_some] at h
    have hleaf : leaf mem' pagetable = leaf mem pagetable := funext fun k => lookup_congr h
    rw [tables_some, tables_some, userPages_some, userPages_some, hleaf]
    exact ⟨nodes_congr h, rfl⟩

theorem spacePages_congr (h : ∀ x ∈ tables mem sp, mem' x = mem x) :
    spacePages mem' sp = spacePages mem sp := by
  unfold spacePages
  rw [(pages_congr h).1, (pages_congr h).2]

theorem Valid.tables_eq (hv : Valid mem sp trapframe pagetable) :
    tables mem sp = nodes sv39 mem 2 pagetable := by
  rw [hv.eq, tables_some]

theorem Valid.congr (hv : Valid mem sp trapframe pagetable) (h : ∀ x ∈ tables mem sp, mem' x = mem x) :
    Valid mem' sp trapframe pagetable := by
  rw [hv.tables_eq] at h
  have hleaf : leaf mem' pagetable = leaf mem pagetable := funext fun k => lookup_congr h
  exact ⟨hv.eq, hv.sz, hv.sound.congr h, hleaf ▸ hv.map⟩

/-- The image of a slot in use is its fields. -/
theorem valid_of_image {h : Heap} {f : ℕ → Pte} {sz : ℕ}
    (hi : Heap.Image h pagetable (npages sz) f ({trapframe} + R)) (hsz : sz ≤ 2 ^ 27) :
    Owns h (spacePages h.mem ⟨some trapframe, some pagetable, sz⟩ + R) ∧
      Valid h.mem ⟨some trapframe, some pagetable, sz⟩ trapframe pagetable := by
  have hle := hi.np_le
  have hpages : pagesAt (leaf h.mem pagetable) 0 (npages sz) = pagesAt f 0 (npages sz) :=
    pagesAt_congr fun j _ hj => by rw [hi.tab.maps j (by omega)]
  refine ⟨?_, rfl, hsz, hi.tab.sound, fun k hk => ?_, fun k hk => ?_, fun k hk hge htop => ?_⟩
  · rw [spacePages_some, hpages, add_assoc, add_assoc]
    exact hi.tab.owns
  · rw [hi.tab.maps k (lt_of_lt_of_le hk (hle.trans (by decide)))]
    exact hi.map.user k hk
  · rw [hi.tab.maps k (by rcases hk with rfl | rfl <;> decide)]
    exact hi.map.top k hk
  · rw [hi.tab.maps k hk]
    exact hi.map.rest k hk hge htop

/-! ## The pages of the machine -/

/-- The pages that do not belong to slot `p`. -/
def others (m : MemSys) (p : Slot) : Multiset ℕ :=
  (m.kernel : Multiset ℕ) + m.pipes + ∑ q ∈ Finset.univ.erase p, spacePages m.heap.mem (m.space q)

theorem owned_eq (m : MemSys) (p : Slot) :
    m.owned = spacePages m.heap.mem (m.space p) + m.others p := by
  unfold owned others
  rw [← Finset.add_sum_erase _ _ (Finset.mem_univ p), add_left_comm]

/-- **Every page has one owner**, and the slots in use have a page table. -/
structure MemOK (base : ℕ) (m : MemSys) : Prop where
  base : m.heap.base = base
  owns : Owns m.heap m.owned
  free : ∀ q, (m.table.proc q).state = .unused → m.space q = .free
  used : ∀ q, (m.table.proc q).state ≠ .unused →
    ∃ trapframe pagetable, Valid m.heap.mem (m.space q) trapframe pagetable

theorem tables_le_others (hq : q ≠ p) : tables m.heap.mem (m.space q) ≤ m.others p := by
  refine (tables_le _ _).trans (le_trans ?_ (Multiset.le_add_left _ _))
  exact Finset.single_le_sum_of_canonicallyOrdered (f := fun q => spacePages m.heap.mem (m.space q))
    (Finset.mem_erase.2 ⟨hq, Finset.mem_univ q⟩)

/-- A process finds its page table among the pages of all others. -/
theorem MemOK.image (hm : MemOK base m) (hv : Valid m.heap.mem (m.space p) trapframe pagetable) :
    Heap.Image m.heap pagetable (npages (m.space p).sz) (leaf m.heap.mem pagetable)
      ({trapframe} + m.others p) := by
  refine ⟨⟨?_, hv.sound, fun _ _ => rfl⟩, hv.map⟩
  have ho := hm.owns
  rw [owned_eq m p, hv.eq, spacePages_some, add_assoc, add_assoc] at ho
  exact ho

/-- The memory of slots whose page tables are as they were. -/
theorem MemOK.keep (hm : MemOK base m) {h' : Heap} {q : Slot}
    (ha : ∀ x ∈ tables m.heap.mem (m.space q), h'.mem x = m.heap.mem x)
    (hq : (m.table.proc q).state ≠ .unused) :
    ∃ trapframe pagetable, Valid h'.mem (m.space q) trapframe pagetable := by
  obtain ⟨trapframe, pagetable, hv⟩ := hm.used q hq
  exact ⟨trapframe, pagetable, hv.congr ha⟩

/-- **A slot has new memory**, and the pages of all others are as they were. -/
theorem MemOK.set (hm : MemOK base m) {h' : Heap} {t' : ProcTable} {sp' : UserSpace} (p : Slot)
    (ho : Owns h' (spacePages h'.mem sp' + m.others p)) (ha : Agree m.heap h' (m.others p))
    (hfree : (t'.proc p).state = .unused → sp' = .free)
    (hused : (t'.proc p).state ≠ .unused → ∃ trapframe pagetable, Valid h'.mem sp' trapframe pagetable)
    (hother : ∀ q ≠ p, ((t'.proc q).state = .unused ↔ (m.table.proc q).state = .unused)) :
    MemOK base { m with heap := h', table := t', space := update m.space p sp' } := by
  have htables : ∀ q ≠ p, ∀ x ∈ tables m.heap.mem (m.space q), h'.mem x = m.heap.mem x :=
    fun q hq x hx => ha.mem x (Multiset.mem_of_le (tables_le_others hq) hx)
  refine ⟨ha.base.trans hm.base, ?_, fun q hq => ?_, fun q hq => ?_⟩
  · rw [owned_eq _ p]
    have hsum : ∑ q ∈ Finset.univ.erase p, spacePages h'.mem (update m.space p sp' q) =
        ∑ q ∈ Finset.univ.erase p, spacePages m.heap.mem (m.space q) := by
      refine Finset.sum_congr rfl fun q hq => ?_
      have hne := Finset.ne_of_mem_erase hq
      rw [update_of_ne hne, spacePages_congr (htables q hne)]
    unfold others at ho ⊢
    dsimp only
    rw [update_self, hsum]
    exact ho
  · by_cases hqp : q = p
    · subst hqp
      exact (update_self ..).trans (hfree hq)
    · exact (update_of_ne hqp _ _).trans (hm.free q ((hother q hqp).1 hq))
  · dsimp only
    by_cases hqp : q = p
    · subst hqp
      rw [update_self]
      exact hused hq
    · rw [update_of_ne hqp]
      exact hm.keep (htables q hqp) (mt (hother q hqp).2 hq)

/-- Pages are taken, freed or written that are no page-table pages. -/
theorem MemOK.frame (hm : MemOK base m) {h' : Heap} {pipes : List ℕ} (hbase : h'.base = m.heap.base)
    (ha : ∀ q, ∀ x ∈ tables m.heap.mem (m.space q), h'.mem x = m.heap.mem x)
    (ho : Owns h' ((m.kernel : Multiset ℕ) + pipes + ∑ q, spacePages m.heap.mem (m.space q))) :
    MemOK base { m with heap := h', pipes := pipes } := by
  refine ⟨hbase.trans hm.base, ?_, hm.free, fun q hq => hm.keep (ha q) hq⟩
  have hsum : ∑ q, spacePages h'.mem (m.space q) = ∑ q, spacePages m.heap.mem (m.space q) :=
    Finset.sum_congr rfl fun q _ => spacePages_congr (ha q)
  unfold owned
  dsimp only
  rw [hsum]
  exact ho

theorem tables_le_owned (m : MemSys) (q : Slot) : tables m.heap.mem (m.space q) ≤ m.owned := by
  rw [owned_eq m q]
  exact (tables_le _ _).trans (Multiset.le_add_right _ _)

/-- The states of the slots change, but none is taken or freed. -/
theorem MemOK.setTable (hm : MemOK base m) {t' : ProcTable}
    (hstate : ∀ q, (t'.proc q).state = .unused ↔ (m.table.proc q).state = .unused) :
    MemOK base { m with table := t' } :=
  ⟨hm.base, hm.owns, fun q hq => hm.free q ((hstate q).1 hq),
    fun q hq => hm.used q (mt (hstate q).2 hq)⟩

theorem Valid.trapframe_eq (hv : Valid mem sp trapframe pagetable) : sp.trapframe = some trapframe :=
  congrArg UserSpace.trapframe hv.eq

theorem Valid.pagetable_eq (hv : Valid mem sp trapframe pagetable) : sp.pagetable = some pagetable :=
  congrArg UserSpace.pagetable hv.eq

theorem used_of_live (h : (m.table.proc p).state.live = true) : (m.table.proc p).state ≠ .unused := by
  intro heq
  rw [heq] at h
  cases h

/-! ## `fork` and `wait` -/

/-- The free list has the pages it had. -/
def SameFree (m m' : MemSys) : Prop :=
  m'.space = m.space ∧ (m'.heap.freelist : Multiset ℕ) = m.heap.freelist

/-- **`fork`** takes what the child holds, or nothing. -/
theorem fork_ok (hm : MemOK base m) (hlive : (m.table.proc p).state.live = true)
    (hpid : m.table.nextpid + 1 < 2 ^ 31) :
    ∃ m' r, m.fork p = some (m', r) ∧ MemOK base m' ∧ (r = -1 → SameFree m m') := by
  unfold fork
  cases hfind : m.table.findUnused with
  | none => exact ⟨m, -1, rfl, hm, fun _ => ⟨rfl, rfl⟩⟩
  | some np =>
    have hunused := ProcTable.findUnused_spec hfind
    have hfree := hm.free np hunused
    have hne : p ≠ np := by
      rintro rfl
      exact used_of_live hlive hunused
    have ho := hm.owns
    rw [owned_eq m np, hfree, spacePages_free, zero_add] at ho
    -- without a child the slot is free again
    have hfail : ∀ {h' : Heap} {mem copy : Bool}, ¬ (mem ∧ copy) → Owns h' (m.others np) →
        Agree m.heap h' (m.others np) → ∃ m' r,
          ((m.table.fork p mem copy).map fun t => (({ m with
            heap := h', table := t.1, space := update m.space np .free } : MemSys), (-1 : ℤ))) =
            some (m', r) ∧ MemOK base m' ∧ (r = -1 → SameFree m m') := by
      intro h' mem copy hno ho' ha'
      obtain ⟨t', hfork, hstate, hsame⟩ := ProcTable.fork_failed p hfind hpid hno
      rw [hfork]
      refine ⟨_, -1, rfl, hm.set np ?_ ha' (fun _ => rfl) (fun hn => absurd hstate hn) ?_,
        fun _ => ⟨?_, ?_⟩⟩
      · rw [spacePages_free, zero_add]
        exact ho'
      · intro q hq
        rw [hsame q hq]
      · dsimp only
        rw [← hfree, update_eq_self]
      · exact ho.freelist_eq ho' ha'.base
    dsimp only
    rw [hfree]
    obtain ⟨h1, r, hrun, ha1, ⟨rfl, ho1⟩ | ⟨trapframe, pagetable, f, rfl, hi1⟩⟩ := allocproc_spec ho
    · rw [hrun, bind_some]
      exact hfail (by simp) ho1 ha1
    · rw [hrun, bind_some]
      obtain ⟨tf, old, hv⟩ := hm.used p (used_of_live hlive)
      have hnodes : ∀ x ∈ nodes sv39 m.heap.mem 2 old, h1.mem x = m.heap.mem x := by
        intro x hx
        rw [← hv.tables_eq] at hx
        exact ha1.mem x (Multiset.mem_of_le (tables_le_others hne) hx)
      have hold : nodes sv39 h1.mem 2 old ≤ {trapframe} + m.others np := by
        rw [nodes_congr hnodes, ← hv.tables_eq]
        exact (tables_le_others hne).trans (Multiset.le_add_left _ _)
      obtain ⟨h2, ok, f2, hcopy, ha2, hi2⟩ := uvmcopy_spec hi1 hold
        (hv.sz.trans (by decide)) fun k hk => by
          rw [leaf, lookup_congr hnodes]
          exact hv.map.user k hk
      dsimp only
      rw [hv.pagetable_eq, bind_some, bind_some, hcopy, bind_some]
      cases ok with
      | true =>
        obtain ⟨t', pid, hfork, hstate, hsame⟩ := ProcTable.fork_done p hfind hpid
        dsimp only
        rw [if_pos rfl] at hi2 ⊢
        obtain ⟨ho2, hvalid⟩ := valid_of_image hi2 hv.sz
        rw [hfork]
        refine ⟨_, _, rfl, hm.set np ho2 (ha1.trans ha2.right) (fun hu => ?_) (fun _ => ⟨_, _, hvalid⟩)
          fun q hq => by rw [hsame q hq], fun hr => ?_⟩
        · rw [hstate] at hu
          cases hu
        · cases hr
      | false =>
        dsimp only
        rw [if_neg Bool.false_ne_true] at hi2 ⊢
        have hempty : Heap.Image h2 pagetable (npages 0) f2 ({trapframe} + m.others np) := hi2
        obtain ⟨h3, hgive, ho3, ha3⟩ := freeproc_spec hempty (Nat.zero_le _)
        rw [hgive, bind_some]
        exact hfail (by simp) ho3 ((ha1.trans ha2.right).trans ha3)

/-- **`wait`** gives back what the child holds. -/
theorem wait_ok {copy : Bool} (hm : MemOK base m) (hret : (m.table.wait p copy).isSome) :
    ∃ m' r, m.wait p copy = some (m', r) ∧ MemOK base m' := by
  obtain ⟨⟨t', r⟩, hwait⟩ := isSome_iff_exists.1 hret
  unfold wait
  cases hfind : (List.finRange nproc).find? fun s =>
      (m.table.proc s).parent = some p ∧ (m.table.proc s).state = .zombie with
  | none =>
    dsimp only
    rw [hwait]
    have hsame : t' = m.table := by
      unfold ProcTable.wait at hwait
      rw [hfind] at hwait
      obtain ⟨-, hwait⟩ := ite_none_right_eq_some.1 hwait
      exact (Prod.mk.inj (some.inj hwait)).1.symm
    exact ⟨_, r, rfl, hm.setTable fun q => by rw [hsame]⟩
  | some np =>
    have hzombie : (m.table.proc np).state = .zombie := by
      have := List.find?_some hfind
      simp only [decide_eq_true_eq] at this
      exact this.2
    unfold ProcTable.wait at hwait ⊢
    rw [hfind] at hwait ⊢
    cases copy with
    | false =>
      dsimp only at hwait ⊢
      exact ⟨_, _, rfl, hm⟩
    | true =>
      dsimp only at hwait ⊢
      obtain ⟨trapframe, pagetable, hv⟩ := hm.used np (by rw [hzombie]; decide)
      obtain ⟨h', hfree, ho, ha⟩ := freeproc_spec (hm.image hv) (hv.sz.trans (by decide))
      rw [← hv.eq] at hfree
      rw [if_pos rfl, if_pos rfl, hfree, bind_some]
      refine ⟨_, _, rfl, hm.set np ?_ ha (fun _ => rfl) (fun hn => ?_) fun q hq => ?_⟩
      · rw [spacePages_free, zero_add]
        exact ho
      · exact absurd (by rw [ProcTable.freeproc, ProcTable.proc_set_self]) hn
      · rw [ProcTable.freeproc, ProcTable.proc_set_of_ne hq]

/-! ## `exec` and `sbrk` -/

/-- **`exec`** has the new image of the process for the old one, or nothing has changed. -/
theorem exec_ok (hm : MemOK base m) (hlive : (m.table.proc p).state.live = true) (path : Bool)
    (fetch : ℕ → ArgFetch) (file : Option ExecFile) :
    ∃ m' r, m.exec p path fetch file = some (m', r) ∧ MemOK base m' ∧ (r = -1 → SameFree m m') := by
  obtain ⟨trapframe, old, hv⟩ := hm.used p (used_of_live hlive)
  have hi := hm.image hv
  obtain ⟨h', image, hrun, hdone⟩ := sysExec_spec path fetch file hi
    (hv.sz.trans (by decide)) rfl
  unfold exec
  rw [hv.trapframe_eq, hv.pagetable_eq]
  dsimp only
  rw [hrun]
  cases image with
  | none =>
    obtain ⟨ho, ha⟩ := hdone
    have howned : Heap.Image.held m.heap old (npages (m.space p).sz) (leaf m.heap.mem old)
        ({trapframe} + m.others p) = m.owned := by
      rw [owned_eq m p, hv.eq, spacePages_some, add_assoc, add_assoc]
      rfl
    rw [howned] at ho ha
    refine ⟨_, -1, rfl, hm.frame ha.base (fun q x hx => ?_) ho, fun _ =>
      ⟨rfl, hm.owns.freelist_eq ho ha.base⟩⟩
    exact ha.mem x (Multiset.mem_of_le (tables_le_owned m q) hx)
  | some image =>
    obtain ⟨f', hi', ha, hsz⟩ := hdone
    obtain ⟨ho', hvalid⟩ := valid_of_image hi' hsz
    refine ⟨_, image.argc, rfl, hm.set p ho' ha (fun hu => ?_) (fun _ => ⟨_, _, hvalid⟩)
      fun _ _ => Iff.rfl, fun hr => absurd hr (by omega)⟩
    exact absurd hu (used_of_live hlive)

/-- A process has more or fewer pages. -/
theorem MemOK.resize {h' : Heap} {f' : ℕ → Pte} {sz : ℕ} (hm : MemOK base m)
    (hlive : (m.table.proc p).state.live = true)
    (hv : Valid m.heap.mem (m.space p) trapframe pagetable)
    (hi : Heap.Image h' pagetable (npages sz) f' ({trapframe} + m.others p)) (hsz : sz ≤ 2 ^ 27)
    (hkept : Kept pagetable ({trapframe} + m.others p) m.heap h') :
    MemOK base { m with
      heap := h', space := update m.space p { m.space p with sz := sz } } := by
  obtain ⟨ho, hvalid⟩ := valid_of_image hi hsz
  have hspace : { m.space p with sz := sz } = (⟨some trapframe, some pagetable, sz⟩ : UserSpace) := by
    dsimp only
    rw [hv.trapframe_eq, hv.pagetable_eq]
  rw [hspace]
  exact hm.set p ho hkept.agree.right (fun hu => absurd hu (used_of_live hlive))
    (fun _ => ⟨_, _, hvalid⟩) fun _ _ => Iff.rfl

/-- The free list has the pages it had, without those that were linked into a page table. -/
def Linked (m m' : MemSys) (p : Slot) : Prop :=
  m'.space = m.space ∧ ∃ linked : Multiset ℕ,
    (m.heap.freelist : Multiset ℕ) = m'.heap.freelist + linked ∧
    tables m'.heap.mem (m.space p) = tables m.heap.mem (m.space p) + linked

/-- `uvmalloc` that fails has linked page-table pages only. -/
theorem linked_of_kept {h' : Heap} {f f' : ℕ → Pte} {np : ℕ}
    (hv : Valid m.heap.mem (m.space p) trapframe pagetable) (hi : Heap.Image m.heap pagetable np f R)
    (hi' : Heap.Image h' pagetable np f' R) (hsame : ∀ k < np, f' k = f k)
    (hkept : Kept pagetable R m.heap h') :
    Linked m { m with heap := h' } p := by
  obtain ⟨linked, hlinked⟩ := Multiset.le_iff_exists_add.1 hkept.le
  refine ⟨rfl, linked, ?_, ?_⟩
  · have hpages : pagesAt f' 0 np = pagesAt f 0 np :=
      pagesAt_congr fun j _ hj => by rw [hsame j (by omega)]
    have hbase : h'.pages = m.heap.pages := by
      unfold Heap.pages
      rw [hkept.agree.base]
    have ho' : (h'.freelist : Multiset ℕ) + (nodes sv39 h'.mem 2 pagetable + (pagesAt f' 0 np + R)) =
      h'.pages := hi'.tab.owns
    refine add_right_cancel (b := nodes sv39 m.heap.mem 2 pagetable + (pagesAt f 0 np + R)) ?_
    calc (m.heap.freelist : Multiset ℕ) + (nodes sv39 m.heap.mem 2 pagetable + (pagesAt f 0 np + R))
        = m.heap.pages := hi.tab.owns
      _ = h'.freelist + (nodes sv39 m.heap.mem 2 pagetable + linked + (pagesAt f 0 np + R)) := by
        rw [← hbase, ← ho', hpages, hlinked]
      _ = h'.freelist + linked + (nodes sv39 m.heap.mem 2 pagetable + (pagesAt f 0 np + R)) := by
        rw [add_right_comm (nodes sv39 m.heap.mem 2 pagetable), add_comm _ linked, ← add_assoc]
  · dsimp only
    rw [hv.eq, tables_some, tables_some]
    exact hlinked

/-- **`sbrk`** has the pages of the new size, or it has linked page-table pages only. -/
theorem sbrk_ok (hm : MemOK base m) (hlive : (m.table.proc p).state.live = true) (n : ℤ) :
    ∃ m' r, m.sbrk p n = some (m', r) ∧ MemOK base m' ∧ (r = -1 → Linked m m' p) := by
  obtain ⟨trapframe, pagetable, hv⟩ := hm.used p (used_of_live hlive)
  have hi := hm.image hv
  obtain ⟨h', sz', r, f', hrun, hres, hr⟩ := growproc_spec hi hv.sz n
  have hok := hm.resize hlive hv hres.image hres.size hres.kept.right
  unfold sbrk
  rw [hv.pagetable_eq]
  dsimp only
  rw [hrun]
  rcases hr with ⟨rfl, rfl, -⟩ | ⟨rfl, -⟩
  · have hspace : update m.space p { m.space p with sz := (m.space p).sz } = m.space :=
      update_eq_self _ _
    rw [hspace] at hok
    refine ⟨_, -1, rfl, ?_, fun _ => ?_⟩
    · dsimp only
      rwa [hspace]
    · have hsame := hres.same
      rw [min_self] at hsame
      have hlinked := linked_of_kept hv hi hres.image hsame.user hres.kept.right
      unfold Linked at hlinked ⊢
      dsimp only at hlinked ⊢
      rwa [hspace]
  · -- the old size is not -1
    refine ⟨_, ((m.space p).sz : ℤ), rfl, hok, fun h => absurd h (by omega)⟩

/-! ## The other calls -/

theorem exit_states {t t' : ProcTable} {status : ℤ} (h : t.exit p status = some t')
    (hp : (t.proc p).state ≠ .unused) (q : Slot) :
    (t'.proc q).state = .unused ↔ (t.proc q).state = .unused := by
  obtain ⟨-, rfl⟩ := ProcTable.exit_spec h
  by_cases hq : q = p
  · subst hq
    rw [ProcTable.proc_set_self]
    exact ⟨fun hz => ProcState.noConfusion hz, fun hu => absurd hu hp⟩
  · rw [ProcTable.proc_set_of_ne hq, ProcTable.reparent_proc]

theorem kill_states (t : ProcTable) (pid : ℤ) (q : Slot) :
    ((t.kill pid).1.proc q).state = .unused ↔ (t.proc q).state = .unused := by
  rcases ProcTable.kill_spec t pid with ⟨-, heq, -⟩ | ⟨s, state, -, -, hstate, heq⟩
  · rw [heq]
  · rw [heq]
    by_cases hq : q = s
    · subst hq
      rw [ProcTable.proc_set_self]
      rcases hstate with rfl | ⟨hsleep, rfl⟩
      · rfl
      · rw [hsleep]
        exact ⟨fun hr => ProcState.noConfusion hr, fun hu => ProcState.noConfusion hu⟩
    · rw [ProcTable.proc_set_of_ne hq]

theorem pipealloc_ok (hm : MemOK base m) :
    ∃ m' r, m.call .pipealloc = some (m', r) ∧ MemOK base m' := by
  rw [call]
  obtain ⟨h', ⟨hk, ho⟩ | ⟨z, hk, ho⟩, ha⟩ := kalloc_spec hm.owns
  · rw [hk]
    exact ⟨_, -1, rfl, hm.frame ha.base
      (fun q x hx => ha.mem x (Multiset.mem_of_le (tables_le_owned m q) hx)) ho⟩
  · rw [hk]
    refine ⟨_, 0, rfl, hm.frame ha.base
      (fun q x hx => ha.mem x (Multiset.mem_of_le (tables_le_owned m q) hx)) ?_⟩
    rw [← Multiset.cons_coe, ← Multiset.singleton_add, add_left_comm (m.kernel : Multiset ℕ), add_assoc]
    exact ho

theorem pipeclose_ok {page : ℕ} (hm : MemOK base m) (hpage : page ∈ m.pipes) :
    ∃ m' r, m.call (.pipeclose page) = some (m', r) ∧ MemOK base m' := by
  have howned : m.owned =
      {page} + ((m.kernel : Multiset ℕ) + m.pipes.erase page +
        ∑ q, spacePages m.heap.mem (m.space q)) := by
    have hpipes : (m.pipes : Multiset ℕ) = {page} + (m.pipes.erase page : Multiset ℕ) := by
      rw [Multiset.singleton_add, Multiset.cons_coe]
      exact Multiset.coe_eq_coe.2 (List.perm_cons_erase hpage)
    unfold owned
    rw [hpipes, add_left_comm (m.kernel : Multiset ℕ), add_assoc]
  have ho := hm.owns
  rw [howned] at ho
  obtain ⟨h', hfree, ho', ha⟩ := kfree_spec ho
  rw [call, hfree]
  refine ⟨_, 0, rfl, hm.frame ha.base (fun q x hx => ha.mem x ?_) ho'⟩
  refine Multiset.mem_of_le ?_ hx
  refine (tables_le _ _).trans (le_trans ?_ (Multiset.le_add_left _ _))
  exact Finset.single_le_sum_of_canonicallyOrdered (f := fun q => spacePages m.heap.mem (m.space q))
    (Finset.mem_univ q)

/-- The pages that can be written are no page-table pages. -/
theorem owned_writable (m : MemSys) :
    m.owned = m.writable + (m.kernel + ∑ q, tables m.heap.mem (m.space q)) := by
  unfold owned writable
  have hsplit : ∀ q, spacePages m.heap.mem (m.space q) = tables m.heap.mem (m.space q) +
      (userPages m.heap.mem (m.space q) + (m.space q).trapframe.elim 0 fun page => {page}) := by
    intro q
    unfold spacePages
    rw [add_assoc]
  rw [Finset.sum_congr rfl fun q _ => hsplit q, Finset.sum_add_distrib,
    add_comm (∑ q, tables m.heap.mem (m.space q)), ← add_assoc, add_assoc (m.kernel : Multiset ℕ),
    add_comm (m.kernel : Multiset ℕ), add_assoc]

theorem store_ok {page : ℕ} (c : Fin 512 → Pte) (hm : MemOK base m) (hpage : page ∈ m.writable) :
    ∃ m' r, m.call (.store page c) = some (m', r) ∧ MemOK base m' := by
  have hsum : ∀ q, tables m.heap.mem (m.space q) ≤ m.kernel + ∑ q, tables m.heap.mem (m.space q) := by
    intro q
    refine le_trans ?_ (Multiset.le_add_left _ _)
    exact Finset.single_le_sum_of_canonicallyOrdered (f := fun q => tables m.heap.mem (m.space q))
      (Finset.mem_univ q)
  have ho := hm.owns
  rw [owned_writable] at ho
  have ha : Agree m.heap (m.heap.setPage page c) (m.kernel + ∑ q, tables m.heap.mem (m.space q)) :=
    agree_setPage (ho.notMem hpage)
  refine ⟨_, 0, rfl, hm.frame ha.base (fun q x hx => ha.mem x (Multiset.mem_of_le (hsum q) hx)) hm.owns⟩

/-- What a call that returns -1 has done with the pages it took. -/
def GaveBack (m m' : MemSys) : MemCall → Prop
  | .fork _ | .exec _ _ _ _ => SameFree m m'
  | .sbrk p _ _ => Linked m m' p
  | _ => True

/-- **Every call** returns, and keeps the pages. -/
theorem call_spec {a : MemCall} (hm : MemOK base m) (he : m.Enabled a) :
    ∃ m' r, m.call a = some (m', r) ∧ MemOK base m' ∧ (r = -1 → GaveBack m m' a) := by
  cases a with
  | fork p => exact fork_ok hm he.1 he.2
  | exec p path fetch file => exact exec_ok hm he path fetch file
  | sbrk p n hn => exact sbrk_ok hm he n
  | exit p status =>
    obtain ⟨hlive, hne⟩ := he
    have hexit : (m.table.exit p status).isSome := by
      unfold ProcTable.exit
      rw [if_neg hne]
      rfl
    obtain ⟨t', ht'⟩ := isSome_iff_exists.1 hexit
    refine ⟨{ m with table := t' }, 0, ?_, hm.setTable (exit_states ht' (used_of_live hlive)),
      fun _ => trivial⟩
    rw [call, ht']
    rfl
  | wait p copy =>
    obtain ⟨m', r, hrun, hm'⟩ := wait_ok hm he.2
    exact ⟨m', r, hrun, hm', fun _ => trivial⟩
  | kill pid => exact ⟨_, _, rfl, hm.setTable (kill_states m.table pid), fun _ => trivial⟩
  | pipealloc =>
    obtain ⟨m', r, hrun, hm'⟩ := pipealloc_ok hm
    exact ⟨m', r, hrun, hm', fun _ => trivial⟩
  | pipeclose page =>
    obtain ⟨m', r, hrun, hm'⟩ := pipeclose_ok hm he
    exact ⟨m', r, hrun, hm', fun _ => trivial⟩
  | store page c =>
    obtain ⟨m', r, hrun, hm'⟩ := store_ok c hm he
    exact ⟨m', r, hrun, hm', fun _ => trivial⟩

/-! ## Boot -/

/-- `freerange` frees every page once. -/
theorem freerange_spec {h h' : Heap} {a n : ℕ} (hrun : h.freerange a n = some h') :
    (h'.freelist : Multiset ℕ) = (List.range' a n : Multiset ℕ) + h.freelist ∧ h'.base = h.base := by
  induction n generalizing h a with
  | zero =>
    cases hrun
    exact ⟨(zero_add _).symm, rfl⟩
  | succ n ih =>
    obtain ⟨h1, hfree, hrest⟩ := bind_eq_some_iff.1 hrun
    obtain ⟨-, ⟨⟩⟩ := ite_none_right_eq_some.1 hfree
    obtain ⟨hlist, hbase⟩ := ih hrest
    refine ⟨?_, hbase⟩
    rw [hlist, List.range'_succ, ← Multiset.cons_coe a (List.range' (a + 1) n)]
    show _ + ((a :: h.freelist : List ℕ) : Multiset ℕ) = _
    rw [← Multiset.cons_coe, Multiset.add_cons, Multiset.cons_add]

theorem kinit_owns {base trampoline : ℕ} {hbase : kernbase ≤ base} {mem : PageMem} {h : Heap}
    (hrun : kinit base trampoline hbase mem = some h) : Owns h 0 ∧ h.base = base := by
  obtain ⟨hlist, hb⟩ := freerange_spec hrun
  have hb : h.base = base := hb
  refine ⟨?_, hb⟩
  unfold Owns Heap.pages
  rw [hlist, hb, Multiset.coe_nil, add_zero, add_zero]

theorem takeKernel_spec {h h' : Heap} {n : ℕ} {kernel : List ℕ} (ho : Owns h R)
    (hrun : takeKernel n h = some (h', kernel)) :
    Owns h' ((kernel : Multiset ℕ) + R) ∧ h'.base = h.base := by
  induction n generalizing h R kernel with
  | zero =>
    cases hrun
    refine ⟨?_, rfl⟩
    rwa [Multiset.coe_nil, zero_add]
  | succ n ih =>
    unfold takeKernel at hrun
    obtain ⟨h1, ⟨hk, -⟩ | ⟨z, hk, ho1⟩, ha⟩ := kalloc_spec ho
    · rw [hk] at hrun
      cases hrun
    · rw [hk] at hrun
      obtain ⟨⟨h2, pages⟩, hrest, heq⟩ := map_eq_some_iff.1 hrun
      obtain ⟨rfl, rfl⟩ := Prod.mk.inj heq
      obtain ⟨ho2, hb⟩ := ih ho1 hrest
      refine ⟨?_, hb.trans ha.base⟩
      rw [← Multiset.cons_coe, ← Multiset.singleton_add, add_assoc, add_left_comm]
      exact ho2

/-- **The first process.** -/
theorem userinit_spec {h h' : Heap} (ho : Owns h R)
    (hrun : userinit h = some (h', sp)) :
    ∃ trapframe pagetable, Owns h' (spacePages h'.mem sp + R) ∧ Valid h'.mem sp trapframe pagetable ∧
      h'.base = h.base := by
  unfold userinit at hrun
  obtain ⟨h1, r, halloc, ha1, ⟨rfl, -⟩ | ⟨trapframe, pagetable, f, rfl, hi1⟩⟩ := allocproc_spec ho
  · rw [halloc] at hrun
    cases hrun
  rw [halloc, bind_some] at hrun
  dsimp only at hrun
  rw [bind_some, bind_some] at hrun
  obtain ⟨h2, ⟨hk, -⟩ | ⟨z, hk, ht2⟩, hkept2⟩ := hi1.tab.kalloc
  · rw [hk] at hrun
    cases hrun
  obtain ⟨ht3, hkept3⟩ := ht2.setPage (filled 0)
  have hnew : (f 0).v = false := by
    rw [hi1.map.rest 0 (by decide) le_rfl fun ht => absurd ht.ge (by decide)]
  obtain ⟨h4, r, hmap, hkept4, hr⟩ := mappages_spec ht3 (by decide) hnew z .user
  rw [zero_mul] at hmap
  obtain ⟨rfl, ht4⟩ | ⟨rfl, -⟩ := hr
  · rw [hk] at hrun
    dsimp only at hrun
    rw [hmap, bind_some] at hrun
    obtain ⟨-, hrun⟩ := ite_none_left_eq_some.1 hrun
    cases hrun
    have hone : Heap.Image h4 pagetable (npages pgsize) _ ({trapframe} + R) := hi1.extend rfl ht4
    obtain ⟨ho4, hvalid⟩ := valid_of_image hone (by decide)
    refine ⟨trapframe, pagetable, ho4, hvalid, ?_⟩
    exact hkept4.agree.base.trans (hkept3.agree.base.trans (hkept2.agree.base.trans ha1.base))
  · rw [hk] at hrun
    dsimp only at hrun
    rw [hmap] at hrun
    cases hrun

theorem boot_ok {base trampoline n : ℕ} {hbase : kernbase ≤ base} {mem : PageMem}
    (hboot : boot base trampoline n hbase mem = some m) : MemOK base m := by
  obtain ⟨h1, hinit, hboot⟩ := bind_eq_some_iff.1 hboot
  obtain ⟨⟨h2, kernel⟩, htake, hboot⟩ := bind_eq_some_iff.1 hboot
  obtain ⟨⟨h3, sp⟩, huser, rfl⟩ := map_eq_some_iff.1 hboot
  obtain ⟨ho1, hb1⟩ := kinit_owns hinit
  obtain ⟨ho2, hb2⟩ := takeKernel_spec ho1 htake
  obtain ⟨trapframe, pagetable, ho3, hvalid, hb3⟩ := userinit_spec ho2 huser
  have hfree : ∀ q : Slot, q ≠ 0 → update (fun _ => UserSpace.free) 0 sp q = .free :=
    fun q hq => update_of_ne hq _ _
  refine ⟨hb3.trans (hb2.trans hb1), ?_, fun q hq => ?_, fun q hq => ?_⟩
  · rw [owned_eq _ 0]
    have hsum : ∑ q ∈ Finset.univ.erase (0 : Slot),
        spacePages h3.mem (update (fun _ => UserSpace.free) 0 sp q) = 0 := by
      refine Finset.sum_eq_zero fun q hq => ?_
      rw [hfree q (Finset.ne_of_mem_erase hq), spacePages_free]
    unfold others
    dsimp only
    rw [update_self, hsum, Multiset.coe_nil, add_zero]
    exact ho3
  · refine hfree q ?_
    rintro rfl
    exact ProcState.noConfusion hq
  · obtain rfl : q = 0 := by
      by_contra hne
      refine hq ?_
      show (if q = 0 then _ else _ : Proc).state = _
      rw [if_neg hne]
    dsimp only
    rw [update_self]
    exact ⟨_, _, hvalid⟩

end MemSys

open MemSys in
/-- **Page accounting.** In every state that calls of `fork`, `exec`, `sbrk`, `exit`, `wait` and
`kill` lead to, also with pipes that come and go, with memory that the processes write, and with
`kalloc` returning 0 at any point: every page of the allocator is on the free list once, or has
one owner. Every call from there on returns, so no panic is reached, and one that fails has given
back what it took, but for page-table pages that it linked into the page table of its process. -/
theorem page_accounting {base trampoline n : ℕ} {hbase : kernbase ≤ base} {mem : PageMem}
    {m0 m : MemSys}
    {as : List (MemCall × List Bool)} (hboot : MemSys.boot base trampoline n hbase mem = some m0)
    (hrun : Runs.exec MemSys.step m0 as = some m) :
    (∀ page, m.heap.freelist.count page + m.owned.count page =
      if base ≤ page ∧ page < phystop then 1 else 0) ∧
    ∀ a refuse, m.Enabled a → ∃ m' r,
      ({ m with heap := { m.heap with refuse := refuse } } : MemSys).call a = some (m', r) ∧
      (r = -1 → GaveBack m m' a) := by
  -- what `kalloc` will return is no part of the invariant
  have hcall : ∀ (m : MemSys) (a : MemCall) (refuse : List Bool), m.MemOK base → m.Enabled a → ∃ m' r,
      ({ m with heap := { m.heap with refuse := refuse } } : MemSys).call a = some (m', r) ∧
      m'.MemOK base ∧ (r = -1 → GaveBack m m' a) := by
    intro m a refuse hm he
    have hm1 : MemOK base { m with heap := { m.heap with refuse := refuse } } :=
      ⟨hm.base, hm.owns, hm.free, hm.used⟩
    exact call_spec hm1 he
  have hok : m.MemOK base := by
    refine Runs.exec_inv (fun m a m' hm hstep => ?_) (boot_ok hboot) hrun
    obtain ⟨he, hstep⟩ := ite_none_right_eq_some.1 hstep
    obtain ⟨⟨m1, r⟩, hret, rfl⟩ := map_eq_some_iff.1 hstep
    obtain ⟨m2, r2, hret', hok, -⟩ := hcall m a.1 a.2 hm he
    rw [hret] at hret'
    obtain ⟨rfl, -⟩ := Prod.mk.inj (some.inj hret')
    exact hok
  refine ⟨fun page => ?_, fun a refuse he => ?_⟩
  · have hcount := congrArg (Multiset.count page) hok.owns
    rw [Multiset.count_add, Multiset.coe_count] at hcount
    rw [hcount, Multiset.count_eq_of_nodup m.heap.pages_nodup]
    simp only [Heap.mem_pages, hok.base]
  · obtain ⟨m', r, hret, -, hback⟩ := hcall m a refuse hok he
    exact ⟨m', r, hret, hback⟩

/-- A process is made, `kalloc` fails in another `fork` and in `sbrk`, and the process exits and is
waited for. -/
def pageCalls : List (MemCall × List Bool) :=
  [(.fork 0, []), (.fork 0, [false, true]), (.sbrk 0 8192 (by decide), [false, false, true]),
    (.exit 1 0, []), (.wait 0 true, [])]

/-- Twenty pages behind the kernel are enough for that. -/
theorem page_accounting_fork :
    ∃ m0 m, MemSys.boot (phystop - 20) 0x80007 2 (by decide) (fun _ => filled 0) = some m0 ∧
      Runs.exec MemSys.step m0 pageCalls = some m ∧ m.Enabled (.fork 0) ∧
      ∀ page, m.heap.freelist.count page + m.owned.count page =
        if phystop - 20 ≤ page ∧ page < phystop then 1 else 0 := by
  have hrun : (MemSys.boot (phystop - 20) 0x80007 2 (by decide) (fun _ => filled 0)).any
      (fun m0 => (Runs.exec MemSys.step m0 pageCalls).any fun m => decide (m.Enabled (.fork 0))) =
          true := by
    decide +kernel
  obtain ⟨m0, hboot, hcalls⟩ := (any_eq_true _ _).1 hrun
  obtain ⟨m, hm, he⟩ := (any_eq_true _ _).1 hcalls
  exact ⟨m0, m, hboot, hm, of_decide_eq_true he, (page_accounting hboot hm).1⟩

end AudioPlayer
