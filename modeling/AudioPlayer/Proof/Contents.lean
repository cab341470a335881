import AudioPlayer.Proof.FsCalls
import Mathlib.Data.Finset.Card
import Mathlib.Order.Interval.Finset.Nat

/-!
# The contents of files

A file is an array of bytes, which `fileByte` reads through the map of its blocks. A block that
is mapped by `bmap` holds zeros, so mapping changes no byte of any file, and a pass of the loop in
`writei` changes the bytes of one block.

* `Good.bmap_mapped`: what `bmap` does to the places, the bytes and the free blocks;
* `Good.writeLoop_bytes`: the loop of `writei` is a copy into the array;
* `Good.writeLoop_eq_none_iff`: it panics when there are fewer free blocks than it needs;
* `WellFormed.readi_contents`: `readi` returns a part of the array;
* `file_byte_array`: all of it, for a call of `writei`.
-/

namespace AudioPlayer

open Function Bytes Owners Runs List Option

namespace Fs

variable {fs fs' : Fs} {I I' : ℕ → Dinode} {i j k b bn addr : ℕ} {ip ip' : Dinode} {p : BlockSlot}
  {src : List UInt8} {copyin : ℕ → Option ℕ} {d : List UInt8}

/-- The byte of a block that is stored in a place. Without a block there are zeros. -/
def cell (fs : Fs) (I : ℕ → Dinode) (p : BlockSlot) : Block :=
  match fs.slot I p with
  | some b => fs.blocks b
  | none => fun _ => 0

/-- The byte of file `i` at a position. -/
def fileByte (fs : Fs) (I : ℕ → Dinode) (i : ℕ) : Mem :=
  fun pos => fs.cell I (placeOf i (pos / bsize)) (pos % bsize)

/-- **The contents of file `i`.** -/
def contents (fs : Fs) (I : ℕ → Dinode) (i : ℕ) : List UInt8 := slice (fs.fileByte I i) 0 (I i).size

/-- The blocks that `balloc` can return. -/
def freeBlocks (fs : Fs) : Finset ℕ := (Finset.range fs.sb.size).filter fun b => fs.marked b = false

/-- The blocks that `bmap` takes for block `bn` of file `i`. -/
def demand (fs : Fs) (I : ℕ → Dinode) (i bn : ℕ) : ℕ :=
  if fs.slot I (placeOf i bn) = none then
    1 + if nDirect ≤ bn ∧ (I i).addrs nDirect = 0 then 1 else 0
  else 0

theorem placeOf_inj (h : placeOf i bn = placeOf j k) : i = j ∧ bn = k := by
  unfold placeOf at h
  split at h <;> split at h
  · exact BlockSlot.addr.inj h
  · cases h
  · cases h
  · obtain ⟨hi, hk⟩ := BlockSlot.entry.inj h
    exact ⟨hi, by omega⟩

/-- The indirect block is no block of the file. -/
theorem placeOf_ne_indirect : placeOf i bn ≠ .addr j nDirect := by
  unfold placeOf
  split
  · rename_i hlt
    intro heq
    have := (BlockSlot.addr.inj heq).2
    omega
  · simp

/-! ## Free blocks -/

theorem mem_freeBlocks : b ∈ fs.freeBlocks ↔ b < fs.sb.size ∧ fs.marked b = false := by
  rw [freeBlocks, Finset.mem_filter, Finset.mem_range]

theorem balloc_eq_none_iff : fs.balloc = none ↔ fs.freeBlocks.card = 0 := by
  unfold balloc
  rw [map_eq_none_iff, List.find?_eq_none, Finset.card_eq_zero, Finset.eq_empty_iff_forall_notMem]
  constructor
  · intro h b hb
    obtain ⟨hlt, hmark⟩ := mem_freeBlocks.1 hb
    exact absurd (h b (mem_range.2 hlt)) (by simp [hmark])
  · intro h b hb
    have hfree := mt mem_freeBlocks.2 (h b)
    simpa [mem_range.1 hb] using hfree

theorem Taken.freeBlocks (ht : Taken fs fs' b) : fs'.freeBlocks.card + 1 = fs.freeBlocks.card := by
  have herase : fs'.freeBlocks = fs.freeBlocks.erase b := by
    ext c
    rw [Finset.mem_erase, mem_freeBlocks, mem_freeBlocks, ht.sb]
    constructor
    · rintro ⟨hlt, hmark⟩
      rw [ht.marks c hlt] at hmark
      simp only [Bool.or_eq_false_iff, decide_eq_false_iff_not] at hmark
      exact ⟨hmark.2, hlt, hmark.1⟩
    · rintro ⟨hne, hlt, hmark⟩
      rw [ht.marks c hlt, hmark]
      exact ⟨hlt, by simp [hne]⟩
  rw [herase]
  exact Finset.card_erase_add_one (mem_freeBlocks.2 ⟨ht.data.2, ht.clear⟩)

theorem freeBlocks_setBlock (hlay : fs.sb.Layout) {x : ℕ} (hx : fs.OffBitmap x) (m : Block) :
    (fs.setBlock x m).freeBlocks = fs.freeBlocks := by
  ext c
  rw [mem_freeBlocks, mem_freeBlocks]
  constructor
  · rintro ⟨hlt, hmark⟩
    exact ⟨hlt, (marked_setBlock hlay hlt hx m) ▸ hmark⟩
  · rintro ⟨hlt, hmark⟩
    exact ⟨hlt, (marked_setBlock hlay hlt hx m).trans hmark⟩

/-! ## `bmap` -/

theorem cell_of_slot (hs : fs.slot I p = some b) : fs.cell I p = fs.blocks b := by
  unfold cell
  rw [hs]

theorem cell_of_none (hs : fs.slot I p = none) : fs.cell I p = fun _ => 0 := by
  unfold cell
  rw [hs]

/-- The bytes of a file in one of its blocks. -/
theorem fileByte_block (hs : fs.slot I (placeOf i bn) = some b) (hj : j < bsize) :
    fs.fileByte I i (bn * bsize + j) = fs.blocks b j := by
  have hdiv : (bn * bsize + j) / bsize = bn := by
    rw [add_comm, Nat.add_mul_div_right _ _ (by decide), Nat.div_eq_of_lt hj, zero_add]
  have hmod : (bn * bsize + j) % bsize = j := by
    rw [add_comm, Nat.add_mul_mod_self_right, Nat.mod_eq_of_lt hj]
  rw [fileByte, hdiv, hmod, cell_of_slot hs]

/-- **A block is taken for a place.** The blocks of files stay as they are. -/
structure Filled (fs fs' : Fs) (I I' : ℕ → Dinode) (p : BlockSlot) (b : ℕ) : Prop where
  grow : Grow fs fs' I I'
  slot : fs'.slot I' = update (fs.slot I) p (some b)
  empty : fs.slot I p = none
  zero : fs'.blocks b = fun _ => 0
  data : ∀ j k c, fs.slot I (placeOf j k) = some c → fs'.blocks c = fs.blocks c
  free : fs'.freeBlocks.card + 1 = fs.freeBlocks.card

/-- The bytes of files do not change. -/
theorem Filled.cell (h : Filled fs fs' I I' p b) (j k : ℕ) :
    fs'.cell I' (placeOf j k) = fs.cell I (placeOf j k) := by
  by_cases hp : placeOf j k = p
  · have hnew : fs'.slot I' (placeOf j k) = some b := by rw [h.slot, hp, update_self]
    rw [cell_of_slot hnew, h.zero, cell_of_none (hp ▸ h.empty)]
  · have hsame : fs'.slot I' (placeOf j k) = fs.slot I (placeOf j k) := by
      rw [h.slot, update_of_ne hp]
    cases hs : fs.slot I (placeOf j k) with
    | none => rw [cell_of_none hs, cell_of_none (hsame.trans hs)]
    | some c => rw [cell_of_slot hs, cell_of_slot (hsame.trans hs), h.data j k c hs]

theorem Good.fillAddr (h : Good fs I) (hi : fs.Live I i) (hk : k < nDirect + 1)
    (hzero : (I i).addrs k = 0) (halloc : fs.balloc = some (fs', b)) :
    Filled fs fs' I (update I i (setAddr (I i) k b)) (.addr i k) b := by
  have ht := balloc_taken h.marked.layout h.marked.low halloc
  refine ⟨(h.growAddr hi hk hzero halloc).1, (h.takeAddr hi hk hzero ht).1,
    slot_of_value_eq_zero hzero,
    ht.zero, ?_, ht.freeBlocks⟩
  intro j k c hc
  obtain ⟨hdata, hmark⟩ := h.marked.owners.mem _ _ hc
  refine ht.blocks c (Or.inr hdata.1) ?_
  rintro rfl
  exact absurd hmark (by simp [ht.clear])

theorem Good.fillEntry (h : Good fs I) (hi : fs.Live I i) (hk : k < nIndirect)
    (hind : (I i).addrs nDirect ≠ 0)
    (hzero : load 4 (fs.blocks ((I i).addrs nDirect)) (4 * k) = 0)
    (halloc : fs.balloc = some (fs', b)) :
    Filled fs (fs'.setBlock ((I i).addrs nDirect)
      (store 4 (fs'.blocks ((I i).addrs nDirect)) (4 * k) b)) I I (.entry i k) b := by
  have ht := balloc_taken h.marked.layout h.marked.low halloc
  obtain ⟨hidata, himark⟩ := h.addr_data hi (Nat.lt_succ_self _) hind
  have hne : b ≠ (I i).addrs nDirect := by
    rintro rfl
    exact absurd himark (by simp [ht.clear])
  refine ⟨(h.growEntry hi hk hind hzero halloc).1, (h.takeEntry hi hk hind hzero ht).1, ?_, ?_, ?_, ?_⟩
  · refine slot_of_value_eq_zero ?_
    simp only [BlockSlot.value, if_neg hind, hzero]
  · exact (update_of_ne hne _ _).trans ht.zero
  · intro j k c hc
    obtain ⟨hdata, hmark⟩ := h.marked.owners.mem _ _ hc
    have hcb : c ≠ b := by
      rintro rfl
      exact absurd hmark (by simp [ht.clear])
    have hci : c ≠ (I i).addrs nDirect := by
      rintro rfl
      have hslot : fs.slot I (.addr i nDirect) = some ((I i).addrs nDirect) :=
        slot_eq_some_iff.2 ⟨⟨hi.1, Nat.lt_succ_self _⟩, hi.2, rfl, hind⟩
      exact placeOf_ne_indirect (h.marked.owners.inj _ _ _ hc hslot)
    exact (update_of_ne hci _ _).trans (ht.blocks c (Or.inr hdata.1) hcb)
  · rw [freeBlocks_setBlock (ht.sb ▸ h.marked.layout) (Or.inr (ht.sb ▸ hidata.1))]
    exact ht.freeBlocks

/-- **What `bmap` does**: the block has its place now. The other places and the bytes of all files
stay as they are. -/
structure Mapped (fs fs' : Fs) (I I' : ℕ → Dinode) (i bn addr : ℕ) : Prop where
  grow : Grow fs fs' I I'
  slot : fs'.slot I' (placeOf i bn) = some addr
  others : ∀ j k, placeOf j k ≠ placeOf i bn → fs'.slot I' (placeOf j k) = fs.slot I (placeOf j k)
  cell : ∀ j k, fs'.cell I' (placeOf j k) = fs.cell I (placeOf j k)
  ind : (I' i).addrs nDirect = 0 ↔ (I i).addrs nDirect = 0 ∧ bn < nDirect
  free : fs'.freeBlocks.card + fs.demand I i bn = fs.freeBlocks.card

/-- A block that is mapped already. -/
theorem Mapped.refl (h : Good fs I) (hs : fs.slot I (placeOf i bn) = some addr) :
    Mapped fs fs I I i bn addr := by
  refine ⟨Grow.refl h, hs, fun _ _ _ => rfl, fun _ _ => rfl, ?_, ?_⟩
  · refine ⟨fun hzero => ⟨hzero, ?_⟩, And.left⟩
    by_contra hge
    -- an entry of the indirect block
    rw [placeOf, if_neg hge] at hs
    obtain ⟨-, -, hval, hne⟩ := slot_eq_some_iff.1 hs
    simp only [BlockSlot.value, if_pos hzero] at hval
    exact hne hval.symm
  · rw [demand, if_neg (by simp [hs]), add_zero]

/-- One block was taken. -/
theorem Filled.mapped (h : Filled fs fs' I I' (placeOf i bn) b)
    (hind : (I' i).addrs nDirect = (I i).addrs nDirect)
    (hne : nDirect ≤ bn → (I i).addrs nDirect ≠ 0) :
    Mapped fs fs' I I' i bn b := by
  refine ⟨h.grow, ?_, ?_, h.cell, ?_, ?_⟩
  · rw [h.slot, update_self]
  · intro j k hjk
    rw [h.slot, update_of_ne hjk]
  · rw [hind]
    refine ⟨fun hzero => ⟨hzero, ?_⟩, And.left⟩
    by_contra hge
    exact hne (by omega) hzero
  · have hone : ¬ (nDirect ≤ bn ∧ (I i).addrs nDirect = 0) := fun hc => hne hc.1 hc.2
    rw [demand, if_pos h.empty, if_neg hone]
    exact h.free

/-- The indirect block was taken before. -/
theorem Filled.mapped_indirect {fs1 : Fs} {I1 : ℕ → Dinode} {c : ℕ}
    (h : Filled fs fs1 I I1 (.addr i nDirect) c) (h' : Filled fs1 fs' I1 I' (placeOf i bn) b)
    (hbn : nDirect ≤ bn) (hzero : (I i).addrs nDirect = 0) (hind : (I' i).addrs nDirect ≠ 0) :
    Mapped fs fs' I I' i bn b := by
  have hfirst : ∀ j k, fs1.slot I1 (placeOf j k) = fs.slot I (placeOf j k) := by
    intro j k
    rw [h.slot, update_of_ne placeOf_ne_indirect]
  refine ⟨h.grow.trans h'.grow, ?_, ?_, fun j k => (h'.cell j k).trans (h.cell j k), ?_, ?_⟩
  · rw [h'.slot, update_self]
  · intro j k hjk
    rw [h'.slot, update_of_ne hjk, hfirst]
  · exact ⟨fun hz => absurd hz hind, fun hc => absurd hc.2 (by omega)⟩
  · rw [demand, if_pos ((hfirst i bn).symm.trans h'.empty), if_pos ⟨hbn, hzero⟩]
    have h1 := h.free
    have h2 := h'.free
    omega

/-- **`bmap`** on a block that the map has room for. -/
theorem Good.bmap_mapped (h : Good fs I) (hi : fs.Live I i) (hbn : bn < nDirect + nIndirect) :
    (fs.bmap (I i) bn = none ∧ fs.freeBlocks.card < fs.demand I i bn) ∨
      ∃ fs' ip addr, fs.bmap (I i) bn = some (fs', ip, addr) ∧
        Mapped fs fs' I (update I i ip) i bn addr := by
  have hd : nDirect = 12 := rfl
  cases hs : fs.slot I (placeOf i bn) with
  | some addr =>
    refine Or.inr ⟨fs, I i, addr, bmap_of_slot hs, ?_⟩
    rw [update_eq_self]
    exact Mapped.refl h hs
  | none =>
    have hpos : 0 < fs.demand I i bn := by
      rw [demand, if_pos hs]
      omega
    unfold bmap
    by_cases hdirect : bn < nDirect
    · have hplace : placeOf i bn = .addr i bn := if_pos hdirect
      have hzero : (I i).addrs bn = 0 := addr_eq_zero_of_slot hi (by omega) (hplace ▸ hs)
      rw [if_pos hdirect, if_pos hzero]
      cases halloc : fs.balloc with
      | none => exact Or.inl ⟨rfl, by rwa [balloc_eq_none_iff.1 halloc]⟩
      | some r =>
        obtain ⟨fs', b⟩ := r
        have hfill := h.fillAddr hi (by omega) hzero halloc
        rw [← hplace] at hfill
        refine Or.inr ⟨fs', setAddr (I i) bn b, b, rfl, hfill.mapped ?_ (by omega)⟩
        rw [update_self, setAddr_addrs_of_ne (by omega)]
    · have hplace : placeOf i bn = .entry i (bn - nDirect) := if_neg hdirect
      have hrange : bn - nDirect < nIndirect := by omega
      rw [if_neg hdirect, if_pos hrange]
      dsimp only
      by_cases hzero : (I i).addrs nDirect = 0
      · -- the indirect block comes first
        rw [if_pos hzero]
        have htwo : fs.demand I i bn = 2 := by
          rw [demand, if_pos hs, if_pos ⟨by omega, hzero⟩]
        cases halloc : fs.balloc with
        | none => exact Or.inl ⟨rfl, by rwa [balloc_eq_none_iff.1 halloc]⟩
        | some r =>
          obtain ⟨fs1, c⟩ := r
          have hfill := h.fillAddr hi (Nat.lt_succ_self _) hzero halloc
          have hself : update I i (setAddr (I i) nDirect c) i = setAddr (I i) nDirect c :=
            update_self _ _ _
          have hc : (setAddr (I i) nDirect c).addrs nDirect = c := setAddr_addrs_self _ _ _
          have hne : c ≠ 0 := (balloc_taken h.marked.layout h.marked.low halloc).ne_zero h.marked.layout
          have hload : load 4 (fs1.blocks c) (4 * (bn - nDirect)) = 0 := by rw [hfill.zero, load_zero]
          have hfree := hfill.free
          simp only [map_some, bind_some, hc, hload, if_true]
          cases halloc' : fs1.balloc with
          | none =>
            refine Or.inl ⟨rfl, ?_⟩
            rw [balloc_eq_none_iff.1 halloc'] at hfree
            omega
          | some r =>
            obtain ⟨fs2, b⟩ := r
            have hfill' := hfill.grow.good.fillEntry (hfill.grow.live hi) hrange (by rwa [hself, hc])
              (by rwa [hself, hc]) halloc'
            rw [hself, hc, ← hplace] at hfill'
            refine Or.inr ⟨_, _, b, rfl, hfill.mapped_indirect hfill' (by omega) hzero ?_⟩
            rwa [hself, hc]
      · have hload := entry_eq_zero_of_slot hi hrange hzero (hplace ▸ hs)
        simp only [if_neg hzero, bind_some, hload, if_true]
        cases halloc : fs.balloc with
        | none => exact Or.inl ⟨rfl, by rwa [balloc_eq_none_iff.1 halloc]⟩
        | some r =>
          obtain ⟨fs', b⟩ := r
          have hfill := h.fillEntry hi hrange hzero hload halloc
          rw [← hplace] at hfill
          refine Or.inr ⟨_, I i, b, rfl, ?_⟩
          rw [update_eq_self]
          exact hfill.mapped rfl fun _ => hzero

/-! ## The loop of `writei` -/

theorem bmap_lt (h : fs.bmap ip bn = some (fs', ip', addr)) : bn < nDirect + nIndirect := by
  by_contra hge
  unfold bmap at h
  rw [if_neg (by omega), if_neg (by omega)] at h
  cases h

/-- A block of a file is written. -/
theorem Good.cell_setData (h : Good fs I) (hs : fs.slot I (placeOf i bn) = some addr) (m : Block) :
    (fs.setBlock addr m).cell I (placeOf j k) =
      if placeOf j k = placeOf i bn then m else fs.cell I (placeOf j k) := by
  have hslot := congrFun (h.slot_setData hs m) (placeOf j k)
  split
  · rename_i heq
    rw [heq] at hslot ⊢
    rw [cell_of_slot (hslot.trans hs)]
    exact update_self _ _ _
  · rename_i hne
    cases hs' : fs.slot I (placeOf j k) with
    | none => rw [cell_of_none (hslot.trans hs'), cell_of_none hs']
    | some c =>
      rw [cell_of_slot (hslot.trans hs'), cell_of_slot hs']
      refine update_of_ne ?_ _ _
      rintro rfl
      exact hne (h.marked.owners.inj _ _ _ hs' hs)

/-- **A copy into a block of a file is a copy into the file.** -/
theorem Good.fileByte_setData {off n : ℕ} (h : Good fs I)
    (hs : fs.slot I (placeOf i (off / bsize)) = some addr) (hn : n ≤ bsize - off % bsize) :
    (fs.setBlock addr (move (fs.blocks addr) (off % bsize) n (ofList src))).fileByte I j =
      if j = i then move (fs.fileByte I i) off n (ofList src) else fs.fileByte I j := by
  funext pos
  have hpos := Nat.div_add_mod' pos bsize
  have hoff := Nat.div_add_mod' off bsize
  unfold fileByte
  rw [h.cell_setData hs]
  by_cases hplace : placeOf j (pos / bsize) = placeOf i (off / bsize)
  · obtain ⟨rfl, hdiv⟩ := placeOf_inj hplace
    rw [if_pos hplace, if_pos rfl]
    unfold move
    rw [hdiv] at hpos
    by_cases hin : off ≤ pos ∧ pos < off + n
    · rw [if_pos (by omega), if_pos hin]
      congr 1
      omega
    · rw [if_neg (by omega), if_neg hin]
      dsimp only
      rw [hdiv, cell_of_slot hs]
  · rw [if_neg hplace]
    by_cases hji : j = i
    · subst hji
      rw [if_pos rfl]
      have hout : pos < off ∨ off + n ≤ pos := by
        by_contra hin
        have hdiv : pos / bsize = off / bsize := by
          simp only [bsize] at *
          omega
        exact hplace (by rw [hdiv])
      exact (move_of_disjoint (m := fs.fileByte I j) hout).symm
    · rw [if_neg hji]

/-- After `t` bytes a pass of the loop begins. -/
def IsStart (off t : ℕ) : Prop := t = 0 ∨ (off + t) % bsize = 0

/-- The copy of the pass that begins after `t` bytes is the first that fails, after `k` bytes. -/
structure CopyFails (copyin : ℕ → Option ℕ) (off n t k : ℕ) : Prop where
  lt : t < n
  start : IsStart off t
  fails : copyin t = some k
  first : ∀ x < t, IsStart off x → copyin x = none

/-- How the loop ends: with all bytes, or with a copy that fails after `e` bytes. -/
def LoopEnd (copyin : ℕ → Option ℕ) (off n t e : ℕ) : Prop :=
  (t = n ∧ e = 0 ∧ ∀ x < n, IsStart off x → copyin x = none) ∨
    ∃ k, CopyFails copyin off n t k ∧ e = min k (min (n - t) (bsize - (off + t) % bsize))

theorem IsStart.next {off n x : ℕ} (h : IsStart off x) (hx : x < n) (hne : x ≠ 0) :
    min n (bsize - off % bsize) ≤ x ∧
      IsStart (off + min n (bsize - off % bsize)) (x - min n (bsize - off % bsize)) := by
  have hmod := h.resolve_left hne
  unfold IsStart
  simp only [bsize] at *
  omega

/-- One more pass. -/
theorem LoopEnd.cons {off n t e : ℕ} (hpass : copyin 0 = none)
    (h : LoopEnd (fun x => copyin (min n (bsize - off % bsize) + x)) (off + min n (bsize - off % bsize))
      (n - min n (bsize - off % bsize)) t e) :
    LoopEnd copyin off n (min n (bsize - off % bsize) + t) e := by
  set m := min n (bsize - off % bsize) with hm
  have hmn : m ≤ n := min_le_left _ _
  have hfirst : ∀ l ≤ n - m, (∀ x < l, IsStart (off + m) x → copyin (m + x) = none) →
      ∀ x < m + l, IsStart off x → copyin x = none := by
    intro l hl hnone x hx hstart
    by_cases hzero : x = 0
    · rw [hzero, hpass]
    · obtain ⟨hge, hnext⟩ := hstart.next (show x < n by omega) hzero
      have := hnone (x - m) (by omega) hnext
      rwa [Nat.add_sub_cancel' hge] at this
  rcases h with ⟨rfl, he, hnone⟩ | ⟨k, hfails, he⟩
  · exact Or.inl ⟨Nat.add_sub_cancel' hmn, he, by
      have := hfirst (n - m) le_rfl hnone
      rwa [Nat.add_sub_cancel' hmn] at this⟩
  · have hlt := hfails.lt
    refine Or.inr ⟨k, ⟨by omega, ?_, hfails.fails, hfirst t (by omega) hfails.first⟩, ?_⟩
    · right
      rcases hfails.start with rfl | hmod
      · simp only [bsize] at *
        omega
      · rwa [← add_assoc]
    · rw [he, add_assoc]
      congr 2
      omega

theorem Good.bmap_of_some (h : Good fs I) (hi : fs.Live I i)
    (hmap : fs.bmap (I i) bn = some (fs', ip, addr)) :
    Mapped fs fs' I (update I i ip) i bn addr := by
  rcases h.bmap_mapped hi (bmap_lt hmap) with ⟨hnone, -⟩ | ⟨fs1, ip1, addr1, hsome, hmapped⟩
  · rw [hnone] at hmap
    cases hmap
  · rw [hmap] at hsome
    obtain ⟨rfl, hrest⟩ := Prod.mk.inj (some.inj hsome)
    obtain ⟨rfl, rfl⟩ := Prod.mk.inj hrest
    exact hmapped

theorem Mapped.fileByte (h : Mapped fs fs' I I' i bn addr) (j : ℕ) :
    fs'.fileByte I' j = fs.fileByte I j :=
  funext fun pos => congrFun (h.cell j (pos / bsize)) (pos % bsize)

/-- **A pass of the loop**: `n` bytes are copied. -/
theorem Mapped.write {off n : ℕ} (h : Mapped fs fs' I I' i (off / bsize) addr)
    (hn : n ≤ bsize - off % bsize) (j : ℕ) :
    (fs'.setBlock addr (move (fs'.blocks addr) (off % bsize) n (ofList src))).fileByte I' j =
      if j = i then move (fs.fileByte I i) off n (ofList src) else fs.fileByte I j := by
  rw [h.grow.good.fileByte_setData h.slot hn, h.fileByte, h.fileByte]

/-- **The loop of `writei` is a copy into the file**, and changes no other file. -/
theorem Good.writeLoop_bytes {fuel off tot off' tot' : ℕ}
    (h : Good fs I) (hi : fs.Live I i) (hlt : off + src.length < 2 ^ 32) (hfuel : src.length ≤ fuel)
    (hrun : writeLoop copyin fuel fs (I i) off src tot = some (fs', ip, off', tot')) :
    ∃ t e, off' = off + t ∧ tot' = tot + t ∧ LoopEnd (fun x => copyin (tot + x)) off src.length t e ∧
      ∀ j, fs'.fileByte (update I i ip) j =
        if j = i then move (fs.fileByte I i) off (t + e) (ofList src) else fs.fileByte I j := by
  have hnil : ∀ {fs1 : Fs} {I1 : ℕ → Dinode} {off1 tot1 : ℕ},
      some (fs1, I1 i, off1, tot1) = some (fs', ip, off', tot') →
      ∃ t e, off' = off1 + t ∧ tot' = tot1 + t ∧ LoopEnd (fun x => copyin (tot1 + x)) off1 0 t e ∧
        ∀ j, fs'.fileByte (update I1 i ip) j =
          if j = i then move (fs1.fileByte I1 i) off1 (t + e) (ofList []) else fs1.fileByte I1 j := by
    intro fs1 I1 off1 tot1 heq
    obtain ⟨rfl, hrest⟩ := Prod.mk.inj (some.inj heq)
    obtain ⟨rfl, hrest'⟩ := Prod.mk.inj hrest
    obtain ⟨rfl, rfl⟩ := Prod.mk.inj hrest'
    refine ⟨0, 0, rfl, rfl, Or.inl ⟨rfl, rfl, fun x hx => absurd hx (Nat.not_lt_zero x)⟩, fun j => ?_⟩
    rw [update_eq_self, move_zero]
    by_cases hji : j = i
    · rw [if_pos hji, hji]
    · rw [if_neg hji]
  induction fuel generalizing fs I off src tot with
  | zero =>
    obtain rfl : src = [] := eq_nil_of_length_eq_zero (by omega)
    exact hnil hrun
  | succ fuel ih =>
    unfold writeLoop at hrun
    by_cases hsrc : src = []
    · rw [if_pos hsrc] at hrun
      rw [hsrc]
      exact hnil hrun
    rw [if_neg hsrc] at hrun
    obtain ⟨⟨fs1, ip1, addr⟩, hmap, hrest⟩ := bind_eq_some_iff.1 hrun
    have hmapped := h.bmap_of_some hi hmap
    have hself : update I i ip1 i = ip1 := update_self _ _ _
    have hlen : 0 < src.length := length_pos_of_ne_nil hsrc
    have hmod : off % bsize < bsize := Nat.mod_lt _ (by decide)
    set m := min src.length (bsize - off % bsize) with hm
    dsimp only at hrest
    cases hcopy : copyin tot with
    | some k =>
      simp only [hcopy] at hrest
      obtain ⟨rfl, hrest'⟩ := Prod.mk.inj (some.inj hrest)
      obtain ⟨rfl, hrest''⟩ := Prod.mk.inj hrest'
      obtain ⟨rfl, rfl⟩ := Prod.mk.inj hrest''
      refine ⟨0, min k m, rfl, rfl, Or.inr ⟨k, ⟨hlen, Or.inl rfl, hcopy, fun x hx => ?_⟩, ?_⟩,
        fun j => ?_⟩
      · exact absurd hx (Nat.not_lt_zero x)
      · rw [hm, Nat.sub_zero, Nat.add_zero]
      · rw [hmapped.write (by omega), Nat.zero_add]
    | none =>
      simp only [hcopy] at hrest
      rw [Nat.mod_eq_of_lt (show off + m < 2 ^ 32 by omega), ← hself] at hrest
      have hgrow := hmapped.grow.trans (hmapped.grow.good.setData hmapped.slot
        (move (fs1.blocks addr) (off % bsize) m (ofList src)))
      have hdrop : (src.drop m).length = src.length - m := length_drop
      obtain ⟨t, e, rfl, rfl, hend, hbytes⟩ := ih hgrow.good (hgrow.live hi) (by omega) (by omega) hrest
      rw [update_idem] at hbytes
      rw [hdrop] at hend
      simp only [add_assoc] at hend
      refine ⟨m + t, e, add_assoc _ _ _, add_assoc _ _ _, LoopEnd.cons hcopy hend, fun j => ?_⟩
      rw [hbytes j, hmapped.write (by omega), hmapped.write (by omega), if_pos rfl, add_assoc]
      by_cases hji : j = i
      · rw [if_pos hji, if_pos hji, move_move]
      · rw [if_neg hji, if_neg hji, if_neg hji]

/-! ## The blocks that a write needs -/

/-- The end of the blocks with the `n` bytes from `off` on. -/
def blockEnd (off n : ℕ) : ℕ := if n = 0 then off / bsize else (off + n - 1) / bsize + 1

/-- The blocks that are taken when blocks `lo` to `hi` of file `i` are mapped. -/
def need (fs : Fs) (I : ℕ → Dinode) (i lo hi : ℕ) : ℕ :=
  ((Finset.Ico lo hi).filter fun bn => fs.slot I (placeOf i bn) = none).card +
    if (I i).addrs nDirect = 0 ∧ max lo nDirect < hi then 1 else 0

variable {lo hi : ℕ}

theorem need_self (fs : Fs) (I : ℕ → Dinode) (i lo : ℕ) : fs.need I i lo lo = 0 := by
  have hend : ¬ ((I i).addrs nDirect = 0 ∧ max lo nDirect < lo) := fun h => by omega
  rw [need, Finset.Ico_self, if_neg hend]
  rfl

/-- Blocks that are mapped need nothing. -/
theorem need_eq_zero (hmapped : ∀ bn, lo ≤ bn → bn < hi → fs.slot I (placeOf i bn) ≠ none) :
    fs.need I i lo hi = 0 := by
  have hnone : (Finset.Ico lo hi).filter (fun bn => fs.slot I (placeOf i bn) = none) = ∅ := by
    refine Finset.filter_eq_empty_iff.2 fun bn hbn => ?_
    obtain ⟨hlo, hhi⟩ := Finset.mem_Ico.1 hbn
    exact hmapped bn hlo hhi
  have hind : ¬ ((I i).addrs nDirect = 0 ∧ max lo nDirect < hi) := by
    rintro ⟨hzero, hlt⟩
    refine hmapped (max lo nDirect) (le_max_left _ _) hlt (slot_of_value_eq_zero ?_)
    rw [placeOf, if_neg (by omega), BlockSlot.value, if_pos hzero]
  rw [need, hnone, if_neg hind]
  rfl

theorem need_congr (hslot : fs'.slot I = fs.slot I) : fs'.need I i lo hi = fs.need I i lo hi := by
  unfold need
  rw [hslot]

/-- The first block. -/
theorem card_missing (hlt : lo < hi) (P : ℕ → Prop) [DecidablePred P] :
    ((Finset.Ico lo hi).filter P).card =
      (if P lo then 1 else 0) + ((Finset.Ico (lo + 1) hi).filter P).card := by
  have hsplit : Finset.Ico lo hi = insert lo (Finset.Ico (lo + 1) hi) := by
    ext bn
    simp only [Finset.mem_insert, Finset.mem_Ico]
    omega
  rw [hsplit, Finset.filter_insert]
  split
  · rw [Finset.card_insert_of_notMem (by simp), add_comm]
  · rw [zero_add]

theorem demand_le_need (hlt : lo < hi) : fs.demand I i lo ≤ fs.need I i lo hi := by
  unfold demand need
  rw [card_missing hlt]
  split
  · by_cases hind : nDirect ≤ lo ∧ (I i).addrs nDirect = 0
    · rw [if_pos hind, if_pos ⟨hind.2, by omega⟩]
      omega
    · rw [if_neg hind]
      omega
  · exact Nat.zero_le _

/-- When a block is mapped, the others are needed still. -/
theorem Mapped.need (h : Mapped fs fs' I I' i lo addr) (hlt : lo < hi) :
    fs.need I i lo hi = fs.demand I i lo + fs'.need I' i (lo + 1) hi := by
  have hrest : (Finset.Ico (lo + 1) hi).filter (fun bn => fs'.slot I' (placeOf i bn) = none) =
      (Finset.Ico (lo + 1) hi).filter fun bn => fs.slot I (placeOf i bn) = none := by
    refine Finset.filter_congr fun bn hbn => ?_
    have hge := (Finset.mem_Ico.1 hbn).1
    rw [h.others i bn fun heq => by have := (placeOf_inj heq).2; omega]
  unfold Fs.need demand
  rw [card_missing hlt, hrest]
  simp only [h.ind]
  by_cases hzero : (I i).addrs nDirect = 0
  · by_cases hdirect : lo < nDirect
    · have hiff : max lo nDirect < hi ↔ max (lo + 1) nDirect < hi := by omega
      have hno : ¬ nDirect ≤ lo := by omega
      simp only [hzero, hdirect, hno, hiff, and_true, true_and, if_false]
      split <;> omega
    · -- without an indirect block there is no entry
      have hnone : fs.slot I (placeOf i lo) = none := by
        refine slot_of_value_eq_zero ?_
        rw [placeOf, if_neg hdirect, BlockSlot.value, if_pos hzero]
      have hmax : max lo nDirect < hi := by omega
      have hge : nDirect ≤ lo := by omega
      simp only [hzero, hnone, hdirect, hmax, hge, and_true, and_false, if_true, if_false, false_and]
      omega
  · simp only [hzero, and_false, false_and, if_false]
    split <;> omega

theorem not_lt_need_nil (fs : Fs) (I : ℕ → Dinode) (i off : ℕ) :
    ¬ fs.freeBlocks.card < fs.need I i (off / bsize) (blockEnd off 0) := by
  rw [blockEnd, if_pos rfl, need_self]
  exact Nat.not_lt_zero _

/-- **The loop of `writei` reaches the panic of `balloc`** exactly when there are fewer free blocks
than it needs. -/
theorem Good.writeLoop_eq_none_iff {fuel : ℕ} (off tot : ℕ) (src : List UInt8) (h : Good fs I)
    (hi : fs.Live I i) (hfuel : src.length ≤ fuel)
    (hend : off + src.length ≤ (nDirect + nIndirect) * bsize) :
    writeLoop (fun _ => none) fuel fs (I i) off src tot = none ↔
      fs.freeBlocks.card < fs.need I i (off / bsize) (blockEnd off src.length) := by
  induction fuel generalizing fs I off src tot with
  | zero =>
    obtain rfl : src = [] := eq_nil_of_length_eq_zero (by omega)
    exact ⟨fun heq => absurd heq (by simp [writeLoop]),
      fun hlt => absurd hlt (not_lt_need_nil fs I i off)⟩
  | succ fuel ih =>
    unfold writeLoop
    by_cases hsrc : src = []
    · subst hsrc
      exact ⟨fun heq => absurd heq (by simp), fun hlt => absurd hlt (not_lt_need_nil fs I i off)⟩
    rw [if_neg hsrc]
    have hlen : 0 < src.length := length_pos_of_ne_nil hsrc
    have hlast : blockEnd off src.length = (off + src.length - 1) / bsize + 1 := if_neg (by omega)
    have hlow : off / bsize < blockEnd off src.length := by
      rw [hlast]
      exact Nat.lt_succ_of_le (Nat.div_le_div_right (by omega))
    have hrange : off / bsize < nDirect + nIndirect := by
      rw [Nat.div_lt_iff_lt_mul (by decide)]
      omega
    rcases h.bmap_mapped hi hrange with ⟨hnone, hfew⟩ | ⟨fs1, ip1, addr, hmap, hmapped⟩
    · rw [hnone, bind_none]
      exact ⟨fun _ => hfew.trans_le (demand_le_need hlow), fun _ => rfl⟩
    rw [hmap, bind_some, hmapped.need hlow, ← hmapped.free]
    dsimp only
    have hmod : off % bsize < bsize := Nat.mod_lt _ (by decide)
    set m := min src.length (bsize - off % bsize) with hm
    have hgrow := hmapped.grow.good.setData hmapped.slot
      (move (fs1.blocks addr) (off % bsize) m (ofList src))
    have hslot := hmapped.grow.good.slot_setData hmapped.slot
      (move (fs1.blocks addr) (off % bsize) m (ofList src))
    have hdata := (hmapped.grow.good.marked.owners.mem _ _ hmapped.slot).1
    have hfree := freeBlocks_setBlock hmapped.grow.good.marked.layout (Or.inr hdata.1)
      (move (fs1.blocks addr) (off % bsize) m (ofList src))
    have hself : update I i ip1 i = ip1 := update_self _ _ _
    have hdrop : (src.drop m).length = src.length - m := length_drop
    have hoff : (off + m) % 2 ^ 32 = off + m := by
      have hmax : (nDirect + nIndirect) * bsize < 2 ^ 32 := by decide
      exact Nat.mod_eq_of_lt (by omega)
    have hnext := ih (off + m) (tot + m) (src.drop m) hgrow.good
      (hgrow.live (hmapped.grow.live hi)) (by omega) (by omega)
    rw [hself, hfree, need_congr hslot, hdrop] at hnext
    rw [hoff, hnext]
    -- the rest begins with the next block, or there is none
    have hneed : fs1.need (update I i ip1) i ((off + m) / bsize) (blockEnd (off + m) (src.length - m)) =
        fs1.need (update I i ip1) i (off / bsize + 1) (blockEnd off src.length) := by
      by_cases hmore : src.length ≤ m
      · have hend' : blockEnd off src.length = off / bsize + 1 := by
          rw [hlast]
          simp only [bsize] at *
          omega
        rw [hend', need_self, blockEnd, if_pos (by omega), need_self]
      · have hstart : (off + m) / bsize = off / bsize + 1 := by
          simp only [bsize] at *
          omega
        rw [hstart, hlast, blockEnd, if_neg (by omega), add_assoc, Nat.add_sub_cancel' (by omega)]
    rw [hneed]
    omega

/-! ## `readi` and `writei` -/

theorem Stored.fileByte (h : Stored fs fs' I i ip) (j : ℕ) :
    fs'.fileByte fs'.readInode j = fs.fileByte I j := by
  funext pos
  unfold Fs.fileByte
  have hslot := congrFun h.slot (placeOf j (pos / bsize))
  cases hs : fs.slot I (placeOf j (pos / bsize)) with
  | none => rw [cell_of_none hs, cell_of_none (hslot.trans hs)]
  | some b => rw [cell_of_slot hs, cell_of_slot (hslot.trans hs), h.blocks _ b hs]

/-- The range checks of `writei` do not refuse more than a wrap. -/
theorem writei_eq {off : ℕ} (hoff : off ≤ ip.size)
    (hlt : off + src.length < 2 ^ 32) :
    fs.writei i ip off src copyin =
      (fs.writeLoop copyin src.length ip off src 0).map fun (fs, ip, off, tot) =>
        (fs.iupdate i { ip with size := max ip.size off }, { ip with size := max ip.size off },
          (tot : ℤ)) := by
  have hmax : 2 ^ 32 ≤ maxFile * bsize := by decide
  unfold writei
  rw [Nat.mod_eq_of_lt hlt, if_neg (by omega), if_neg (by omega)]
  simp only [grown_size]

end Fs

open Fs

namespace FsState

variable {s : FsState} {fs' : Fs} {i off : ℕ} {ip : Dinode} {d : List UInt8}

/-- **What `readi` returns is a part of the contents.** -/
theorem WellFormed.readi_contents {n : ℕ} (h : s.WellFormed) (hi : s.fs.Live s.fs.readInode i)
    (off : ℕ) (hn : n < 2 ^ 32) :
    s.fs.readi (s.fs.readInode i) off n (fun _ => true) =
      some (s.fs, s.fs.readInode i, some
        (if off > (s.fs.readInode i).size ∨ 2 ^ 32 ≤ off + n then []
        else ((s.fs.contents s.fs.readInode i).drop off).take n)) := by
  have hsize := (h.good.fits i).size_lt
  have hwrap : (off > (s.fs.readInode i).size ∨ (off + n) % 2 ^ 32 < off) ↔
      (off > (s.fs.readInode i).size ∨ 2 ^ 32 ≤ off + n) := by omega
  unfold Fs.readi
  by_cases hout : off > (s.fs.readInode i).size ∨ 2 ^ 32 ≤ off + n
  · rw [if_pos hout, if_pos (hwrap.2 hout)]
  rw [if_neg hout, if_neg fun hc => hout (hwrap.1 hc)]
  have hloop : ∀ l, off + l ≤ (s.fs.readInode i).size →
      s.fs.readLoop (fun _ => true) l (s.fs.readInode i) off l 0 =
        some (s.fs, s.fs.readInode i, some (((s.fs.contents s.fs.readInode i).drop off).take l)) := by
    intro l hl
    rw [contents, slice_drop_take _ 0 hl, zero_add]
    refine readLoop_of_mapped 0 ?_ hsize le_rfl hl
    intro bn hbn
    obtain ⟨addr, haddr⟩ := isSome_iff_exists.1 (h.mapped i hi bn hbn)
    exact ⟨addr, bmap_of_slot haddr, fun j hj => (fileByte_block haddr hj).symm⟩
  rw [Nat.mod_eq_of_lt (by omega)]
  dsimp only
  by_cases hend : off + n > (s.fs.readInode i).size
  · rw [if_pos hend, hloop _ (by omega)]
    have hlen : ((s.fs.contents s.fs.readInode i).drop off).length = (s.fs.readInode i).size - off := by
      rw [length_drop, contents, length_slice]
    rw [take_of_length_le hlen.le, take_of_length_le (by omega)]
  · rw [if_neg hend, hloop _ (by omega)]

/-- **What `writei` does to the bytes of files.** -/
theorem WellFormed.writei_bytes {src : List UInt8} {copyin : ℕ → Option ℕ} {r : ℤ} (h : s.WellFormed)
    (hi : s.fs.Live s.fs.readInode i) (hoff : off ≤ (s.fs.readInode i).size)
    (hlt : off + src.length < 2 ^ 32)
    (hrun : s.fs.writei i (s.fs.readInode i) off src copyin = some (fs', ip, r)) :
    ∃ t e : ℕ, r = t ∧ LoopEnd copyin off src.length t e ∧ fs'.readInode i = ip ∧
      ip = { s.fs.readInode i with size := max (s.fs.readInode i).size (off + t), addrs := ip.addrs } ∧
      (∀ j < s.fs.sb.ninodes, j ≠ i → fs'.readInode j = s.fs.readInode j) ∧
      ∀ j, fs'.fileByte fs'.readInode j =
        if j = i then move (s.fs.fileByte s.fs.readInode i) off (t + e) (ofList src)
        else s.fs.fileByte s.fs.readInode j := by
  rw [writei_eq hoff hlt] at hrun
  obtain ⟨⟨fs1, ip1, off1, tot1⟩, hloop, heq⟩ := map_eq_some_iff.1 hrun
  obtain ⟨rfl, hrest⟩ := Prod.mk.inj heq
  obtain ⟨rfl, rfl⟩ := Prod.mk.inj hrest
  obtain ⟨hgrow, -, hlt1, -⟩ := h.good.writeLoop_spec hi hlt hloop
  obtain ⟨t, e, rfl, rfl, hend, hbytes⟩ := h.good.writeLoop_bytes hi hlt le_rfl hloop
  have hfields := hgrow.fields i
  rw [update_self] at hfields
  have hsize1 : ip1.size = (s.fs.readInode i).size := by rw [hfields]
  have hsize := (h.good.fits i).size_lt
  have hstored := hgrow.store h.good hi (show max ip1.size (off + t) < 2 ^ 32 by omega)
  simp only [zero_add] at hend ⊢
  refine ⟨t, e, rfl, hend, hstored.self, by rw [hsize1, hfields], ?_, fun j => ?_⟩
  · intro j hj hji
    rw [hstored.other j (hgrow.sb ▸ hj) hji, update_of_ne hji]
  · rw [hstored.fileByte, hbytes]

/-- The block map has room for a file. -/
theorem WellFormed.size_le (h : s.WellFormed) (hi : s.fs.Live s.fs.readInode i) :
    (s.fs.readInode i).size ≤ (nDirect + nIndirect) * bsize := by
  by_contra hlarge
  obtain ⟨b, hb⟩ := isSome_iff_exists.1
    (h.mapped i hi _ (div_lt_blockCount (show (nDirect + nIndirect) * bsize < _ by omega)))
  rw [Nat.mul_div_cancel _ (by decide)] at hb
  have hvalid := (slot_eq_some_iff.1 hb).1
  exact absurd hvalid.2 (by decide)

/-- **A write of bytes that can be copied panics** exactly when there are too few free blocks. -/
theorem WellFormed.writei_eq_none_iff (h : s.WellFormed) (hi : s.fs.Live s.fs.readInode i)
    (hoff : off ≤ (s.fs.readInode i).size) (hrange : off + d.length ≤ (nDirect + nIndirect) * bsize) :
    s.fs.writei i (s.fs.readInode i) off d (fun _ => none) = none ↔
      s.fs.freeBlocks.card < s.fs.need s.fs.readInode i (off / bsize) (blockEnd off d.length) := by
  have hmax : (nDirect + nIndirect) * bsize < 2 ^ 32 := by decide
  rw [writei_eq hoff (by omega), map_eq_none_iff]
  exact Good.writeLoop_eq_none_iff _ _ _ h.good hi le_rfl hrange

/-- Bytes of the file are replaced without a panic. -/
theorem WellFormed.writei_ne_none (h : s.WellFormed) (hi : s.fs.Live s.fs.readInode i)
    (hend : off + d.length ≤ (s.fs.readInode i).size) :
    s.fs.writei i (s.fs.readInode i) off d (fun _ => none) ≠ none := by
  have hlimit := h.size_le hi
  have hzero : s.fs.need s.fs.readInode i (off / bsize) (blockEnd off d.length) = 0 := by
    refine need_eq_zero fun bn hlo hhi => isSome_iff_ne_none.1 (h.mapped i hi bn ?_)
    unfold blockEnd at hhi
    split at hhi
    · omega
    · exact lt_of_lt_of_le hhi (div_lt_blockCount (by omega))
  rw [Ne, h.writei_eq_none_iff hi (by omega) (by omega), hzero]
  exact Nat.not_lt_zero _

/-- **Otherwise the bytes replace those of the file.** -/
theorem WellFormed.writei_contents {r : ℤ} (h : s.WellFormed)
    (hi : s.fs.Live s.fs.readInode i) (hoff : off ≤ (s.fs.readInode i).size)
    (hlt : off + d.length < 2 ^ 32)
    (hrun : s.fs.writei i (s.fs.readInode i) off d (fun _ => none) = some (fs', ip, r)) :
    r = d.length ∧ fs'.readInode i = ip ∧
      (⟨fs', update s.icache i (some ip)⟩ : FsState).WellFormed ∧
      ip = { s.fs.readInode i with
        size := max (s.fs.readInode i).size (off + d.length), addrs := ip.addrs } ∧
      fs'.contents fs'.readInode i = (s.fs.contents s.fs.readInode i).take off ++ d ++
        (s.fs.contents s.fs.readInode i).drop (off + d.length) ∧
      ∀ j < s.fs.sb.ninodes, j ≠ i →
        fs'.contents fs'.readInode j = s.fs.contents s.fs.readInode j := by
  have hwf := h.writei hi ⟨by omega, by omega⟩ hrun
  obtain ⟨t, e, rfl, hend, rfl, hfields, hother, hbytes⟩ := h.writei_bytes hi hoff hlt hrun
  obtain ⟨rfl, rfl⟩ : t = d.length ∧ e = 0 := by
    rcases hend with ⟨ht, he, -⟩ | ⟨k, hfails, -⟩
    · exact ⟨ht, he⟩
    · exact absurd hfails.fails (by simp)
  have hsize : (fs'.readInode i).size = max (s.fs.readInode i).size (off + d.length) := by rw [hfields]
  refine ⟨rfl, rfl, hwf, hfields, ?_, ?_⟩
  · rw [contents, hsize, hbytes, if_pos rfl]
    exact slice_move hoff
  · intro j hj hji
    rw [contents, contents, hother j hj hji, hbytes, if_neg hji]

end FsState

/-- **A file is an array of bytes.** On a well-formed file system a write inside the range of the
block map, with copies that do not fail, panics exactly when there are fewer free blocks than it
needs. Otherwise it returns the number of bytes, they replace the bytes of the file at the offset,
the other files stay as they are, and `readi` returns the parts of the new contents. -/
theorem file_byte_array {s : FsState} {i off : ℕ} {d : List UInt8} (h : s.WellFormed)
    (hi : s.fs.Live s.fs.readInode i) (hoff : off ≤ (s.fs.readInode i).size)
    (hrange : off + d.length ≤ (nDirect + nIndirect) * bsize) :
    (s.fs.writei i (s.fs.readInode i) off d (fun _ => none) = none ↔
      s.fs.freeBlocks.card < s.fs.need s.fs.readInode i (off / bsize) (blockEnd off d.length)) ∧
    ∀ fs' ip r, s.fs.writei i (s.fs.readInode i) off d (fun _ => none) = some (fs', ip, r) →
      r = d.length ∧ ip = fs'.readInode i ∧
      (⟨fs', update s.icache i (some ip)⟩ : FsState).WellFormed ∧
      fs'.contents fs'.readInode i = (s.fs.contents s.fs.readInode i).take off ++ d ++
        (s.fs.contents s.fs.readInode i).drop (off + d.length) ∧
      (fs'.contents fs'.readInode i).length = max (s.fs.readInode i).size (off + d.length) ∧
      (∀ j < s.fs.sb.ninodes, j ≠ i →
        fs'.contents fs'.readInode j = s.fs.contents s.fs.readInode j) ∧
      ∀ off' n', n' < 2 ^ 32 → fs'.readi ip off' n' (fun _ => true) =
        some (fs', ip, some (if off' > ip.size ∨ 2 ^ 32 ≤ off' + n' then []
          else ((fs'.contents fs'.readInode i).drop off').take n')) := by
  have hmax : (nDirect + nIndirect) * bsize < 2 ^ 32 := by decide
  refine ⟨h.writei_eq_none_iff hi hoff hrange, ?_⟩
  intro fs' ip r hrun
  obtain ⟨hr, rfl, hwf, hfields, hcontents, hother⟩ := h.writei_contents hi hoff (by omega) hrun
  have hlive := (hwf.cache i _ (update_self _ _ _)).1
  refine ⟨hr, rfl, hwf, hcontents, ?_, hother, ?_⟩
  · rw [contents, length_slice, hfields]
  · intro off' n' hn'
    exact hwf.readi_contents hlive off' hn'

/-- The second of three bytes is replaced. -/
theorem file_byte_array_small :
    ∃ t fs' ip, exec FsState.step smallDisk smallCalls = some t ∧
      t.fs.writei 1 (t.fs.readInode 1) 1 [9] (fun _ => none) = some (fs', ip, 1) ∧
      fs'.contents fs'.readInode 1 = (t.fs.contents t.fs.readInode 1).take 1 ++ [9] ++
        (t.fs.contents t.fs.readInode 1).drop 2 := by
  have hrun : (exec FsState.step smallDisk smallCalls).any (fun t => (t.icache 1).isSome &&
      (t.fs.readInode 1).size == 3 &&
      (t.fs.writei 1 (t.fs.readInode 1) 1 [9] fun _ => none).any fun r => r.2.2 == 1) = true := by
    decide +kernel
  obtain ⟨t, ht, hstate⟩ := (any_eq_true _ _).1 hrun
  simp only [Bool.and_eq_true, beq_iff_eq] at hstate
  obtain ⟨⟨fs', ip, r⟩, hwrite, hr⟩ := (any_eq_true _ _).1 hstate.2
  obtain rfl : r = 1 := beq_iff_eq.1 hr
  obtain ⟨ip0, hip⟩ := isSome_iff_exists.1 hstate.1.1
  have hwf := FsState.exec_wellFormed smallDisk_wellFormed ht
  obtain ⟨hlive, -⟩ := hwf.cache 1 ip0 hip
  have hoff : 1 ≤ (t.fs.readInode 1).size := by rw [hstate.1.2]; decide
  exact ⟨t, fs', ip, ht, hwrite,
    ((file_byte_array hwf hlive hoff (by decide)).2 fs' ip 1 hwrite).2.2.2.1⟩

/-- A disk without free blocks and without files. -/
def fullDisk : FsState where
  fs := ⟨⟨fsMagic, 5, 0, 4, 0, 2, 2, 3⟩,
    update (fun _ _ => 0) 3 ((List.range 5).foldl setBit fun _ => 0)⟩
  icache _ := none

theorem fullDisk_wellFormed : fullDisk.WellFormed :=
  .of_empty ⟨by decide +kernel, by decide +kernel, by decide +kernel⟩ (by decide +kernel)
    (by decide +kernel) fun _ => rfl

/-- **A write on a full disk** does not return: `balloc` panics. -/
theorem file_byte_array_full :
    ∃ t, exec FsState.step fullDisk [.ialloc tFile (by decide), .ilock 1] = some t ∧ t.WellFormed ∧
      t.fs.Live t.fs.readInode 1 ∧ 0 ≤ (t.fs.readInode 1).size ∧
      t.fs.writei 1 (t.fs.readInode 1) 0 [7] (fun _ => none) = none := by
  have hrun : (exec FsState.step fullDisk [.ialloc tFile (by decide), .ilock 1]).any
      (fun t => (t.icache 1).isSome &&
        (t.fs.writei 1 (t.fs.readInode 1) 0 [7] fun _ => none).isNone) = true := by
    decide +kernel
  obtain ⟨t, ht, hstate⟩ := (any_eq_true _ _).1 hrun
  rw [Bool.and_eq_true, isNone_iff_eq_none] at hstate
  obtain ⟨ip, hip⟩ := isSome_iff_exists.1 hstate.1
  have hwf := FsState.exec_wellFormed fullDisk_wellFormed ht
  exact ⟨t, ht, hwf, (hwf.cache 1 ip hip).1, Nat.zero_le _, hstate.2⟩

end AudioPlayer
