import AudioPlayer.Proof.FileBlocks
import AudioPlayer.Lib.Owners

/-!
# The owners of blocks

Every data block that the bitmap marks is stored in one place, an address of an inode or an
entry of its indirect block (`Fs.slot`), and every block that is stored is marked.

* `Marked.take`, `Marked.release`: what `balloc` and `bfree` do to the bitmap;
* `Good.bmap_spec`: the block of a file, mapped now if it was not;
* `Good.writeLoop_spec`: the blocks of a file that is written;
* `Good.writeBack`: the inode is written to the disk.
-/

namespace AudioPlayer

open Function Bytes Owners Option

/-! ## The layout of the disk -/

/-- The first data block. -/
def Superblock.dataStart (sb : Superblock) : ℕ := sb.size - sb.nblocks

/-- The inodes lie before the bitmap, and the bitmap before the data. -/
structure Superblock.Layout (sb : Superblock) : Prop where
  inode_lt : ∀ inum < sb.ninodes, inum / ipb + sb.inodestart < sb.bmapstart
  bitmap_lt : ∀ b < sb.size, b / bpb + sb.bmapstart < sb.dataStart
  size_lt : sb.size < 2 ^ 32

namespace Fs

variable {fs fs' : Fs} {b : ℕ} {bn addr : ℕ} {x : ℕ}

def IsData (fs : Fs) (b : ℕ) : Prop := fs.sb.dataStart ≤ b ∧ b < fs.sb.size

theorem IsData.bmapstart_lt (hb : fs.IsData b) (hlay : fs.sb.Layout) : fs.sb.bmapstart < b :=
  (Nat.le_add_left _ _).trans_lt ((hlay.bitmap_lt b hb.2).trans_le hb.1)

/-- Not a block of the bitmap. -/
def OffBitmap (fs : Fs) (x : ℕ) : Prop := x < fs.sb.bmapstart ∨ fs.sb.dataStart ≤ x

instance (n : ℕ) (s : BlockSlot) : Decidable (s.Valid n) := by
  cases s <;> exact inferInstanceAs (Decidable (_ ∧ _))

/-- The block that is stored in a place of an allocated inode. -/
def slot (fs : Fs) (I : ℕ → Dinode) (s : BlockSlot) : Option ℕ :=
  if s.Valid fs.sb.ninodes ∧ (I s.inum).type ≠ 0 ∧ s.value I fs.blocks ≠ 0 then
    some (s.value I fs.blocks)
  else none

/-- The bitmap marks the metadata, and those data blocks that are stored in one place. -/
structure Marked (fs : Fs) (v : BlockSlot → Option ℕ) : Prop where
  layout : fs.sb.Layout
  low : ∀ b < fs.sb.dataStart, fs.marked b = true
  owners : Exact v fun b => fs.IsData b ∧ fs.marked b = true

/-- Two blocks with their bits in the same block are told apart by them. -/
theorem same_bit {b b' : ℕ} (heq : b' / bpb = b / bpb) : b % bpb = b' % bpb ↔ b' = b := by
  constructor
  · intro hmod
    rw [← Nat.div_add_mod b bpb, ← Nat.div_add_mod b' bpb, heq, hmod]
  · intro hbb
    rw [hbb]

theorem marked_setBlock_bitmap (b b' : ℕ) (m : Block) :
    (fs.setBlock (fs.bblock b) m).marked b' =
      if b' / bpb = b / bpb then bit m (b' % bpb) else fs.marked b' := by
  unfold marked bblock setBlock
  dsimp only
  split
  · rename_i heq
    rw [heq, update_self]
  · rename_i hne
    rw [update_of_ne (by omega)]

/-- A block of the bitmap is none of the others. -/
theorem bblock_ne (hlay : fs.sb.Layout) (hb : b < fs.sb.size) (hx : fs.OffBitmap x) :
    fs.bblock b ≠ x := by
  have hlt : fs.bblock b < fs.sb.dataStart := hlay.bitmap_lt b hb
  have hge : fs.sb.bmapstart ≤ fs.bblock b := Nat.le_add_left _ _
  rcases hx with hx | hx <;> omega

/-- Blocks that are not part of the bitmap do not change it. -/
theorem marked_setBlock (hlay : fs.sb.Layout) (hb : b < fs.sb.size) (hx : fs.OffBitmap x)
    (m : Block) : (fs.setBlock x m).marked b = fs.marked b :=
  congrArg (fun block => bit block (b % bpb)) (update_of_ne (bblock_ne hlay hb hx) _ _)

/-- **What `balloc` does.** -/
structure Taken (fs fs' : Fs) (b : ℕ) : Prop where
  data : fs.IsData b
  clear : fs.marked b = false
  sb : fs'.sb = fs.sb
  marks : ∀ b' < fs.sb.size, fs'.marked b' = (fs.marked b' || decide (b' = b))
  zero : fs'.blocks b = fun _ => 0
  blocks : ∀ x, fs.OffBitmap x → x ≠ b → fs'.blocks x = fs.blocks x

theorem Taken.ne_zero (ht : Taken fs fs' b) (hlay : fs.sb.Layout) : b ≠ 0 := by
  have hlt := ht.data.bmapstart_lt hlay
  omega

theorem balloc_taken (hlay : fs.sb.Layout) (hlow : ∀ b < fs.sb.dataStart, fs.marked b = true)
    (h : fs.balloc = some (fs', b)) : Taken fs fs' b := by
  obtain ⟨hlt, hclear⟩ := balloc_unmarked h
  have hge : fs.sb.dataStart ≤ b := by
    by_contra hlow'
    rw [hlow b (by omega)] at hclear
    cases hclear
  have hfs : fs' = (fs.setBlock (fs.bblock b) (setBit (fs.blocks (fs.bblock b)) (b % bpb))).bzero b := by
    unfold balloc at h
    obtain ⟨b', -, heq⟩ := map_eq_some_iff.1 h
    obtain ⟨rfl, rfl⟩ := Prod.mk.inj heq
    rfl
  subst hfs
  refine ⟨⟨hge, hlt⟩, hclear, rfl, ?_, ?_, ?_⟩
  · intro b' hb'
    have hzero : (fs.setBlock (fs.bblock b) (setBit (fs.blocks (fs.bblock b)) (b % bpb))).OffBitmap b :=
      Or.inr hge
    rw [bzero, marked_setBlock (by exact hlay) (by exact hb') hzero, marked_setBlock_bitmap]
    split
    · rename_i heq
      rw [bit_setBit, marked, bblock, bblock, heq]
      simp only [same_bit heq]
    · rename_i hne
      have hbb : b' ≠ b := fun heq => hne (by rw [heq])
      simp [hbb]
  · exact update_self _ _ _
  · intro x hx hne
    exact (update_of_ne hne _ _).trans
      (update_of_ne (Ne.symm (bblock_ne hlay hlt hx)) _ _)

/-- **What `bfree` does** to a block that is marked. -/
structure Released (fs fs' : Fs) (b : ℕ) : Prop where
  sb : fs'.sb = fs.sb
  marks : ∀ b' < fs.sb.size, fs'.marked b' = (fs.marked b' && !decide (b' = b))
  blocks : ∀ x, fs.OffBitmap x → fs'.blocks x = fs.blocks x

theorem bfree_released (hlay : fs.sb.Layout) (hlt : b < fs.sb.size) (hmarked : fs.marked b = true) :
    ∃ fs', fs.bfree b = some fs' ∧ Released fs fs' b := by
  unfold bfree
  rw [hmarked, Bool.not_true, if_neg (by decide)]
  refine ⟨_, rfl, rfl, ?_, ?_⟩
  · intro b' hb'
    rw [marked_setBlock_bitmap]
    split
    · rename_i heq
      rw [bit_clearBit, marked, bblock, bblock, heq]
      simp only [same_bit heq]
    · rename_i hne
      have hbb : b' ≠ b := fun heq => hne (by rw [heq])
      simp [hbb]
  · intro x hx
    exact update_of_ne (Ne.symm (bblock_ne hlay hlt hx)) _ _

variable {v : BlockSlot → Option ℕ} {s : BlockSlot}

/-- A new block is stored. -/
theorem Marked.take (h : Marked fs v) (ht : Taken fs fs' b) (hs : v s = none) :
    Marked fs' (update v s (some b)) := by
  have hsb := ht.sb
  refine ⟨hsb ▸ h.layout, ?_, ?_⟩
  · intro b' hb'
    rw [hsb] at hb'
    have hlt : b' < fs.sb.size := hb'.trans (ht.data.1.trans_lt ht.data.2)
    rw [ht.marks b' hlt, h.low b' hb', Bool.true_or]
  · have hfree : ¬ (fs.IsData b ∧ fs.marked b = true) := by
      rw [ht.clear]
      simp
    refine (h.owners.take hs hfree).congr ?_
    intro b'
    unfold IsData
    rw [hsb]
    constructor
    · rintro ⟨hdata, hmark⟩
      rw [ht.marks b' hdata.2] at hmark
      simp only [Bool.or_eq_true, decide_eq_true_eq] at hmark
      rcases hmark with hmark | rfl
      · exact Or.inl ⟨hdata, hmark⟩
      · exact Or.inr rfl
    · rintro (⟨hdata, hmark⟩ | rfl)
      · rw [ht.marks b' hdata.2, hmark, Bool.true_or]
        exact ⟨hdata, rfl⟩
      · rw [ht.marks b' ht.data.2]
        exact ⟨ht.data, by simp⟩

/-- Blocks that are not part of the bitmap may be written. -/
theorem Marked.setBlock (h : Marked fs v) (hx : fs.OffBitmap x) (m : Block) :
    Marked (fs.setBlock x m) v := by
  refine ⟨h.layout, ?_, h.owners.congr ?_⟩
  · intro b hb
    have hmark := h.low b hb
    have hlt : b < fs.sb.size := by
      unfold Superblock.dataStart at hb
      have : b < fs.sb.size - fs.sb.nblocks := hb
      omega
    rwa [marked_setBlock h.layout hlt hx]
  · intro b
    constructor
    · rintro ⟨hdata, hmark⟩
      rw [marked_setBlock h.layout (by exact hdata.2) hx] at hmark
      exact ⟨hdata, hmark⟩
    · rintro ⟨hdata, hmark⟩
      rw [marked_setBlock h.layout hdata.2 hx]
      exact ⟨hdata, hmark⟩

/-- A block that is stored is given back: `bfree` does not panic. -/
theorem Marked.release (h : Marked fs v) (hs : v s = some b) :
    ∃ fs', fs.bfree b = some fs' ∧ Marked fs' (update v s none) ∧ Released fs fs' b := by
  obtain ⟨hdata, hmark⟩ := h.owners.mem s b hs
  obtain ⟨fs', hfree, hr⟩ := bfree_released h.layout hdata.2 hmark
  have hsb := hr.sb
  refine ⟨fs', hfree, ⟨hsb ▸ h.layout, ?_, ?_⟩, hr⟩
  · intro b' hb'
    rw [hsb] at hb'
    have hne : b' ≠ b := by
      have := hdata.1
      omega
    rw [hr.marks b' (hb'.trans (hdata.1.trans_lt hdata.2)), h.low b' hb']
    simp [hne]
  · refine (h.owners.release hs).congr ?_
    intro b'
    unfold IsData
    rw [hsb]
    constructor
    · rintro ⟨hd, hmark'⟩
      rw [hr.marks b' hd.2] at hmark'
      simp only [Bool.and_eq_true, Bool.not_eq_true', decide_eq_false_iff_not] at hmark'
      exact ⟨⟨hd, hmark'.1⟩, hmark'.2⟩
    · rintro ⟨⟨hd, hmark'⟩, hne⟩
      rw [hr.marks b' hd.2, hmark']
      exact ⟨hd, by simp [hne]⟩

/-! ## Inodes and their blocks -/

variable {I I' : ℕ → Dinode} {i k : ℕ} {ip : Dinode}

theorem slot_eq_some_iff : fs.slot I s = some b ↔
    s.Valid fs.sb.ninodes ∧ (I s.inum).type ≠ 0 ∧ s.value I fs.blocks = b ∧ b ≠ 0 := by
  unfold slot
  split
  · rename_i h
    obtain ⟨hvalid, htype, hne⟩ := h
    constructor
    · intro heq
      cases heq
      exact ⟨hvalid, htype, rfl, hne⟩
    · rintro ⟨-, -, rfl, -⟩
      rfl
  · rename_i h
    refine ⟨fun heq => absurd heq (by simp), ?_⟩
    rintro ⟨hvalid, htype, rfl, hne⟩
    exact absurd ⟨hvalid, htype, hne⟩ h

theorem slot_of_value_eq_zero (h : s.value I fs.blocks = 0) : fs.slot I s = none :=
  if_neg fun hs => hs.2.2 h

theorem slot_eq_slot (hn : fs'.sb.ninodes = fs.sb.ninodes)
    (htype : s.Valid fs.sb.ninodes → (I' s.inum).type = (I s.inum).type)
    (hval : s.Valid fs.sb.ninodes → (I s.inum).type ≠ 0 → s.value I' fs'.blocks = s.value I fs.blocks) :
    fs'.slot I' s = fs.slot I s := by
  unfold slot
  rw [hn]
  by_cases hvalid : s.Valid fs.sb.ninodes
  · rw [htype hvalid]
    by_cases hs : (I s.inum).type ≠ 0
    · rw [hval hvalid hs]
    · rw [if_neg fun h => hs h.2.1, if_neg fun h => hs h.2.1]
  · rw [if_neg fun h => hvalid h.1, if_neg fun h => hvalid h.1]

/-- What is stored depends on the inode and on its indirect block. -/
theorem value_congr {disk disk' : ℕ → Block} (hI : I' s.inum = I s.inum)
    (hind : (I s.inum).addrs nDirect ≠ 0 →
      disk' ((I s.inum).addrs nDirect) = disk ((I s.inum).addrs nDirect)) :
    s.value I' disk' = s.value I disk := by
  cases s with
  | addr j m =>
    have hI' : I' j = I j := hI
    simp only [BlockSlot.value, hI']
  | entry j m =>
    have hI' : I' j = I j := hI
    simp only [BlockSlot.value, hI']
    by_cases hz : (I j).addrs nDirect = 0
    · rw [if_pos hz, if_pos hz]
    · have hblock : disk' ((I j).addrs nDirect) = disk ((I j).addrs nDirect) := hind hz
      rw [if_neg hz, if_neg hz, hblock]

/-- **The blocks of all inodes** `I`, where an inode that is being changed is the one in
memory. -/
structure Good (fs : Fs) (I : ℕ → Dinode) : Prop where
  marked : Marked fs (fs.slot I)
  fits : ∀ i, (I i).Fits

/-- The inode is one of the file system and allocated. -/
def Live (fs : Fs) (I : ℕ → Dinode) (i : ℕ) : Prop := i < fs.sb.ninodes ∧ (I i).type ≠ 0

/-- An address is the number of a data block. -/
theorem Good.addr_data (h : Good fs I) (hi : fs.Live I i) (hk : k < nDirect + 1)
    (hne : (I i).addrs k ≠ 0) : fs.IsData ((I i).addrs k) ∧ fs.marked ((I i).addrs k) = true :=
  h.marked.owners.mem (.addr i k) _ (slot_eq_some_iff.2 ⟨⟨hi.1, hk⟩, hi.2, rfl, hne⟩)

theorem addr_eq_zero_of_slot (hi : fs.Live I i) (hk : k < nDirect + 1) (hs : fs.slot I (.addr i k) = none) :
    (I i).addrs k = 0 := by
  by_contra hne
  have hsome : fs.slot I (.addr i k) = some ((I i).addrs k) :=
    slot_eq_some_iff.2 ⟨⟨hi.1, hk⟩, hi.2, rfl, hne⟩
  rw [hs] at hsome
  cases hsome

theorem entry_eq_zero_of_slot (hi : fs.Live I i) (hk : k < nIndirect) (hind : (I i).addrs nDirect ≠ 0)
    (hs : fs.slot I (.entry i k) = none) : load 4 (fs.blocks ((I i).addrs nDirect)) (4 * k) = 0 := by
  by_contra hne
  have hval : (BlockSlot.entry i k).value I fs.blocks = load 4 (fs.blocks ((I i).addrs nDirect)) (4 * k) :=
    if_neg hind
  have hsome : fs.slot I (.entry i k) = some (load 4 (fs.blocks ((I i).addrs nDirect)) (4 * k)) :=
    slot_eq_some_iff.2 ⟨⟨hi.1, hk⟩, hi.2, hval, hne⟩
  rw [hs] at hsome
  cases hsome

/-- The indirect block stays as it is when a block is taken. -/
theorem Taken.indirect (ht : Taken fs fs' b) (h : Good fs I) (hi : fs.Live I i)
    (hne : (I i).addrs nDirect ≠ 0) :
    fs'.blocks ((I i).addrs nDirect) = fs.blocks ((I i).addrs nDirect) := by
  obtain ⟨hdata, hmark⟩ := h.addr_data hi (Nat.lt_succ_self _) hne
  refine ht.blocks _ (Or.inr hdata.1) ?_
  intro heq
  rw [heq, ht.clear] at hmark
  cases hmark

@[simp] theorem setAddr_addrs_self (ip : Dinode) (k b : ℕ) : (setAddr ip k b).addrs k = b :=
  update_self _ _ _

theorem setAddr_addrs_of_ne {m : ℕ} (hm : m ≠ k) : (setAddr ip k b).addrs m = ip.addrs m :=
  update_of_ne hm _ _

theorem setAddr_fits (hip : ip.Fits) (hk : k < nDirect + 1) (hb : b < 2 ^ 32) : (setAddr ip k b).Fits := by
  refine ⟨hip.type_lt, hip.major_lt, hip.minor_lt, hip.nlink_lt, hip.size_lt, ?_, ?_⟩
  · intro m
    simp only [setAddr, update_apply]
    split
    · exact hb
    · exact hip.addrs_lt m
  · intro m hm
    have hne : m ≠ k := by omega
    exact (update_of_ne hne _ _).trans (hip.addrs_end m hm)

theorem update_fits (h : ∀ i, (I i).Fits) (hip : ip.Fits) (j : ℕ) : (update I i ip j).Fits := by
  by_cases hj : j = i
  · subst hj
    rwa [update_self]
  · rw [update_of_ne hj]
    exact h j

/-- An address is changed. When it is that of the indirect block, there was none before, and
the new one is empty. -/
theorem slot_setAddr (hsb : fs'.sb = fs.sb) (hi : fs.Live I i) (hk : k < nDirect + 1)
    (hind : ∀ j, fs.Live I j → (I j).addrs nDirect ≠ 0 →
      fs'.blocks ((I j).addrs nDirect) = fs.blocks ((I j).addrs nDirect))
    (hnew : k = nDirect → (I i).addrs nDirect = 0 ∧ fs'.blocks b = fun _ => 0) :
    fs'.slot (update I i (setAddr (I i) k b)) =
      update (fs.slot I) (.addr i k) (if b = 0 then none else some b) := by
  funext s
  by_cases hs : s = .addr i k
  · subst hs
    have hvalid : (BlockSlot.addr i k).Valid fs'.sb.ninodes := ⟨hsb ▸ hi.1, hk⟩
    have htype : (update I i (setAddr (I i) k b) i).type ≠ 0 := by
      rw [update_self]
      exact hi.2
    rw [update_self]
    simp only [slot, BlockSlot.inum, BlockSlot.value, update_self, setAddr_addrs_self] at htype ⊢
    by_cases hb : b = 0
    · rw [if_pos hb, if_neg fun h => h.2.2 hb]
    · rw [if_neg hb, if_pos ⟨hvalid, htype, hb⟩]
  · rw [update_of_ne hs]
    by_cases hnum : s.inum = i
    · refine slot_eq_slot (by rw [hsb]) (fun _ => by rw [hnum, update_self]; rfl) ?_
      intro _ _
      cases s with
      | addr j m =>
        obtain rfl : j = i := hnum
        have hm : m ≠ k := fun heq => hs (by rw [heq])
        simp only [BlockSlot.value, update_self, setAddr_addrs_of_ne hm]
      | entry j m =>
        obtain rfl : j = i := hnum
        simp only [BlockSlot.value, update_self]
        by_cases hki : k = nDirect
        · obtain ⟨hzero, hblock⟩ := hnew hki
          subst hki
          rw [setAddr_addrs_self, if_pos hzero, hblock, load_zero, ite_self]
        · rw [setAddr_addrs_of_ne (Ne.symm hki)]
          by_cases hz : (I j).addrs nDirect = 0
          · rw [if_pos hz, if_pos hz]
          · rw [if_neg hz, if_neg hz, hind j hi hz]
    · refine slot_eq_slot (by rw [hsb]) (fun _ => by rw [update_of_ne hnum]) ?_
      intro hvalid htype
      exact value_congr (update_of_ne hnum _ _) fun hne =>
        hind _ ⟨hvalid.inum_lt, htype⟩ hne

/-- **A block is taken for an address.** -/
theorem Good.takeAddr (h : Good fs I) (hi : fs.Live I i) (hk : k < nDirect + 1)
    (hzero : (I i).addrs k = 0) (ht : Taken fs fs' b) :
    fs'.slot (update I i (setAddr (I i) k b)) = update (fs.slot I) (.addr i k) (some b) ∧
      Good fs' (update I i (setAddr (I i) k b)) := by
  have hblt : b < 2 ^ 32 := ht.data.2.trans h.marked.layout.size_lt
  have hslot := slot_setAddr ht.sb hi hk (fun j hj hne => ht.indirect h hj hne)
    fun hk' => ⟨hk' ▸ hzero, ht.zero⟩
  rw [if_neg (ht.ne_zero h.marked.layout)] at hslot
  refine ⟨hslot, ?_, update_fits h.fits (setAddr_fits (h.fits i) hk hblt)⟩
  rw [hslot]
  exact h.marked.take ht (slot_of_value_eq_zero hzero)

/-- **A block is taken for an entry of the indirect block.** -/
theorem Good.takeEntry (h : Good fs I) (hi : fs.Live I i) (hk : k < nIndirect)
    (hind : (I i).addrs nDirect ≠ 0)
    (hzero : load 4 (fs.blocks ((I i).addrs nDirect)) (4 * k) = 0) (ht : Taken fs fs' b) :
    (fs'.setBlock ((I i).addrs nDirect)
        (store 4 (fs'.blocks ((I i).addrs nDirect)) (4 * k) b)).slot I =
      update (fs.slot I) (.entry i k) (some b) ∧
    Good (fs'.setBlock ((I i).addrs nDirect)
      (store 4 (fs'.blocks ((I i).addrs nDirect)) (4 * k) b)) I := by
  have hsb := ht.sb
  have hblt : b < 2 ^ 32 := ht.data.2.trans h.marked.layout.size_lt
  have hb0 := ht.ne_zero h.marked.layout
  have hsame := ht.indirect h hi hind
  obtain ⟨hdata, hmark⟩ := h.addr_data hi (Nat.lt_succ_self _) hind
  set ind := (I i).addrs nDirect with hinddef
  set fs2 := fs'.setBlock ind (store 4 (fs'.blocks ind) (4 * k) b) with hfs2
  have hself : fs2.blocks ind = store 4 (fs.blocks ind) (4 * k) b := by
    rw [← hsame]
    exact update_self _ _ _
  have hslot : fs2.slot I = update (fs.slot I) (.entry i k) (some b) := by
    funext s
    by_cases hs : s = .entry i k
    · subst hs
      rw [update_self, slot_eq_some_iff]
      refine ⟨⟨hsb ▸ hi.1, hk⟩, hi.2, ?_, hb0⟩
      simp only [BlockSlot.value, ← hinddef, if_neg hind, hself]
      rw [load_store]
      exact Nat.mod_eq_of_lt hblt
    · rw [update_of_ne hs]
      refine slot_eq_slot (show fs'.sb.ninodes = fs.sb.ninodes by rw [hsb]) (fun _ => rfl) ?_
      intro hvalid htype
      by_cases hnum : s.inum = i
      · cases s with
        | addr j m => rfl
        | entry j m =>
          obtain rfl : j = i := hnum
          have hm : m ≠ k := fun heq => hs (by rw [heq])
          simp only [BlockSlot.value, ← hinddef, if_neg hind, hself]
          rw [load_store_of_disjoint (by omega)]
      · refine value_congr rfl fun hne => ?_
        -- the indirect blocks of two inodes differ
        have hdiff : (I s.inum).addrs nDirect ≠ ind := by
          intro heq
          have h1 : fs.slot I (.addr s.inum nDirect) = some ind :=
            slot_eq_some_iff.2 ⟨⟨hvalid.inum_lt, Nat.lt_succ_self _⟩, htype, heq, hind⟩
          have h2 : fs.slot I (.addr i nDirect) = some ind :=
            slot_eq_some_iff.2 ⟨⟨hi.1, Nat.lt_succ_self _⟩, hi.2, rfl, hind⟩
          have hcontra := h.marked.owners.inj _ _ _ h1 h2
          simp only [BlockSlot.addr.injEq] at hcontra
          exact hnum hcontra.1
        exact (update_of_ne hdiff _ _).trans (ht.indirect h ⟨hvalid.inum_lt, htype⟩ hne)
  refine ⟨hslot, ?_, h.fits⟩
  have hnone : fs.slot I (.entry i k) = none := by
    refine slot_of_value_eq_zero ?_
    simp only [BlockSlot.value, ← hinddef, if_neg hind, hzero]
  rw [hslot]
  exact (h.marked.take ht hnone).setBlock (Or.inr (hsb ▸ hdata.1)) _

/-! ## The blocks of a file -/

/-- The place of block `bn` of a file. -/
def placeOf (i bn : ℕ) : BlockSlot := if bn < nDirect then .addr i bn else .entry i (bn - nDirect)

/-- From `fs` and the inodes `I` to `fs'` and `I'`: blocks may have been taken. -/
structure Grow (fs fs' : Fs) (I I' : ℕ → Dinode) : Prop where
  good : Good fs' I'
  sb : fs'.sb = fs.sb
  slots : ∀ s b, fs.slot I s = some b → fs'.slot I' s = some b
  low : ∀ x < fs.sb.bmapstart, fs'.blocks x = fs.blocks x
  fields : ∀ j, I' j = { I j with addrs := (I' j).addrs }

theorem Grow.refl (h : Good fs I) : Grow fs fs I I :=
  ⟨h, rfl, fun _ _ hs => hs, fun _ _ => rfl, fun _ => rfl⟩

theorem Grow.trans {fs1 fs2 fs3 : Fs} {I1 I2 I3 : ℕ → Dinode} (h : Grow fs1 fs2 I1 I2)
    (h' : Grow fs2 fs3 I2 I3) : Grow fs1 fs3 I1 I3 := by
  refine ⟨h'.good, h'.sb.trans h.sb, fun s b hs => h'.slots s b (h.slots s b hs), ?_, ?_⟩
  · intro x hx
    rw [h'.low x (h.sb ▸ hx), h.low x hx]
  · intro j
    rw [h'.fields j, h.fields j]

theorem Grow.live (h : Grow fs fs' I I') (hi : fs.Live I i) : fs'.Live I' i := by
  have htype : (I' i).type = (I i).type := by rw [h.fields i]
  exact ⟨h.sb ▸ hi.1, htype ▸ hi.2⟩

/-- The metadata stays as it is when a block is taken. -/
theorem Taken.low (ht : Taken fs fs' b) (hlay : fs.sb.Layout) (hx : x < fs.sb.bmapstart) :
    fs'.blocks x = fs.blocks x := by
  have hlt := ht.data.bmapstart_lt hlay
  exact ht.blocks x (Or.inl hx) (by omega)

theorem update_fields (haddrs : ip = { I i with addrs := ip.addrs }) (j : ℕ) :
    update I i ip j = { I j with addrs := (update I i ip j).addrs } := by
  by_cases hj : j = i
  · subst hj
    rw [update_self]
    exact haddrs
  · rw [update_of_ne hj]

theorem Good.growAddr (h : Good fs I) (hi : fs.Live I i) (hk : k < nDirect + 1)
    (hzero : (I i).addrs k = 0) (halloc : fs.balloc = some (fs', b)) :
    Grow fs fs' I (update I i (setAddr (I i) k b)) ∧
      fs'.slot (update I i (setAddr (I i) k b)) (.addr i k) = some b ∧ b ≠ 0 := by
  have ht := balloc_taken h.marked.layout h.marked.low halloc
  obtain ⟨hslot, hgood⟩ := h.takeAddr hi hk hzero ht
  refine ⟨⟨hgood, ht.sb, ?_, fun x hx => ht.low h.marked.layout hx, update_fields rfl⟩, ?_,
    ht.ne_zero h.marked.layout⟩
  · intro s b' hs
    have hne : s ≠ .addr i k := by
      rintro rfl
      obtain ⟨-, -, hval, hne⟩ := slot_eq_some_iff.1 hs
      exact hne (hval.symm.trans hzero)
    rw [hslot, update_of_ne hne, hs]
  · rw [hslot, update_self]

theorem Good.growEntry (h : Good fs I) (hi : fs.Live I i) (hk : k < nIndirect)
    (hind : (I i).addrs nDirect ≠ 0)
    (hzero : load 4 (fs.blocks ((I i).addrs nDirect)) (4 * k) = 0) (halloc : fs.balloc = some (fs', b)) :
    Grow fs (fs'.setBlock ((I i).addrs nDirect)
        (store 4 (fs'.blocks ((I i).addrs nDirect)) (4 * k) b)) I I ∧
      (fs'.setBlock ((I i).addrs nDirect)
        (store 4 (fs'.blocks ((I i).addrs nDirect)) (4 * k) b)).slot I (.entry i k) = some b := by
  have ht := balloc_taken h.marked.layout h.marked.low halloc
  obtain ⟨hslot, hgood⟩ := h.takeEntry hi hk hind hzero ht
  refine ⟨⟨hgood, ht.sb, ?_, ?_, fun _ => rfl⟩, ?_⟩
  · intro s b' hs
    have hne : s ≠ .entry i k := by
      rintro rfl
      obtain ⟨-, -, hval, hne⟩ := slot_eq_some_iff.1 hs
      simp only [BlockSlot.value, if_neg hind, hzero] at hval
      exact hne hval.symm
    rw [hslot, update_of_ne hne, hs]
  · intro x hx
    obtain ⟨hdata, -⟩ := h.addr_data hi (Nat.lt_succ_self _) hind
    have hlt := hdata.bmapstart_lt h.marked.layout
    have hne : x ≠ (I i).addrs nDirect := by omega
    exact (update_of_ne hne _ _).trans (ht.low h.marked.layout hx)
  · rw [hslot, update_self]

/-- **`bmap`** maps the block, and every block that was mapped stays so. -/
theorem Good.bmap_spec (h : Good fs I) (hi : fs.Live I i)
    (hmap : fs.bmap (I i) bn = some (fs', ip, addr)) :
    Grow fs fs' I (update I i ip) ∧
      fs'.slot (update I i ip) (placeOf i bn) = some addr := by
  have hd : nDirect = 12 := rfl
  unfold bmap at hmap
  unfold placeOf
  by_cases hdirect : bn < nDirect
  · rw [if_pos hdirect] at hmap ⊢
    split at hmap
    · rename_i hzero
      obtain ⟨⟨fs1, b⟩, halloc, heq⟩ := map_eq_some_iff.1 hmap
      obtain ⟨rfl, heq'⟩ := Prod.mk.inj heq
      obtain ⟨rfl, rfl⟩ := Prod.mk.inj heq'
      obtain ⟨hgrow, hslot, -⟩ := h.growAddr hi (by omega) hzero halloc
      exact ⟨hgrow, hslot⟩
    · rename_i hne
      obtain ⟨rfl, heq⟩ := Prod.mk.inj (some.inj hmap)
      obtain ⟨rfl, rfl⟩ := Prod.mk.inj heq
      rw [update_eq_self]
      exact ⟨Grow.refl h, slot_eq_some_iff.2 ⟨⟨hi.1, by omega⟩, hi.2, rfl, hne⟩⟩
  rw [if_neg hdirect] at hmap ⊢
  split at hmap
  · rename_i hrange
    obtain ⟨⟨fs1, ip1⟩, hfirst, hrest⟩ := bind_eq_some_iff.1 hmap
    -- the indirect block
    have hstage : Grow fs fs1 I (update I i ip1) ∧ ip1.addrs nDirect ≠ 0 := by
      split at hfirst
      · rename_i hzero
        obtain ⟨⟨fs2, b⟩, halloc, heq⟩ := map_eq_some_iff.1 hfirst
        obtain ⟨rfl, rfl⟩ := Prod.mk.inj heq
        obtain ⟨hgrow, -, hb⟩ := h.growAddr hi (Nat.lt_succ_self _) hzero halloc
        exact ⟨hgrow, by rwa [setAddr_addrs_self]⟩
      · rename_i hne
        cases hfirst
        rw [update_eq_self]
        exact ⟨Grow.refl h, hne⟩
    obtain ⟨hgrow, hind⟩ := hstage
    have hself : update I i ip1 i = ip1 := update_self _ _ _
    have hi1 := hgrow.live hi
    dsimp only at hrest
    split at hrest
    · rename_i hzero
      obtain ⟨⟨fs2, b⟩, halloc, heq⟩ := map_eq_some_iff.1 hrest
      obtain ⟨rfl, heq'⟩ := Prod.mk.inj heq
      obtain ⟨rfl, rfl⟩ := Prod.mk.inj heq'
      have hentry := hgrow.good.growEntry hi1 hrange (by rwa [hself]) (by rwa [hself]) halloc
      rw [hself] at hentry
      exact ⟨hgrow.trans hentry.1, hentry.2⟩
    · rename_i hne
      obtain ⟨rfl, heq⟩ := Prod.mk.inj (some.inj hrest)
      obtain ⟨rfl, rfl⟩ := Prod.mk.inj heq
      refine ⟨hgrow, slot_eq_some_iff.2 ⟨⟨hi1.1, hrange⟩, hi1.2, ?_, hne⟩⟩
      simp only [BlockSlot.value, hself, if_neg hind]
  · cases hmap

/-- A block of a file is no indirect block, so writing it changes no place. -/
theorem Good.slot_setData (h : Good fs I) (hs : fs.slot I (placeOf i bn) = some addr)
    (m : Block) : (fs.setBlock addr m).slot I = fs.slot I := by
  funext s
  refine slot_eq_slot rfl (fun _ => rfl) ?_
  intro hvalid htype
  refine value_congr rfl fun hne => update_of_ne ?_ _ _
  intro heq
  have hind : fs.slot I (.addr s.inum nDirect) = some addr :=
    slot_eq_some_iff.2 ⟨⟨hvalid.inum_lt, Nat.lt_succ_self _⟩, htype, heq, heq ▸ hne⟩
  have hplace := h.marked.owners.inj _ _ _ hs hind
  unfold placeOf at hplace
  split at hplace
  · simp only [BlockSlot.addr.injEq] at hplace
    omega
  · cases hplace

theorem Good.setData (h : Good fs I) (hs : fs.slot I (placeOf i bn) = some addr)
    (m : Block) : Grow fs (fs.setBlock addr m) I I := by
  obtain ⟨hdata, -⟩ := h.marked.owners.mem _ _ hs
  have hslot := h.slot_setData hs m
  refine ⟨⟨?_, h.fits⟩, rfl, ?_, ?_, fun _ => rfl⟩
  · rw [hslot]
    exact h.marked.setBlock (Or.inr hdata.1) m
  · intro s b hb
    rwa [hslot]
  · intro x hx
    have hlt := hdata.bmapstart_lt h.marked.layout
    have hne : x ≠ addr := by omega
    exact update_of_ne hne _ _

/-- A pass of the loop in `writei`: the block is mapped and written. -/
theorem Good.writePass (h : Good fs I) (hi : fs.Live I i)
    (hmap : fs.bmap (I i) bn = some (fs', ip, addr)) (m : Block) :
    Grow fs (fs'.setBlock addr m) I (update I i ip) ∧
      (fs'.setBlock addr m).slot (update I i ip) (placeOf i bn) = some addr := by
  obtain ⟨hgrow, hslot⟩ := h.bmap_spec hi hmap
  have hwrite := hgrow.good.setData hslot m
  exact ⟨hgrow.trans hwrite, hwrite.slots _ _ hslot⟩

/-- **The loop of `writei`**: the blocks up to the new offset are mapped, wherever it ends. -/
theorem Good.writeLoop_spec {copyin : ℕ → Option ℕ} {fuel off tot off' tot' : ℕ} {src : List UInt8}
    (h : Good fs I) (hi : fs.Live I i) (hlt : off + src.length < 2 ^ 32)
    (hrun : writeLoop copyin fuel fs (I i) off src tot = some (fs', ip, off', tot')) :
    Grow fs fs' I (update I i ip) ∧ off ≤ off' ∧ off' < 2 ^ 32 ∧
      ∀ bn, off / bsize ≤ bn → bn * bsize < off' → off < off' →
        (fs'.slot (update I i ip) (placeOf i bn)).isSome := by
  have hstop : ∀ {fs1 : Fs} {I1 : ℕ → Dinode} {off1 tot1 : ℕ}, Good fs1 I1 → off1 < 2 ^ 32 →
      some (fs1, I1 i, off1, tot1) = some (fs', ip, off', tot') →
      Grow fs1 fs' I1 (update I1 i ip) ∧ off1 ≤ off' ∧ off' < 2 ^ 32 ∧
        ∀ bn, off1 / bsize ≤ bn → bn * bsize < off' → off1 < off' →
          (fs'.slot (update I1 i ip) (placeOf i bn)).isSome := by
    intro fs1 I1 off1 tot1 hgood hoff heq
    obtain ⟨rfl, hrest⟩ := Prod.mk.inj (some.inj heq)
    obtain ⟨rfl, hrest'⟩ := Prod.mk.inj hrest
    obtain ⟨rfl, -⟩ := Prod.mk.inj hrest'
    rw [update_eq_self]
    exact ⟨Grow.refl hgood, le_rfl, hoff, fun _ _ _ habs => absurd habs (lt_irrefl _)⟩
  induction fuel generalizing fs I off src tot with
  | zero => exact hstop h (by omega) hrun
  | succ fuel ih =>
    unfold writeLoop at hrun
    split at hrun
    · exact hstop h (by omega) hrun
    rename_i hsrc
    obtain ⟨⟨fs1, ip1, addr⟩, hmap, hrest⟩ := bind_eq_some_iff.1 hrun
    have hself : update I i ip1 i = ip1 := update_self _ _ _
    dsimp only at hrest
    split at hrest
    · -- the copy fails: the block stays mapped, behind the end of the file perhaps
      obtain ⟨hgrow, -⟩ := h.writePass hi hmap (move (fs1.blocks addr) (off % bsize)
        (min ‹ℕ› (min src.length (bsize - off % bsize))) (ofList src))
      have hend := hstop hgrow.good (show off < 2 ^ 32 by omega) (by rw [hself]; exact hrest)
      rw [update_idem] at hend
      exact ⟨hgrow.trans hend.1, hend.2⟩
    · obtain ⟨hgrow, hslot⟩ := h.writePass hi hmap (move (fs1.blocks addr) (off % bsize)
        (min src.length (bsize - off % bsize)) (ofList src))
      set m := min src.length (bsize - off % bsize) with hm
      have hlen : 0 < src.length := List.length_pos_of_ne_nil hsrc
      have hmod : off % bsize < bsize := Nat.mod_lt _ (by decide)
      have hoff : (off + m) % 2 ^ 32 = off + m := Nat.mod_eq_of_lt (by omega)
      rw [hoff] at hrest
      obtain ⟨hgrow', hle, hlt', hmapped⟩ := ih hgrow.good (hgrow.live hi)
        (show off + m + (src.drop m).length < 2 ^ 32 by rw [List.length_drop]; omega)
        (by rw [hself]; exact hrest)
      rw [update_idem] at hgrow' hmapped
      refine ⟨hgrow.trans hgrow', by omega, hlt', ?_⟩
      intro bn hge hbn _
      by_cases heq : bn = off / bsize
      · rw [heq, hgrow'.slots _ _ hslot]
        rfl
      · have hsplit := Nat.div_add_mod' off bsize
        have hnext : (off / bsize + 1) * bsize ≤ bn * bsize := Nat.mul_le_mul_right _ (by omega)
        rw [Nat.add_mul, Nat.one_mul] at hnext
        refine hmapped bn ?_ hbn (by omega)
        have hdiv : (off + m) / bsize ≤ bn := by
          refine Nat.div_le_of_le_mul ?_
          rw [mul_comm]
          omega
        exact hdiv

/-! ## Inodes on the disk -/

theorem iblock_lt (hlay : fs.sb.Layout) (hi : i < fs.sb.ninodes) : fs.iblock i < fs.sb.bmapstart :=
  hlay.inode_lt i hi

theorem readInode_congr (hlay : fs.sb.Layout) (hsb : fs'.sb = fs.sb)
    (hlow : ∀ x < fs.sb.bmapstart, fs'.blocks x = fs.blocks x) (hi : i < fs.sb.ninodes) :
    fs'.readInode i = fs.readInode i := by
  have hblock : fs'.iblock i = fs.iblock i := by rw [iblock, iblock, hsb]
  rw [readInode, hblock, hlow _ (iblock_lt hlay hi), readInode]

theorem readInode_iupdate_self (hip : ip.Fits) : (fs.iupdate i ip).readInode i = ip := by
  show Dinode.decode (update fs.blocks (fs.iblock i) _ (fs.iblock i)) _ = ip
  rw [update_self]
  exact Dinode.decode_move hip _ _

theorem readInode_iupdate_of_ne {j : ℕ} (hne : j ≠ i) (ip : Dinode) :
    (fs.iupdate i ip).readInode j = fs.readInode j := by
  show Dinode.decode (update fs.blocks (fs.iblock i) _ (fs.iblock j)) _ =
    Dinode.decode (fs.blocks (fs.iblock j)) _
  by_cases hblock : fs.iblock j = fs.iblock i
  · have hdiv : j / ipb = i / ipb := Nat.add_right_cancel hblock
    have hmod : j % ipb ≠ i % ipb := by
      intro hmod
      exact hne (by rw [← Nat.div_add_mod j ipb, ← Nat.div_add_mod i ipb, hdiv, hmod])
    rw [hblock, update_self]
    refine Dinode.decode_congr fun m hm hm' => move_of_disjoint ?_
    simp only [dinodeSize] at *
    omega
  · rw [update_of_ne hblock]

/-- What is stored does not depend on the other fields of inodes. -/
theorem slot_congr_addrs (htype : ∀ j, (I' j).type = (I j).type) (haddrs : ∀ j, (I' j).addrs = (I j).addrs) :
    fs.slot I' = fs.slot I := by
  funext s
  refine slot_eq_slot rfl (fun _ => htype _) ?_
  intro _ _
  cases s <;> simp only [BlockSlot.value, haddrs]

/-- **The inode is written back.** -/
theorem Good.writeBack (h : Good fs I) (hi : i < fs.sb.ninodes)
    (hI : ∀ j < fs.sb.ninodes, j ≠ i → fs.readInode j = I j) :
    (fs.iupdate i (I i)).slot (fs.iupdate i (I i)).readInode = fs.slot I ∧
      Good (fs.iupdate i (I i)) (fs.iupdate i (I i)).readInode := by
  have hread : ∀ j < fs.sb.ninodes, (fs.iupdate i (I i)).readInode j = I j := by
    intro j hj
    by_cases hji : j = i
    · subst hji
      exact readInode_iupdate_self (h.fits j)
    · rw [readInode_iupdate_of_ne hji, hI j hj hji]
  have hlow := iblock_lt h.marked.layout hi
  have hslot : (fs.iupdate i (I i)).slot (fs.iupdate i (I i)).readInode = fs.slot I := by
    funext s
    refine slot_eq_slot rfl (fun hvalid => by rw [hread _ hvalid.inum_lt]) ?_
    intro hvalid htype
    refine value_congr (hread _ hvalid.inum_lt) fun hne => update_of_ne ?_ _ _
    -- the inodes lie before the data
    obtain ⟨hdata, -⟩ := h.addr_data ⟨hvalid.inum_lt, htype⟩ (Nat.lt_succ_self _) hne
    have hlt := hdata.bmapstart_lt h.marked.layout
    omega
  refine ⟨hslot, ?_, fun j => Dinode.decode_fits _ _⟩
  rw [hslot]
  exact h.marked.setBlock (Or.inl hlow) _

/-- An inode without addresses has no blocks. -/
theorem slot_of_addrs_eq_zero {p : BlockSlot} (hzero : ∀ k < nDirect + 1, (I p.inum).addrs k = 0) :
    fs.slot I p = none := by
  cases p with
  | addr j m =>
    by_cases hm : m < nDirect + 1
    · exact slot_of_value_eq_zero (hzero m hm)
    · exact if_neg fun hs => hm hs.1.2
  | entry j m =>
    have hind : (I j).addrs nDirect = 0 := hzero nDirect (Nat.lt_succ_self _)
    exact slot_of_value_eq_zero (if_pos hind)

/-- An inode without blocks may be replaced by another one without blocks. -/
theorem Good.replaceEmpty (h : Good fs I) (hold : ∀ p : BlockSlot, p.inum = i → fs.slot I p = none)
    (hip : ip.Fits) (hzero : ∀ k < nDirect + 1, ip.addrs k = 0) :
    fs.slot (update I i ip) = fs.slot I ∧ Good fs (update I i ip) := by
  have hslot : fs.slot (update I i ip) = fs.slot I := by
    funext p
    by_cases hp : p.inum = i
    · rw [hold p hp]
      refine slot_of_addrs_eq_zero ?_
      rwa [hp, update_self]
    · refine slot_eq_slot rfl (fun _ => by rw [update_of_ne hp]) ?_
      intro _ _
      exact value_congr (update_of_ne hp _ _) fun _ => rfl
  refine ⟨hslot, ?_, update_fits h.fits hip⟩
  rw [hslot]
  exact h.marked

end Fs

end AudioPlayer
