import AudioPlayer.Spec.FsTrace
import AudioPlayer.Spec.Mkfs
import AudioPlayer.Proof.FsCalls
import Mathlib.Data.Finset.Card

/-!
# The limits of `writei`

The size of a file is limited by `MAXFILE`, which counts blocks that `bmap` and `iappend` do not
have, and the blocks that a transaction logs by `MAXOPBLOCKS`.

* `mem_writeLoopTrace`: the indices that are passed to `bmap` are those of the bytes written;
* `file_limit_iff`: which writes stay inside the block map;
* `Good.writeLoop_budget`: a pass of the loop logs two blocks, and the indirect block once;
* `writei_log_budget`: a transaction of `filewrite` fits its part of the log.
-/

namespace AudioPlayer

open List Option Bytes FsAccess Runs

namespace Fs

variable {fs fs' : Fs} {I : ℕ → Dinode} {ip ip' : Dinode} {i bn addr : ℕ}

/-! ## The block map -/

theorem not_mem_ballocTrace : .bmap bn ∉ fs.ballocTrace := by
  unfold ballocTrace
  split <;> simp

theorem not_mem_entryTrace {ind k : ℕ} : .bmap bn ∉ bmapTrace.entryTrace fs ind k := by
  unfold bmapTrace.entryTrace
  split
  · rw [mem_append, not_or]
    refine ⟨not_mem_ballocTrace, ?_⟩
    split <;> simp
  · exact not_mem_nil

/-- `bmap` is called once. -/
theorem mem_bmapTrace {k : ℕ} (h : .bmap bn ∈ fs.bmapTrace ip k) : bn = k := by
  unfold bmapTrace at h
  rcases mem_cons.1 h with h | h
  · exact FsAccess.bmap.inj h
  exfalso
  split at h
  · split at h
    · exact not_mem_ballocTrace h
    · exact absurd h not_mem_nil
  · split at h
    · dsimp only at h
      split at h
      · rcases mem_append.1 h with h | h
        · exact not_mem_ballocTrace h
        · split at h
          · exact absurd h not_mem_nil
          · exact not_mem_entryTrace h
      · exact not_mem_entryTrace h
    · exact absurd h not_mem_nil

/-- **The indices that `writei` passes to `bmap`** are those of the bytes it writes. -/
theorem mem_writeLoopTrace {copyin : ℕ → Option ℕ} {fuel off tot : ℕ} {src : List UInt8}
    (hlt : off + src.length < 2 ^ 32) (h : .bmap bn ∈ writeLoopTrace copyin fuel fs ip off src tot) :
    bn * bsize < off + src.length := by
  induction fuel generalizing fs ip off src tot with
  | zero => exact absurd h not_mem_nil
  | succ fuel ih =>
    unfold writeLoopTrace at h
    split at h
    · exact absurd h not_mem_nil
    rename_i hsrc
    have hlen : 0 < src.length := length_pos_of_ne_nil hsrc
    have hsplit := Nat.div_add_mod' off bsize
    rcases mem_append.1 h with h | h
    · rw [mem_bmapTrace h]
      omega
    split at h
    · exact absurd h not_mem_nil
    dsimp only at h
    split at h
    · exact absurd h not_mem_nil
    rcases mem_cons.1 h with h | h
    · cases h
    set m := min src.length (bsize - off % bsize) with hm
    rw [Nat.mod_eq_of_lt (show off + m < 2 ^ 32 by omega)] at h
    have hnext := ih (by rw [length_drop]; omega) h
    rw [length_drop] at hnext
    omega

theorem mem_writeiTrace {copyin : ℕ → Option ℕ} {off : ℕ} {src : List UInt8}
    (h : .bmap bn ∈ fs.writeiTrace i ip off src copyin) :
    .bmap bn ∈ writeLoopTrace copyin src.length fs ip off src 0 := by
  unfold writeiTrace at h
  split at h
  · exact absurd h not_mem_nil
  split at h
  · exact absurd h not_mem_nil
  rcases mem_append.1 h with h | h
  · exact h
  · split at h <;> simp at h

/-- A disk on which every block of every file is mapped. -/
def ones (sb : Superblock) : Fs := ⟨sb, fun _ _ => 1⟩

/-- An inode with all its addresses. -/
def onesInode (size : ℕ) : Dinode := ⟨tFile, 0, 0, 1, size, fun k => if k < nDirect + 1 then 1 else 0⟩

theorem onesInode_fits {size : ℕ} (h : size < 2 ^ 32) : (onesInode size).Fits := by
  refine ⟨Nat.lt_of_sub_eq_succ rfl, Nat.two_pow_pos 16, Nat.two_pow_pos 16,
    Nat.lt_of_sub_eq_succ rfl, h,
    fun k => ?_, fun k hk => if_neg (by omega)⟩
  simp only [onesInode]
  split <;> decide

theorem bmap_ones (sb : Superblock) {size : ℕ} (h : bn < nDirect + nIndirect) :
    ∃ addr, (ones sb).bmap (onesInode size) bn = some (ones sb, onesInode size, addr) := by
  unfold bmap
  by_cases hdirect : bn < nDirect
  · refine ⟨1, ?_⟩
    have haddr : (onesInode size).addrs bn = 1 := if_pos (by omega)
    rw [if_pos hdirect, haddr, if_neg (by decide)]
  · have hrange : bn - nDirect < nIndirect := by omega
    have haddr : (onesInode size).addrs nDirect = 1 := by simp [onesInode]
    refine ⟨load 4 (fun _ => 1) (4 * (bn - nDirect)), ?_⟩
    rw [if_neg hdirect, if_pos hrange, haddr, if_neg (by decide), bind_some]
    dsimp only
    rw [if_neg]
    · rfl
    · simp [load, ones]

theorem setBlock_ones {sb : Superblock} {n off m : ℕ} (hm : m ≤ n) (addr : ℕ) :
    (ones sb).setBlock addr
      (move ((ones sb).blocks addr) off m (ofList (List.replicate n 1))) = ones sb := by
  have hmove : move ((ones sb).blocks addr) off m (ofList (List.replicate n 1)) =
      (ones sb).blocks addr := by
    funext j
    unfold move ofList
    split
    · rw [getD_eq_getElem _ _ (by simp only [length_replicate]; omega), getElem_replicate]
      rfl
    · rfl
  rw [hmove]
  unfold setBlock
  rw [Function.update_eq_self]

/-- The first index that `bmap` does not serve is reached. -/
theorem mem_writeLoopTrace_ones {sb : Superblock} {fuel off n tot size : ℕ} (hfuel : n ≤ fuel)
    (hlt : off + n < 2 ^ 32) (hlow : off / bsize ≤ nDirect + nIndirect)
    (hhigh : (nDirect + nIndirect) * bsize < off + n) (hn : n ≠ 0) :
    .bmap (nDirect + nIndirect) ∈ writeLoopTrace (fun _ => none) fuel (ones sb) (onesInode size) off
      (List.replicate n 1) tot := by
  induction fuel generalizing off n tot with
  | zero => omega
  | succ fuel ih =>
    unfold writeLoopTrace
    rw [if_neg (by simpa using hn), mem_append]
    by_cases hlast : off / bsize = nDirect + nIndirect
    · exact Or.inl (hlast ▸ mem_cons_self)
    · right
      obtain ⟨addr, haddr⟩ := bmap_ones sb (show off / bsize < nDirect + nIndirect by omega)
      rw [haddr]
      simp only [length_replicate]
      set m := min n (bsize - off % bsize) with hm
      have hmod : off % bsize < bsize := Nat.mod_lt _ (by decide)
      have hsplit := Nat.div_add_mod' off bsize
      rw [setBlock_ones (min_le_left n _), Nat.mod_eq_of_lt (show off + m < 2 ^ 32 by omega),
        drop_replicate]
      refine mem_cons_of_mem _ (ih (by omega) (by omega) ?_ (by omega) ?_)
      · simp only [bsize, nDirect, nIndirect] at *
        omega
      · simp only [bsize, nDirect, nIndirect] at *
        omega

end Fs

open Fs

namespace Image

/-- `iappend` looks at one entry of `indirect[]`. -/
theorem fileBlock_trace {im im' : Image} {din din' : Dinode} {fbn x j : ℕ}
    (h : im.fileBlock din fbn = some (im', din', x)) (hj : .indirect j ∈ im'.trace) :
    .indirect j ∈ im.trace ∨ nDirect ≤ fbn ∧ j = fbn - nDirect := by
  have hnew : ∀ k, (if din.addrs k = 0 then im.newAddr din k else (im, din)).1.trace = im.trace := by
    intro k
    split <;> rfl
  unfold fileBlock at h
  split at h
  · left
    have htrace := hnew fbn
    generalize (if din.addrs fbn = 0 then im.newAddr din fbn else (im, din)) = pair at h htrace
    obtain ⟨rfl, -⟩ := Prod.mk.inj (some.inj h)
    rwa [htrace] at hj
  · rename_i hge
    have htrace := hnew nDirect
    generalize (if din.addrs nDirect = 0 then im.newAddr din nDirect else (im, din)) = pair at h htrace
    obtain ⟨indirect, -, heq⟩ := map_eq_some_iff.1 h
    dsimp only at heq
    have hcons : im'.trace = .indirect (fbn - nDirect) :: im.trace := by
      rw [← htrace]
      split at heq <;> obtain ⟨rfl, -⟩ := Prod.mk.inj heq <;> rfl
    rw [hcons] at hj
    rcases mem_cons.1 hj with hj | hj
    · exact Or.inr ⟨by omega, MkfsAccess.indirect.inj hj⟩
    · exact Or.inl hj

/-- An image of one block, without files. -/
def oneBlock : Image := ⟨fun _ _ => 0, 1, 0, 0, []⟩

theorem fileBlock_oneBlock {fbn : ℕ} (h : nDirect ≤ fbn) :
    ∃ im' din' x, oneBlock.fileBlock Dinode.zero fbn = some (im', din', x) ∧
      .indirect (fbn - nDirect) ∈ im'.trace := by
  unfold fileBlock
  have hzero : Dinode.zero.addrs nDirect = 0 := rfl
  rw [if_neg (by omega), if_pos hzero]
  dsimp only
  have hread : (oneBlock.newAddr Dinode.zero nDirect).1.rsect
      ((oneBlock.newAddr Dinode.zero nDirect).2.addrs nDirect) = some fun _ => 0 :=
    if_pos (show sector 0 < 1 by decide)
  rw [hread, map_some, if_pos (load_zero _ _)]
  exact ⟨_, _, _, rfl, mem_cons_self⟩

end Image

/-- **The writes that stay inside the block map.** The range checks of `writei` pass every sum
that does not wrap, so a write that ends behind the last entry of the indirect block reaches the
panic of `bmap`; and `iappend` indexes behind `indirect[]` from the same block on. -/
theorem file_limit_iff (off n fbn : ℕ) (hoff : off < 2 ^ 32) (hn : n < 2 ^ 32) :
    ((∀ (fs : Fs) (i : ℕ) (ip : Dinode) (src : List UInt8) (copyin : ℕ → Option ℕ),
        ip.Fits → ip.size ≤ maxFile * bsize → off ≤ ip.size → off ≤ (off + n) % 2 ^ 32 →
        (off + n) % 2 ^ 32 ≤ maxFile * bsize → src.length = n →
        ∀ bn, .bmap bn ∈ fs.writeiTrace i ip off src copyin → bn < nDirect + nIndirect) ↔
      n = 0 ∨ 2 ^ 32 ≤ off + n ∨ off + n ≤ (nDirect + nIndirect) * bsize) ∧
    ((fbn < maxFile → ∀ (im : Image) (din : Dinode) (im' : Image) (din' : Dinode) (x : ℕ),
        im.fileBlock din fbn = some (im', din', x) → ∀ j, .indirect j ∈ im'.trace →
        .indirect j ∈ im.trace ∨ j < nIndirect) ↔
      fbn < nDirect + nIndirect ∨ maxFile ≤ fbn) := by
  refine ⟨⟨?_, ?_⟩, ⟨?_, ?_⟩⟩
  · intro h
    by_contra hcond
    have hwrap : (off + n) % 2 ^ 32 = off + n := Nat.mod_eq_of_lt (by omega)
    have hmax : 2 ^ 32 ≤ maxFile * bsize := by decide
    -- the file ends where the write begins
    have hserved := h (ones ⟨0, 0, 0, 0, 0, 0, 0, 0⟩) 0 (onesInode off) (List.replicate n 1)
      (fun _ => none)
      (onesInode_fits hoff) (show off ≤ _ by omega) le_rfl (by omega) (by omega) length_replicate
    have htrace : ∀ bn, .bmap bn ∈ writeLoopTrace (fun _ => none) n (ones ⟨0, 0, 0, 0, 0, 0, 0, 0⟩)
        (onesInode off) off (List.replicate n 1) 0 → bn < nDirect + nIndirect := by
      intro bn hbn
      refine hserved bn ?_
      unfold writeiTrace
      rw [length_replicate, hwrap, if_neg (by show ¬ (off > off ∨ off + n < off); omega),
        if_neg (by omega)]
      exact mem_append_left _ hbn
    by_cases hlow : off / bsize ≤ nDirect + nIndirect
    · exact absurd (htrace _ (mem_writeLoopTrace_ones le_rfl (by omega) hlow (by omega) (by omega)))
        (lt_irrefl _)
    · refine absurd (htrace (off / bsize) ?_) (by omega)
      obtain ⟨k, rfl⟩ := Nat.exists_eq_succ_of_ne_zero (show n ≠ 0 by omega)
      unfold writeLoopTrace
      rw [if_neg (by simp)]
      exact mem_append_left _ mem_cons_self
  · intro hcond fs i ip src copyin _ _ _ hge _ hlen bn hbn
    have hloop := mem_writeiTrace hbn
    subst hlen
    rcases hcond with hzero | hwrap | hle
    · rw [hzero] at hloop
      exact absurd hloop not_mem_nil
    · rw [Nat.mod_eq_sub_mod hwrap, Nat.mod_eq_of_lt (by omega)] at hge
      omega
    · have hlt := mem_writeLoopTrace (hle.trans_lt (by decide)) hloop
      exact Nat.lt_of_mul_lt_mul_right (hlt.trans_le hle)
  · intro h
    by_contra hge
    rw [not_or, not_le] at hge
    obtain ⟨im', din', x, hrun, hmem⟩ := Image.fileBlock_oneBlock (show nDirect ≤ fbn by omega)
    rcases h hge.2 _ _ _ _ _ hrun _ hmem with hold | hlt
    · exact absurd hold not_mem_nil
    · omega
  · intro hlt hmax im din im' din' x hrun j hj
    rcases Image.fileBlock_trace hrun hj with hold | ⟨hge, rfl⟩
    · exact Or.inl hold
    · right
      omega

/-- A write from the last direct block to the first one of the indirect block. -/
theorem file_limit_indirect :
    let off := nDirect * bsize - 1
    .bmap nDirect ∈ smallDisk.fs.writeiTrace 1 (onesInode off) off [1, 2] (fun _ => none) ∧
      ∀ bn, .bmap bn ∈ smallDisk.fs.writeiTrace 1 (onesInode off) off [1, 2] (fun _ => none) →
        bn < nDirect + nIndirect :=
  ⟨by decide +kernel, (file_limit_iff _ 2 0 (by decide) (by decide)).1.2
    (Or.inr (Or.inr (by decide))) _ 1 _
    [1, 2] _ (onesInode_fits (by decide)) (by decide) le_rfl (by decide) (by decide) rfl⟩

/-- **A byte behind the last block of the map** passes the checks of `writei` and reaches the
panic, and `iappend` passes its assertion and leaves `indirect[]`. -/
theorem file_limit_passed :
    (let off := (nDirect + nIndirect) * bsize
     off ≤ (onesInode off).size ∧ off ≤ (off + 1) % 2 ^ 32 ∧ (off + 1) % 2 ^ 32 ≤ maxFile * bsize ∧
      .bmap (nDirect + nIndirect) ∈ smallDisk.fs.writeiTrace 1 (onesInode off) off [1] (fun _ => none) ∧
      smallDisk.fs.writei 1 (onesInode off) off [1] (fun _ => none) = none) ∧
    nDirect + nIndirect < maxFile ∧
    ∃ im' din' x, Image.oneBlock.fileBlock Dinode.zero (nDirect + nIndirect) = some (im', din', x) ∧
      .indirect nIndirect ∈ im'.trace :=
  ⟨by decide +kernel, by decide, Image.fileBlock_oneBlock (by decide)⟩

/-! ## The log -/

namespace FsAccess

@[simp] theorem logged_nil : logged [] = [] := rfl

@[simp] theorem logged_bmap (bn : ℕ) (t : List FsAccess) : logged (.bmap bn :: t) = logged t := rfl

@[simp] theorem logged_logWrite (b : ℕ) (t : List FsAccess) :
    logged (.logWrite b :: t) = b :: logged t := rfl

@[simp] theorem logged_append (t t' : List FsAccess) : logged (t ++ t') = logged t ++ logged t' :=
  filterMap_append

end FsAccess

namespace Fs

variable {fs fs' : Fs} {I : ℕ → Dinode} {ip ip' : Dinode} {i bn addr : ℕ} {l l' : List ℕ}

theorem logged_ballocTrace {b : ℕ} (h : fs.balloc = some (fs', b)) :
    logged fs.ballocTrace = [fs.bblock b, b] := by
  unfold ballocTrace
  rw [h]
  rfl

theorem ballocTrace_none (h : fs.balloc = none) : fs.ballocTrace = [] := by
  unfold ballocTrace
  rw [h]

/-- On a block that is mapped, `bmap` logs nothing. -/
theorem logged_bmapTrace_of_slot (hs : fs.slot I (placeOf i bn) = some addr) :
    logged (fs.bmapTrace (I i) bn) = [] := by
  unfold bmapTrace
  unfold placeOf at hs
  rw [logged_bmap]
  split at hs
  · rename_i hdirect
    obtain ⟨-, -, hval, hne⟩ := slot_eq_some_iff.1 hs
    have haddr : (I i).addrs bn ≠ 0 := fun hzero => hne (hval.symm.trans hzero)
    rw [if_pos hdirect, if_neg haddr]
    rfl
  · rename_i hdirect
    obtain ⟨hvalid, -, hval, hne⟩ := slot_eq_some_iff.1 hs
    have hrange : bn - nDirect < nIndirect := hvalid.2
    simp only [BlockSlot.value] at hval
    split at hval
    · exact absurd hval.symm hne
    · rename_i hind
      rw [if_neg hdirect, if_pos hrange]
      dsimp only
      rw [if_neg hind, bmapTrace.entryTrace, if_neg (hval ▸ hne)]
      rfl

/-- **What a call of `bmap` does**, with the blocks that it logs: it finds the block, or it takes
one for an address or an entry of the indirect block, which may have to be taken before. -/
inductive BmapStep (fs : Fs) (I : ℕ → Dinode) (i bn : ℕ) : Fs → Dinode → ℕ → List ℕ → Prop
  | found {addr : ℕ} (hs : fs.slot I (placeOf i bn) = some addr) : BmapStep fs I i bn fs (I i) addr []
  | direct {fs' : Fs} {b : ℕ} (hdirect : bn < nDirect) (hzero : (I i).addrs bn = 0)
      (halloc : fs.balloc = some (fs', b)) :
      BmapStep fs I i bn fs' (setAddr (I i) bn b) b [fs.bblock b, b]
  | entry {fs1 : Fs} {b : ℕ} (hge : nDirect ≤ bn) (hind : (I i).addrs nDirect ≠ 0)
      (hzero : load 4 (fs.blocks ((I i).addrs nDirect)) (4 * (bn - nDirect)) = 0)
      (halloc : fs.balloc = some (fs1, b)) :
      BmapStep fs I i bn (fs1.setBlock ((I i).addrs nDirect)
        (store 4 (fs1.blocks ((I i).addrs nDirect)) (4 * (bn - nDirect)) b)) (I i) b
        [fs.bblock b, b, (I i).addrs nDirect]
  | indirect {fs1 : Fs} {ind : ℕ} {fs2 : Fs} {b : ℕ} (hge : nDirect ≤ bn)
    (hzero : (I i).addrs nDirect = 0)
      (halloc : fs.balloc = some (fs1, ind)) (hind : ind ≠ 0) (halloc' : fs1.balloc = some (fs2, b)) :
      BmapStep fs I i bn (fs2.setBlock ind (store 4 (fs2.blocks ind) (4 * (bn - nDirect)) b))
        (setAddr (I i) nDirect ind) b [fs.bblock ind, ind, fs1.bblock b, b, ind]

theorem Good.bmap_step (h : Good fs I) (hi : fs.Live I i)
    (hmap : fs.bmap (I i) bn = some (fs', ip, addr)) :
    BmapStep fs I i bn fs' ip addr (logged (fs.bmapTrace (I i) bn)) := by
  cases hs : fs.slot I (placeOf i bn) with
  | some b =>
    rw [bmap_of_slot hs] at hmap
    obtain ⟨rfl, hrest⟩ := Prod.mk.inj (some.inj hmap)
    obtain ⟨rfl, rfl⟩ := Prod.mk.inj hrest
    rw [logged_bmapTrace_of_slot hs]
    exact .found hs
  | none =>
    unfold bmap at hmap
    unfold bmapTrace
    rw [logged_bmap]
    by_cases hdirect : bn < nDirect
    · have hzero : (I i).addrs bn = 0 :=
        addr_eq_zero_of_slot hi (by omega) (by rwa [placeOf, if_pos hdirect] at hs)
      rw [if_pos hdirect, if_pos hzero] at hmap ⊢
      obtain ⟨⟨fs1, b⟩, halloc, heq⟩ := map_eq_some_iff.1 hmap
      obtain ⟨rfl, heq'⟩ := Prod.mk.inj heq
      obtain ⟨rfl, rfl⟩ := Prod.mk.inj heq'
      rw [logged_ballocTrace halloc]
      exact .direct hdirect hzero halloc
    rw [if_neg hdirect] at hmap ⊢
    by_cases hrange : bn - nDirect < nIndirect
    · rw [if_pos hrange] at hmap ⊢
      obtain ⟨⟨fs1, ip1⟩, hfirst, hrest⟩ := bind_eq_some_iff.1 hmap
      dsimp only at hrest ⊢
      by_cases hzero : (I i).addrs nDirect = 0
      · rw [if_pos hzero] at hfirst ⊢
        obtain ⟨⟨fs2, ind⟩, halloc, heq⟩ := map_eq_some_iff.1 hfirst
        obtain ⟨rfl, rfl⟩ := Prod.mk.inj heq
        have ht := balloc_taken h.marked.layout h.marked.low halloc
        have hload : load 4 (fs2.blocks ind) (4 * (bn - nDirect)) = 0 := by rw [ht.zero, load_zero]
        rw [setAddr_addrs_self, if_pos hload] at hrest
        obtain ⟨⟨fs3, b⟩, halloc', heq⟩ := map_eq_some_iff.1 hrest
        obtain ⟨rfl, heq'⟩ := Prod.mk.inj heq
        obtain ⟨rfl, rfl⟩ := Prod.mk.inj heq'
        rw [logged_append, logged_ballocTrace halloc, halloc]
        dsimp only
        rw [bmapTrace.entryTrace, if_pos hload, logged_append, logged_ballocTrace halloc', halloc']
        exact .indirect (by omega) hzero halloc (ht.ne_zero h.marked.layout) halloc'
      · rw [if_neg hzero] at hfirst ⊢
        cases hfirst
        have hload := entry_eq_zero_of_slot hi hrange hzero (by rwa [placeOf, if_neg hdirect] at hs)
        rw [if_pos hload] at hrest
        obtain ⟨⟨fs2, b⟩, halloc, heq⟩ := map_eq_some_iff.1 hrest
        obtain ⟨rfl, heq'⟩ := Prod.mk.inj heq
        obtain ⟨rfl, rfl⟩ := Prod.mk.inj heq'
        rw [bmapTrace.entryTrace, if_pos hload, logged_append, logged_ballocTrace halloc, halloc]
        exact .entry (by omega) hzero hload halloc
    · rw [if_neg hrange] at hmap
      cases hmap

/-- The blocks `l` fit into `n` blocks, with what the indirect block takes: itself, and the block
of the bitmap if it is still to be allocated. -/
def Budget (ip : Dinode) (n : ℕ) (l : List ℕ) : Prop :=
  ∃ F : Finset ℕ, F.card ≤ n + (if ip.addrs nDirect = 0 then 2 else 1) ∧
    (ip.addrs nDirect ≠ 0 → ip.addrs nDirect ∈ F) ∧ ∀ b ∈ l, b ∈ F

theorem Budget.nil (ip : Dinode) (n : ℕ) : Budget ip n [] := by
  refine ⟨{ip.addrs nDirect}, ?_, fun _ => Finset.mem_singleton_self _, by simp⟩
  rw [Finset.card_singleton]
  split <;> omega

theorem Budget.mono {n m : ℕ} (h : Budget ip n l) (hn : n ≤ m) (hl : ∀ b ∈ l', b ∈ l) :
    Budget ip m l' := by
  obtain ⟨F, hcard, hind, hmem⟩ := h
  exact ⟨F, by omega, hind, fun b hb => hmem b (hl b hb)⟩

/-- Two more blocks. -/
theorem Budget.insert {n : ℕ} (h : Budget ip n l) (x y : ℕ)
    (hl : ∀ b ∈ l', b = x ∨ b = y ∨ (ip.addrs nDirect ≠ 0 ∧ b = ip.addrs nDirect) ∨ b ∈ l) :
    Budget ip (n + 2) l' := by
  obtain ⟨F, hcard, hind, hmem⟩ := h
  have h1 := Finset.card_insert_le y F
  have h2 := Finset.card_insert_le x (Insert.insert y F)
  refine ⟨Insert.insert x (Insert.insert y F), by omega, fun hne => ?_, fun b hb => ?_⟩
  · exact Finset.mem_insert_of_mem (Finset.mem_insert_of_mem (hind hne))
  · rcases hl b hb with rfl | rfl | ⟨hne, rfl⟩ | hb
    · exact Finset.mem_insert_self _ _
    · exact Finset.mem_insert_of_mem (Finset.mem_insert_self _ _)
    · exact Finset.mem_insert_of_mem (Finset.mem_insert_of_mem (hind hne))
    · exact Finset.mem_insert_of_mem (Finset.mem_insert_of_mem (hmem b hb))

/-- The indirect block is allocated. -/
theorem Budget.setInd {n ind : ℕ} (h : Budget (setAddr ip nDirect ind) n l)
    (hzero : ip.addrs nDirect = 0) (hind : ind ≠ 0) (x : ℕ) (hl : ∀ b ∈ l', b = x ∨ b = ind ∨ b ∈ l) :
    Budget ip n l' := by
  obtain ⟨F, hcard, hmemind, hmem⟩ := h
  rw [setAddr_addrs_self] at hmemind hcard
  rw [if_neg hind] at hcard
  have h1 := Finset.card_insert_le x F
  refine ⟨Insert.insert x F, ?_, fun hne => absurd hzero hne, fun b hb => ?_⟩
  · rw [if_pos hzero]
    omega
  · rcases hl b hb with rfl | rfl | hb
    · exact Finset.mem_insert_self _ _
    · exact Finset.mem_insert_of_mem (hmemind hind)
    · exact Finset.mem_insert_of_mem (hmem b hb)

/-- **A pass of the loop takes two blocks of the budget.** -/
theorem Good.budget_pass {n : ℕ} {l : List ℕ} (h : Good fs I) (hi : fs.Live I i)
    (hmap : fs.bmap (I i) bn = some (fs', ip, addr)) (hbudget : Budget ip n l) :
    Budget (I i) (n + 2) (logged (fs.bmapTrace (I i) bn) ++ addr :: l) := by
  have hstep := h.bmap_step hi hmap
  generalize logged (fs.bmapTrace (I i) bn) = l' at hstep
  cases hstep with
  | found hs =>
    refine hbudget.insert addr 0 fun c hc => ?_
    rw [nil_append, mem_cons] at hc
    exact hc.imp_right fun hc => Or.inr (Or.inr hc)
  | direct hdirect hzero halloc =>
    have hsame : (setAddr (I i) bn addr).addrs nDirect = (I i).addrs nDirect :=
      setAddr_addrs_of_ne (by omega)
    unfold Budget at hbudget
    rw [hsame] at hbudget
    refine Budget.insert hbudget (fs.bblock addr) addr fun c hc => ?_
    simp only [cons_append, nil_append, mem_cons] at hc
    rcases hc with hc | hc | hc | hc
    · exact Or.inl hc
    · exact Or.inr (Or.inl hc)
    · exact Or.inr (Or.inl hc)
    · exact Or.inr (Or.inr (Or.inr hc))
  | entry hge hind hzero halloc =>
    refine hbudget.insert (fs.bblock addr) addr fun c hc => ?_
    simp only [cons_append, nil_append, mem_cons] at hc
    rcases hc with hc | hc | hc | hc | hc
    · exact Or.inl hc
    · exact Or.inr (Or.inl hc)
    · exact Or.inr (Or.inr (Or.inl ⟨hind, hc⟩))
    · exact Or.inr (Or.inl hc)
    · exact Or.inr (Or.inr (Or.inr hc))
  | @indirect fs1 ind fs2 _ hge hzero halloc hind halloc' =>
    have hentry : Budget (setAddr (I i) nDirect ind) (n + 2) (fs1.bblock addr :: addr :: l) := by
      refine hbudget.insert (fs1.bblock addr) addr fun c hc => ?_
      simp only [mem_cons] at hc
      exact hc.imp_right fun hc => hc.imp_right Or.inr
    refine hentry.setInd hzero hind (fs.bblock ind) fun c hc => ?_
    simp only [cons_append, nil_append, mem_cons] at hc ⊢
    rcases hc with hc | hc | hc | hc | hc | hc | hc
    · exact Or.inl hc
    · exact Or.inr (Or.inl hc)
    · exact Or.inr (Or.inr (Or.inl hc))
    · exact Or.inr (Or.inr (Or.inr (Or.inl hc)))
    · exact Or.inr (Or.inl hc)
    · exact Or.inr (Or.inr (Or.inr (Or.inl hc)))
    · exact Or.inr (Or.inr (Or.inr (Or.inr hc)))

/-- A pass that reaches the panic of `balloc`. -/
theorem Good.budget_none (h : Good fs I) (hmap : fs.bmap (I i) bn = none) :
    Budget (I i) 2 (logged (fs.bmapTrace (I i) bn)) := by
  have hentry : ∀ {fs1 : Fs} {ind k : ℕ}, load 4 (fs1.blocks ind) (4 * k) = 0 → fs1.balloc = none →
      logged (bmapTrace.entryTrace fs1 ind k) = [] := by
    intro fs1 ind k hzero hnone
    unfold bmapTrace.entryTrace
    rw [if_pos hzero, ballocTrace_none hnone, hnone]
    rfl
  unfold bmap at hmap
  unfold bmapTrace
  rw [logged_bmap]
  by_cases hdirect : bn < nDirect
  · rw [if_pos hdirect] at hmap ⊢
    split at hmap
    · rename_i hzero
      rw [if_pos hzero, ballocTrace_none (map_eq_none_iff.1 hmap)]
      exact Budget.nil _ _
    · cases hmap
  rw [if_neg hdirect] at hmap ⊢
  split at hmap
  · rename_i hrange
    rw [if_pos hrange]
    dsimp only at hmap ⊢
    by_cases hzero : (I i).addrs nDirect = 0
    · rw [if_pos hzero] at hmap ⊢
      cases halloc : fs.balloc with
      | none =>
        rw [ballocTrace_none halloc]
        exact Budget.nil _ _
      | some r =>
        obtain ⟨fs1, b⟩ := r
        have hb : b ≠ 0 :=
          (balloc_taken h.marked.layout h.marked.low halloc).ne_zero h.marked.layout
        rw [halloc, map_some, bind_some] at hmap
        dsimp only at hmap
        rw [setAddr_addrs_self] at hmap
        split at hmap
        · rename_i hload
          rw [logged_append, logged_ballocTrace halloc, hentry hload (map_eq_none_iff.1 hmap)]
          refine (Budget.nil (setAddr (I i) nDirect b) 2).setInd hzero hb (fs.bblock b) fun c hc => ?_
          simp only [append_nil, mem_cons, not_mem_nil, or_false] at hc ⊢
          exact hc
        · cases hmap
    · rw [if_neg hzero] at hmap ⊢
      rw [bind_some] at hmap
      dsimp only at hmap
      split at hmap
      · rename_i hload
        rw [hentry hload (map_eq_none_iff.1 hmap)]
        exact Budget.nil _ _
      · cases hmap
  · rename_i hrange
    rw [if_neg hrange]
    exact Budget.nil _ _

/-- A pass ends at the end of a block, or at the end of what is written. -/
theorem next_aligned (off : ℕ) (src : List UInt8) :
    (off + min src.length (bsize - off % bsize)) % bsize = 0 ∨
      src.drop (min src.length (bsize - off % bsize)) = [] := by
  rw [drop_eq_nil_iff]
  simp only [bsize]
  omega

/-- **The loop of `writei`** from the start of a block takes two blocks for each block it
touches. -/
theorem Good.writeLoop_budget {off T : ℕ} {src : List UInt8} (h : Good fs I)
    (copyin : ℕ → Option ℕ) (fuel tot : ℕ) (hi : fs.Live I i) (hlt : off + src.length < 2 ^ 32)
    (halign : off % bsize = 0 ∨ src = []) (hlen : src.length ≤ T * bsize) :
    Budget (I i) (2 * T) (logged (writeLoopTrace copyin fuel fs (I i) off src tot)) := by
  induction fuel generalizing fs I off src tot T with
  | zero => exact Budget.nil _ _
  | succ fuel ih =>
    unfold writeLoopTrace
    by_cases hsrc : src = []
    · rw [if_pos hsrc]
      exact Budget.nil _ _
    rw [if_neg hsrc, logged_append]
    have hpos : 0 < src.length := length_pos_of_ne_nil hsrc
    have hoff := halign.resolve_right hsrc
    obtain ⟨T, rfl⟩ : ∃ k, T = k + 1 := Nat.exists_eq_succ_of_ne_zero (by rintro rfl; omega)
    cases hmap : fs.bmap (I i) (off / bsize) with
    | none =>
      refine (h.budget_none hmap).mono (by omega) fun b hb => ?_
      simpa using hb
    | some r =>
      obtain ⟨fs1, ip1, addr⟩ := r
      dsimp only
      split
      · refine (h.budget_pass hi hmap (Budget.nil ip1 (2 * T))).mono (by omega) fun b hb => ?_
        simp only [logged_nil, append_nil] at hb
        exact mem_append_left _ hb
      · set m := min src.length (bsize - off % bsize) with hm
        obtain ⟨hgrow, -⟩ := h.writePass hi hmap (move (fs1.blocks addr) (off % bsize) m (ofList src))
        have hself : Function.update I i ip1 i = ip1 := Function.update_self _ _ _
        have hnext := ih (T := T) hgrow.good (tot + m) (hgrow.live hi)
          (show off + m + (src.drop m).length < 2 ^ 32 by rw [length_drop]; omega) (next_aligned off src)
          (by rw [length_drop, Nat.sub_le_iff_le_add]; rw [add_mul] at hlen; omega)
        rw [hself, ← Nat.mod_eq_of_lt (show off + m < 2 ^ 32 by omega)] at hnext
        exact h.budget_pass hi hmap hnext

end Fs

/-- **A transaction of `filewrite` fits its part of the log.** On a well-formed file system, for an
inode whose blocks are mapped up to its size, the call of `writei` logs at most `MAXOPBLOCKS` blocks,
whatever the offset is and wherever it stops. -/
theorem writei_log_budget {fs : Fs} {i off : ℕ} {src : List UInt8} {copyin : ℕ → Option ℕ}
    (h : fs.Good fs.readInode) (hi : fs.Live fs.readInode i)
    (hmapped : ∀ k < blockCount (fs.readInode i).size, (fs.slot fs.readInode (placeOf i k)).isSome)
    (hoff : off ≤ (fs.readInode i).size) (hn : src.length ≤ filewriteMax) :
    (logged (fs.writeiTrace i (fs.readInode i) off src copyin)).toFinset.card ≤ maxOpBlocks := by
  have hsize := (h.fits i).size_lt
  have hmax : filewriteMax = 3 * bsize := by decide
  rw [hmax] at hn
  -- nine blocks for the data, and the block of the inode
  have hinode : ∀ l : List ℕ, (∃ F : Finset ℕ, F.card ≤ 9 ∧ ∀ b ∈ l, b ∈ F) → ∀ c : Bool,
      (l ++ logged (if c = true then [.logWrite (fs.iblock i)] else [])).toFinset.card ≤
          maxOpBlocks := by
    rintro l ⟨F, hcard, hmem⟩ c
    have hins := Finset.card_insert_le (fs.iblock i) F
    refine (Finset.card_le_card (t := insert (fs.iblock i) F) fun b hb => ?_).trans (show _ ≤ 10 by omega)
    rcases mem_append.1 (mem_toFinset.1 hb) with hb | hb
    · exact Finset.mem_insert_of_mem (hmem b hb)
    · cases c with
      | true => exact Finset.mem_insert.2 (Or.inl (mem_singleton.1 hb))
      | false => exact absurd hb not_mem_nil
  unfold writeiTrace
  split
  · exact Nat.zero_le _
  rename_i hcheck
  split
  · exact Nat.zero_le _
  have hlt : off + src.length < 2 ^ 32 := by
    by_contra hge
    refine hcheck (Or.inr ?_)
    have hb : bsize = 65536 := rfl
    rw [Nat.mod_eq_sub_mod (by omega), Nat.mod_eq_of_lt (by omega)]
    omega
  rw [logged_append]
  refine hinode _ ?_ _
  by_cases halign : off % bsize = 0
  · obtain ⟨F, hcard, -, hmem⟩ := h.writeLoop_budget copyin src.length 0 hi hlt
      (Or.inl halign) hn
    refine ⟨F, hcard.trans ?_, hmem⟩
    split <;> decide
  · -- the write begins inside a block of the file
    have hin : off / bsize < blockCount (fs.readInode i).size := by
      unfold blockCount
      simp only [bsize] at *
      omega
    obtain ⟨addr, haddr⟩ := isSome_iff_exists.1 (hmapped _ hin)
    cases hfuel : src.length with
    | zero => exact ⟨∅, by simp, by simp [writeLoopTrace]⟩
    | succ fuel =>
      have hne : src ≠ [] := by
        rintro rfl
        cases hfuel
      unfold writeLoopTrace
      rw [if_neg hne, logged_append, logged_bmapTrace_of_slot haddr, bmap_of_slot haddr]
      dsimp only
      split
      · exact ⟨∅, by simp, by simp⟩
      · set m := min src.length (bsize - off % bsize) with hm
        have hgrow := h.setData haddr (move (fs.blocks addr) (off % bsize) m (ofList src))
        obtain ⟨F, hcard, -, hmem⟩ := hgrow.good.writeLoop_budget copyin fuel (0 + m) (T := 3)
          (hgrow.live hi) (show off + m + (src.drop m).length < 2 ^ 32 by rw [length_drop]; omega)
          (next_aligned off src) (by rw [length_drop]; omega)
        rw [Nat.mod_eq_of_lt (show off + m < 2 ^ 32 by omega)]
        have hins := Finset.card_insert_le addr F
        refine ⟨insert addr F, ?_, fun b hb => ?_⟩
        · split at hcard <;> omega
        · simp only [nil_append, logged_logWrite, mem_cons] at hb
          rcases hb with rfl | hb
          · exact Finset.mem_insert_self _ _
          · exact Finset.mem_insert_of_mem (hmem b hb)

/-- Two bytes are appended to a file of three. -/
theorem writei_log_budget_append :
    ∃ t, exec FsState.step smallDisk smallCalls = some t ∧ (t.fs.readInode 1).size = 3 ∧
      (logged (t.fs.writeiTrace 1 (t.fs.readInode 1) 3 [4, 5] fun _ => none)).toFinset.card ≤
        maxOpBlocks := by
  have hrun : (exec FsState.step smallDisk smallCalls).any
      (fun t => (t.icache 1).isSome && (t.fs.readInode 1).size == 3) = true := by decide +kernel
  obtain ⟨t, ht, hstate⟩ := (any_eq_true _ _).1 hrun
  rw [Bool.and_eq_true, beq_iff_eq] at hstate
  obtain ⟨ip, hip⟩ := isSome_iff_exists.1 hstate.1
  have hwf := FsState.exec_wellFormed smallDisk_wellFormed ht
  obtain ⟨hlive, -⟩ := hwf.cache 1 ip hip
  exact ⟨t, ht, hstate.2, writei_log_budget hwf.good hlive (hwf.mapped 1 hlive) hstate.2.ge (by decide)⟩

end AudioPlayer
