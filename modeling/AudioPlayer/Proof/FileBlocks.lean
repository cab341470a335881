import AudioPlayer.Spec.Fs
import Mathlib.Algebra.Order.Group.Nat
import Mathlib.Data.List.GetD
import Mathlib.Data.List.Nodup

/-!
# The blocks of a file

`FileMap` says that the addresses of an inode and its indirect block list the blocks `blks`,
and `HoldsFile` that these blocks hold the bytes of a file, with zeros behind them. Both
`mkfs` and the kernel are described by them.

* `FileMap.bmap`: on a block that is mapped `bmap` changes nothing;
* `HoldsFile.readi`: what `readi` returns are the bytes of the file.
-/

namespace AudioPlayer

open Function Bytes List Option

/-- The number of blocks for `n` bytes. -/
def blockCount (n : ℕ) : ℕ := (n + bsize - 1) / bsize

/-- The blocks that a file of `n` bytes takes, its indirect block included. -/
def blockNeed (n : ℕ) : ℕ := blockCount n + if nDirect < blockCount n then 1 else 0

structure FileMap (disk : ℕ → Block) (addrs : ℕ → ℕ) (blks : List ℕ) (ind : ℕ) : Prop where
  length_le : blks.length ≤ nDirect + nIndirect
  pos : ∀ b ∈ blks, b ≠ 0
  direct : ∀ k < nDirect, addrs k = blks.getD k 0
  indirect : addrs nDirect = ind
  ind_iff : ind ≠ 0 ↔ nDirect < blks.length
  entry : ind ≠ 0 → ∀ k < nIndirect, load 4 (disk ind) (4 * k) = blks.getD (nDirect + k) 0

structure HoldsFile (disk : ℕ → Block) (addrs : ℕ → ℕ) (content : List UInt8) (blks : List ℕ)
    (ind : ℕ) : Prop extends FileMap disk addrs blks ind where
  length_eq : blks.length = blockCount content.length
  data : ∀ k (h : k < blks.length) (j : ℕ), j < bsize →
    disk blks[k] j = content.getD (k * bsize + j) 0

/-- The blocks that belong to a file. -/
def owned (blks : List ℕ) (ind : ℕ) : List ℕ := if ind = 0 then blks else ind :: blks

theorem mem_owned_of_mem {blks : List ℕ} {ind b : ℕ} (h : b ∈ blks) : b ∈ owned blks ind := by
  unfold owned
  split
  · exact h
  · exact mem_cons_of_mem _ h

theorem ind_mem_owned {blks : List ℕ} {ind : ℕ} (h : ind ≠ 0) : ind ∈ owned blks ind := by
  unfold owned
  rw [if_neg h]
  exact mem_cons_self

variable {disk disk' : ℕ → Block} {addrs : ℕ → ℕ} {content : List UInt8} {blks : List ℕ} {ind : ℕ}
  {ip : Dinode} {fs : Fs}

/-- The map depends on the indirect block only. -/
theorem FileMap.congr (h : FileMap disk addrs blks ind) (hind : ind ≠ 0 → disk' ind = disk ind) :
    FileMap disk' addrs blks ind := by
  refine ⟨h.length_le, h.pos, h.direct, h.indirect, h.ind_iff, fun hne k hk => ?_⟩
  rw [hind hne]
  exact h.entry hne k hk

/-- A file depends on the blocks that belong to it only. -/
theorem HoldsFile.congr (h : HoldsFile disk addrs content blks ind)
    (hown : ∀ b ∈ owned blks ind, disk' b = disk b) : HoldsFile disk' addrs content blks ind := by
  refine ⟨h.toFileMap.congr fun hne => hown ind (ind_mem_owned hne), h.length_eq, fun k hk j hj => ?_⟩
  rw [hown _ (mem_owned_of_mem (getElem_mem hk))]
  exact h.data k hk j hj

theorem FileMap.empty (disk : ℕ → Block) : FileMap disk (fun _ => 0) [] 0 :=
  ⟨Nat.zero_le _, by simp, fun _ _ => rfl, rfl, by simp, fun h => absurd rfl h⟩

theorem blockCount_zero : blockCount 0 = 0 := by decide

/-- A direct block is added to the map. -/
theorem FileMap.append_direct (h : FileMap disk addrs blks ind) {b : ℕ} (hb : b ≠ 0)
    (hlen : blks.length < nDirect) :
    FileMap disk (update addrs blks.length b) (blks ++ [b]) ind := by
  have hzero : ind = 0 := by
    by_contra hne
    have := h.ind_iff.1 hne
    omega
  refine ⟨by simp; omega, fun c hc => ?_, fun k hk => ?_, ?_, ?_, fun hne => absurd hzero hne⟩
  · rcases mem_append.1 hc with hc | hc
    · exact h.pos c hc
    · rwa [mem_singleton.1 hc]
  · by_cases hkl : k = blks.length
    · subst hkl
      simp
    · rw [update_of_ne hkl, h.direct k hk]
      rcases Nat.lt_or_gt_of_ne hkl with hlt | hgt
      · rw [getD_append _ _ _ _ hlt]
      · rw [getD_eq_default _ _ (by omega), getD_eq_default _ _ (by simp; omega)]
  · rw [update_of_ne (by omega), h.indirect]
  · simp [hzero]
    omega

/-- A block is added to the indirect block, which may be a new one. -/
theorem FileMap.append_indirect {b : ℕ} (hb : b ≠ 0) (hb32 : b < 2 ^ 32) (hind : ind ≠ 0)
    (haddr : addrs nDirect = ind) (hdirect : ∀ k < nDirect, addrs k = blks.getD k 0)
    (hpos : ∀ c ∈ blks, c ≠ 0) (hge : nDirect ≤ blks.length) (hlt : blks.length < nDirect + nIndirect)
    (hentry : ∀ k < nIndirect, load 4 (disk ind) (4 * k) = blks.getD (nDirect + k) 0) :
    FileMap (update disk ind (store 4 (disk ind) (4 * (blks.length - nDirect)) b)) addrs
      (blks ++ [b]) ind := by
  refine ⟨by simp; omega, fun c hc => ?_, fun k hk => ?_, haddr, ?_, fun _ k hk => ?_⟩
  · rcases mem_append.1 hc with hc | hc
    · exact hpos c hc
    · rwa [mem_singleton.1 hc]
  · rw [hdirect k hk, getD_append _ _ _ _ (by omega)]
  · simp [hind]
    omega
  · rw [update_self]
    by_cases hkl : k = blks.length - nDirect
    · subst hkl
      rw [load_store, Nat.add_sub_cancel' hge, Nat.mod_eq_of_lt (show b < 256 ^ 4 from hb32)]
      simp
    · rw [load_store_of_disjoint (by omega), hentry k hk]
      rcases Nat.lt_or_gt_of_ne hkl with hlow | hhigh
      · rw [getD_append _ _ _ _ (by omega)]
      · rw [getD_eq_default _ _ (by omega), getD_eq_default _ _ (by simp; omega)]

/-- **Bytes are appended in the last block.** -/
theorem data_write {p : List UInt8} {n : ℕ} (hnodup : blks.Nodup)
    (hdata : ∀ k (h : k < blks.length) (j : ℕ), j < bsize →
      disk blks[k] j = content.getD (k * bsize + j) 0)
    (hlast : content.length / bsize < blks.length) (hn : n ≤ p.length)
    (hfit : n ≤ bsize - content.length % bsize) :
    ∀ k (h : k < blks.length) (j : ℕ), j < bsize →
      update disk blks[content.length / bsize]
        (move (disk blks[content.length / bsize]) (content.length % bsize) n (ofList p)) blks[k] j =
      (content ++ p.take n).getD (k * bsize + j) 0 := by
  intro k hk j hj
  have hsplit := Nat.div_add_mod' content.length bsize
  have hmod : content.length % bsize < bsize := Nat.mod_lt _ (by decide)
  have hlen : (p.take n).length = n := by simp [hn]
  by_cases hkl : k = content.length / bsize
  · subst hkl
    rw [update_self]
    by_cases hin : content.length % bsize ≤ j ∧ j < content.length % bsize + n
    · rw [move, if_pos hin, getD_append_right _ _ _ _ (by omega),
        show content.length / bsize * bsize + j - content.length = j - content.length % bsize by omega,
        getD_eq_getElem _ _ (by omega), getElem_take, ofList,
        getD_eq_getElem _ _ (by omega)]
    · rw [move, if_neg hin, hdata _ hk j hj]
      by_cases hlow : j < content.length % bsize
      · rw [getD_append _ _ _ _ (by omega)]
      · rw [getD_eq_default _ _ (by omega), getD_eq_default _ _ (by simp; omega)]
  · have hne : blks[k] ≠ blks[content.length / bsize] := fun heq =>
      hkl ((List.Nodup.getElem_inj_iff hnodup).1 heq)
    rw [update_of_ne hne, hdata k hk j hj]
    rcases Nat.lt_or_gt_of_ne hkl with hlow | hhigh
    · have hle : (k + 1) * bsize ≤ content.length / bsize * bsize := Nat.mul_le_mul_right _ hlow
      rw [Nat.add_mul, Nat.one_mul] at hle
      rw [getD_append _ _ _ _ (by omega)]
    · have hle : (content.length / bsize + 1) * bsize ≤ k * bsize := Nat.mul_le_mul_right _ hhigh
      rw [Nat.add_mul, Nat.one_mul] at hle
      rw [getD_eq_default _ _ (by omega), getD_eq_default _ _ (by simp; omega)]

/-! ## Where the numbers of blocks are stored -/

/-- A place for the number of a block: an address of an inode, or an entry of its indirect
block. -/
inductive BlockSlot
  | addr (inum k : ℕ)
  | entry (inum k : ℕ)
  deriving DecidableEq

namespace BlockSlot

def inum : BlockSlot → ℕ
  | addr inum _ => inum
  | entry inum _ => inum

/-- The places that the inodes below `n` have. -/
def Valid (n : ℕ) : BlockSlot → Prop
  | addr inum k => inum < n ∧ k < nDirect + 1
  | entry inum k => inum < n ∧ k < nIndirect

/-- The number that is stored there. Without an indirect block there are no entries. -/
def value (inode : ℕ → Dinode) (disk : ℕ → Block) : BlockSlot → ℕ
  | addr inum k => (inode inum).addrs k
  | entry inum k =>
    if (inode inum).addrs nDirect = 0 then 0
    else load 4 (disk ((inode inum).addrs nDirect)) (4 * k)

theorem Valid.inum_lt {n : ℕ} {s : BlockSlot} (h : s.Valid n) : s.inum < n := by
  cases s <;> exact h.1

/-- The position of a place among the indirect block and the blocks of the file. -/
def index : BlockSlot → ℕ
  | addr _ k => if k = nDirect then 0 else k + 1
  | entry _ k => nDirect + 1 + k

theorem index_inj {n : ℕ} {s s' : BlockSlot} (h : s.Valid n) (h' : s'.Valid n) (hnum : s.inum = s'.inum)
    (hidx : s.index = s'.index) : s = s' := by
  have hd : nDirect = 12 := rfl
  cases s with
  | addr i k =>
    have hk : k < nDirect + 1 := h.2
    cases s' with
    | addr i' k' =>
      have hk' : k' < nDirect + 1 := h'.2
      obtain rfl : i = i' := hnum
      simp only [index] at hidx
      split at hidx <;> split at hidx <;> simp <;> omega
    | entry i' k' =>
      simp only [index] at hidx
      split at hidx <;> omega
  | entry i k =>
    cases s' with
    | addr i' k' =>
      have hk' : k' < nDirect + 1 := h'.2
      simp only [index] at hidx
      split at hidx <;> omega
    | entry i' k' =>
      obtain rfl : i = i' := hnum
      simp only [index] at hidx
      simp
      omega

end BlockSlot

variable {inode : ℕ → Dinode} {s s' : BlockSlot} {n : ℕ}

/-- What is stored are the numbers of the indirect block and of the blocks of the file. -/
theorem FileMap.value_eq (h : FileMap disk (inode s.inum).addrs blks ind) (hs : s.Valid n) :
    s.value inode disk = (ind :: blks).getD s.index 0 := by
  cases s with
  | addr i k =>
    have hk : k < nDirect + 1 := hs.2
    simp only [BlockSlot.value, BlockSlot.index]
    split
    · rename_i heq
      rw [heq]
      exact h.indirect
    · exact h.direct k (by omega)
  | entry i k =>
    have hind : (inode i).addrs nDirect = ind := h.indirect
    simp only [BlockSlot.value, BlockSlot.index, hind]
    rw [show nDirect + 1 + k = (nDirect + k) + 1 by omega, getD_cons_succ]
    by_cases hne : ind = 0
    · have hlen : ¬ nDirect < blks.length := fun hlt => h.ind_iff.2 hlt hne
      rw [if_pos hne, getD_eq_default _ _ (by omega)]
    · rw [if_neg hne]
      exact h.entry hne k hs.2

theorem FileMap.value_mem (h : FileMap disk (inode s.inum).addrs blks ind) (hs : s.Valid n)
    (hne : s.value inode disk ≠ 0) : s.value inode disk ∈ owned blks ind := by
  rw [h.value_eq hs] at *
  have hlt : s.index < (ind :: blks).length := by
    by_contra hge
    exact hne (getD_eq_default _ _ (by omega))
  rw [getD_eq_getElem _ _ hlt] at *
  rcases mem_cons.1 (getElem_mem hlt) with heq | hmem
  · rw [heq] at hne ⊢
    exact ind_mem_owned hne
  · exact mem_owned_of_mem hmem

/-- A file stores a number once. -/
theorem FileMap.value_inj (h : FileMap disk (inode s.inum).addrs blks ind)
    (hnodup : (owned blks ind).Nodup) (hs : s.Valid n) (hs' : s'.Valid n) (hnum : s'.inum = s.inum)
    (hne : s.value inode disk ≠ 0) (heq : s'.value inode disk = s.value inode disk) : s' = s := by
  have hnd : (ind :: blks).Nodup := by
    by_cases hz : ind = 0
    · rw [owned, if_pos hz] at hnodup
      refine nodup_cons.2 ⟨fun hmem => h.pos _ hmem hz, hnodup⟩
    · rwa [owned, if_neg hz] at hnodup
  have hlt : ∀ j, (ind :: blks).getD j 0 ≠ 0 → j < (ind :: blks).length := by
    intro j hj
    by_contra hge
    exact hj (getD_eq_default _ _ (by omega))
  rw [h.value_eq hs] at hne heq
  rw [(hnum ▸ h : FileMap disk (inode s'.inum).addrs blks ind).value_eq hs'] at heq
  have hj := hlt _ hne
  have hj' := hlt _ (heq ▸ hne)
  rw [getD_eq_getElem _ _ hj, getD_eq_getElem _ _ hj'] at heq
  exact BlockSlot.index_inj hs' hs hnum ((List.Nodup.getElem_inj_iff hnd).1 heq)

/-- `balloc` returns a block that is not marked. -/
theorem Fs.balloc_unmarked {fs fs' : Fs} {b : ℕ} (h : fs.balloc = some (fs', b)) :
    b < fs.sb.size ∧ fs.marked b = false := by
  unfold balloc at h
  obtain ⟨b', hfind, heq⟩ := map_eq_some_iff.1 h
  obtain ⟨-, rfl⟩ := Prod.mk.inj heq
  have hmem := mem_of_find?_eq_some hfind
  have hclear := List.find?_some hfind
  exact ⟨mem_range.1 hmem, by simpa using hclear⟩

/-! ## The kernel reads a file -/

/-- **`bmap` on a block that is mapped.** -/
theorem FileMap.bmap (h : FileMap fs.blocks ip.addrs blks ind) {k : ℕ}
    (hk : k < blks.length) : fs.bmap ip k = some (fs, ip, blks[k]) := by
  have hpos : blks[k] ≠ 0 := h.pos _ (getElem_mem hk)
  unfold Fs.bmap
  by_cases hdirect : k < nDirect
  · have haddr : ip.addrs k = blks[k] := by
      rw [h.direct k hdirect, getD_eq_getElem _ _ hk]
    rw [if_pos hdirect, if_neg (haddr ▸ hpos), haddr]
  · have hlen := h.length_le
    have hrange : k - nDirect < nIndirect := by omega
    have hind : ind ≠ 0 := h.ind_iff.2 (by omega)
    have hentry : load 4 (fs.blocks ind) (4 * (k - nDirect)) = blks[k] := by
      rw [h.entry hind _ hrange, Nat.add_sub_cancel' (by omega), getD_eq_getElem _ _ hk]
    rw [if_neg hdirect, if_pos hrange]
    simp only [h.indirect, if_neg hind, bind_some, hentry, if_neg hpos]

/-- **The loop of `readi`** inside a file, when `bmap` finds its blocks and they hold the bytes
`f`. -/
theorem Fs.readLoop_of_mapped {f : Mem} {size fuel off n : ℕ} (tot : ℕ)
    (hmap : ∀ bn < blockCount size, ∃ addr, fs.bmap ip bn = some (fs, ip, addr) ∧
      ∀ j < bsize, fs.blocks addr j = f (bn * bsize + j))
    (hlt : size < 2 ^ 32) (hfuel : n ≤ fuel) (hle : off + n ≤ size) :
    fs.readLoop (fun _ => true) fuel ip off n tot = some (fs, ip, some (slice f off n)) := by
  induction fuel generalizing off n tot with
  | zero =>
    obtain rfl : n = 0 := by omega
    rfl
  | succ fuel ih =>
    unfold Fs.readLoop
    by_cases hn : n = 0
    · rw [if_pos hn, hn]
      rfl
    set m := min n (bsize - off % bsize) with hm
    have hmod : off % bsize < bsize := Nat.mod_lt _ (by decide)
    have hsplit := Nat.div_add_mod' off bsize
    have hk : off / bsize < blockCount size := by
      unfold blockCount
      simp only [bsize] at *
      omega
    obtain ⟨addr, haddr, hbytes⟩ := hmap _ hk
    have hoff : (off + m) % 2 ^ 32 = off + m := Nat.mod_eq_of_lt (by omega)
    have hrest := ih (tot + m) (show n - m ≤ fuel by omega) (show off + m + (n - m) ≤ _ by omega)
    have hchunk : slice (fs.blocks addr) (off % bsize) m = slice f off m := by
      unfold slice
      refine map_congr_left fun j hj => ?_
      have hj' := mem_range.1 hj
      rw [hbytes _ (by omega), ← add_assoc, hsplit]
    have hwhole : slice f off n = slice f off m ++ slice f (off + m) (n - m) := by
      rw [← slice_add, Nat.add_sub_cancel' (by omega)]
    rw [if_neg hn, haddr]
    simp only [bind_some, if_true, hoff, hrest, hchunk, map_some, hwhole]

theorem slice_ofList (content : List UInt8) {off n : ℕ} (hle : off + n ≤ content.length) :
    slice (ofList content) off n = (content.drop off).take n := by
  refine ext_getElem ?_ fun i h1 h2 => ?_
  · rw [length_slice, length_take, length_drop]
    omega
  · have hi : i < n := by simpa using h1
    simp only [slice, ofList, getElem_map, getElem_range, getElem_take, getElem_drop]
    exact getD_eq_getElem _ _ (by omega)

/-- **The loop of `readi`.** -/
theorem HoldsFile.readLoop (h : HoldsFile fs.blocks ip.addrs content blks ind)
    (hlt : content.length < 2 ^ 32) {fuel off n : ℕ} (tot : ℕ) (hfuel : n ≤ fuel)
    (hle : off + n ≤ content.length) :
    fs.readLoop (fun _ => true) fuel ip off n tot = some (fs, ip, some ((content.drop off).take n)) := by
  rw [Fs.readLoop_of_mapped tot (f := ofList content) ?_ hlt hfuel hle, slice_ofList content hle]
  intro bn hbn
  rw [← h.length_eq] at hbn
  exact ⟨blks[bn], h.toFileMap.bmap hbn, h.data bn hbn⟩

/-- **What `readi` returns are the bytes of the file**, and it changes nothing. -/
theorem HoldsFile.readi (h : HoldsFile fs.blocks ip.addrs content blks ind)
    (hsize : ip.size = content.length) (hlt : content.length < 2 ^ 32) {off n : ℕ}
    (hoff : off + n < 2 ^ 32) :
    fs.readi ip off n (fun _ => true) = some (fs, ip, some ((content.drop off).take n)) := by
  unfold Fs.readi
  rw [Nat.mod_eq_of_lt hoff, hsize]
  by_cases hpast : off > content.length ∨ off + n < off
  · rw [if_pos hpast]
    have hdrop : content.drop off = [] := drop_eq_nil_of_le (by omega)
    simp [hdrop]
  · rw [if_neg hpast]
    by_cases hend : off + n > content.length
    · simp only [if_pos hend]
      rw [h.readLoop hlt 0 le_rfl (by omega), take_of_length_le (l := content.drop off) (i := n)]
      · rw [take_of_length_le (by simp)]
      · simp only [length_drop]; omega
    · simp only [if_neg hend]
      exact h.readLoop hlt 0 le_rfl (by omega)

end AudioPlayer
