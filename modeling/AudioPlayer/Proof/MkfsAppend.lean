import AudioPlayer.Spec.Mkfs
import AudioPlayer.Proof.FileBlocks
import Mathlib.Order.Interval.Finset.Nat

/-!
# `iappend`

A file of the image that grows: `Mapped` says which blocks it has and that the blocks from
`freeblock` on are unused, `Kept` that the other files keep theirs.

* `Image.fileBlock_spec`, `Image.fileBlock_full`: the block for the next byte;
* `Image.appendPass_spec`: one pass of the loop in `iappend`;
* `Image.appendLoop_spec`, `Image.appendLoop_full`: all bytes are appended, or the program
  ends with an error, as there are blocks for them or not.
-/

namespace AudioPlayer

open Function Bytes List

namespace Image

variable {im im' : Image} {sec : ℕ} {b : ℕ}

/-! ## Sectors -/

theorem sector_of_lt (h : sec < 65536) : sector sec = sec := by
  unfold sector
  simp only [bsize]
  omega

theorem fsSize_eq : fsSize = 1000 := rfl

theorem rsect_of_lt (hn : im.nblk = fsSize) (h : sec < fsSize) :
    im.rsect sec = some (im.disk sec) := by
  have hsz := fsSize_eq
  unfold rsect
  rw [sector_of_lt (by omega), if_pos (by omega)]

/-- A block behind the end of the image is not found. -/
theorem rsect_eq_none (hn : im.nblk = fsSize) (hge : fsSize ≤ sec) (hlt : sec < 65536) :
    im.rsect sec = none := by
  unfold rsect
  rw [sector_of_lt hlt, if_neg (by omega)]

theorem wsect_of_lt (hn : im.nblk = fsSize) (h : sec < fsSize) (buf : Block) :
    im.wsect sec buf = { im with disk := update im.disk sec buf } := by
  have hsz := fsSize_eq
  unfold wsect
  rw [sector_of_lt (by omega), max_eq_left (by omega)]

/-! ## The blocks of a file that grows -/

/-- The file with the addresses `addrs` has the blocks `blks`, which hold `c`, and the blocks
from `freeblock` on are unused. -/
structure Mapped (im : Image) (addrs : ℕ → ℕ) (c : List UInt8) (blks : List ℕ) (ind : ℕ) :
    Prop where
  nblk : im.nblk = fsSize
  free_ge : nmeta ≤ im.freeblock
  free_le : im.freeblock ≤ fsSize
  map : FileMap im.disk addrs blks ind
  data : ∀ k (h : k < blks.length) (j : ℕ), j < bsize → im.disk blks[k] j = c.getD (k * bsize + j) 0
  range : ∀ b ∈ owned blks ind, nmeta ≤ b ∧ b < im.freeblock
  nodup : (owned blks ind).Nodup
  zero : ∀ b, im.freeblock ≤ b → b < fsSize → im.disk b = fun _ => 0
  addrs_end : ∀ i, nDirect + 1 ≤ i → addrs i = 0

variable {addrs : ℕ → ℕ} {c : List UInt8} {blks : List ℕ} {ind : ℕ} {din : Dinode} {p : List UInt8}

theorem nodup_of_owned (h : (owned blks ind).Nodup) : blks.Nodup := by
  unfold owned at h
  split at h
  · exact h
  · exact (nodup_cons.1 h).2

/-- There are too few blocks for a file that does not fit into its map. -/
theorem Mapped.length_le (h : Mapped im addrs c blks ind) : blks.length ≤ fsSize - nmeta := by
  have hsub : blks.toFinset ⊆ Finset.Ico nmeta im.freeblock := by
    intro b hb
    exact Finset.mem_Ico.2 (h.range b (mem_owned_of_mem (mem_toFinset.1 hb)))
  have hcard := Finset.card_le_card hsub
  rw [toFinset_card_of_nodup (nodup_of_owned h.nodup), Nat.card_Ico] at hcard
  have hle := h.free_le
  omega

/-- The changes of the image that do not concern its other files: from `im` to `im'`, where
a file owned the blocks `o` before and owns `o'` now. -/
structure Kept (im im' : Image) (o o' : List ℕ) : Prop where
  free_le : im.freeblock ≤ im'.freeblock
  disk : ∀ b < im.freeblock, b ∉ o → im'.disk b = im.disk b
  own : ∀ b ∈ o', b ∈ o ∨ im.freeblock ≤ b
  cover : ∀ b, b ∈ o ∨ im.freeblock ≤ b ∧ b < im'.freeblock → b ∈ o'
  freeinode : im'.freeinode = im.freeinode
  trace : ∃ tr, im'.trace = tr ++ im.trace ∧ ∀ a ∈ tr, ∃ i < nIndirect, a = .indirect i

theorem Kept.trans {im1 im2 im3 : Image} {o1 o2 o3 : List ℕ} (h : Kept im1 im2 o1 o2)
    (h' : Kept im2 im3 o2 o3) : Kept im1 im3 o1 o3 := by
  refine ⟨h.free_le.trans h'.free_le, fun b hb hn => ?_, fun b hb => ?_, fun b hb => ?_,
    h'.freeinode.trans h.freeinode, ?_⟩
  · have hle := h.free_le
    have hn2 : b ∉ o2 := by
      intro hmem
      rcases h.own b hmem with hmem | hge
      · exact hn hmem
      · omega
    rw [h'.disk b (by omega) hn2, h.disk b hb hn]
  · have hle := h.free_le
    rcases h'.own b hb with hmem | hge
    · exact h.own b hmem
    · exact Or.inr (by omega)
  · by_cases hlt : im2.freeblock ≤ b ∧ b < im3.freeblock
    · exact h'.cover b (Or.inr hlt)
    · refine h'.cover b (Or.inl (h.cover b ?_))
      rcases hb with hmem | hnew
      · exact Or.inl hmem
      · exact Or.inr (by omega)
  · obtain ⟨tr, htr, hall⟩ := h.trace
    obtain ⟨tr', htr', hall'⟩ := h'.trace
    refine ⟨tr' ++ tr, by rw [htr', htr, append_assoc], fun a ha => ?_⟩
    rcases mem_append.1 ha with ha | ha
    · exact hall' a ha
    · exact hall a ha

/-- The block is there already. -/
theorem fileBlock_mapped (h : Mapped im din.addrs c blks ind) {fbn : ℕ} (hk : fbn < blks.length) :
    ∃ tr, im.fileBlock din fbn = some ({ im with trace := tr ++ im.trace }, din, blks[fbn]) ∧
      ∀ a ∈ tr, ∃ i < nIndirect, a = .indirect i := by
  have hpos : blks[fbn] ≠ 0 := h.map.pos _ (getElem_mem hk)
  unfold fileBlock
  by_cases hdirect : fbn < nDirect
  · have haddr : din.addrs fbn = blks[fbn] := by
      rw [h.map.direct fbn hdirect, getD_eq_getElem _ _ hk]
    refine ⟨[], ?_, by simp⟩
    simp [if_pos hdirect, haddr, hpos]
  · have hlen := h.map.length_le
    have hrange : fbn - nDirect < nIndirect := by omega
    have hind : ind ≠ 0 := h.map.ind_iff.2 (by omega)
    have hentry : load 4 (im.disk ind) (4 * (fbn - nDirect)) = blks[fbn] := by
      rw [h.map.entry hind _ hrange, Nat.add_sub_cancel' (by omega), getD_eq_getElem _ _ hk]
    have hlt : ind < fsSize := by
      have := (h.range ind (ind_mem_owned hind)).2
      have := h.free_le
      omega
    refine ⟨[.indirect (fbn - nDirect)], ?_, by simpa using hrange⟩
    simp only [if_neg hdirect, h.map.indirect, if_neg hind, rsect_of_lt h.nblk hlt, Option.map_some,
      hentry, if_neg hpos]
    rfl

/-- A direct block is taken. -/
theorem fileBlock_direct (h : Mapped im din.addrs c blks ind) (hlen : blks.length < nDirect) :
    im.fileBlock din blks.length =
      some ({ im with freeblock := im.freeblock + 1 },
        { din with addrs := update din.addrs blks.length im.freeblock }, im.freeblock) := by
  have hzero : din.addrs blks.length = 0 := by
    rw [h.map.direct _ hlen, getD_eq_default _ _ le_rfl]
  unfold fileBlock
  simp only [if_pos hlen, if_pos hzero, newAddr, update_self]

/-- An entry of the indirect block is taken. -/
theorem fileBlock_indirect (h : Mapped im din.addrs c blks ind) (hge : nDirect < blks.length)
    (hlt : blks.length < nDirect + nIndirect) :
    im.fileBlock din blks.length =
      some ({ im with
          disk := update im.disk ind
            (store 4 (im.disk ind) (4 * (blks.length - nDirect)) im.freeblock)
          freeblock := im.freeblock + 1
          trace := .indirect (blks.length - nDirect) :: im.trace }, din, im.freeblock) := by
  have hind : ind ≠ 0 := h.map.ind_iff.2 hge
  have hrange : blks.length - nDirect < nIndirect := by omega
  have hentry : load 4 (im.disk ind) (4 * (blks.length - nDirect)) = 0 := by
    rw [h.map.entry hind _ hrange, Nat.add_sub_cancel' (by omega), getD_eq_default _ _ le_rfl]
  have hfree := h.free_le
  have hindlt : ind < fsSize := by
    have := (h.range ind (ind_mem_owned hind)).2
    omega
  unfold fileBlock
  simp only [if_neg (show ¬ blks.length < nDirect by omega), h.map.indirect, if_neg hind,
    rsect_of_lt h.nblk hindlt, Option.map_some, hentry, if_true]
  have hmod : im.freeblock < 256 ^ 4 := by
    have hsz := fsSize_eq
    omega
  rw [load_store, Nat.mod_eq_of_lt hmod, wsect_of_lt (by exact h.nblk) hindlt]

/-- The indirect block is taken, and its first entry. -/
theorem fileBlock_first (h : Mapped im din.addrs c blks ind) (hlen : blks.length = nDirect)
    (hlt : im.freeblock < fsSize) :
    im.fileBlock din blks.length =
      some ({ im with
          disk := update im.disk im.freeblock
            (store 4 (im.disk im.freeblock) (4 * (blks.length - nDirect)) (im.freeblock + 1))
          freeblock := im.freeblock + 2
          trace := .indirect (blks.length - nDirect) :: im.trace },
        { din with addrs := update din.addrs nDirect im.freeblock }, im.freeblock + 1) := by
  have hind : ind = 0 := by
    by_contra hne
    have := h.map.ind_iff.1 hne
    omega
  have hzero := h.zero im.freeblock le_rfl hlt
  have hrsect : ({ im with freeblock := im.freeblock + 1 } : Image).rsect im.freeblock =
      some (im.disk im.freeblock) := rsect_of_lt h.nblk hlt
  unfold fileBlock
  simp only [if_neg (show ¬ blks.length < nDirect by omega), h.map.indirect, if_pos hind, newAddr,
    update_self, hrsect, Option.map_some]
  have hentry : load 4 (im.disk im.freeblock) (4 * (blks.length - nDirect)) = 0 := by
    rw [hzero]; exact load_zero _ _
  simp only [if_pos hentry]
  have hmod : im.freeblock + 1 < 256 ^ 4 := by
    have hsz := fsSize_eq
    omega
  rw [load_store, Nat.mod_eq_of_lt hmod, wsect_of_lt (by exact h.nblk) hlt]

theorem fileBlock_first_none (h : Mapped im din.addrs c blks ind) (hlen : blks.length = nDirect)
    (hge : fsSize ≤ im.freeblock) : im.fileBlock din blks.length = none := by
  have hind : ind = 0 := by
    by_contra hne
    have := h.map.ind_iff.1 hne
    omega
  have hfree := h.free_le
  have hsz := fsSize_eq
  have hrsect : ({ im with freeblock := im.freeblock + 1 } : Image).rsect im.freeblock = none :=
    rsect_eq_none h.nblk hge (by omega)
  unfold fileBlock
  simp only [if_neg (show ¬ blks.length < nDirect by omega), h.map.indirect, if_pos hind, newAddr,
    update_self, hrsect, Option.map_none]

/-- The step from `im` to `im1` takes the block `x` for a file, and the indirect block `ind1`
before it if the file had none. -/
structure NewBlock (im im1 : Image) (ind ind1 x : ℕ) : Prop where
  nblk : im1.nblk = fsSize
  ge : im.freeblock ≤ x
  lt : x < im1.freeblock
  free_le : im1.freeblock ≤ fsSize
  ind_eq : ind1 = ind ∨ ind = 0 ∧ im.freeblock ≤ ind1 ∧ ind1 < x
  fresh : ∀ b, im.freeblock ≤ b → b < im1.freeblock → b = x ∨ b = ind1 ∧ ind1 ≠ 0
  disk : ∀ b, (b = ind1 → ind1 = 0) → im1.disk b = im.disk b
  freeinode : im1.freeinode = im.freeinode
  trace : ∃ tr, im1.trace = tr ++ im.trace ∧ ∀ a ∈ tr, ∃ i < nIndirect, a = .indirect i

variable {im1 : Image} {addrs1 : ℕ → ℕ} {ind1 x : ℕ}

theorem mem_owned (h : b ∈ owned blks ind) : b ∈ blks ∨ b = ind ∧ ind ≠ 0 := by
  unfold owned at h
  split at h
  · exact Or.inl h
  · rename_i hne
    rcases mem_cons.1 h with h | h
    · exact Or.inr ⟨h, hne⟩
    · exact Or.inl h

theorem mem_owned_append (h : b ∈ owned (blks ++ [x]) ind1) :
    b ∈ blks ∨ b = x ∨ b = ind1 ∧ ind1 ≠ 0 := by
  rcases mem_owned h with h | h
  · rcases mem_append.1 h with h | h
    · exact Or.inl h
    · exact Or.inr (Or.inl (mem_singleton.1 h))
  · exact Or.inr (Or.inr h)

/-- The indirect block lies before the new block. -/
theorem NewBlock.ind_lt (hnew : NewBlock im im1 ind ind1 x) (h : Mapped im addrs c blks ind)
    (hne : ind1 ≠ 0) : nmeta ≤ ind1 ∧ ind1 < x := by
  have hge := h.free_ge
  have hxge := hnew.ge
  rcases hnew.ind_eq with rfl | ⟨-, hlow, hhigh⟩
  · have := h.range _ (ind_mem_owned hne)
    omega
  · omega

/-- A block of the file is not its indirect block. -/
theorem NewBlock.ne_ind (hnew : NewBlock im im1 ind ind1 x) (h : Mapped im addrs c blks ind)
    (hb : b ∈ blks) : b ≠ ind1 := by
  intro heq
  rcases hnew.ind_eq with rfl | ⟨-, hlow, -⟩
  · have hne : ind1 ≠ 0 := heq ▸ h.map.pos b hb
    have hnodup := h.nodup
    rw [owned, if_neg hne] at hnodup
    exact (nodup_cons.1 hnodup).1 (heq ▸ hb)
  · have := h.range b (mem_owned_of_mem hb)
    omega

/-- The block `x` is added to the file. -/
theorem Mapped.grow (h : Mapped im addrs c blks ind) (hnew : NewBlock im im1 ind ind1 x)
    (hc : c.length ≤ blks.length * bsize) (hmap : FileMap im1.disk addrs1 (blks ++ [x]) ind1)
    (hend : ∀ i, nDirect + 1 ≤ i → addrs1 i = 0) : Mapped im1 addrs1 c (blks ++ [x]) ind1 := by
  have hge := h.free_ge
  have hxge := hnew.ge
  have hxlt := hnew.lt
  have hfree := hnew.free_le
  have hpos : 0 < nmeta := by decide
  have hindlt := hnew.ind_lt h
  have hblk : ∀ b ∈ blks, nmeta ≤ b ∧ b < im.freeblock :=
    fun b hb => h.range b (mem_owned_of_mem hb)
  have hxne : x ≠ ind1 := by
    intro heq
    have := hindlt (by omega)
    omega
  refine ⟨hnew.nblk, by omega, hfree, hmap, fun k hk j hj => ?_, fun b hb => ?_, ?_,
    fun b hb hlt => ?_, hend⟩
  · by_cases hkl : k < blks.length
    · have hne := hnew.ne_ind h (getElem_mem hkl)
      rw [getElem_append_left hkl, hnew.disk _ fun heq => absurd heq hne, h.data k hkl j hj]
    · have hklen : k = blks.length := by
        simp only [length_append, length_singleton] at hk
        omega
      subst hklen
      have hpast : c.length ≤ blks.length * bsize + j := hc.trans (Nat.le_add_right _ _)
      rw [getElem_concat_length rfl, hnew.disk _ fun heq => absurd heq hxne,
        h.zero x hxge (by omega), getD_eq_default _ _ hpast]
  · rcases mem_owned_append hb with hb | rfl | ⟨rfl, hne⟩
    · have := hblk b hb
      omega
    · omega
    · have := hindlt hne
      omega
  · have hblks : (blks ++ [x]).Nodup := by
      refine nodup_append.2 ⟨nodup_of_owned h.nodup, by simp, fun b hb y hy => ?_⟩
      have := hblk b hb
      rw [mem_singleton.1 hy]
      omega
    unfold owned
    split
    · exact hblks
    · refine nodup_cons.2 ⟨fun hmem => ?_, hblks⟩
      rcases mem_append.1 hmem with hmem | hmem
      · exact hnew.ne_ind h hmem rfl
      · exact hxne (mem_singleton.1 hmem).symm
  · have hne : b = ind1 → ind1 = 0 := by
      intro heq
      by_contra hz
      have := hindlt hz
      omega
    rw [hnew.disk b hne, h.zero b (by omega) hlt]

/-- The other files keep their blocks. -/
theorem NewBlock.kept (hnew : NewBlock im im1 ind ind1 x) :
    Kept im im1 (owned blks ind) (owned (blks ++ [x]) ind1) := by
  have hxge := hnew.ge
  have hxlt := hnew.lt
  refine ⟨by omega, fun b hb hn => hnew.disk b fun heq => ?_, fun b hb => ?_, fun b hb => ?_,
    hnew.freeinode, hnew.trace⟩
  · by_contra hne
    rcases hnew.ind_eq with hind | ⟨-, hlow, -⟩
    · exact hn (heq ▸ hind ▸ ind_mem_owned (hind ▸ hne))
    · omega
  · rcases mem_owned_append hb with hb | rfl | ⟨rfl, hne⟩
    · exact Or.inl (mem_owned_of_mem hb)
    · exact Or.inr hxge
    · rcases hnew.ind_eq with hind | ⟨-, hlow, -⟩
      · exact Or.inl (hind ▸ ind_mem_owned (hind ▸ hne))
      · exact Or.inr hlow
  · rcases hb with hold | ⟨hge, hlt⟩
    · rcases mem_owned hold with hold | ⟨rfl, hne⟩
      · exact mem_owned_of_mem (mem_append_left _ hold)
      · rcases hnew.ind_eq with heq | ⟨hzero, -⟩
        · exact heq ▸ ind_mem_owned (heq ▸ hne)
        · exact absurd hzero hne
    · rcases hnew.fresh b hge hlt with rfl | ⟨rfl, hne⟩
      · exact mem_owned_of_mem (mem_append_right _ mem_cons_self)
      · exact ind_mem_owned hne

/-- The file grows from `c` to `c'`, and its inode changes from `din` to `din'`. -/
structure Grown (im im' : Image) (din din' : Dinode) (c' : List UInt8) (blks blks' : List ℕ)
    (ind ind' : ℕ) : Prop where
  mapped : Mapped im' din'.addrs c' blks' ind'
  kept : Kept im im' (owned blks ind) (owned blks' ind')
  fields : din' = { din with addrs := din'.addrs }

theorem blockCount_of_dvd {n : ℕ} (h : n % bsize = 0) : blockCount n = n / bsize := by
  unfold blockCount
  simp only [bsize] at *
  omega

theorem blockCount_of_not_dvd {n : ℕ} (h : n % bsize ≠ 0) : blockCount n = n / bsize + 1 := by
  unfold blockCount
  simp only [bsize] at *
  omega

theorem blockCount_append {n m : ℕ} (hpos : 0 < m) (hm : m ≤ bsize - n % bsize) :
    blockCount (n + m) = n / bsize + 1 := by
  unfold blockCount
  simp only [bsize] at *
  omega

/-- **A new block for a file whose blocks are full**, if there is one. -/
theorem fileBlock_new (h : Mapped im din.addrs c blks ind) (hc : c.length ≤ blks.length * bsize)
    (hfit : im.freeblock + (if blks.length = nDirect then 2 else 1) ≤ fsSize) :
    ∃ im' din' ind' x, im.fileBlock din blks.length = some (im', din', x) ∧
      Grown im im' din din' c blks (blks ++ [x]) ind ind' ∧
      im'.freeblock = im.freeblock + if blks.length = nDirect then 2 else 1 := by
  have hge := h.free_ge
  have hmeta : nmeta = 34 := rfl
  have hsz := fsSize_eq
  have hroom := h.length_le
  have hnind : nIndirect = 16384 := rfl
  rcases lt_trichotomy blks.length nDirect with hlt | heq | hgt
  · rw [if_neg (by omega)] at *
    have hnew : NewBlock im { im with freeblock := im.freeblock + 1 } ind ind im.freeblock :=
      ⟨h.nblk, le_rfl, Nat.lt_succ_self _, hfit, Or.inl rfl,
        fun b hge' hlt' => Or.inl (le_antisymm (Nat.le_of_lt_succ hlt') hge'), fun _ _ => rfl, rfl,
        [], rfl, by simp⟩
    refine ⟨_, _, ind, _, fileBlock_direct h hlt, ⟨?_, hnew.kept, rfl⟩, rfl⟩
    refine h.grow hnew hc (h.map.append_direct (by omega) hlt) fun i hi => ?_
    have hne : i ≠ blks.length := by omega
    exact (update_of_ne hne _ _).trans (h.addrs_end i hi)
  · rw [if_pos heq] at *
    have hind : ind = 0 := by
      by_contra hne
      have := h.map.ind_iff.1 hne
      omega
    have hzero := h.zero im.freeblock le_rfl (by omega)
    refine ⟨_, _, im.freeblock, _, fileBlock_first h heq (by omega), ?_, rfl⟩
    refine (fun hnew => ⟨h.grow hnew hc ?_ fun i hi => ?_, hnew.kept, rfl⟩) ?_
    · refine ⟨h.nblk, by omega, by simp, hfit, Or.inr ⟨hind, le_rfl, by omega⟩,
        fun b hge' hlt' => ?_, fun b hb => ?_, rfl, [_], rfl, by simp; omega⟩
      · simp only at hlt'
        omega
      have hne : b ≠ im.freeblock := fun heq => by
        have := hb heq
        omega
      exact update_of_ne hne _ _
    · refine FileMap.append_indirect (by omega) (by omega) (by omega) (by simp)
        (fun k hk => ?_) h.map.pos (by omega) (by omega) fun k hk => ?_
      · have hne : k ≠ nDirect := by omega
        exact (update_of_ne hne _ _).trans (h.map.direct k hk)
      · rw [hzero, getD_eq_default _ _ (by omega)]
        exact load_zero _ _
    · have hne : i ≠ nDirect := by omega
      exact (update_of_ne hne _ _).trans (h.addrs_end i hi)
  · rw [if_neg (by omega)] at *
    have hind : ind ≠ 0 := h.map.ind_iff.2 hgt
    refine ⟨_, _, ind, _, fileBlock_indirect h hgt (by omega), ?_, rfl⟩
    refine (fun hnew => ⟨h.grow hnew hc ?_ h.addrs_end, hnew.kept, rfl⟩) ?_
    · refine ⟨h.nblk, le_rfl, by simp, hfit, Or.inl rfl,
        fun b hge' hlt' => Or.inl (le_antisymm (Nat.le_of_lt_succ hlt') hge'), fun b hb => ?_, rfl,
        [_], rfl, by simp; omega⟩
      have hne : b ≠ ind := fun heq => hind (hb heq)
      exact update_of_ne hne _ _
    · exact FileMap.append_indirect (by omega) (by omega) hind h.map.indirect h.map.direct h.map.pos
        (by omega) (by omega) (h.map.entry hind)

/-! ## The loop of `iappend` -/

theorem blockNeed_mono {m n : ℕ} (h : m ≤ n) : blockNeed m ≤ blockNeed n := by
  have hmono : ∀ a b : ℕ, a ≤ b →
      (a + if nDirect < a then 1 else 0) ≤ b + if nDirect < b then 1 else 0 := by
    intro a b hab
    split <;> split <;> omega
  have hcount : blockCount m ≤ blockCount n :=
    Nat.div_le_div_right (Nat.sub_le_sub_right (Nat.add_le_add_right h _) _)
  exact hmono _ _ hcount

/-- There are blocks for `n` bytes more. -/
def Room (im : Image) (c : List UInt8) (n : ℕ) : Prop :=
  im.freeblock + blockNeed (c.length + n) ≤ fsSize + blockNeed c.length

theorem blockCount_succ (n : ℕ) : blockCount (n + 1) = n / bsize + 1 := by
  unfold blockCount
  simp only [bsize]
  omega

/-- When the last block is full, a byte more needs a new block. -/
theorem full_cases (hlen : blks.length = blockCount c.length)
    (hzero : c.length % bsize = 0) :
    c.length / bsize = blks.length ∧ c.length ≤ blks.length * bsize ∧
      blockNeed (c.length + 1) = blockNeed c.length + if blks.length = nDirect then 2 else 1 := by
  have hcount := blockCount_of_dvd hzero
  refine ⟨by omega, ?_, ?_⟩
  · rw [hlen, hcount, Nat.div_mul_cancel (Nat.dvd_of_mod_eq_zero hzero)]
  · simp only [blockNeed, blockCount_succ, hlen, hcount]
    split <;> split <;> split <;> omega

theorem Kept.refl (im : Image) (own : List ℕ) : Kept im im own own :=
  ⟨le_rfl, fun _ _ _ => rfl, fun _ hb => Or.inl hb, fun b hb => hb.resolve_right (by omega), rfl, [],
    rfl, by simp⟩

/-- **A block for the next byte of the file**, if there is one. -/
theorem fileBlock_spec (h : Mapped im din.addrs c blks ind)
    (hlen : blks.length = blockCount c.length) (hroom : Room im c 1) :
    ∃ im' din' blks' ind', im.fileBlock din (c.length / bsize) =
        some (im', din', blks'.getD (c.length / bsize) 0) ∧
      Grown im im' din din' c blks blks' ind ind' ∧ blks'.length = c.length / bsize + 1 ∧
      im'.freeblock + blockNeed c.length = im.freeblock + blockNeed (c.length + 1) := by
  unfold Room at hroom
  by_cases hmod : c.length % bsize = 0
  · obtain ⟨hk, hfull, hneed⟩ := full_cases hlen hmod
    obtain ⟨im', din', ind', x, hblock, hgrown, hfree⟩ := fileBlock_new h hfull (by omega)
    refine ⟨im', din', blks ++ [x], ind', ?_, hgrown, by simp [hk], by omega⟩
    rw [hk, hblock]
    simp
  · -- the last block is not full
    have hcount := blockCount_of_not_dvd hmod
    obtain ⟨tr, hblock, htr⟩ := fileBlock_mapped h (show c.length / bsize < blks.length by omega)
    refine ⟨{ im with trace := tr ++ im.trace }, din, blks, ind, ?_, ⟨⟨h.nblk, h.free_ge, h.free_le,
      h.map, h.data, h.range, h.nodup, h.zero, h.addrs_end⟩, ?_, rfl⟩, by omega, ?_⟩
    · rw [hblock, getD_eq_getElem _ _ (by omega)]
    · exact ⟨le_rfl, fun _ _ _ => rfl, fun _ hb => Or.inl hb,
        fun b hb => hb.resolve_right (by simp only; omega), rfl, tr, rfl, htr⟩
    · simp only [blockNeed, blockCount_succ, hcount]

/-- **Without room for the byte** there is no block, or one behind the end of the image. -/
theorem fileBlock_full (h : Mapped im din.addrs c blks ind)
    (hlen : blks.length = blockCount c.length) (hroom : ¬ Room im c 1) :
    (im.fileBlock din (c.length / bsize)).bind (fun r => r.1.rsect r.2.2) = none := by
  have hfree := h.free_le
  have hle := h.length_le
  have hsz := fsSize_eq
  have hnind : nIndirect = 16384 := rfl
  unfold Room at hroom
  have hmod : c.length % bsize = 0 := by
    by_contra hmod
    simp only [blockNeed, blockCount_succ, blockCount_of_not_dvd hmod] at hroom
    omega
  obtain ⟨hk, -, hneed⟩ := full_cases hlen hmod
  rw [hk]
  rcases lt_trichotomy blks.length nDirect with hlt | heq | hgt
  · rw [if_neg (by omega)] at hneed
    rw [fileBlock_direct h hlt, Option.bind_some]
    exact rsect_eq_none (by exact h.nblk) (by dsimp only; omega) (by dsimp only; omega)
  · rw [if_pos heq] at hneed
    by_cases hlast : im.freeblock < fsSize
    · rw [fileBlock_first h heq hlast, Option.bind_some]
      exact rsect_eq_none (by exact h.nblk) (by dsimp only; omega) (by dsimp only; omega)
    · rw [fileBlock_first_none h heq (by omega)]
      rfl
  · rw [if_neg (by omega)] at hneed
    rw [fileBlock_indirect h hgt (by omega), Option.bind_some]
    exact rsect_eq_none (by exact h.nblk) (by dsimp only; omega) (by dsimp only; omega)

/-- The bytes of `p` are written into the last block. -/
theorem Mapped.write (h : Mapped im addrs c blks ind) {k n : ℕ}
    (hk : k = c.length / bsize) (hlast : k < blks.length) (hn : n ≤ p.length)
    (hfit : n ≤ bsize - c.length % bsize) :
    Mapped { im with
        disk := update im.disk blks[k]
          (move (im.disk blks[k]) (c.length % bsize) n (ofList p)) }
      addrs (c ++ p.take n) blks ind := by
  subst hk
  have hmem : blks[c.length / bsize] ∈ owned blks ind := mem_owned_of_mem (getElem_mem hlast)
  have hlt := (h.range _ hmem).2
  refine ⟨h.nblk, h.free_ge, h.free_le, h.map.congr fun hne => ?_,
    data_write (nodup_of_owned h.nodup) h.data hlast hn hfit, h.range, h.nodup, fun b hb hb' => ?_,
    h.addrs_end⟩
  · have hnodup := h.nodup
    rw [owned, if_neg hne] at hnodup
    have hind : ind ≠ blks[c.length / bsize] := fun heq =>
      (nodup_cons.1 hnodup).1 (heq ▸ getElem_mem hlast)
    exact update_of_ne hind _ _
  · have hne : b ≠ blks[c.length / bsize] := by
      simp only at hb
      omega
    exact (update_of_ne hne _ _).trans (h.zero b hb hb')

theorem Kept.write {own : List ℕ} (hb : b ∈ own) (buf : Block) :
    Kept im { im with disk := update im.disk b buf } own own := by
  refine ⟨le_rfl, fun b' _ hn => ?_, fun _ hb => Or.inl hb, fun b hb => hb.resolve_right (by simp),
    rfl, [], rfl, by simp⟩
  have hne : b' ≠ b := fun heq => hn (heq ▸ hb)
  exact update_of_ne hne _ _

/-- The bytes that a pass appends. -/
def passLen (c p : List UInt8) : ℕ := min p.length (bsize - c.length % bsize)

theorem passLen_pos {c p : List UInt8} (hp : p ≠ []) : 0 < passLen c p := by
  have hlen : 0 < p.length := length_pos_of_ne_nil hp
  have hmod : c.length % bsize < bsize := Nat.mod_lt _ (by decide)
  unfold passLen
  omega

theorem length_lt (h : Mapped im addrs c blks ind) (hlen : blks.length = blockCount c.length) :
    c.length ≤ (fsSize - nmeta) * bsize := by
  have hle := h.length_le
  unfold blockCount at hlen
  simp only [bsize, fsSize, nmeta] at *
  omega

/-- The tests and the arithmetic of a pass. -/
theorem appendPass_eq (h : Mapped im addrs c blks ind) (hlen : blks.length = blockCount c.length)
    (din : Dinode) (p : List UInt8) :
    im.appendPass din c.length p =
      (im.fileBlock din (c.length / bsize)).bind fun r =>
        (r.1.rsect r.2.2).map fun buf =>
          (r.1.wsect r.2.2 (move buf (c.length % bsize) (passLen c p) (ofList p)), r.2.1,
            passLen c p) := by
  have hle := length_lt h hlen
  have hmax : c.length / bsize < maxFile := by
    have h1 : c.length / bsize ≤ fsSize - nmeta := Nat.div_le_of_le_mul (by rwa [mul_comm])
    have h2 : fsSize - nmeta < maxFile := by decide
    omega
  have hn : min p.length (((c.length / bsize + 1) * bsize + 2 ^ 32 - c.length) % 2 ^ 32) =
      passLen c p := by
    unfold passLen
    simp only [bsize, fsSize, nmeta] at *
    omega
  have hoff : c.length - c.length / bsize * bsize = c.length % bsize := by
    have := Nat.div_add_mod' c.length bsize
    omega
  unfold appendPass
  simp only [if_pos hmax, hn, hoff]

/-- **A pass of the loop** appends `passLen` bytes. -/
theorem appendPass_spec (h : Mapped im din.addrs c blks ind)
    (hlen : blks.length = blockCount c.length) (hp : p ≠ []) (hroom : Room im c 1) :
    ∃ im' din' blks' ind', im.appendPass din c.length p = some (im', din', passLen c p) ∧
      Grown im im' din din' (c ++ p.take (passLen c p)) blks blks' ind ind' ∧
      blks'.length = blockCount (c ++ p.take (passLen c p)).length ∧
      im'.freeblock + blockNeed c.length =
        im.freeblock + blockNeed (c ++ p.take (passLen c p)).length := by
  obtain ⟨im1, din1, blks1, ind1, hblock, hgrown, hlen1, hcost⟩ := fileBlock_spec h hlen hroom
  have hk : c.length / bsize < blks1.length := by omega
  have hmem : blks1[c.length / bsize] ∈ owned blks1 ind1 := mem_owned_of_mem (getElem_mem hk)
  have hlt : blks1[c.length / bsize] < fsSize := by
    have h1 := (hgrown.mapped.range _ hmem).2
    have h2 := hgrown.mapped.free_le
    omega
  have hn : passLen c p ≤ p.length := min_le_left _ _
  have hfit : passLen c p ≤ bsize - c.length % bsize := min_le_right _ _
  have hcount : blockCount (c ++ p.take (passLen c p)).length = c.length / bsize + 1 := by
    rw [length_append, length_take, min_eq_left hn]
    exact blockCount_append (passLen_pos hp) hfit
  refine ⟨_, din1, blks1, ind1, ?_, ⟨hgrown.mapped.write rfl hk hn hfit,
    hgrown.kept.trans (Kept.write hmem _), hgrown.fields⟩, by omega, ?_⟩
  · rw [appendPass_eq h hlen, hblock, getD_eq_getElem _ _ hk, Option.bind_some,
      rsect_of_lt hgrown.mapped.nblk hlt, Option.map_some, wsect_of_lt hgrown.mapped.nblk hlt]
  · have hneed : blockNeed (c ++ p.take (passLen c p)).length = blockNeed (c.length + 1) := by
      simp only [blockNeed, hcount, blockCount_succ]
    rw [hneed]
    exact hcost

/-- A pass without room for its bytes fails. -/
theorem appendPass_full (h : Mapped im din.addrs c blks ind)
    (hlen : blks.length = blockCount c.length) (hroom : ¬ Room im c 1) (p : List UInt8) :
    im.appendPass din c.length p = none := by
  have hfull := fileBlock_full h hlen hroom
  rw [appendPass_eq h hlen]
  generalize im.fileBlock din (c.length / bsize) = r at *
  cases r with
  | none => rfl
  | some r =>
    rw [Option.bind_some] at hfull ⊢
    rw [hfull, Option.map_none]

theorem Room.mono {m n : ℕ} (h : Room im c n) (hmn : m ≤ n) : Room im c m :=
  (Nat.add_le_add_left (blockNeed_mono (by omega)) _).trans h

/-- Room is used up as the file grows. -/
theorem room_iff {c' : List UInt8} {m n : ℕ}
    (hcost : im'.freeblock + blockNeed c.length = im.freeblock + blockNeed c'.length)
    (hlen : c'.length + m = c.length + n) : Room im' c' m ↔ Room im c n := by
  unfold Room
  rw [hlen]
  omega

theorem length_pass (c p : List UInt8) : (c ++ p.take (passLen c p)).length = c.length + passLen c p := by
  rw [length_append, length_take, min_eq_left (show passLen c p ≤ p.length from min_le_left _ _)]

/-- The offset of the next pass does not wrap. -/
theorem pass_offset (h : Mapped im addrs (c ++ p.take (passLen c p)) blks ind)
    (hlen : blks.length = blockCount (c ++ p.take (passLen c p)).length) :
    (c.length + passLen c p) % 2 ^ 32 = (c ++ p.take (passLen c p)).length := by
  have hlt := length_lt h hlen
  have hmax : (fsSize - nmeta) * bsize < 2 ^ 32 := by decide
  rw [← length_pass]
  exact Nat.mod_eq_of_lt (by omega)

/-- **The loop of `iappend`** appends all bytes, if there are blocks for them, -/
theorem appendLoop_spec {fuel : ℕ} (h : Mapped im din.addrs c blks ind)
    (hlen : blks.length = blockCount c.length) (hfuel : p.length ≤ fuel)
    (hroom : Room im c p.length) :
    ∃ im' din' blks' ind', im.appendLoop fuel din c.length p = some (im', din', (c ++ p).length) ∧
      Grown im im' din din' (c ++ p) blks blks' ind ind' ∧
      blks'.length = blockCount (c ++ p).length ∧
      im'.freeblock + blockNeed c.length = im.freeblock + blockNeed (c ++ p).length := by
  have hdone : ∀ f, im.appendLoop f din c.length [] = some (im, din, c.length) := by
    intro f
    cases f <;> simp [appendLoop]
  induction fuel generalizing im din c p blks ind with
  | zero =>
    obtain rfl : p = [] := eq_nil_of_length_eq_zero (by omega)
    exact ⟨im, din, blks, ind, by rw [hdone, append_nil], by
      rw [append_nil]; exact ⟨h, Kept.refl _ _, rfl⟩, by rwa [append_nil], by simp⟩
  | succ fuel ih =>
    by_cases hp : p = []
    · subst hp
      exact ⟨im, din, blks, ind, by rw [hdone, append_nil], by
        rw [append_nil]; exact ⟨h, Kept.refl _ _, rfl⟩, by rwa [append_nil], by simp⟩
    · have hpos := passLen_pos (c := c) hp
      have hn : passLen c p ≤ p.length := min_le_left _ _
      obtain ⟨im1, din1, blks1, ind1, hpass, hgrown, hlen1, hcost1⟩ :=
        appendPass_spec h hlen hp (hroom.mono (by omega))
      have hclen := length_pass c p
      have hdrop : (p.drop (passLen c p)).length = p.length - passLen c p := length_drop
      have hoff := pass_offset hgrown.mapped hlen1
      obtain ⟨im2, din2, blks2, ind2, hloop, hgrown2, hlen2, hcost2⟩ :=
        ih hgrown.mapped hlen1 (show (p.drop (passLen c p)).length ≤ fuel by omega)
          ((room_iff hcost1 (by omega)).2 hroom)
          (fun f => by cases f <;> simp [appendLoop])
      rw [append_assoc, take_append_drop] at hloop hgrown2 hlen2 hcost2
      refine ⟨im2, din2, blks2, ind2, ?_, ⟨hgrown2.mapped, hgrown.kept.trans hgrown2.kept, ?_⟩, hlen2,
        by omega⟩
      · simp only [appendLoop, if_neg hp, hpass, Option.bind_some, hoff, hloop]
      · rw [hgrown2.fields, hgrown.fields]

/-- and fails if there are not. -/
theorem appendLoop_full {fuel : ℕ} (h : Mapped im din.addrs c blks ind)
    (hlen : blks.length = blockCount c.length) (hfuel : p.length ≤ fuel)
    (hroom : ¬ Room im c p.length) : im.appendLoop fuel din c.length p = none := by
  induction fuel generalizing im din c p blks ind with
  | zero =>
    obtain rfl : p = [] := eq_nil_of_length_eq_zero (by omega)
    exact absurd (Nat.add_le_add_right h.free_le _) hroom
  | succ fuel ih =>
    by_cases hp : p = []
    · subst hp
      exact absurd (Nat.add_le_add_right h.free_le _) hroom
    by_cases hone : Room im c 1
    · have hpos := passLen_pos (c := c) hp
      have hn : passLen c p ≤ p.length := min_le_left _ _
      obtain ⟨im1, din1, blks1, ind1, hpass, hgrown, hlen1, hcost1⟩ := appendPass_spec h hlen hp hone
      have hclen := length_pass c p
      have hdrop : (p.drop (passLen c p)).length = p.length - passLen c p := length_drop
      have hoff := pass_offset hgrown.mapped hlen1
      have hloop := ih hgrown.mapped hlen1 (show (p.drop (passLen c p)).length ≤ fuel by omega)
        fun hroom' => hroom ((room_iff hcost1 (by omega)).1 hroom')
      simp only [appendLoop, if_neg hp, hpass, Option.bind_some, hoff, hloop]
    · simp only [appendLoop, if_neg hp, appendPass_full h hlen hone, Option.bind_none]

end Image

end AudioPlayer
