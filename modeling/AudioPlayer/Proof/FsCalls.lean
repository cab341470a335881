import AudioPlayer.Proof.BlockOwnership
import AudioPlayer.Proof.MkfsKernel
import AudioPlayer.Lib.Runs

/-!
# Calls on inodes

`FsState.WellFormed` is kept by every call, whatever inode, offset and length it is made for,
and wherever a copy from user space fails.

* `Good.itrunc_spec`: all blocks of a file are given back, and `bfree` finds them marked;
* `FsState.step_wellFormed`: one call;
* `block_ownership`: every state of a run;
* `Image.Finished.wellFormed`: the image that `mkfs` writes is such a start.
-/

namespace AudioPlayer

open Function Bytes Owners Runs List Option

namespace Fs

variable {fs fs' : Fs} {I I' : ℕ → Dinode} {i k b : ℕ} {ip : Dinode}

/-! ## `readi` -/

/-- **`bmap` on a block that is mapped.** -/
theorem bmap_of_slot {bn addr : ℕ} (hs : fs.slot I (placeOf i bn) = some addr) :
    fs.bmap (I i) bn = some (fs, I i, addr) := by
  unfold bmap
  unfold placeOf at hs
  split at hs
  · rename_i hdirect
    obtain ⟨-, -, hval, hne⟩ := slot_eq_some_iff.1 hs
    have haddr : (I i).addrs bn = addr := hval
    rw [if_pos hdirect, haddr, if_neg hne]
  · rename_i hdirect
    obtain ⟨hvalid, -, hval, hne⟩ := slot_eq_some_iff.1 hs
    have hrange : bn - nDirect < nIndirect := hvalid.2
    simp only [BlockSlot.value] at hval
    split at hval
    · exact absurd hval.symm hne
    · rename_i hind
      rw [if_neg hdirect, if_pos hrange]
      simp only [if_neg hind, bind_some, hval, if_neg hne]

theorem div_lt_blockCount {off n : ℕ} (h : off < n) : off / bsize < blockCount n := by
  unfold blockCount
  simp only [bsize]
  omega

/-- **`readi` changes nothing**: it stays inside the file, where every block is mapped. -/
theorem readLoop_same {copyout : ℕ → Bool} {size fuel off n tot : ℕ} {r : Option (List UInt8)}
    (hmapped : ∀ k < blockCount size, (fs.slot I (placeOf i k)).isSome) (hle : off + n ≤ size)
    (hsize : size < 2 ^ 32)
    (hrun : readLoop copyout fuel fs (I i) off n tot = some (fs', ip, r)) : fs' = fs ∧ ip = I i := by
  induction fuel generalizing off n tot r with
  | zero =>
    obtain ⟨rfl, hrest⟩ := Prod.mk.inj (some.inj hrun)
    exact ⟨rfl, (Prod.mk.inj hrest).1.symm⟩
  | succ fuel ih =>
    unfold readLoop at hrun
    split at hrun
    · obtain ⟨rfl, hrest⟩ := Prod.mk.inj (some.inj hrun)
      exact ⟨rfl, (Prod.mk.inj hrest).1.symm⟩
    rename_i hn
    obtain ⟨addr, hslot⟩ := isSome_iff_exists.1
      (hmapped (off / bsize) (div_lt_blockCount (by omega)))
    rw [bmap_of_slot hslot, bind_some] at hrun
    dsimp only at hrun
    split at hrun
    · set m := min n (bsize - off % bsize) with hm
      have hoff : (off + m) % 2 ^ 32 = off + m := Nat.mod_eq_of_lt (by omega)
      rw [hoff] at hrun
      obtain ⟨⟨fs1, ip1, r1⟩, hrest, heq⟩ := map_eq_some_iff.1 hrun
      obtain ⟨rfl, heq'⟩ := Prod.mk.inj heq
      obtain ⟨rfl, -⟩ := Prod.mk.inj heq'
      exact ih (show off + m + (n - m) ≤ size by omega) hrest
    · obtain ⟨rfl, hrest⟩ := Prod.mk.inj (some.inj hrun)
      exact ⟨rfl, (Prod.mk.inj hrest).1.symm⟩

theorem readi_same {copyout : ℕ → Bool} {off n : ℕ} {r : Option (List UInt8)}
    (hmapped : ∀ k < blockCount (I i).size, (fs.slot I (placeOf i k)).isSome)
    (hsize : (I i).size < 2 ^ 32) (hoff : off < 2 ^ 32) (hn : n < 2 ^ 32)
    (hrun : fs.readi (I i) off n copyout = some (fs', ip, r)) : fs' = fs ∧ ip = I i := by
  unfold readi at hrun
  split at hrun
  · obtain ⟨rfl, hrest⟩ := Prod.mk.inj (some.inj hrun)
    exact ⟨rfl, (Prod.mk.inj hrest).1.symm⟩
  · rename_i hcheck
    -- the sum does not wrap
    have hsum : (off + n) % 2 ^ 32 = off + n := by omega
    rw [hsum] at hrun hcheck
    refine readLoop_same hmapped ?_ hsize hrun
    split <;> omega

/-! ## `itrunc` -/

/-- Blocks of inode `i` may have been given back. -/
structure Cut (fs fs' : Fs) (I I' : ℕ → Dinode) (i : ℕ) : Prop where
  good : Good fs' I'
  sb : fs'.sb = fs.sb
  slots : ∀ p : BlockSlot, p.inum ≠ i → fs'.slot I' p = fs.slot I p
  low : ∀ x < fs.sb.bmapstart, fs'.blocks x = fs.blocks x
  fields : ∀ j, I' j = { I j with addrs := (I' j).addrs }

theorem Cut.refl (h : Good fs I) (i : ℕ) : Cut fs fs I I i :=
  ⟨h, rfl, fun _ _ => rfl, fun _ _ => rfl, fun _ => rfl⟩

theorem Cut.trans {fs1 fs2 fs3 : Fs} {I1 I2 I3 : ℕ → Dinode} (h : Cut fs1 fs2 I1 I2 i)
    (h' : Cut fs2 fs3 I2 I3 i) : Cut fs1 fs3 I1 I3 i := by
  refine ⟨h'.good, h'.sb.trans h.sb, fun p hp => (h'.slots p hp).trans (h.slots p hp), ?_, ?_⟩
  · intro x hx
    rw [h'.low x (h.sb ▸ hx), h.low x hx]
  · intro j
    rw [h'.fields j, h.fields j]

theorem Cut.live (h : Cut fs fs' I I' i) {j : ℕ} (hj : fs.Live I j) : fs'.Live I' j := by
  have htype : (I' j).type = (I j).type := by rw [h.fields j]
  exact ⟨h.sb ▸ hj.1, htype ▸ hj.2⟩

/-- A direct block is given back. -/
theorem Good.freeAddr (h : Good fs I) (hi : fs.Live I i) (hk : k < nDirect)
    (hne : (I i).addrs k ≠ 0) :
    ∃ fs', fs.bfree ((I i).addrs k) = some fs' ∧ Cut fs fs' I (update I i (setAddr (I i) k 0)) i := by
  have hs : fs.slot I (.addr i k) = some ((I i).addrs k) :=
    slot_eq_some_iff.2 ⟨⟨hi.1, by omega⟩, hi.2, rfl, hne⟩
  obtain ⟨fs', hfree, hmarked, hr⟩ := h.marked.release hs
  have hind : ∀ j, fs.Live I j → (I j).addrs nDirect ≠ 0 →
      fs'.blocks ((I j).addrs nDirect) = fs.blocks ((I j).addrs nDirect) := by
    intro j hj hne'
    obtain ⟨hdata, -⟩ := h.addr_data hj (Nat.lt_succ_self _) hne'
    exact hr.blocks _ (Or.inr hdata.1)
  have hslot := slot_setAddr (b := 0) hr.sb hi (show k < nDirect + 1 by omega) hind fun heq => by omega
  rw [if_pos rfl] at hslot
  refine ⟨fs', hfree, ⟨⟨?_, update_fits h.fits (setAddr_fits (h.fits i) (by omega) (by decide))⟩, hr.sb,
    ?_, fun x hx => hr.blocks x (Or.inl hx), update_fields rfl⟩⟩
  · rwa [hslot]
  · intro p hp
    have hpne : p ≠ .addr i k := fun heq => hp (by rw [heq]; rfl)
    rw [hslot, update_of_ne hpne]

/-- **The first loop of `itrunc`**, after its first `n` passes. -/
theorem Good.truncDirect_spec (h : Good fs I) (hi : fs.Live I i) {n : ℕ} (hn : n ≤ nDirect) :
    ∃ fs' ip, (List.range n).foldlM (fun (fs, ip) i =>
        if ip.addrs i ≠ 0 then (fs.bfree (ip.addrs i)).map fun fs => (fs, setAddr ip i 0)
        else some (fs, ip)) (fs, I i) = some (fs', ip) ∧
      Cut fs fs' I (update I i ip) i ∧ (∀ k < n, ip.addrs k = 0) ∧
      ∀ k, n ≤ k → ip.addrs k = (I i).addrs k := by
  induction n with
  | zero =>
    refine ⟨fs, I i, rfl, ?_, fun k hk => absurd hk (Nat.not_lt_zero k), fun _ _ => rfl⟩
    rw [update_eq_self]
    exact Cut.refl h i
  | succ n ih =>
    obtain ⟨fs1, ip1, hfold, hcut, hlow, hhigh⟩ := ih (by omega)
    rw [range_succ, foldlM_append, hfold]
    have hself : update I i ip1 i = ip1 := update_self _ _ _
    by_cases hzero : ip1.addrs n = 0
    · refine ⟨fs1, ip1, ?_, hcut, ?_, fun k hk => hhigh k (by omega)⟩
      · simp [hzero]
      · intro k hk
        by_cases hkn : k = n
        · rw [hkn, hzero]
        · exact hlow k (by omega)
    · obtain ⟨fs2, hfree, hcut2⟩ :=
        hcut.good.freeAddr (hcut.live hi) (show n < nDirect by omega) (by rwa [hself])
      rw [hself] at hfree hcut2
      rw [update_idem] at hcut2
      refine ⟨fs2, setAddr ip1 n 0, ?_, hcut.trans hcut2, ?_, ?_⟩
      · simp [hzero, hfree]
      · intro k hk
        by_cases hkn : k = n
        · rw [hkn, setAddr_addrs_self]
        · rw [setAddr_addrs_of_ne hkn, hlow k (by omega)]
      · intro k hk
        rw [setAddr_addrs_of_ne (by omega), hhigh k (by omega)]

/-- The places without the first `n` entries of the indirect block of inode `i`. -/
def cutEntries (v : BlockSlot → Option ℕ) (i n : ℕ) : BlockSlot → Option ℕ
  | .addr j m => v (.addr j m)
  | .entry j m => if j = i ∧ m < n then none else v (.entry j m)

/-- **The second loop of `itrunc`**, after its first `n` passes: the blocks are given back
while their numbers are still in the indirect block. -/
theorem Good.truncIndirect_spec (h : Good fs I) (hi : fs.Live I i) (hind : (I i).addrs nDirect ≠ 0)
    {n : ℕ} (hn : n ≤ nIndirect) :
    ∃ fs', (List.range n).foldlM (fun fs j =>
        let addr := load 4 (fs.blocks ((I i).addrs nDirect)) (4 * j)
        if addr ≠ 0 then fs.bfree addr else some fs) fs = some fs' ∧
      Marked fs' (cutEntries (fs.slot I) i n) ∧ fs'.sb = fs.sb ∧
      ∀ x, fs.OffBitmap x → fs'.blocks x = fs.blocks x := by
  induction n with
  | zero =>
    have hcut : cutEntries (fs.slot I) i 0 = fs.slot I := by
      funext p
      cases p <;> simp [cutEntries]
    refine ⟨fs, rfl, ?_, rfl, fun _ _ => rfl⟩
    rw [hcut]
    exact h.marked
  | succ n ih =>
    obtain ⟨fs1, hfold, hmarked, hsb, hblocks⟩ := ih (by omega)
    rw [range_succ, foldlM_append, hfold]
    obtain ⟨hdata, -⟩ := h.addr_data hi (Nat.lt_succ_self _) hind
    have hsame := hblocks _ (Or.inr hdata.1)
    have hcut : cutEntries (fs.slot I) i (n + 1) =
        update (cutEntries (fs.slot I) i n) (.entry i n) none := by
      funext p
      by_cases hp : p = .entry i n
      · subst hp
        rw [update_self]
        exact if_pos ⟨rfl, Nat.lt_succ_self n⟩
      · rw [update_of_ne hp]
        cases p with
        | addr j m => rfl
        | entry j m =>
          have hiff : (j = i ∧ m < n + 1) ↔ (j = i ∧ m < n) := by
            simp only [BlockSlot.entry.injEq] at hp
            omega
          simp only [cutEntries, hiff]
    have hpass : cutEntries (fs.slot I) i n (.entry i n) = fs.slot I (.entry i n) :=
      if_neg fun hlt => lt_irrefl n hlt.2
    by_cases hzero : load 4 (fs.blocks ((I i).addrs nDirect)) (4 * n) = 0
    · have hnone : fs.slot I (.entry i n) = none := by
        refine slot_of_value_eq_zero ?_
        simp only [BlockSlot.value, if_neg hind, hzero]
      refine ⟨fs1, ?_, ?_, hsb, hblocks⟩
      · simp [hsame, hzero]
      · rwa [hcut, ← hnone, ← hpass, update_eq_self]
    · have hsome : cutEntries (fs.slot I) i n (.entry i n) =
          some (load 4 (fs.blocks ((I i).addrs nDirect)) (4 * n)) := by
        rw [hpass]
        refine slot_eq_some_iff.2 ⟨⟨hi.1, by omega⟩, hi.2, ?_, hzero⟩
        simp only [BlockSlot.value, if_neg hind]
      obtain ⟨fs2, hfree, hmarked2, hr⟩ := hmarked.release hsome
      refine ⟨fs2, ?_, ?_, hr.sb.trans hsb, ?_⟩
      · simp [hsame, hzero, hfree]
      · rwa [hcut]
      · intro x hx
        rw [hr.blocks x (by unfold OffBitmap at *; rwa [hsb]), hblocks x hx]

/-- The indirect block and its entries are given back. -/
theorem Good.freeIndirect (h : Good fs I) (hi : fs.Live I i) (hind : (I i).addrs nDirect ≠ 0) :
    ∃ fs1 fs', fs.truncIndirect ((I i).addrs nDirect) = some fs1 ∧
      fs1.bfree ((I i).addrs nDirect) = some fs' ∧
      Cut fs fs' I (update I i (setAddr (I i) nDirect 0)) i := by
  obtain ⟨fs1, hloop, hmarked, hsb, hblocks⟩ := h.truncIndirect_spec hi hind le_rfl
  have hs : cutEntries (fs.slot I) i nIndirect (.addr i nDirect) = some ((I i).addrs nDirect) :=
    slot_eq_some_iff.2 ⟨⟨hi.1, Nat.lt_succ_self _⟩, hi.2, rfl, hind⟩
  obtain ⟨fs', hfree, hmarked', hr⟩ := hmarked.release hs
  have hall : ∀ x, fs.OffBitmap x → fs'.blocks x = fs.blocks x := by
    intro x hx
    rw [hr.blocks x (by unfold OffBitmap at *; rwa [hsb]), hblocks x hx]
  have hsb' : fs'.sb = fs.sb := hr.sb.trans hsb
  have hother : ∀ p : BlockSlot, p.inum ≠ i →
      fs'.slot (update I i (setAddr (I i) nDirect 0)) p = fs.slot I p := by
    intro p hp
    refine slot_eq_slot (by rw [hsb']) (fun _ => by rw [update_of_ne hp]) ?_
    intro hvalid htype
    refine value_congr (update_of_ne hp _ _) fun hne => ?_
    obtain ⟨hdata, -⟩ := h.addr_data ⟨hvalid.inum_lt, htype⟩ (Nat.lt_succ_self _) hne
    exact hall _ (Or.inr hdata.1)
  have hslot : fs'.slot (update I i (setAddr (I i) nDirect 0)) =
      update (cutEntries (fs.slot I) i nIndirect) (.addr i nDirect) none := by
    funext p
    cases p with
    | addr j m =>
      by_cases hji : j = i
      · subst hji
        by_cases hm : m = nDirect
        · subst hm
          rw [update_self]
          refine slot_of_value_eq_zero ?_
          simp only [BlockSlot.value, update_self, setAddr_addrs_self]
        · rw [update_of_ne (by simp [hm])]
          refine slot_eq_slot (by rw [hsb']) (fun _ => ?_) fun _ _ => ?_
          · simp only [BlockSlot.inum, update_self]
            rfl
          · simp only [BlockSlot.value, update_self, setAddr_addrs_of_ne hm]
      · rw [update_of_ne (by simp [hji])]
        exact hother _ hji
    | entry j m =>
      rw [update_of_ne (by simp)]
      by_cases hji : j = i
      · subst hji
        -- there is no indirect block any more
        have hzero : fs'.slot (update I j (setAddr (I j) nDirect 0)) (.entry j m) = none := by
          refine slot_of_value_eq_zero ?_
          simp only [BlockSlot.value, update_self, setAddr_addrs_self, if_true]
        rw [hzero, cutEntries]
        by_cases hm : m < nIndirect
        · rw [if_pos ⟨rfl, hm⟩]
        · rw [if_neg fun hlt => hm hlt.2]
          exact (if_neg fun hvalid => hm hvalid.1.2).symm
      · rw [cutEntries, if_neg fun hlt => hji hlt.1]
        exact hother _ hji
  refine ⟨fs1, fs', hloop, hfree, ⟨⟨?_, update_fits h.fits (setAddr_fits (h.fits i)
    (Nat.lt_succ_self _) (by decide))⟩, hsb', hother, fun x hx => hall x (Or.inl hx), update_fields rfl⟩⟩
  rwa [hslot]

/-- **`itrunc` gives back every block of the file**, and does not panic. -/
theorem Good.itrunc_spec (h : Good fs I) (hi : fs.Live I i)
    (hI : ∀ j < fs.sb.ninodes, j ≠ i → fs.readInode j = I j) :
    ∃ fs', fs.itrunc i (I i) = some (fs', { I i with size := 0, addrs := fun _ => 0 }) ∧
      Good fs' fs'.readInode ∧ fs'.sb = fs.sb ∧
      fs'.readInode i = { I i with size := 0, addrs := fun _ => 0 } ∧
      (∀ j < fs.sb.ninodes, j ≠ i → fs'.readInode j = I j) ∧
      ∀ p : BlockSlot, p.inum ≠ i → fs'.slot fs'.readInode p = fs.slot I p := by
  obtain ⟨fs1, ip1, hdirect, hcut1, hlow, hhigh⟩ := h.truncDirect_spec hi le_rfl
  have hself1 : update I i ip1 i = ip1 := update_self _ _ _
  -- the indirect block, if there is one
  obtain ⟨fs2, ip2, hindirect, hcut2, hzero⟩ : ∃ fs2 ip2,
      (if ip1.addrs nDirect ≠ 0 then
        (fs1.truncIndirect (ip1.addrs nDirect)).bind fun fs =>
          (fs.bfree (ip1.addrs nDirect)).map fun fs => (fs, setAddr ip1 nDirect 0)
      else some (fs1, ip1)) = some (fs2, ip2) ∧
      Cut fs fs2 I (update I i ip2) i ∧ ∀ k < nDirect + 1, ip2.addrs k = 0 := by
    by_cases hind : ip1.addrs nDirect = 0
    · refine ⟨fs1, ip1, by rw [if_neg (not_not.2 hind)], hcut1, ?_⟩
      intro k hk
      by_cases hkn : k = nDirect
      · rw [hkn, hind]
      · exact hlow k (by omega)
    · obtain ⟨fs2, fs3, hloop, hfree, hcut2⟩ :=
        hcut1.good.freeIndirect (hcut1.live hi) (by rwa [hself1])
      rw [hself1] at hloop hfree hcut2
      rw [update_idem] at hcut2
      refine ⟨fs3, setAddr ip1 nDirect 0, ?_, hcut1.trans hcut2, ?_⟩
      · rw [if_pos hind, hloop, bind_some, hfree]
        rfl
      · intro k hk
        by_cases hkn : k = nDirect
        · rw [hkn, setAddr_addrs_self]
        · rw [setAddr_addrs_of_ne hkn, hlow k (by omega)]
  have hself2 : update I i ip2 i = ip2 := update_self _ _ _
  have haddrs : ip2.addrs = fun _ => 0 := by
    funext k
    by_cases hk : k < nDirect + 1
    · exact hzero k hk
    · have hfits := hcut2.good.fits i
      rw [hself2] at hfits
      exact hfits.addrs_end k (by omega)
  have hfields := hcut2.fields i
  rw [hself2, haddrs] at hfields
  set ip3 : Dinode := { I i with size := 0, addrs := fun _ => 0 } with hip3
  have hip2 : { ip2 with size := 0 } = ip3 := by rw [hfields]
  have hfits3 : ip3.Fits := by
    have hold := h.fits i
    exact ⟨hold.type_lt, hold.major_lt, hold.minor_lt, hold.nlink_lt, Nat.two_pow_pos 32,
      fun _ => Nat.two_pow_pos 32, fun _ _ => rfl⟩
  obtain ⟨hslot3, hgood3⟩ := hcut2.good.replaceEmpty (i := i)
    (fun p hp => slot_of_addrs_eq_zero (by rw [hp, hself2]; exact hzero)) hfits3 fun _ _ => rfl
  rw [update_idem] at hslot3 hgood3
  have hself3 : update I i ip3 i = ip3 := update_self _ _ _
  obtain ⟨hslot, hgood⟩ := hgood3.writeBack (i := i) (hcut2.sb ▸ hi.1) (by
    intro j hj hji
    rw [update_of_ne hji, readInode_congr h.marked.layout hcut2.sb hcut2.low (hcut2.sb ▸ hj)]
    exact hI j (hcut2.sb ▸ hj) hji)
  rw [hself3] at hslot hgood
  refine ⟨_, ?_, hgood, hcut2.sb, readInode_iupdate_self hfits3, ?_, ?_⟩
  · unfold itrunc truncDirect
    rw [hdirect, bind_some]
    dsimp only
    rw [hindirect, map_some, hip2]
  · intro j hj hji
    rw [readInode_iupdate_of_ne hji, readInode_congr h.marked.layout hcut2.sb hcut2.low hj]
    exact hI j hj hji
  · intro p hp
    rw [hslot, hslot3, hcut2.slots p hp]

/-! ## The end of `writei` -/

theorem Grow.size_eq (h : Grow fs fs' I I') (j : ℕ) : (I' j).size = (I j).size := by
  rw [h.fields j]

/-- The size of a file that was written up to `off`. -/
theorem grown_size (ip : Dinode) (off : ℕ) :
    (if off > ip.size then { ip with size := off } else ip) = { ip with size := max ip.size off } := by
  split
  · rename_i hgt
    rw [max_eq_right (le_of_lt hgt)]
  · rename_i hge
    rw [max_eq_left (not_lt.1 hge)]

/-- **The inode `i` was stored on the disk**, as `ip`: what the inodes `I` own stays as it is. -/
structure Stored (fs fs' : Fs) (I : ℕ → Dinode) (i : ℕ) (ip : Dinode) : Prop where
  good : Good fs' fs'.readInode
  slot : fs'.slot fs'.readInode = fs.slot I
  blocks : ∀ p b, fs.slot I p = some b → fs'.blocks b = fs.blocks b
  self : fs'.readInode i = ip
  live : fs'.Live fs'.readInode i
  other : ∀ j < fs.sb.ninodes, j ≠ i → fs'.readInode j = I j

/-- **`iupdate` after the loop of `writei`**, with the new size. -/
theorem Grow.store {n : ℕ} (h : Grow fs fs' fs.readInode (update fs.readInode i ip))
    (hgood : Good fs fs.readInode) (hi : fs.Live fs.readInode i) (hn : n < 2 ^ 32) :
    Stored fs' (fs'.iupdate i { ip with size := n }) (update fs.readInode i ip) i
      { ip with size := n } := by
  set ip2 : Dinode := { ip with size := n } with hip2
  have hself : update fs.readInode i ip i = ip := update_self _ _ _
  have hself2 : update fs.readInode i ip2 i = ip2 := update_self _ _ _
  have hfits : ip2.Fits := by
    have hold := h.good.fits i
    rw [hself] at hold
    exact ⟨hold.type_lt, hold.major_lt, hold.minor_lt, hold.nlink_lt, hn, hold.addrs_lt, hold.addrs_end⟩
  have hslot2 : fs'.slot (update fs.readInode i ip2) = fs'.slot (update fs.readInode i ip) := by
    refine slot_congr_addrs ?_ ?_ <;> intro j <;> by_cases hji : j = i
    · subst hji
      rw [update_self, update_self]
    · rw [update_of_ne hji, update_of_ne hji]
    · subst hji
      rw [update_self, update_self]
    · rw [update_of_ne hji, update_of_ne hji]
  have hgood2 : Good fs' (update fs.readInode i ip2) := by
    refine ⟨?_, update_fits hgood.fits hfits⟩
    rw [hslot2]
    exact h.good.marked
  have hread : ∀ j < fs.sb.ninodes, fs'.readInode j = fs.readInode j := fun j hj =>
    readInode_congr hgood.marked.layout h.sb h.low hj
  have hlt : i < fs'.sb.ninodes := h.sb ▸ hi.1
  obtain ⟨hslot, hstored⟩ := hgood2.writeBack (i := i) hlt (by
    intro j hj hji
    rw [update_of_ne hji]
    exact hread j (h.sb ▸ hj))
  rw [hself2] at hslot hstored
  have hback : (fs'.iupdate i ip2).readInode i = ip2 := readInode_iupdate_self hfits
  refine ⟨hstored, hslot.trans hslot2, ?_, hback, ⟨hlt, ?_⟩, ?_⟩
  · intro p b hp
    -- the inodes lie before the data
    obtain ⟨hdata, -⟩ := h.good.marked.owners.mem p b hp
    have hbmap := hdata.bmapstart_lt h.good.marked.layout
    have hinode := iblock_lt h.good.marked.layout hlt
    exact update_of_ne (by omega) _ _
  · have htype := (h.live hi).2
    rw [hself] at htype
    rw [hback]
    exact htype
  · intro j hj hji
    rw [readInode_iupdate_of_ne hji, update_of_ne hji]
    exact hread j (h.sb ▸ hj)

end Fs

open Fs

/-- **A well-formed file system**: the bitmap and the inodes fit together, the blocks of a
file are mapped up to its size, and an inode in memory is the one on the disk. -/
structure FsState.WellFormed (s : FsState) : Prop where
  good : s.fs.Good s.fs.readInode
  mapped : ∀ i, s.fs.Live s.fs.readInode i → ∀ k < blockCount (s.fs.readInode i).size,
    (s.fs.slot s.fs.readInode (placeOf i k)).isSome
  cache : ∀ i ip, s.icache i = some ip → s.fs.Live s.fs.readInode i ∧ ip = s.fs.readInode i

namespace FsState

variable {s t : FsState} {fs' : Fs} {i : ℕ} {ip : Dinode} {c : Option Dinode}

/-- One inode and its blocks are changed. -/
theorem WellFormed.change (h : s.WellFormed) (hgood : fs'.Good fs'.readInode) (hsb : fs'.sb = s.fs.sb)
    (hother : ∀ j < s.fs.sb.ninodes, j ≠ i → fs'.readInode j = s.fs.readInode j)
    (hslots : ∀ p : BlockSlot, p.inum ≠ i → (s.fs.slot s.fs.readInode p).isSome →
      (fs'.slot fs'.readInode p).isSome)
    (hmapped : fs'.Live fs'.readInode i → ∀ k < blockCount (fs'.readInode i).size,
      (fs'.slot fs'.readInode (placeOf i k)).isSome)
    (hc : ∀ ip, c = some ip → fs'.Live fs'.readInode i ∧ ip = fs'.readInode i) :
    (⟨fs', update s.icache i c⟩ : FsState).WellFormed := by
  refine ⟨hgood, ?_, ?_⟩
  · intro j hj k hk
    by_cases hji : j = i
    · subst hji
      exact hmapped hj k hk
    · have hjn : j < s.fs.sb.ninodes := hsb ▸ hj.1
      have hread := hother j hjn hji
      have hlive : s.fs.Live s.fs.readInode j := ⟨hjn, hread ▸ hj.2⟩
      refine hslots _ ?_ (h.mapped j hlive k (by rw [← hread]; exact hk))
      unfold placeOf
      split <;> exact hji
  · intro j ip' hip
    by_cases hji : j = i
    · subst hji
      dsimp only at hip
      rw [update_self] at hip
      exact hc ip' hip
    · dsimp only at hip
      rw [update_of_ne hji] at hip
      obtain ⟨hlive, rfl⟩ := h.cache j ip' hip
      have hread := hother j hlive.1 hji
      exact ⟨⟨hsb ▸ hlive.1, by rw [hread]; exact hlive.2⟩, hread.symm⟩

/-- **`writei`** keeps the file system well-formed. -/
theorem WellFormed.writei {off : ℕ} {src : List UInt8} {copyin : ℕ → Option ℕ} {r : ℤ}
    (h : s.WellFormed) (hi : s.fs.Live s.fs.readInode i) (hlt : off < 2 ^ 32 ∧ src.length < 2 ^ 32)
    (hrun : s.fs.writei i (s.fs.readInode i) off src copyin = some (fs', ip, r)) :
    (⟨fs', update s.icache i (some ip)⟩ : FsState).WellFormed := by
  have hsame : ∀ {ip' : Dinode}, ip' = s.fs.readInode i →
      (⟨s.fs, update s.icache i (some ip')⟩ : FsState).WellFormed := by
    rintro ip' rfl
    refine h.change h.good rfl (fun _ _ _ => rfl) (fun _ _ hs => hs) (h.mapped i) ?_
    rintro ip' heq
    exact ⟨hi, (some.inj heq).symm⟩
  unfold Fs.writei at hrun
  split at hrun
  · obtain ⟨rfl, hrest⟩ := Prod.mk.inj (some.inj hrun)
    exact hsame (Prod.mk.inj hrest).1.symm
  rename_i hcheck
  split at hrun
  · obtain ⟨rfl, hrest⟩ := Prod.mk.inj (some.inj hrun)
    exact hsame (Prod.mk.inj hrest).1.symm
  obtain ⟨⟨fs1, ip1, off1, tot1⟩, hloop, heq⟩ := map_eq_some_iff.1 hrun
  obtain ⟨hgrow, hle, hlt1, hmapped⟩ := h.good.writeLoop_spec hi (by omega) hloop
  have hsize1 := hgrow.size_eq i
  rw [update_self] at hsize1
  dsimp only at heq
  rw [grown_size] at heq
  obtain ⟨rfl, hrest⟩ := Prod.mk.inj heq
  obtain ⟨rfl, -⟩ := Prod.mk.inj hrest
  have hstored := hgrow.store h.good hi (show max ip1.size off1 < 2 ^ 32 by
    have := (h.good.fits i).size_lt
    omega)
  have hgrowslots : ∀ p : BlockSlot, (s.fs.slot s.fs.readInode p).isSome →
      ((fs1.iupdate i { ip1 with size := max ip1.size off1 }).slot
        (fs1.iupdate i { ip1 with size := max ip1.size off1 }).readInode p).isSome := by
    intro p hp
    obtain ⟨b, hb⟩ := isSome_iff_exists.1 hp
    rw [hstored.slot, hgrow.slots p b hb]
    rfl
  refine h.change hstored.good hgrow.sb ?_ (fun p _ hp => hgrowslots p hp) ?_ ?_
  · intro j hj hji
    rw [hstored.other j (hgrow.sb ▸ hj) hji, update_of_ne hji]
  · intro _ k hk
    have hk' : k < blockCount (max ip1.size off1) := by
      rw [hstored.self] at hk
      exact hk
    rw [hsize1] at hk'
    by_cases hold : k < blockCount (s.fs.readInode i).size
    · exact hgrowslots _ (h.mapped i hi k hold)
    · rw [hstored.slot]
      -- the block lies behind the old end of the file
      have hbehind : (s.fs.readInode i).size ≤ k * bsize := by
        unfold blockCount at hold
        simp only [bsize] at *
        omega
      have hbefore : k * bsize < off1 := by
        unfold blockCount at hk' hold
        simp only [bsize] at *
        omega
      refine hmapped k ?_ hbefore (by omega)
      refine Nat.div_le_of_le_mul ?_
      rw [mul_comm]
      omega
  · rintro ip' heq'
    cases heq'
    exact ⟨hstored.live, hstored.self.symm⟩

/-- **`itrunc`** keeps it well-formed. -/
theorem WellFormed.itrunc (h : s.WellFormed) (hi : s.fs.Live s.fs.readInode i) :
    ∃ fs' ip, s.fs.itrunc i (s.fs.readInode i) = some (fs', ip) ∧
      (⟨fs', update s.icache i (some ip)⟩ : FsState).WellFormed ∧
      ip = { s.fs.readInode i with size := 0, addrs := fun _ => 0 } ∧ fs'.readInode i = ip ∧
      fs'.sb = s.fs.sb := by
  obtain ⟨fs', hrun, hgood, hsb, hself, hother, hslots⟩ :=
    h.good.itrunc_spec hi fun _ _ _ => rfl
  refine ⟨fs', _, hrun, h.change hgood hsb hother ?_ ?_ ?_, rfl, hself, hsb⟩
  · intro p hp hs
    rwa [hslots p hp]
  · intro _ k hk
    rw [hself] at hk
    rw [blockCount_zero] at hk
    exact absurd hk (Nat.not_lt_zero k)
  · rintro ip' heq
    cases heq
    exact ⟨⟨hsb ▸ hi.1, by rw [hself]; exact hi.2⟩, hself.symm⟩

/-- An inode without blocks is written to a place where there was none with blocks. -/
theorem WellFormed.setInode (h : s.WellFormed) (hi : i < s.fs.sb.ninodes)
    (hold : ∀ p : BlockSlot, p.inum = i → s.fs.slot s.fs.readInode p = none) (hip : ip.Fits)
    (hzero : ∀ k < nDirect + 1, ip.addrs k = 0) (hsize : ip.size = 0) :
    (⟨s.fs.iupdate i ip, update s.icache i none⟩ : FsState).WellFormed := by
  obtain ⟨hslot, hgood⟩ := h.good.replaceEmpty hold hip hzero
  have hself : update s.fs.readInode i ip i = ip := update_self _ _ _
  obtain ⟨hslot', hgood'⟩ := hgood.writeBack hi fun j _ hji => (update_of_ne hji _ _).symm
  rw [hself] at hslot' hgood'
  refine h.change hgood' rfl (fun j _ hji => readInode_iupdate_of_ne hji ip) ?_ ?_ (by simp)
  · intro p _ hp
    rwa [hslot', hslot]
  · intro _ k hk
    rw [readInode_iupdate_self hip, hsize, blockCount_zero] at hk
    exact absurd hk (Nat.not_lt_zero k)

/-- **The freeing case of `iput`** keeps it well-formed. -/
theorem WellFormed.ifree (h : s.WellFormed) (hi : s.fs.Live s.fs.readInode i) :
    ∃ fs', s.fs.ifree i (s.fs.readInode i) = some fs' ∧
      (⟨fs', update s.icache i none⟩ : FsState).WellFormed := by
  obtain ⟨fs', ip, hrun, hwf, hip, hself, hsb⟩ := h.itrunc hi
  have hzero : ∀ k < nDirect + 1, ip.addrs k = 0 := by
    intro k _
    rw [hip]
  have hfits : ({ ip with type := 0 } : Dinode).Fits := by
    have hold := hwf.good.fits i
    rw [hself] at hold
    exact ⟨Nat.two_pow_pos 16, hold.major_lt, hold.minor_lt, hold.nlink_lt, hold.size_lt, hold.addrs_lt,
      hold.addrs_end⟩
  have hfree := hwf.setInode (hsb ▸ hi.1)
    (fun p hp => slot_of_addrs_eq_zero (by rw [hp, hself]; exact hzero)) hfits hzero (by rw [hip])
  rw [update_idem] at hfree
  refine ⟨_, ?_, hfree⟩
  unfold Fs.ifree
  rw [hrun, map_some]

/-- **`ialloc`** keeps it well-formed. -/
theorem WellFormed.ialloc {type : ℕ} {inum : ℕ} (h : s.WellFormed) (htype : type ≠ 0 ∧ type < 2 ^ 16)
    (hrun : s.fs.ialloc type = some (fs', inum)) : (⟨fs', s.icache⟩ : FsState).WellFormed := by
  unfold Fs.ialloc at hrun
  obtain ⟨i, hfind, heq⟩ := map_eq_some_iff.1 hrun
  obtain ⟨rfl, rfl⟩ := Prod.mk.inj heq
  have hlt := mem_range.1 (mem_of_find?_eq_some hfind)
  have hfree : (s.fs.readInode i).type = 0 := by
    have := List.find?_some hfind
    simp only [decide_eq_true_eq] at this
    exact this.2
  have hnone : s.icache i = none := by
    rw [eq_none_iff_forall_ne_some]
    intro ip hip
    exact (h.cache i ip hip).1.2 hfree
  have hfits : ({ Dinode.zero with type := type } : Dinode).Fits :=
    ⟨htype.2, Nat.two_pow_pos 16, Nat.two_pow_pos 16, Nat.two_pow_pos 16, Nat.two_pow_pos 32,
      fun _ => Nat.two_pow_pos 32, fun _ _ => rfl⟩
  have hset := h.setInode hlt (fun p hp => if_neg fun hs => hs.2.1 (hp ▸ hfree)) hfits
    (fun _ _ => rfl) rfl
  rwa [← hnone, update_eq_self] at hset

/-- **One call** keeps the file system well-formed. -/
theorem step_wellFormed {a : FsCall} (h : s.WellFormed) (hstep : s.step a = some t) : t.WellFormed := by
  cases a with
  | ialloc type htype =>
    obtain ⟨⟨fs', inum⟩, hrun, rfl⟩ := map_eq_some_iff.1 hstep
    exact h.ialloc htype hrun
  | ilock inum =>
    simp only [step] at hstep
    split at hstep
    · cases hstep
      exact h
    · split at hstep
      · rename_i hlive
        cases hstep
        refine h.change h.good rfl (fun _ _ _ => rfl) (fun _ _ hs => hs) (h.mapped inum) ?_
        rintro ip heq
        exact ⟨hlive, (some.inj heq).symm⟩
      · cases hstep
  | forget inum =>
    cases hstep
    exact h.change h.good rfl (fun _ _ _ => rfl) (fun _ _ hs => hs) (h.mapped inum) (by simp)
  | writei inum off src copyin hlt =>
    obtain ⟨ip, hip, hrun⟩ := bind_eq_some_iff.1 hstep
    obtain ⟨hlive, rfl⟩ := h.cache inum ip hip
    obtain ⟨⟨fs', c⟩, hmap, rfl⟩ := map_eq_some_iff.1 hrun
    obtain ⟨⟨fs1, ip1, r⟩, hwrite, heq⟩ := map_eq_some_iff.1 hmap
    obtain ⟨rfl, rfl⟩ := Prod.mk.inj heq
    exact h.writei hlive hlt hwrite
  | readi inum off n copyout hlt =>
    obtain ⟨ip, hip, hrun⟩ := bind_eq_some_iff.1 hstep
    obtain ⟨hlive, rfl⟩ := h.cache inum ip hip
    obtain ⟨⟨fs', c⟩, hmap, rfl⟩ := map_eq_some_iff.1 hrun
    obtain ⟨⟨fs1, ip1, r⟩, hread, heq⟩ := map_eq_some_iff.1 hmap
    obtain ⟨rfl, rfl⟩ := Prod.mk.inj heq
    obtain ⟨rfl, rfl⟩ := readi_same (h.mapped inum hlive) (h.good.fits inum).size_lt hlt.1 hlt.2 hread
    refine h.change h.good rfl (fun _ _ _ => rfl) (fun _ _ hs => hs) (h.mapped inum) ?_
    rintro ip heq'
    exact ⟨hlive, (some.inj heq').symm⟩
  | itrunc inum =>
    obtain ⟨ip, hip, hrun⟩ := bind_eq_some_iff.1 hstep
    obtain ⟨hlive, rfl⟩ := h.cache inum ip hip
    obtain ⟨fs', ip', htrunc, hwf, -⟩ := h.itrunc hlive
    dsimp only at hrun
    rw [htrunc] at hrun
    cases hrun
    exact hwf
  | ifree inum =>
    obtain ⟨ip, hip, hrun⟩ := bind_eq_some_iff.1 hstep
    obtain ⟨hlive, rfl⟩ := h.cache inum ip hip
    obtain ⟨fs', hfree, hwf⟩ := h.ifree hlive
    dsimp only at hrun
    rw [hfree] at hrun
    cases hrun
    exact hwf

/-- **Every run** keeps the file system well-formed. -/
theorem exec_wellFormed {calls : List FsCall} (h : s.WellFormed) (hrun : exec step s calls = some t) :
    t.WellFormed :=
  exec_inv (fun _ _ _ h hstep => step_wellFormed h hstep) h hrun

end FsState

/-- **Block ownership.** In every state that calls lead to from a well-formed file system, a
data block that is marked is stored in exactly one place, a block that is stored is a marked
data block, the blocks of a file are mapped up to its size, and giving the blocks of a file
back does not reach the panic of `bfree`. -/
theorem block_ownership {s t : FsState} {as : List FsCall} (hstart : s.WellFormed)
    (hrun : exec FsState.step s as = some t) :
    (∀ b, t.fs.IsData b → t.fs.marked b = true → ∃! p, t.fs.slot t.fs.readInode p = some b) ∧
    (∀ p b, t.fs.slot t.fs.readInode p = some b → t.fs.IsData b ∧ t.fs.marked b = true) ∧
    (∀ i, t.fs.Live t.fs.readInode i → ∀ k < blockCount (t.fs.readInode i).size,
      (t.fs.slot t.fs.readInode (placeOf i k)).isSome) ∧
    ∀ i ip, t.icache i = some ip → (t.fs.itrunc i ip).isSome ∧ (t.fs.ifree i ip).isSome := by
  have hwf := FsState.exec_wellFormed hstart hrun
  refine ⟨?_, hwf.good.marked.owners.mem, hwf.mapped, ?_⟩
  · intro b hdata hmark
    exact hwf.good.marked.owners.existsUnique ⟨hdata, hmark⟩
  · intro i ip hip
    obtain ⟨hlive, rfl⟩ := hwf.cache i ip hip
    obtain ⟨fs1, ip1, htrunc, -⟩ := hwf.itrunc hlive
    obtain ⟨fs2, hfree, -⟩ := hwf.ifree hlive
    rw [htrunc, hfree]
    exact ⟨rfl, rfl⟩

/-- **A disk without data**: every inode is free or empty, and the metadata is marked. -/
theorem FsState.WellFormed.of_noData {s : FsState} (hlayout : s.fs.sb.Layout)
    (hempty : ∀ i < s.fs.sb.ninodes, (s.fs.readInode i).type = 0 ∨
      ((s.fs.readInode i).size = 0 ∧ ∀ k < nDirect + 1, (s.fs.readInode i).addrs k = 0))
    (hmarks : ∀ b < s.fs.sb.size, s.fs.marked b = true ↔ b < s.fs.sb.dataStart)
    (hcache : ∀ i, s.icache i = none) : s.WellFormed := by
  have hslot : ∀ p b, s.fs.slot s.fs.readInode p ≠ some b := by
    intro p b hp
    obtain ⟨hvalid, htype, hval, hne⟩ := slot_eq_some_iff.1 hp
    obtain ⟨-, haddrs⟩ := (hempty p.inum hvalid.inum_lt).resolve_left htype
    refine hne (hval.symm.trans ?_)
    cases p with
    | addr inum k => exact haddrs k hvalid.2
    | entry inum k => exact if_pos (haddrs nDirect (by decide))
  have hle : s.fs.sb.dataStart ≤ s.fs.sb.size := Nat.sub_le _ _
  refine ⟨⟨⟨hlayout, ?_, ?_, ?_, ?_⟩, fun i => Dinode.decode_fits _ _⟩, ?_, ?_⟩
  · intro b hb
    exact (hmarks b (by omega)).2 hb
  · intro p b hp
    exact absurd hp (hslot p b)
  · intro p p' b hp
    exact absurd hp (hslot p b)
  · rintro b ⟨⟨hge, hlt⟩, hmark⟩
    exact absurd ((hmarks b hlt).1 hmark) (Nat.not_lt.2 hge)
  · intro i hlive k hk
    rcases hempty i hlive.1 with htype | ⟨hsize, -⟩
    · exact absurd htype hlive.2
    · rw [hsize] at hk
      exact absurd hk (Nat.not_lt_zero k)
  · intro i ip hip
    rw [hcache i] at hip
    cases hip

/-- **A disk without inodes**, on which the metadata is marked. -/
theorem FsState.WellFormed.of_empty {s : FsState} (hlayout : s.fs.sb.Layout)
    (htype : ∀ i < s.fs.sb.ninodes, (s.fs.readInode i).type = 0)
    (hmarks : ∀ b < s.fs.sb.size, s.fs.marked b = true ↔ b < s.fs.sb.dataStart)
    (hcache : ∀ i, s.icache i = none) : s.WellFormed :=
  .of_noData hlayout (fun i hi => .inl (htype i hi)) hmarks hcache

/-- A disk of eight blocks without files. The last three are free. -/
def smallDisk : FsState where
  fs := ⟨⟨fsMagic, 8, 3, 4, 0, 2, 2, 3⟩,
    update (fun _ _ => 0) 3 ((List.range 5).foldl setBit fun _ => 0)⟩
  icache _ := none

theorem smallDisk_wellFormed : smallDisk.WellFormed :=
  .of_empty ⟨by decide +kernel, by decide +kernel, by decide +kernel⟩ (by decide +kernel)
    (by decide +kernel) fun _ => rfl

/-- A file is made, written and read. -/
def smallCalls : List FsCall :=
  [.ialloc 2 (by decide), .ilock 1, .writei 1 0 [1, 2, 3] (fun _ => none) (by decide),
    .readi 1 0 3 (fun _ => true) (by decide)]

/-- The blocks of the file that was written can be given back. -/
theorem block_ownership_smallDisk :
    ∃ t ip, exec FsState.step smallDisk smallCalls = some t ∧ t.icache 1 = some ip ∧
      (∀ b, t.fs.IsData b → t.fs.marked b = true → ∃! p, t.fs.slot t.fs.readInode p = some b) ∧
      (t.fs.itrunc 1 ip).isSome := by
  have hrun : ((exec FsState.step smallDisk smallCalls).bind (·.icache 1)).isSome = true := by
    decide +kernel
  obtain ⟨ip, hbind⟩ := isSome_iff_exists.1 hrun
  obtain ⟨t, ht, hip⟩ := bind_eq_some_iff.1 hbind
  obtain ⟨howner, -, -, hfree⟩ := block_ownership smallDisk_wellFormed ht
  exact ⟨t, ip, ht, hip, howner, (hfree 1 ip hip).1⟩

/-! ## The image of `mkfs` -/

namespace Image

variable {im : Image} {files : List InputFile} {F : ℕ → FileEntry} {i k b : ℕ}

theorem layout_mkfsSb : mkfsSb.Layout := by
  have hstart : mkfsSb.inodestart = 32 := by decide
  have hmap : mkfsSb.bmapstart = 33 := by decide
  have hdata : mkfsSb.dataStart = 34 := by decide
  have hsize : mkfsSb.size = 1000 := rfl
  have hbpb : bpb = 524288 := by decide
  have hinodes : mkfsSb.ninodes ≤ ipb := by decide
  refine ⟨fun inum hi => ?_, fun b hb => ?_, by decide⟩
  · rw [Nat.div_eq_of_lt (hi.trans_le hinodes)]
    omega
  · rw [Nat.div_eq_of_lt (by omega)]
    omega

theorem Finished.marked_iff (h : Finished im files F) (hb : b < fsSize) :
    im.kernelFs.marked b = true ↔ b < im.freeblock := by
  have hbpb : b < bpb := hb.trans (by decide)
  rw [Fs.marked, Fs.bblock, Nat.div_eq_of_lt hbpb, zero_add, Nat.mod_eq_of_lt hbpb]
  exact (congrArg (· = true) (h.bitmap b)).to_iff.trans decide_eq_true_iff

theorem Finished.fileMap (h : Finished im files F) (hi : i < ipb) :
    FileMap im.kernelFs.blocks (im.kernelFs.readInode i).addrs (F i).blks (F i).ind := by
  rw [readInode_eq hi]
  exact (h.holds i hi).toFileMap

/-- An inode that has blocks is one of those in use. -/
theorem Finished.live_of_owned (h : Finished im files F) (hcount : files.length ≤ 198) (hi : i < ipb)
    (hb : b ∈ (F i).owned) : im.kernelFs.Live im.kernelFs.readInode i := by
  have huse : im.InUse i := by
    by_contra hno
    rw [h.unused i hi hno] at hb
    exact absurd hb not_mem_nil
  have hlt := huse.2
  rw [h.freeinode_eq] at hlt
  have hninodes : im.kernelFs.sb.ninodes = 200 := rfl
  refine ⟨by omega, ?_⟩
  rw [readInode_eq hi, h.inode i hi]
  show (F i).type ≠ 0
  match i, huse.1 with
  | 1, _ => exact h.root.1 ▸ by decide
  | k + 2, _ => exact (h.file k (by omega)).1 ▸ by decide

/-- The place of a block of a file. -/
theorem Finished.slot_placeOf (h : Finished im files F) (hcount : files.length ≤ 198) (hi : i < ipb)
    (hk : k < (F i).blks.length) :
    im.kernelFs.slot im.kernelFs.readInode (Fs.placeOf i k) = some ((F i).blks[k]) := by
  have hmap := h.fileMap hi
  have hmem : (F i).blks[k] ∈ (F i).owned := mem_owned_of_mem (getElem_mem hk)
  obtain ⟨hlt, htype⟩ := h.live_of_owned hcount hi hmem
  have hlen := hmap.length_le
  unfold Fs.placeOf
  split
  · rename_i hdirect
    refine Fs.slot_eq_some_iff.2 ⟨⟨hlt, by omega⟩, htype, ?_, hmap.pos _ (getElem_mem hk)⟩
    have hvalid : (BlockSlot.addr i k).Valid im.kernelFs.sb.ninodes := ⟨hlt, by omega⟩
    rw [FileMap.value_eq (by exact hmap) hvalid, BlockSlot.index, if_neg (by omega),
      getD_cons_succ, getD_eq_getElem _ _ hk]
  · rename_i hdirect
    have hvalid : (BlockSlot.entry i (k - nDirect)).Valid im.kernelFs.sb.ninodes := ⟨hlt, by omega⟩
    refine Fs.slot_eq_some_iff.2 ⟨hvalid, htype, ?_, hmap.pos _ (getElem_mem hk)⟩
    have hidx : nDirect + 1 + (k - nDirect) = k + 1 := by omega
    rw [FileMap.value_eq (by exact hmap) hvalid, BlockSlot.index, hidx, getD_cons_succ,
      getD_eq_getElem _ _ hk]

/-- Every block of a file has a place. -/
theorem Finished.slot_of_owned (h : Finished im files F) (hcount : files.length ≤ 198) (hi : i < ipb)
    (hb : b ∈ (F i).owned) : ∃ p, im.kernelFs.slot im.kernelFs.readInode p = some b := by
  rcases mem_owned hb with hmem | ⟨rfl, hne⟩
  · obtain ⟨k, hk, rfl⟩ := getElem_of_mem hmem
    exact ⟨_, h.slot_placeOf hcount hi hk⟩
  · obtain ⟨hlt, htype⟩ := h.live_of_owned hcount hi hb
    exact ⟨.addr i nDirect,
      Fs.slot_eq_some_iff.2 ⟨⟨hlt, Nat.lt_succ_self _⟩, htype, (h.fileMap hi).indirect, hne⟩⟩

theorem Finished.good (h : Finished im files F) (hcount : files.length ≤ 198) :
    im.kernelFs.Good im.kernelFs.readInode := by
  have hinodes : im.kernelFs.sb.ninodes ≤ ipb := show mkfsSb.ninodes ≤ ipb by decide
  have hdata : im.kernelFs.sb.dataStart = nmeta := show mkfsSb.dataStart = nmeta by decide
  have hsize : im.kernelFs.sb.size = fsSize := rfl
  have hle := h.free_le
  have hge := h.free_ge
  have hslot : ∀ {p b}, im.kernelFs.slot im.kernelFs.readInode p = some b →
      p.Valid im.kernelFs.sb.ninodes ∧ p.value im.kernelFs.readInode im.kernelFs.blocks = b ∧
        p.inum < ipb ∧ b ∈ (F p.inum).owned := by
    intro p b hp
    obtain ⟨hvalid, -, rfl, hne⟩ := Fs.slot_eq_some_iff.1 hp
    have hi : p.inum < ipb := hvalid.inum_lt.trans_le hinodes
    exact ⟨hvalid, rfl, hi, (h.fileMap hi).value_mem hvalid hne⟩
  refine ⟨⟨layout_mkfsSb, ?_, ⟨?_, ?_, ?_⟩⟩, fun i => Dinode.decode_fits _ _⟩
  · intro b hb
    rw [hdata] at hb
    exact (h.marked_iff (by omega)).2 (by omega)
  · intro p b hp
    obtain ⟨-, -, hi, hmem⟩ := hslot hp
    obtain ⟨hlow, hhigh⟩ := h.range p.inum hi b hmem
    have hlt : b < fsSize := by omega
    exact ⟨⟨hdata.trans_le hlow, hlt⟩, (h.marked_iff hlt).2 hhigh⟩
  · intro p p' b hp hp'
    obtain ⟨hvalid, hval, hi, hmem⟩ := hslot hp
    obtain ⟨hvalid', hval', hi', hmem'⟩ := hslot hp'
    have hnum : p.inum = p'.inum := by
      by_contra hdiff
      exact h.disjoint p.inum hi p'.inum hi' hdiff b hmem hmem'
    have hne : b ≠ 0 := (Fs.slot_eq_some_iff.1 hp').2.2.2
    exact (h.fileMap hi').value_inj (h.nodup p'.inum hi') hvalid' hvalid hnum (hval' ▸ hne)
      (hval.trans hval'.symm)
  · rintro b ⟨⟨hlow, hhigh⟩, hmark⟩
    obtain ⟨i, hi, hmem⟩ := h.cover b (hdata ▸ hlow) ((h.marked_iff hhigh).1 hmark)
    exact h.slot_of_owned hcount hi hmem

/-- **The image that `mkfs` writes is well-formed.** -/
theorem Finished.wellFormed (h : Finished im files F) (hcount : files.length ≤ 198) :
    (⟨im.kernelFs, fun _ => none⟩ : FsState).WellFormed := by
  refine ⟨h.good hcount, ?_, by simp⟩
  intro i hlive k hk
  have hi : i < ipb := hlive.1.trans_le (show mkfsSb.ninodes ≤ ipb by decide)
  have hlen := (h.holds i hi).length_eq
  rw [← h.size_eq hi, ← readInode_eq hi] at hlen
  rw [h.slot_placeOf hcount hi (hlen ▸ hk)]
  rfl

end Image

end AudioPlayer
