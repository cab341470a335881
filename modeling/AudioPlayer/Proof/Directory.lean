import AudioPlayer.Spec.Dir
import AudioPlayer.Proof.Contents
import AudioPlayer.Lib.SlotMap

/-!
# Directories

The entries of a directory are the slots of a table, with the names as `namecmp` sees them for
keys. With distinct names the directory is a finite map from names to inodes.

* `dirTable_patch`: a write of an entry is an update of the table;
* `Fs.Reads.dirlookup`: `dirlookup` looks into the map;
* `Fs.Reads.linkLoop`: `dirlink` finds the first empty entry, or the end;
* `directory_map`: what `dirlink` and the removal of an entry do to the map.
-/

namespace AudioPlayer

open Function Bytes Runs List Option

/-! ## Entries -/

/-- The name and the inode of an entry, unless it is empty. -/
def entryOf (entry : List UInt8) : Option (List UInt8 × ℕ) :=
  if load 2 (ofList entry) 0 = 0 then none
  else some (nameKey dirSiz (entry.drop 2), load 2 (ofList entry) 0)

/-- The table of the entries. -/
def dirTable (content : List UInt8) (j : ℕ) : Option (List UInt8 × ℕ) := entryOf (direntAt content j)

/-- **The map of a directory**: the inode for a name, and the offset of the entry. -/
def dirMap (content : List UInt8) (key : List UInt8) : Option (ℕ × ℕ) :=
  (SlotMap.find (content.length / direntSize) (dirTable content) key).map fun (inum, j) =>
    (inum, direntSize * j)

theorem entryOf_eq_some_iff {e key : List UInt8} {inum : ℕ} :
    entryOf e = some (key, inum) ↔ inum ≠ 0 ∧ load 2 (ofList e) 0 = inum ∧
      nameKey dirSiz (e.drop 2) = key := by
  unfold entryOf
  by_cases hzero : load 2 (ofList e) 0 = 0
  · rw [if_pos hzero]
    exact ⟨fun h => absurd h (by simp), fun h => absurd (h.2.1.symm.trans hzero) h.1⟩
  · rw [if_neg hzero]
    constructor
    · intro h
      cases h
      exact ⟨hzero, rfl, rfl⟩
    · rintro ⟨-, rfl, rfl⟩
      rfl

theorem entryOf_eq_none_iff {e : List UInt8} : entryOf e = none ↔ load 2 (ofList e) 0 = 0 := by
  unfold entryOf
  by_cases hzero : load 2 (ofList e) 0 = 0
  · rw [if_pos hzero]
    exact ⟨fun _ => hzero, fun _ => rfl⟩
  · rw [if_neg hzero]
    exact ⟨fun h => absurd h (by simp), fun h => absurd h hzero⟩

/-- `dirlookup` stops at the slots with the key of the name. -/
theorem direntMatches_iff {name e : List UInt8} :
    direntMatches name e ↔ ∃ inum, entryOf e = some (nameKey dirSiz name, inum) := by
  unfold direntMatches
  rw [strncmp_eq_zero_iff]
  constructor
  · rintro ⟨hne, hkey⟩
    exact ⟨_, entryOf_eq_some_iff.2 ⟨hne, rfl, hkey.symm⟩⟩
  · rintro ⟨inum, he⟩
    obtain ⟨hne, rfl, hkey⟩ := entryOf_eq_some_iff.1 he
    exact ⟨hne, hkey.symm⟩

theorem entryOf_zeros : entryOf (List.replicate direntSize 0) = none := by
  rw [entryOf_eq_none_iff]
  decide +kernel

/-- `strncpy` keeps the key of a name. -/
theorem nameKey_takeWhile (n : ℕ) (name : List UInt8) :
    nameKey n (name.takeWhile (· ≠ 0)) = nameKey n name := by
  unfold nameKey
  induction name generalizing n with
  | nil => rfl
  | cons c name ih =>
    cases n with
    | zero => rfl
    | succ n =>
      by_cases hc : c = 0
      · simp [hc]
      · simpa [hc] using ih n

theorem nameKey_direntBytes (inum : ℕ) (name : List UInt8) :
    nameKey dirSiz ((direntBytes inum name).drop 2) = nameKey dirSiz name := by
  have hdrop : (direntBytes inum name).drop 2 = slice (ofList (name.take dirSiz)) 0 dirSiz :=
    drop_left' (length_slice _ _ _)
  have htake : nameKey dirSiz (name.take dirSiz) = nameKey dirSiz name := by
    unfold nameKey
    rw [take_take, min_self]
  rw [hdrop, ← htake, ← strncmp_eq_zero_iff, ← strncmp_congr (getD_slice_ofList (length_take_le _ _)),
    strncmp_eq_zero_iff]

/-- **The entry that `dirlink` writes.** -/
theorem entryOf_direntBytes {inum : ℕ} (hpos : 1 ≤ inum) (hlt : inum < 2 ^ 16) (name : List UInt8) :
    entryOf (direntBytes inum (name.takeWhile (· ≠ 0))) = some (nameKey dirSiz name, inum) :=
  entryOf_eq_some_iff.2
    ⟨by omega, load_direntBytes hlt _, by rw [nameKey_direntBytes, nameKey_takeWhile]⟩

/-! ## The table -/

section Patch

variable {content d : List UInt8} {m j : ℕ}

/-- The bytes of the directory after an entry is written. -/
def patch (content d : List UInt8) (off : ℕ) : List UInt8 :=
  content.take off ++ d ++ content.drop (off + d.length)

theorem length_patch (hm : content.length = direntSize * m) (hj : j ≤ m)
    (hd : d.length = direntSize) :
    (patch content d (direntSize * j)).length = direntSize * max m (j + 1) := by
  rw [patch, length_append, length_append, length_take, length_drop, hm, hd]
  simp only [direntSize]
  omega

theorem getElem?_patch {off k : ℕ} (hoff : off ≤ content.length) :
    (patch content d off)[k]? = if off ≤ k ∧ k < off + d.length then d[k - off]? else content[k]? := by
  have hlen : (content.take off).length = off := by
    rw [length_take, min_eq_left hoff]
  have hlen' : (content.take off ++ d).length = off + d.length := by rw [length_append, hlen]
  unfold patch
  by_cases hlow : k < off
  · rw [if_neg (by omega), List.getElem?_append_left (by omega), List.getElem?_append_left (by omega),
      List.getElem?_take_of_lt hlow]
  · by_cases hhigh : k < off + d.length
    · rw [if_pos ⟨by omega, hhigh⟩, List.getElem?_append_left (by omega),
        List.getElem?_append_right (by omega), hlen]
    · rw [if_neg (by omega), List.getElem?_append_right (by omega), List.getElem?_drop, hlen',
        Nat.add_sub_cancel' (by omega)]

theorem getElem?_direntAt (content : List UInt8) (j k : ℕ) :
    (direntAt content j)[k]? = if k < direntSize then content[direntSize * j + k]? else none := by
  unfold direntAt
  by_cases hk : k < direntSize
  · rw [if_pos hk, List.getElem?_take_of_lt hk, List.getElem?_drop]
  · rw [if_neg hk, List.getElem?_take_eq_none (by omega)]

/-- **A write of an entry is an update of the table.** -/
theorem dirTable_patch (hm : content.length = direntSize * m) (hj : j ≤ m)
    (hd : d.length = direntSize) :
    dirTable (patch content d (direntSize * j)) = update (dirTable content) j (entryOf d) := by
  have hoff : direntSize * j ≤ content.length := by
    rw [hm]
    exact Nat.mul_le_mul_left _ hj
  funext k
  by_cases hk : k = j
  · subst hk
    rw [update_self, dirTable]
    congr 1
    refine ext_getElem? fun x => ?_
    rw [getElem?_direntAt, getElem?_patch hoff, hd]
    by_cases hx : x < direntSize
    · rw [if_pos hx, if_pos ⟨by omega, by omega⟩, Nat.add_sub_cancel_left]
    · rw [if_neg hx, List.getElem?_eq_none (by omega)]
  · rw [update_of_ne hk, dirTable, dirTable]
    congr 1
    refine ext_getElem? fun x => ?_
    rw [getElem?_direntAt, getElem?_direntAt, getElem?_patch hoff, hd]
    by_cases hx : x < direntSize
    · rw [if_pos hx, if_pos hx, if_neg]
      simp only [direntSize] at *
      omega
    · rw [if_neg hx, if_neg hx]

end Patch

/-! ## The loops -/

namespace Fs

variable {fs : Fs} {dp : Dinode} {content name : List UInt8} {m : ℕ}

/-- Only the key of a name matters. -/
theorem dirlookup_congr {name' : List UInt8} (fs : Fs) (dp : Dinode)
    (hkey : nameKey dirSiz name = nameKey dirSiz name') :
    fs.dirlookup dp name = fs.dirlookup dp name' := by
  have hcmp : ∀ q, strncmp dirSiz name q = 0 ↔ strncmp dirSiz name' q = 0 := by
    intro q
    rw [strncmp_eq_zero_iff, strncmp_eq_zero_iff, hkey]
  have hloop : ∀ fuel fs dp off, lookupLoop name fuel fs dp off = lookupLoop name' fuel fs dp off := by
    intro fuel
    induction fuel with
    | zero => intros; rfl
    | succ fuel ih =>
      intro fs dp off
      simp only [lookupLoop, hcmp, ih]
  unfold Fs.dirlookup
  rw [hloop]

/-- **`dirlookup` looks into the map.** -/
theorem Reads.dirlookup (h : fs.Reads dp content) (hm : content.length = direntSize * m)
    (htype : dp.type = tDir) :
    fs.dirlookup dp name = some (fs, dp, dirMap content (nameKey dirSiz name)) := by
  have hdiv : content.length / direntSize = m := by rw [hm, Nat.mul_div_cancel_left _ (by decide)]
  have hfuel : dp.size / direntSize + 1 = m + 1 := by rw [h.size, hdiv]
  have hmatch : ∀ {j}, direntMatches name (direntAt content j) →
      ∃ inum, dirTable content j = some (nameKey dirSiz name, inum) := direntMatches_iff.1
  unfold Fs.dirlookup dirMap
  rw [if_neg (not_not.2 htype), hfuel, hdiv, ← mul_zero direntSize]
  cases hfind : SlotMap.find m (dirTable content) (nameKey dirSiz name) with
  | none =>
    refine lookupLoop_none (m + 1) h hm fun k _ hk hyes => ?_
    obtain ⟨inum, hslot⟩ := hmatch hyes
    exact SlotMap.find_eq_none_iff.1 hfind k hk inum hslot
  | some r =>
    obtain ⟨inum, j⟩ := r
    obtain ⟨hj, hslot⟩ := SlotMap.of_find_eq_some hfind
    have hload := (entryOf_eq_some_iff.1 hslot).2.1
    rw [lookupLoop_found (m + 1) h hm hj (Nat.zero_le j) (by omega)
      (direntMatches_iff.2 ⟨inum, hslot⟩), hload]
    · rfl
    · intro k _ hkj hyes
      obtain ⟨inum', hslot'⟩ := hmatch hyes
      exact SlotMap.ne_of_lt_find hfind hkj inum' hslot'

/-- **The search of `dirlink`** ends at the first empty entry, or at the end. -/
theorem Reads.linkLoop (h : fs.Reads dp content) (hm : content.length = direntSize * m) {k : ℕ}
    (hk : k ≤ m) (fuel : ℕ) (hfuel : m - k < fuel) :
    ∃ j ≤ m, fs.linkLoop fuel dp (direntSize * k) = some (fs, dp, direntSize * j) ∧ k ≤ j ∧
      (j < m → dirTable content j = none) ∧ ∀ l, k ≤ l → l < j → dirTable content l ≠ none := by
  induction fuel generalizing k with
  | zero => omega
  | succ fuel ih =>
    unfold Fs.linkLoop
    have hsize := h.size
    by_cases hend : k = m
    · subst hend
      rw [if_neg (by omega)]
      exact ⟨k, le_rfl, rfl, le_rfl, fun hlt => absurd hlt (lt_irrefl k), fun l hl hlt => by omega⟩
    · have hle : direntSize * k + direntSize ≤ content.length := by
        rw [hm]
        exact Nat.mul_le_mul_left direntSize (show k + 1 ≤ m by omega)
      have hlen : (direntAt content k).length = direntSize := by
        rw [direntAt, length_take, length_drop]
        omega
      have hread : fs.readi dp (direntSize * k) direntSize (fun _ => true) =
          some (fs, dp, some (direntAt content k)) := h.readi _ _ hle
      rw [if_pos (by simp only [direntSize] at *; omega), hread]
      simp only [bind_some, hlen, ne_eq, not_true_eq_false, if_false]
      by_cases hempty : load 2 (ofList (direntAt content k)) 0 = 0
      · rw [if_pos hempty]
        exact ⟨k, hk, rfl, le_rfl, fun _ => entryOf_eq_none_iff.2 hempty, fun l hl hlt => by omega⟩
      · rw [if_neg hempty]
        obtain ⟨j, hj, hrun, hkj, hnone, hlive⟩ := ih (k := k + 1) (by omega) (by omega)
        refine ⟨j, hj, hrun, by omega, hnone, fun l hl hlt => ?_⟩
        by_cases hlk : l = k
        · rw [hlk]
          exact mt entryOf_eq_none_iff.1 hempty
        · exact hlive l (by omega) hlt

end Fs

/-! ## Directories of a file system -/

open Fs

namespace FsState

variable {s : FsState} {fs' : Fs} {dp : Dinode} {i j : ℕ} {d : List UInt8} {r : ℤ}
  {key : List UInt8}

/-- The bytes of file `i`. -/
def bytes (s : FsState) (i : ℕ) : List UInt8 := s.fs.contents s.fs.readInode i

/-- **A directory**: whole entries, and no two with the same name. -/
structure IsDir (s : FsState) (i : ℕ) : Prop where
  live : s.fs.Live s.fs.readInode i
  type : (s.fs.readInode i).type = tDir
  whole : direntSize ∣ (s.fs.readInode i).size
  distinct : ∀ j < (s.fs.readInode i).size / direntSize, ∀ k < (s.fs.readInode i).size / direntSize,
    load 2 (ofList (direntAt (s.bytes i) j)) 0 ≠ 0 → load 2 (ofList (direntAt (s.bytes i) k)) 0 ≠ 0 →
    strncmp dirSiz ((direntAt (s.bytes i) j).drop 2) ((direntAt (s.bytes i) k).drop 2) = 0 → j = k

/-- The number of entries. -/
def entries (s : FsState) (i : ℕ) : ℕ := (s.fs.readInode i).size / direntSize

theorem length_bytes (s : FsState) (i : ℕ) : (s.bytes i).length = (s.fs.readInode i).size := by
  rw [bytes, contents, length_slice]

theorem IsDir.length_eq (h : s.IsDir i) : (s.bytes i).length = direntSize * s.entries i := by
  rw [length_bytes, entries, Nat.mul_div_cancel' h.whole]

/-- The names are distinct keys of the table. -/
theorem distinct_iff : SlotMap.Distinct (s.entries i) (dirTable (s.bytes i)) ↔
    ∀ j < s.entries i, ∀ k < s.entries i,
      load 2 (ofList (direntAt (s.bytes i) j)) 0 ≠ 0 → load 2 (ofList (direntAt (s.bytes i) k)) 0 ≠ 0 →
      strncmp dirSiz ((direntAt (s.bytes i) j).drop 2) ((direntAt (s.bytes i) k).drop 2) = 0 →
        j = k := by
  constructor
  · intro h j hj k hk hlive hlive' hcmp
    exact h j hj k hk _ _ _ (entryOf_eq_some_iff.2 ⟨hlive, rfl, strncmp_eq_zero_iff.1 hcmp⟩)
      (entryOf_eq_some_iff.2 ⟨hlive', rfl, rfl⟩)
  · intro h j hj k hk key x y hx hy
    obtain ⟨hlive, rfl, hkey⟩ := entryOf_eq_some_iff.1 hx
    obtain ⟨hlive', rfl, hkey'⟩ := entryOf_eq_some_iff.1 hy
    exact h j hj k hk hlive hlive' (strncmp_eq_zero_iff.2 (hkey.trans hkey'.symm))

theorem IsDir.keys (h : s.IsDir i) : SlotMap.Distinct (s.entries i) (dirTable (s.bytes i)) :=
  distinct_iff.2 h.distinct

theorem WellFormed.reads (h : s.WellFormed) (hi : s.fs.Live s.fs.readInode i) :
    s.fs.Reads (s.fs.readInode i) (s.bytes i) := by
  refine ⟨(length_bytes s i).symm, fun off n hle => ?_⟩
  have hsize := (h.good.fits i).size_lt
  rw [length_bytes] at hle
  rw [h.readi_contents hi off (by omega), if_neg (by omega)]
  rfl

/-- A directory of whole entries can be searched; the first entry with the name is found. -/
theorem WellFormed.dirlookup_whole (h : s.WellFormed) (hi : s.fs.Live s.fs.readInode i)
    (htype : (s.fs.readInode i).type = tDir) (hwhole : direntSize ∣ (s.fs.readInode i).size)
    (name : List UInt8) :
    s.fs.dirlookup (s.fs.readInode i) name =
      some (s.fs, s.fs.readInode i, dirMap (s.bytes i) (nameKey dirSiz name)) := by
  have hlen : (s.bytes i).length = direntSize * s.entries i := by
    rw [length_bytes, entries, Nat.mul_div_cancel' hwhole]
  exact (h.reads hi).dirlookup hlen htype

theorem WellFormed.dirlookup (h : s.WellFormed) (hdir : s.IsDir i) (name : List UInt8) :
    s.fs.dirlookup (s.fs.readInode i) name =
      some (s.fs, s.fs.readInode i, dirMap (s.bytes i) (nameKey dirSiz name)) :=
  h.dirlookup_whole hdir.live hdir.type hdir.whole name

/-- **An entry is written.** -/
theorem WellFormed.write_entry (h : s.WellFormed) (hdir : s.IsDir i) (hj : j ≤ s.entries i)
    (hd : d.length = direntSize)
    (hkeys : SlotMap.Distinct (max (s.entries i) (j + 1))
      (update (dirTable (s.bytes i)) j (entryOf d)))
    (hrun : s.fs.writei i (s.fs.readInode i) (direntSize * j) d (fun _ => none) = some (fs', dp, r)) :
    r = direntSize ∧ fs'.readInode i = dp ∧
      (⟨fs', update s.icache i (some dp)⟩ : FsState).WellFormed ∧
      (⟨fs', update s.icache i (some dp)⟩ : FsState).IsDir i ∧
      FsState.entries ⟨fs', update s.icache i (some dp)⟩ i = max (s.entries i) (j + 1) ∧
      dirTable (FsState.bytes ⟨fs', update s.icache i (some dp)⟩ i) =
        update (dirTable (s.bytes i)) j (entryOf d) := by
  have hlen := hdir.length_eq
  have hlen' := length_bytes s i
  have hlimit := h.size_le hdir.live
  have hoff : direntSize * j ≤ (s.fs.readInode i).size := by
    rw [← hlen', hlen]
    exact Nat.mul_le_mul_left _ hj
  have hlt : direntSize * j + d.length < 2 ^ 32 := by
    rw [hd]
    simp only [direntSize, nDirect, nIndirect, bsize] at *
    omega
  obtain ⟨hr, rfl, hwf, hfields, hbytes, -⟩ := h.writei_contents hdir.live hoff hlt hrun
  set t : FsState := ⟨fs', update s.icache i (some (fs'.readInode i))⟩ with ht
  have hcontents : t.bytes i = patch (s.bytes i) d (direntSize * j) := hbytes
  have hsize : (t.fs.readInode i).size = direntSize * max (s.entries i) (j + 1) := by
    rw [← length_bytes, hcontents, length_patch hlen hj hd]
  have hentries : t.entries i = max (s.entries i) (j + 1) := by
    rw [entries, hsize, Nat.mul_div_cancel_left _ (by decide)]
  have htable : dirTable (t.bytes i) = update (dirTable (s.bytes i)) j (entryOf d) := by
    rw [hcontents, dirTable_patch hlen hj hd]
  have htype : (t.fs.readInode i).type = tDir := (congrArg Dinode.type hfields).trans hdir.type
  refine ⟨by rw [hr, hd], rfl, hwf, ⟨(hwf.cache i _ (update_self _ _ _)).1, htype, ?_, ?_⟩,
    hentries, htable⟩
  · rw [hsize]
    exact Nat.dvd_mul_right _ _
  · refine distinct_iff.1 ?_
    rwa [hentries, htable]

theorem dirMap_bytes (s : FsState) (i : ℕ) : dirMap (s.bytes i) =
    Option.map (fun (inum, j) => (inum, direntSize * j)) ∘
      SlotMap.find (s.entries i) (dirTable (s.bytes i)) := by
  funext key
  rw [dirMap, length_bytes]
  rfl

theorem dirMap_eq_none_iff :
    dirMap (s.bytes i) key = none ↔ SlotMap.Absent (s.entries i) (dirTable (s.bytes i)) key := by
  rw [dirMap_bytes, Function.comp_apply, map_eq_none_iff, SlotMap.find_eq_none_iff]

theorem IsDir.dirMap_eq_some_iff (h : s.IsDir i) {inum off : ℕ} :
    dirMap (s.bytes i) key = some (inum, off) ↔
      ∃ j < s.entries i, off = direntSize * j ∧ dirTable (s.bytes i) j = some (key, inum) := by
  rw [dirMap_bytes, Function.comp_apply, map_eq_some_iff]
  constructor
  · rintro ⟨⟨inum', j⟩, hfind, heq⟩
    obtain ⟨rfl, rfl⟩ := Prod.mk.inj heq
    obtain ⟨hj, hslot⟩ := (SlotMap.find_eq_some_iff h.keys).1 hfind
    exact ⟨j, hj, rfl, hslot⟩
  · rintro ⟨j, hj, rfl, hslot⟩
    exact ⟨(inum, j), (SlotMap.find_eq_some_iff h.keys).2 ⟨hj, hslot⟩, rfl⟩

/-- **A new name.** -/
theorem WellFormed.link_entry {name : List UInt8} {inum : ℕ} (h : s.WellFormed) (hdir : s.IsDir i)
    (hpos : 1 ≤ inum) (hlt : inum < 2 ^ 16) (hj : j ≤ s.entries i)
    (hempty : j < s.entries i → dirTable (s.bytes i) j = none)
    (hnew : SlotMap.Absent (s.entries i) (dirTable (s.bytes i)) (nameKey dirSiz name))
    (hrun : s.fs.writei i (s.fs.readInode i) (direntSize * j)
      (direntBytes inum (name.takeWhile (· ≠ 0)))
      (fun _ => none) = some (fs', dp, r)) :
    r = direntSize ∧ fs'.readInode i = dp ∧
      (⟨fs', update s.icache i (some dp)⟩ : FsState).WellFormed ∧
      (⟨fs', update s.icache i (some dp)⟩ : FsState).IsDir i ∧
      dirMap (FsState.bytes ⟨fs', update s.icache i (some dp)⟩ i) =
        update (dirMap (s.bytes i)) (nameKey dirSiz name) (some (inum, direntSize * j)) := by
  have hentry := entryOf_direntBytes hpos hlt name
  have hkeys := hdir.keys.put hj hnew inum
  rw [← hentry] at hkeys
  obtain ⟨hr, hdp, hwf, hdir', hentries, htable⟩ :=
    h.write_entry hdir hj (Image.length_direntBytes _ _) hkeys hrun
  refine ⟨hr, hdp, hwf, hdir', ?_⟩
  rw [dirMap_bytes, hentries, htable, hentry, SlotMap.find_put hdir.keys hj hempty hnew,
    comp_update, dirMap_bytes]
  rfl

/-- **A name is removed.** -/
theorem WellFormed.clear_entry {inum : ℕ} (h : s.WellFormed) (hdir : s.IsDir i)
    (hj : j < s.entries i) (hslot : dirTable (s.bytes i) j = some (key, inum))
    (hrun : s.fs.writei i (s.fs.readInode i) (direntSize * j) (List.replicate direntSize 0)
      (fun _ => none) = some (fs', dp, r)) :
    r = direntSize ∧ fs'.readInode i = dp ∧
      (⟨fs', update s.icache i (some dp)⟩ : FsState).WellFormed ∧
      (⟨fs', update s.icache i (some dp)⟩ : FsState).IsDir i ∧
      dirMap (FsState.bytes ⟨fs', update s.icache i (some dp)⟩ i) =
        update (dirMap (s.bytes i)) key none := by
  have hmax : max (s.entries i) (j + 1) = s.entries i := max_eq_left hj
  have hkeys := hdir.keys.clear j
  rw [← hmax, ← entryOf_zeros] at hkeys
  obtain ⟨hr, hdp, hwf, hdir', hentries, htable⟩ :=
    h.write_entry hdir hj.le length_replicate hkeys hrun
  refine ⟨hr, hdp, hwf, hdir', ?_⟩
  rw [dirMap_bytes, hentries, htable, entryOf_zeros, hmax, SlotMap.find_clear hdir.keys hj hslot,
    comp_update, dirMap_bytes]
  rfl

/-- The entries of a directory end inside the file. -/
theorem IsDir.entry_end (h : s.IsDir i) (hj : j < s.entries i) :
    direntSize * j + direntSize ≤ (s.fs.readInode i).size := by
  rw [← length_bytes, h.length_eq]
  exact Nat.mul_le_mul_left direntSize hj

/-- **`dirlink` of a new name** writes the first empty entry, or one more. -/
theorem WellFormed.dirlink_new {name : List UInt8} {inum : ℕ} (h : s.WellFormed) (hdir : s.IsDir i)
    (hpos : 1 ≤ inum) (hlt : inum < 2 ^ 16) (hnew : dirMap (s.bytes i) (nameKey dirSiz name) = none) :
    ∃ j ≤ s.entries i, (j < s.entries i → dirTable (s.bytes i) j = none) ∧
      (∀ l < j, dirTable (s.bytes i) l ≠ none) ∧
      s.fs.dirlink i (s.fs.readInode i) name inum =
        (s.fs.writei i (s.fs.readInode i) (direntSize * j) (direntBytes inum (name.takeWhile (· ≠ 0)))
          fun _ => none).map fun (fs, dp, _) => (fs, dp, 0) := by
  obtain ⟨j, hj, hsearch, -, hempty, hlive⟩ := (h.reads hdir.live).linkLoop hdir.length_eq
    (Nat.zero_le _) (s.entries i + 1) (by omega)
  rw [Nat.mul_zero] at hsearch
  refine ⟨j, hj, hempty, fun l hl => hlive l (Nat.zero_le l) hl, ?_⟩
  unfold Fs.dirlink
  rw [h.dirlookup hdir name, hnew, bind_some]
  dsimp only
  rw [show (s.fs.readInode i).size / direntSize = s.entries i from rfl, hsearch, bind_some]
  dsimp only
  cases hwrite : s.fs.writei i (s.fs.readInode i) (direntSize * j)
      (direntBytes inum (name.takeWhile (· ≠ 0))) fun _ => none with
  | none => rfl
  | some w =>
    obtain ⟨fs', dp, r⟩ := w
    obtain ⟨rfl, -⟩ := h.link_entry hdir hpos hlt hj hempty (dirMap_eq_none_iff.1 hnew) hwrite
    rw [bind_some]
    exact if_neg (not_not.2 rfl)

/-- A new entry behind the others, or in the place of an empty one, panics exactly when the
entries are in use and there are too few free blocks. -/
theorem WellFormed.write_entry_eq_none_iff (h : s.WellFormed) (hdir : s.IsDir i) (hj : j ≤ s.entries i)
    (hempty : j < s.entries i → dirTable (s.bytes i) j = none)
    (hlive : ∀ l < j, dirTable (s.bytes i) l ≠ none) (hd : d.length = direntSize)
    (hroom : (s.fs.readInode i).size < (nDirect + nIndirect) * bsize ∨
      ∃ l < s.entries i, dirTable (s.bytes i) l = none) :
    s.fs.writei i (s.fs.readInode i) (direntSize * j) d (fun _ => none) = none ↔
      (∀ l < s.entries i, dirTable (s.bytes i) l ≠ none) ∧
        s.fs.freeBlocks.card < s.fs.need s.fs.readInode i ((s.fs.readInode i).size / bsize)
          (blockEnd (s.fs.readInode i).size direntSize) := by
  by_cases hin : j < s.entries i
  · have hsome := h.writei_ne_none hdir.live (d := d) (by rw [hd]; exact hdir.entry_end hin)
    exact ⟨fun hnone => absurd hnone hsome, fun hfull => absurd (hempty hin) (hfull.1 j hin)⟩
  · obtain rfl : j = s.entries i := by omega
    have hend : direntSize * s.entries i = (s.fs.readInode i).size := by
      rw [← length_bytes, hdir.length_eq]
    have hsize : (s.fs.readInode i).size < (nDirect + nIndirect) * bsize := by
      rcases hroom with hsize | ⟨l, hl, hnone⟩
      · exact hsize
      · exact absurd hnone (hlive l hl)
    have hrange : (s.fs.readInode i).size + d.length ≤ (nDirect + nIndirect) * bsize := by
      simp only [hd, direntSize, nDirect, nIndirect, bsize] at *
      omega
    rw [hend, h.writei_eq_none_iff hdir.live le_rfl hrange, hd]
    exact (and_iff_right hlive).symm

end FsState

/-- `dirlookup` looks names up in `M`. -/
def Fs.Looks (fs : Fs) (dp : Dinode) (M : List UInt8 → Option (ℕ × ℕ)) : Prop :=
  ∀ name, fs.dirlookup dp name = some (fs, dp, M (nameKey dirSiz name))

open FsState

/-- **A directory is a finite map.** On a well-formed file system `dirlookup` finds the entry with
the name, whose offset determines it. `dirlink` changes nothing when the name is present. When it is
not, `dirlink` panics exactly if all entries are in use and there are too few free blocks for one
more; otherwise the name is added. An entry with zeros at the offset of a name removes the name.
The directory that would pass the end of the block map is left out. -/
theorem directory_map {s : FsState} {i : ℕ} (h : s.WellFormed) (hdir : s.IsDir i) :
    s.fs.Looks (s.fs.readInode i) (dirMap (s.bytes i)) ∧
    (∀ name inum off, dirMap (s.bytes i) (nameKey dirSiz name) = some (inum, off) ↔
      ∃ j < s.entries i, off = direntSize * j ∧ inum = load 2 (ofList (direntAt (s.bytes i) j)) 0 ∧
        direntMatches name (direntAt (s.bytes i) j)) ∧
    (∀ name inum, 1 ≤ inum → inum < 65536 →
      (dirMap (s.bytes i) (nameKey dirSiz name) ≠ none →
        s.fs.dirlink i (s.fs.readInode i) name inum = some (s.fs, s.fs.readInode i, -1)) ∧
      (dirMap (s.bytes i) (nameKey dirSiz name) = none →
        ((s.fs.readInode i).size < (nDirect + nIndirect) * bsize ∨
          (∃ j < s.entries i, load 2 (ofList (direntAt (s.bytes i) j)) 0 = 0) →
          (s.fs.dirlink i (s.fs.readInode i) name inum = none ↔
            (∀ j < s.entries i, load 2 (ofList (direntAt (s.bytes i) j)) 0 ≠ 0) ∧
            s.fs.freeBlocks.card < s.fs.need s.fs.readInode i ((s.fs.readInode i).size / bsize)
              (blockEnd (s.fs.readInode i).size direntSize))) ∧
        ∀ fs' dp r, s.fs.dirlink i (s.fs.readInode i) name inum = some (fs', dp, r) →
          r = 0 ∧ (⟨fs', update s.icache i (some dp)⟩ : FsState).WellFormed ∧
          (⟨fs', update s.icache i (some dp)⟩ : FsState).IsDir i ∧
          ∃ off, fs'.Looks dp
            (update (dirMap (s.bytes i)) (nameKey dirSiz name) (some (inum, off))))) ∧
    ∀ name inum off, dirMap (s.bytes i) (nameKey dirSiz name) = some (inum, off) →
      ∃ fs' dp, s.fs.clearEntry i (s.fs.readInode i) off = some (fs', dp) ∧
        (⟨fs', update s.icache i (some dp)⟩ : FsState).WellFormed ∧
        (⟨fs', update s.icache i (some dp)⟩ : FsState).IsDir i ∧
        fs'.Looks dp (update (dirMap (s.bytes i)) (nameKey dirSiz name) none) := by
  refine ⟨h.dirlookup hdir, ?_, ?_, ?_⟩
  · intro name inum off
    rw [hdir.dirMap_eq_some_iff]
    refine exists_congr fun j => and_congr_right fun _ => and_congr_right fun _ => ?_
    rw [direntMatches_iff]
    constructor
    · intro hslot
      exact ⟨(entryOf_eq_some_iff.1 hslot).2.1.symm, inum, hslot⟩
    · rintro ⟨rfl, inum', hslot⟩
      obtain rfl := (entryOf_eq_some_iff.1 hslot).2.1
      exact hslot
  · intro name inum hpos hlt
    refine ⟨fun hold => ?_, fun hnew => ?_⟩
    · obtain ⟨entry, hentry⟩ := ne_none_iff_exists'.1 hold
      unfold Fs.dirlink
      rw [h.dirlookup hdir name, hentry, bind_some]
    obtain ⟨j, hj, hempty, hlive, hlink⟩ := h.dirlink_new hdir hpos hlt hnew
    rw [hlink]
    refine ⟨fun hroom => ?_, fun fs' dp r hrun => ?_⟩
    · have hfull : (∀ l < s.entries i, load 2 (ofList (direntAt (s.bytes i) l)) 0 ≠ 0) ↔
          ∀ l < s.entries i, dirTable (s.bytes i) l ≠ none :=
        forall₂_congr fun l _ => not_congr entryOf_eq_none_iff.symm
      simp only [← entryOf_eq_none_iff] at hroom
      rw [map_eq_none_iff, hfull]
      exact h.write_entry_eq_none_iff hdir hj hempty hlive (Image.length_direntBytes _ _) hroom
    · obtain ⟨⟨fs1, dp1, r1⟩, hwrite, hret⟩ := map_eq_some_iff.1 hrun
      obtain ⟨rfl, hrest⟩ := Prod.mk.inj hret
      obtain ⟨rfl, rfl⟩ := Prod.mk.inj hrest
      obtain ⟨-, rfl, hwf, hdir', hmap⟩ :=
        h.link_entry hdir hpos hlt hj hempty (dirMap_eq_none_iff.1 hnew) hwrite
      refine ⟨rfl, hwf, hdir', direntSize * j, fun name' => ?_⟩
      rw [← hmap]
      exact hwf.dirlookup hdir' name'
  · intro name inum off hfind
    obtain ⟨j, hj, rfl, hslot⟩ := hdir.dirMap_eq_some_iff.1 hfind
    have hsome := h.writei_ne_none hdir.live (d := List.replicate direntSize 0)
      (by rw [length_replicate]; exact hdir.entry_end hj)
    obtain ⟨⟨fs', dp, r⟩, hwrite⟩ := ne_none_iff_exists'.1 hsome
    obtain ⟨rfl, rfl, hwf, hdir', hmap⟩ := h.clear_entry hdir hj hslot hwrite
    refine ⟨fs', fs'.readInode i, ?_, hwf, hdir', fun name' => ?_⟩
    · unfold Fs.clearEntry
      rw [hwrite, bind_some]
      exact if_neg (not_not.2 rfl)
    · rw [← hmap]
      exact hwf.dirlookup hdir' name'

/-- A directory with at most one entry. -/
theorem FsState.IsDir.of_single {s : FsState} {i : ℕ} (hi : s.fs.Live s.fs.readInode i)
    (htype : (s.fs.readInode i).type = tDir)
    (hsize : (s.fs.readInode i).size = 0 ∨ (s.fs.readInode i).size = direntSize) : s.IsDir i := by
  refine ⟨hi, htype, ?_, ?_⟩
  · rcases hsize with hsize | hsize
    · rw [hsize]
      exact Nat.dvd_zero _
    · rw [hsize]
  · intro j hj k hk _ _ _
    rcases hsize with hsize | hsize <;> rw [hsize] at hj hk <;>
      simp only [direntSize] at hj hk <;> omega

/-- A directory is made with an entry for itself. -/
def dirCalls : List FsCall :=
  [.ialloc tDir (by decide), .ilock 1,
    .writei 1 0 (direntBytes 1 (ascii ".")) (fun _ => none) (by decide +kernel)]

/-- A second name is added; both are found, and the first one can be removed. -/
theorem directory_map_two :
    ∃ t fs dp, exec FsState.step smallDisk dirCalls = some t ∧ t.WellFormed ∧ t.IsDir 1 ∧
      t.fs.dirlink 1 (t.fs.readInode 1) (ascii "a") 2 = some (fs, dp, 0) ∧
      fs.dirlookup dp (ascii ".") = some (fs, dp, some (1, 0)) ∧
      (∃ off, fs.dirlookup dp (ascii "a") = some (fs, dp, some (2, off))) ∧
      ∃ fs' dp', t.fs.clearEntry 1 (t.fs.readInode 1) 0 = some (fs', dp') ∧
        fs'.dirlookup dp' (ascii ".") = some (fs', dp', none) := by
  have hrun : (exec FsState.step smallDisk dirCalls).any
      (fun t => (t.icache 1).isSome && (t.fs.dirlink 1 (t.fs.readInode 1) (ascii "a") 2).isSome &&
        decide ((t.fs.readInode 1).type = tDir ∧ (t.fs.readInode 1).size = direntSize ∧
          dirMap (t.bytes 1) (nameKey dirSiz (ascii ".")) = some (1, 0) ∧
          dirMap (t.bytes 1) (nameKey dirSiz (ascii "a")) = none)) = true := by
    decide +kernel
  obtain ⟨t, ht, hstate⟩ := (any_eq_true _ _).1 hrun
  rw [Bool.and_eq_true, Bool.and_eq_true, decide_eq_true_iff] at hstate
  obtain ⟨⟨hcached, hlink⟩, htype, hsize, hfound, hnew⟩ := hstate
  obtain ⟨ip, hip⟩ := isSome_iff_exists.1 hcached
  obtain ⟨⟨fs, dp, r⟩, hlink⟩ := isSome_iff_exists.1 hlink
  have hwf := FsState.exec_wellFormed smallDisk_wellFormed ht
  have hdir : t.IsDir 1 := .of_single (hwf.cache 1 ip hip).1 htype (Or.inr hsize)
  obtain ⟨-, -, hadd, hremove⟩ := directory_map hwf hdir
  obtain ⟨rfl, -, -, off, hlooks⟩ := ((hadd (ascii "a") 2 (by decide) (by decide)).2 hnew).2
    fs dp r hlink
  obtain ⟨fs', dp', hclear, -, -, hlooks'⟩ := hremove (ascii ".") 1 0 hfound
  refine ⟨t, fs, dp, ht, hwf, hdir, hlink, ?_, ⟨off, ?_⟩, fs', dp', hclear, ?_⟩
  · rw [hlooks, update_of_ne (by decide), hfound]
  · rw [hlooks, update_self]
  · rw [hlooks', update_self]

/-- **A new name on a full disk**: `dirlink` does not return, `balloc` panics. -/
theorem directory_map_full :
    ∃ t, exec FsState.step fullDisk [.ialloc tDir (by decide), .ilock 1] = some t ∧ t.WellFormed ∧
      t.IsDir 1 ∧ t.fs.dirlookup (t.fs.readInode 1) (ascii "a") = some (t.fs, t.fs.readInode 1, none) ∧
      t.fs.dirlink 1 (t.fs.readInode 1) (ascii "a") 1 = none := by
  have hrun : (exec FsState.step fullDisk [.ialloc tDir (by decide), .ilock 1]).any
      (fun t => (t.icache 1).isSome && (decide ((t.fs.readInode 1).type = tDir ∧
        (t.fs.readInode 1).size = 0 ∧ dirMap (t.bytes 1) (nameKey dirSiz (ascii "a")) = none) &&
        (t.fs.dirlink 1 (t.fs.readInode 1) (ascii "a") 1).isNone)) = true := by
    decide +kernel
  obtain ⟨t, ht, hstate⟩ := (any_eq_true _ _).1 hrun
  rw [Bool.and_eq_true, Bool.and_eq_true, decide_eq_true_iff, isNone_iff_eq_none] at hstate
  obtain ⟨hcached, ⟨htype, hsize, hnew⟩, hpanic⟩ := hstate
  obtain ⟨ip, hip⟩ := isSome_iff_exists.1 hcached
  have hwf := FsState.exec_wellFormed fullDisk_wellFormed ht
  have hdir : t.IsDir 1 := .of_single (hwf.cache 1 ip hip).1 htype (Or.inl hsize)
  refine ⟨t, ht, hwf, hdir, ?_, hpanic⟩
  rw [hwf.dirlookup hdir, hnew]

end AudioPlayer
