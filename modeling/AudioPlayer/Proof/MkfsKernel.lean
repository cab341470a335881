import AudioPlayer.Proof.Mkfs
import Mathlib.Data.List.TakeWhile

/-!
# The kernel on an image of `mkfs`

* `Fs.lookupLoop_found`, `Fs.lookupLoop_none`: `dirlookup` on a directory that is known by
  its bytes;
* `strncmp_eq_zero_iff`: names are compared up to `DIRSIZ` bytes;
* `Image.fsinit_eq`: the kernel starts with the blocks of the image;
* `Image.mkfs_kernel_agree`: it finds the files.
-/

namespace AudioPlayer

open List Option Bytes

/-! ## Names -/

/-- A string ends at its first zero. -/
theorem strncmp_congr {n : ℕ} {p q q' : List UInt8} (h : ∀ i, q.getD i 0 = q'.getD i 0) :
    strncmp n p q = strncmp n p q' := by
  induction n generalizing p q q' with
  | zero => rfl
  | succ n ih =>
    have hheadD : ∀ l : List UInt8, l.headD 0 = l.getD 0 0 := by
      intro l
      cases l <;> rfl
    have htailD : ∀ (l : List UInt8) i, l.tail.getD i 0 = l.getD (i + 1) 0 := by
      intro l i
      cases l <;> simp
    have hhead : q.headD 0 = q'.headD 0 := by rw [hheadD, hheadD, h 0]
    have htail : ∀ i, q.tail.getD i 0 = q'.tail.getD i 0 := by
      intro i
      rw [htailD, htailD, h (i + 1)]
    simp only [strncmp, hhead, ih htail]

/-- The name of an entry as `namecmp` sees it: up to `n` bytes, and up to the first zero. -/
def nameKey (n : ℕ) (name : List UInt8) : List UInt8 := (name.take n).takeWhile (· ≠ 0)

theorem nameKey_of_nul {n : ℕ} {name : List UInt8} (h : 0 ∉ name) : nameKey n name = name.take n :=
  takeWhile_eq_self_iff.2 fun c hc => by
    have hne : c ≠ 0 := fun heq => h (heq ▸ mem_of_mem_take hc)
    simpa using hne

/-- **Two names are the same for `namecmp`** when their keys are. -/
theorem strncmp_eq_zero_iff {n : ℕ} {p q : List UInt8} : strncmp n p q = 0 ↔ nameKey n p = nameKey n q := by
  have hnat : ∀ {a : UInt8}, a.toNat = 0 ↔ a = 0 := fun {a} => ⟨fun h => UInt8.toNat_inj.1 h, fun h => by rw [h]; rfl⟩
  unfold nameKey
  induction n generalizing p q with
  | zero => simp [strncmp]
  | succ n ih =>
    cases p with
    | nil =>
      cases q with
      | nil => simp [strncmp]
      | cons b q =>
        by_cases hb : b = 0
        · simp [strncmp, hb]
        · have hne := mt hnat.1 hb
          simp [strncmp, hb]
          omega
    | cons a p =>
      by_cases ha : a = 0
      · subst ha
        cases q with
        | nil => simp [strncmp]
        | cons b q =>
          by_cases hb : b = 0
          · simp [strncmp, hb]
          · have hne := mt hnat.1 hb
            simp [strncmp, hb]
            omega
      · have hna := mt hnat.1 ha
        cases q with
        | nil =>
          simp [strncmp, ha]
          omega
        | cons b q =>
          by_cases hab : a = b
          · subst hab
            simpa [strncmp, ha] using ih
          · have hnab : a.toNat ≠ b.toNat := fun h => hab (UInt8.toNat_inj.1 h)
            by_cases hb : b = 0
            · simp [strncmp, ha, hb]
              omega
            · simp [strncmp, ha, hab, hb]
              omega

/-! ## Directories -/

/-- Entry `j` of a directory. -/
def direntAt (content : List UInt8) (j : ℕ) : List UInt8 :=
  (content.drop (direntSize * j)).take direntSize

/-- `dirlookup` stops at the entry. -/
def direntMatches (name entry : List UInt8) : Prop :=
  load 2 (ofList entry) 0 ≠ 0 ∧ strncmp dirSiz name (entry.drop 2) = 0

namespace Fs

variable {fs : Fs} {dp : Dinode} {content : List UInt8} {blks : List ℕ} {ind : ℕ}

/-- The bytes of a file, as `readi` gives them. -/
structure Reads (fs : Fs) (dp : Dinode) (content : List UInt8) : Prop where
  size : dp.size = content.length
  readi : ∀ off n, off + n ≤ content.length →
    fs.readi dp off n (fun _ => true) = some (fs, dp, some ((content.drop off).take n))

/-- One pass of the loop in `dirlookup`. -/
theorem lookupLoop_succ (name : List UInt8) (h : fs.Reads dp content) {m j : ℕ}
    (hm : content.length = direntSize * m) (hj : j < m) (fuel : ℕ) :
    (direntMatches name (direntAt content j) → fs.lookupLoop name (fuel + 1) dp (direntSize * j) =
      some (fs, dp, some (load 2 (ofList (direntAt content j)) 0, direntSize * j))) ∧
    (¬ direntMatches name (direntAt content j) →
      fs.lookupLoop name (fuel + 1) dp (direntSize * j) =
        fs.lookupLoop name fuel dp (direntSize * (j + 1))) := by
  have hle : direntSize * j + direntSize ≤ content.length := by
    rw [hm]
    exact Nat.mul_le_mul_left direntSize hj
  have hread : fs.readi dp (direntSize * j) direntSize (fun _ => true) =
      some (fs, dp, some (direntAt content j)) := h.readi _ _ hle
  have hsize := h.size
  have hlen : (direntAt content j).length = direntSize := by
    rw [direntAt, length_take, length_drop]
    omega
  have hpos : direntSize * j < dp.size := by
    have : 0 < direntSize := by decide
    omega
  unfold direntMatches
  rw [lookupLoop, if_pos hpos, hread]
  simp only [bind_some, hlen, ne_eq, not_true_eq_false, if_false]
  refine ⟨fun hmatch => ?_, fun hno => ?_⟩
  · rw [if_neg hmatch.1, if_pos hmatch.2]
  · by_cases hinum : load 2 (ofList (direntAt content j)) 0 = 0
    · rw [if_pos hinum]
      rfl
    · rw [if_neg hinum, if_neg fun hcmp => hno ⟨hinum, hcmp⟩]
      rfl

/-- **The first entry that matches is found.** -/
theorem lookupLoop_found {name : List UInt8} {m j k : ℕ} (fuel : ℕ)
    (h : fs.Reads dp content) (hm : content.length = direntSize * m) (hj : j < m) (hkj : k ≤ j) (hfuel : j < k + fuel)
    (hmatch : direntMatches name (direntAt content j))
    (hfirst : ∀ i, k ≤ i → i < j → ¬ direntMatches name (direntAt content i)) :
    fs.lookupLoop name fuel dp (direntSize * k) =
      some (fs, dp, some (load 2 (ofList (direntAt content j)) 0, direntSize * j)) := by
  induction fuel generalizing k with
  | zero => omega
  | succ fuel ih =>
    obtain ⟨hyes, hno⟩ := lookupLoop_succ name h hm (show k < m by omega) fuel
    by_cases heq : k = j
    · subst heq
      exact hyes hmatch
    · rw [hno (hfirst k le_rfl (by omega))]
      exact ih (by omega) (by omega) fun i hi hij => hfirst i (by omega) hij

/-- **Without one, the name is not found.** -/
theorem lookupLoop_none {name : List UInt8} {m k : ℕ} (fuel : ℕ)
    (h : fs.Reads dp content) (hm : content.length = direntSize * m)
    (hno : ∀ i, k ≤ i → i < m → ¬ direntMatches name (direntAt content i)) :
    fs.lookupLoop name fuel dp (direntSize * k) = some (fs, dp, none) := by
  induction fuel generalizing k with
  | zero => rfl
  | succ fuel ih =>
    by_cases hk : k < m
    · rw [(lookupLoop_succ name h hm hk fuel).2 (hno k le_rfl hk)]
      exact ih fun i hi him => hno i (by omega) him
    · have hend : ¬ direntSize * k < dp.size := by
        have : direntSize * m ≤ direntSize * k := Nat.mul_le_mul_left _ (by omega)
        have := h.size
        omega
      rw [lookupLoop, if_neg hend]

end Fs

theorem load_direntBytes {inum : ℕ} (hlt : inum < 2 ^ 16) (name : List UInt8) :
    load 2 (ofList (direntBytes inum name)) 0 = inum := by
  have hbytes : ∀ i, 0 ≤ i → i < 0 + 2 →
      ofList (direntBytes inum name) i = store 2 (fun _ => 0) 0 inum i := by
    intro i _ hi
    rw [ofList, direntBytes, getD_append _ _ _ _ (by simpa using hi), getD_slice,
      if_pos (by omega), zero_add]
  rw [load_congr hbytes, load_store]
  exact Nat.mod_eq_of_lt hlt

/-- The padding of a string is not seen. -/
theorem getD_slice_ofList {n : ℕ} {l : List UInt8} (hl : l.length ≤ n) (i : ℕ) :
    (slice (ofList l) 0 n).getD i 0 = l.getD i 0 := by
  rw [getD_slice, zero_add]
  split
  · rfl
  · rw [getD_eq_default _ _ (by omega)]

/-- **The entry that `mkfs` writes matches its name.** -/
theorem direntMatches_direntBytes {inum : ℕ} {name entryName : List UInt8} (hpos : 0 < inum)
    (hlt : inum < 2 ^ 16) (hname : 0 ∉ name) (hentry : 0 ∉ entryName) :
    direntMatches name (direntBytes inum entryName) ↔ name.take dirSiz = entryName.take dirSiz := by
  have hdrop : (direntBytes inum entryName).drop 2 = slice (ofList (entryName.take dirSiz)) 0 dirSiz :=
    drop_left' (length_slice _ _ _)
  unfold direntMatches
  rw [load_direntBytes hlt, hdrop, strncmp_congr (getD_slice_ofList (length_take_le _ _)),
    strncmp_eq_zero_iff, nameKey_of_nul hname,
    nameKey_of_nul fun hmem => hentry (mem_of_mem_take hmem), take_take, min_self]
  exact and_iff_right (by omega)

/-- Parts of the same length are cut out of their concatenation. -/
theorem take_drop_flatten {w j : ℕ} {L : List (List UInt8)} (hw : ∀ l ∈ L, l.length = w)
    (hj : j < L.length) : (L.flatten.drop (w * j)).take w = L[j] := by
  induction L generalizing j with
  | nil => exact absurd hj (Nat.not_lt_zero j)
  | cons a L ih =>
    have ha : a.length = w := hw a mem_cons_self
    rw [flatten_cons]
    cases j with
    | zero =>
      rw [mul_zero, drop_zero, ← ha, take_left']
      · rfl
      · rfl
    | succ j =>
      have hskip : w * (j + 1) = a.length + w * j := by rw [ha, Nat.mul_succ, add_comm]
      rw [hskip, ← drop_drop, drop_left' rfl]
      exact ih (fun l hl => hw l (mem_cons_of_mem _ hl)) (by simpa using hj)

theorem length_flatten_of_length_eq {w : ℕ} {L : List (List UInt8)} (hw : ∀ l ∈ L, l.length = w) :
    L.flatten.length = w * L.length := by
  induction L with
  | nil => rfl
  | cons a L ih =>
    rw [flatten_cons, length_append, hw a mem_cons_self,
      ih fun l hl => hw l (mem_cons_of_mem _ hl), length_cons, Nat.mul_succ, add_comm]

namespace Image

variable {im : Image} {files : List InputFile} {F : ℕ → FileEntry} {lh : LogHeader}

/-- The entries of the root directory, up to the end of its block. -/
def rootEntries (files : List InputFile) : List (List UInt8) :=
  direntBytes rootIno (ascii ".") :: direntBytes rootIno (ascii "..") ::
    (files.mapIdx (fun k f => direntBytes (k + 2) (shortname f.path)) ++
      List.replicate (bsize / direntSize - (files.length + 2)) (List.replicate direntSize 0))

theorem length_of_mem_rootEntries {e : List UInt8} (he : e ∈ rootEntries files) :
    e.length = direntSize := by
  simp only [rootEntries, mem_cons, mem_append] at he
  rcases he with rfl | rfl | he | he
  · exact length_direntBytes _ _
  · exact length_direntBytes _ _
  · obtain ⟨k, hk, rfl⟩ := mem_mapIdx.1 he
    exact length_direntBytes _ _
  · rw [eq_of_mem_replicate he, length_replicate]

theorem paddedRoot_eq : paddedRoot files = (rootEntries files).flatten := by
  have hzeros : direntSize * (bsize / direntSize - (files.length + 2)) =
      bsize - (rootContent files).length := by
    rw [length_rootContent]
    simp only [bsize, direntSize]
    omega
  rw [paddedRoot, ← hzeros, rootContent, rootEntries]
  simp [flatten_replicate_replicate, mul_comm]

theorem length_rootEntries (hcount : files.length + 2 ≤ bsize / direntSize) :
    (rootEntries files).length = bsize / direntSize := by
  simp only [rootEntries, length_cons, length_append, length_mapIdx,
    length_replicate]
  omega

/-! ## The kernel starts -/

theorem decode_encode_mkfsSb : Superblock.decode mkfsSb.encode = mkfsSb := by
  have hword : ∀ i < 8, load 4 mkfsSb.encode (4 * i) = mkfsSb.words.getD i 0 % 2 ^ 32 := by
    intro i hi
    rw [Superblock.encode, ← zero_add (4 * i)]
    exact load_storeWords hi
  have h0 := hword 0 (by decide)
  have h1 := hword 1 (by decide)
  have h2 := hword 2 (by decide)
  have h3 := hword 3 (by decide)
  have h4 := hword 4 (by decide)
  have h5 := hword 5 (by decide)
  have h6 := hword 6 (by decide)
  have h7 := hword 7 (by decide)
  unfold Superblock.decode
  rw [h0, h1, h2, h3, h4, h5, h6, h7]
  rfl

/-- An empty log is left as it is. -/
theorem recoverFromLog_of_zero {disk : ℕ → Block} (L : LogArea) (hzero : disk L.start = fun _ => 0) :
    ((LogDisk.boot disk lh).recoverFromLog L).cache = disk := by
  have hcache : (LogDisk.boot disk lh).cache L.start = fun _ => 0 := hzero
  have hn : int32 (load 4 ((LogDisk.boot disk lh).cache L.start) 0) = 0 := by
    rw [hcache, load_zero]
    decide
  have hinstall : ((LogDisk.boot disk lh).readHead L).installTrans L =
      (LogDisk.boot disk lh).readHead L := by
    have hlen : ((LogDisk.boot disk lh).readHead L).lh.n = 0 := hn
    rw [LogDisk.installTrans, hlen]
    rfl
  have hhead : LogDisk.headBlock ((LogDisk.boot disk lh).readHead L).clearHead.lh (disk L.start) =
      disk L.start := by
    rw [hzero]
    exact store_zero 4 0
  rw [LogDisk.recoverFromLog, hinstall]
  show Function.update disk L.start (LogDisk.headBlock _ (disk L.start)) = disk
  rw [hhead, Function.update_eq_self]

/-- **The kernel starts with the blocks of the image.** -/
theorem fsinit_eq (h : ImgInv im F) (lh : LogHeader) :
    Fs.fsinit im.disk lh = some ⟨mkfsSb, im.disk⟩ := by
  have hsb : Superblock.decode (im.disk 1) = mkfsSb := by
    rw [h.low 1 (by decide), if_pos rfl, decode_encode_mkfsSb]
  have hlog : im.disk mkfsSb.logstart = fun _ => 0 := by
    rw [h.low _ (by decide), if_neg (by decide)]
  have harea : 0 < mkfsSb.nlog ∧ mkfsSb.logstart + mkfsSb.nlog < 2 ^ 31 := by decide
  unfold Fs.fsinit
  simp only [hsb]
  rw [if_neg (by decide), dif_pos harea, recoverFromLog_of_zero _ hlog]

/-- The file system that the kernel starts with. -/
def kernelFs (im : Image) : Fs := ⟨mkfsSb, im.disk⟩

theorem readInode_eq {i : ℕ} (hi : i < ipb) : im.kernelFs.readInode i = im.inodeAt i := by
  rw [Fs.readInode, Fs.iblock, Nat.div_eq_of_lt hi, zero_add, Nat.mod_eq_of_lt hi]
  rfl

/-! ## The root directory -/

/-- The names in the root directory. -/
def rootNames (files : List InputFile) : List (List UInt8) :=
  ascii "." :: ascii ".." :: files.map fun f => (shortname f.path).take dirSiz

theorem shortname_nul (f : InputFile) : 0 ∉ shortname f.path := by
  have hpath := f.path_nul
  have hname : 0 ∉ (if strncmp 5 f.path (ascii "user/") = 0 then f.path.drop 5 else f.path) := by
    split
    · exact fun hmem => hpath (mem_of_mem_drop hmem)
    · exact hpath
  unfold shortname
  generalize (if strncmp 5 f.path (ascii "user/") = 0 then f.path.drop 5 else f.path) = short at *
  dsimp only
  split
  · exact fun hmem => hname (mem_of_mem_tail hmem)
  · exact hname

/-- The entries match the names of the directory. -/
theorem rootEntries_matches {name : List UInt8} (hname : 0 ∉ name) (hcount : files.length + 2 < 2 ^ 16)
    {j : ℕ} (hj : j < (rootEntries files).length) :
    direntMatches name (rootEntries files)[j] ↔ (rootNames files)[j]? = some (name.take dirSiz) := by
  match j, hj with
  | 0, _ =>
    have hdot : (ascii ".").take dirSiz = ascii "." := by decide
    simp only [rootEntries, rootNames, getElem_cons_zero, List.getElem?_cons_zero, some.injEq]
    rw [direntMatches_direntBytes (by decide) (by decide) hname (by decide), hdot, eq_comm]
  | 1, _ =>
    have hdots : (ascii "..").take dirSiz = ascii ".." := by decide
    simp only [rootEntries, rootNames, getElem_cons_succ, getElem_cons_zero,
      List.getElem?_cons_succ, List.getElem?_cons_zero, some.injEq]
    rw [direntMatches_direntBytes (by decide) (by decide) hname (by decide), hdots, eq_comm]
  | k + 2, hj =>
    simp only [rootEntries, rootNames, getElem_cons_succ, List.getElem?_cons_succ]
    by_cases hk : k < files.length
    · rw [getElem_append_left (by simpa using hk), getElem_mapIdx,
        direntMatches_direntBytes (by omega) (by omega) hname (shortname_nul _), List.getElem?_map,
        List.getElem?_eq_getElem hk, map_some, some.injEq, eq_comm]
    · -- the entry is empty
      rw [getElem_append_right (by simpa using hk), getElem_replicate, List.getElem?_map,
        List.getElem?_eq_none (by omega)]
      have hzero : load 2 (ofList (List.replicate direntSize 0)) 0 = 0 := by decide
      simp [direntMatches, hzero]

theorem direntAt_paddedRoot {j : ℕ} (hj : j < (rootEntries files).length) :
    direntAt (paddedRoot files) j = (rootEntries files)[j] := by
  rw [direntAt, paddedRoot_eq]
  exact take_drop_flatten (fun e he => length_of_mem_rootEntries he) hj

variable {name : List UInt8}

/-- The facts about the root directory that a lookup needs. -/
theorem Finished.rootDir (h : Finished im files F) :
    im.kernelFs.Reads (im.kernelFs.readInode rootIno) (paddedRoot files) ∧
      (im.kernelFs.readInode rootIno).type = tDir ∧
      (paddedRoot files).length = direntSize * (rootEntries files).length ∧
      (rootEntries files).length = bsize / direntSize ∧ files.length + 2 < 2 ^ 16 := by
  have hlt : rootIno < ipb := by decide
  have hcount : files.length + 2 ≤ ipb := h.freeinode_eq ▸ h.inodes_le
  have hipb : ipb = 1024 := by decide
  have hblock : bsize / direntSize = 2048 := by decide
  have hsize := h.size_eq hlt
  have hholds := h.holds rootIno hlt
  have hlen : (rootEntries files).length = bsize / direntSize := length_rootEntries (by omega)
  rw [readInode_eq hlt]
  rw [h.root.2] at hsize hholds
  have hm : (paddedRoot files).length = direntSize * (rootEntries files).length := by
    rw [paddedRoot_eq]
    exact length_flatten_of_length_eq fun e he => length_of_mem_rootEntries he
  have hbound : (paddedRoot files).length < 2 ^ 32 := by
    have hmax : direntSize * (bsize / direntSize) < 2 ^ 32 := by decide
    rw [hm, hlen]
    exact hmax
  refine ⟨⟨hsize, fun off n hle => hholds.readi hsize hbound (by omega)⟩, ?_, hm, hlen, by omega⟩
  rw [h.inode rootIno hlt]
  exact h.root.1

theorem length_rootNames : (rootNames files).length = files.length + 2 := by
  simp [rootNames]

/-- **A name of the directory is found**, -/
theorem Finished.dirlookup_found (h : Finished im files F) (hnodup : (rootNames files).Nodup)
    (hname : 0 ∉ name) {j : ℕ} (hj : (rootNames files)[j]? = some (name.take dirSiz)) :
    ∃ hlt : j < (rootEntries files).length,
      im.kernelFs.dirlookup (im.kernelFs.readInode rootIno) name =
        some (im.kernelFs, im.kernelFs.readInode rootIno,
          some (load 2 (ofList (rootEntries files)[j]) 0, direntSize * j)) := by
  obtain ⟨hreads, htype, hm, hlen, hcount⟩ := h.rootDir
  have hfits : files.length + 2 ≤ (rootEntries files).length := by
    simp only [rootEntries, length_cons, length_append, length_mapIdx]
    omega
  obtain ⟨hjn, hjeq⟩ := List.getElem?_eq_some_iff.1 hj
  have hlt : j < (rootEntries files).length := by
    rw [length_rootNames] at hjn
    omega
  have hfuel : (im.kernelFs.readInode rootIno).size / direntSize = (rootEntries files).length := by
    rw [hreads.size, hm]
    exact Nat.mul_div_cancel_left _ (by decide)
  have hyes : direntMatches name (direntAt (paddedRoot files) j) := by
    rw [direntAt_paddedRoot hlt]
    exact (rootEntries_matches hname hcount hlt).2 hj
  have hno : ∀ i, 0 ≤ i → i < j → ¬ direntMatches name (direntAt (paddedRoot files) i) := by
    intro i _ hij hmatch
    have hi : i < (rootEntries files).length := by omega
    rw [direntAt_paddedRoot hi, rootEntries_matches hname hcount hi] at hmatch
    obtain ⟨hin, hieq⟩ := List.getElem?_eq_some_iff.1 hmatch
    have hsame := (List.Nodup.getElem_inj_iff hnodup).1 (hieq.trans hjeq.symm)
    omega
  have hfound := Fs.lookupLoop_found (k := 0) ((rootEntries files).length + 1) hreads hm hlt
    (Nat.zero_le j) (by omega) hyes hno
  rw [direntAt_paddedRoot hlt, Nat.mul_zero] at hfound
  refine ⟨hlt, ?_⟩
  rw [Fs.dirlookup, if_neg (not_not.2 htype), hfuel]
  exact hfound

/-- and another one is not. -/
theorem Finished.dirlookup_none (h : Finished im files F) (hname : 0 ∉ name)
    (hnew : name.take dirSiz ∉ rootNames files) :
    im.kernelFs.dirlookup (im.kernelFs.readInode rootIno) name =
      some (im.kernelFs, im.kernelFs.readInode rootIno, none) := by
  obtain ⟨hreads, htype, hm, hlen, hcount⟩ := h.rootDir
  have hno : ∀ i, 0 ≤ i → i < (rootEntries files).length →
      ¬ direntMatches name (direntAt (paddedRoot files) i) := by
    intro i _ hi hmatch
    rw [direntAt_paddedRoot hi, rootEntries_matches hname hcount hi] at hmatch
    exact hnew (mem_of_getElem? hmatch)
  rw [Fs.dirlookup, if_neg (not_not.2 htype)]
  exact Fs.lookupLoop_none _ hreads hm hno

/-- The inode in the entry of a file. -/
theorem load_rootEntries {k : ℕ} (hk : k < files.length) (hcount : files.length + 2 < 2 ^ 16)
    (hlt : k + 2 < (rootEntries files).length) :
    load 2 (ofList (rootEntries files)[k + 2]) 0 = k + 2 := by
  simp only [rootEntries, getElem_cons_succ]
  rw [getElem_append_left (by simpa using hk), getElem_mapIdx, load_direntBytes (by omega)]

/-- A block that the bitmap does not mark belongs to no inode. -/
theorem Finished.unmarked (h : Finished im files F) {b : ℕ} (hb : b < im.kernelFs.sb.size)
    (hclear : im.kernelFs.marked b = false) (s : BlockSlot) (hs : s.Valid im.kernelFs.sb.ninodes) :
    s.value im.kernelFs.readInode im.kernelFs.blocks ≠ b := by
  have hsize : im.kernelFs.sb.size = 1000 := rfl
  have hbpb : b < bpb := by
    have : bpb = 524288 := by decide
    omega
  have hlt : s.inum < ipb := hs.inum_lt.trans_le (show mkfsSb.ninodes ≤ ipb by decide)
  have hfree : im.freeblock ≤ b := by
    rw [Fs.marked, Fs.bblock, Nat.div_eq_of_lt hbpb, zero_add, Nat.mod_eq_of_lt hbpb] at hclear
    have hbit := h.bitmap b
    by_contra hlow
    rw [decide_eq_true (by omega)] at hbit
    exact absurd (hclear.symm.trans hbit) (by decide)
  have hmap : FileMap im.kernelFs.blocks (im.kernelFs.readInode s.inum).addrs (F s.inum).blks
      (F s.inum).ind := by
    rw [readInode_eq hlt]
    exact (h.holds s.inum hlt).toFileMap
  intro heq
  by_cases hzero : s.value im.kernelFs.readInode im.kernelFs.blocks = 0
  · have hge := h.free_ge
    have hmeta : 0 < nmeta := by decide
    omega
  · have hrange := h.range s.inum hlt _ (hmap.value_mem hs hzero)
    omega

/-- **The kernel finds the files**: it looks their names up in the root directory and reads
their bytes, finds no other names, and has no block of theirs to give away. -/
structure Agrees (fs : Fs) (files : List InputFile) : Prop where
  found : ∀ k (h : k < files.length) name, 0 ∉ name →
    name.take dirSiz = (shortname files[k].path).take dirSiz →
    ∃ inum pos, fs.dirlookup (fs.readInode rootIno) name =
        some (fs, fs.readInode rootIno, some (inum, pos)) ∧
      (fs.readInode inum).type = tFile ∧ (fs.readInode inum).size = files[k].content.length ∧
      ∀ off n, off + n < 2 ^ 32 → fs.readi (fs.readInode inum) off n (fun _ => true) =
        some (fs, fs.readInode inum, some ((files[k].content.drop off).take n))
  other : ∀ name, 0 ∉ name → name.take dirSiz ∉ rootNames files →
    fs.dirlookup (fs.readInode rootIno) name = some (fs, fs.readInode rootIno, none)
  free : ∀ b, b < fs.sb.size ∧ fs.marked b = false ∨ (∃ fs', fs.balloc = some (fs', b)) →
    ∀ s : BlockSlot, s.Valid fs.sb.ninodes → s.value fs.readInode fs.blocks ≠ b

theorem Finished.agrees (h : Finished im files F) (hnames : (rootNames files).Nodup) :
    Agrees im.kernelFs files := by
  refine ⟨?_, fun name hname hnew => h.dirlookup_none hname hnew, ?_⟩
  · intro k hk name hname heq
    have hget : (rootNames files)[k + 2]? = some (name.take dirSiz) := by
      simp only [rootNames, List.getElem?_cons_succ]
      rw [List.getElem?_map, List.getElem?_eq_getElem hk, map_some, heq]
    obtain ⟨hlt, hlookup⟩ := h.dirlookup_found hnames hname hget
    rw [load_rootEntries hk h.rootDir.2.2.2.2 hlt] at hlookup
    have hi : k + 2 < ipb := by
      refine lt_of_lt_of_le ?_ h.inodes_le
      rw [h.freeinode_eq]
      omega
    obtain ⟨htype, hcontent⟩ := h.file k hk
    have hholds := h.holds (k + 2) hi
    have hsize := h.size_eq hi
    rw [hcontent] at hholds hsize
    have hbound : files[k].content.length < 2 ^ 32 := by
      rw [← hsize]
      exact (Dinode.decode_fits _ _).size_lt
    refine ⟨k + 2, _, hlookup, ?_, ?_, ?_⟩
    · rw [readInode_eq hi, h.inode (k + 2) hi]
      exact htype
    · rw [readInode_eq hi, hsize]
    · intro off n hoff
      rw [readInode_eq hi]
      exact hholds.readi hsize hbound hoff
  · rintro b (⟨hlt, hclear⟩ | ⟨fs', halloc⟩) s hs
    · exact h.unmarked hlt hclear s hs
    · obtain ⟨hlt, hclear⟩ := Fs.balloc_unmarked halloc
      exact h.unmarked hlt hclear s hs

/-- **`mkfs` and the kernel agree on the format of the disk.** -/
theorem mkfs_kernel_agree (hcount : files.length ≤ 198)
    (hslash : ∀ f ∈ files, 47 ∉ shortname f.path) (hnames : (rootNames files).Nodup)
    (hfit : need files ≤ fsSize) (lh : LogHeader) :
    ∃ im fs, mkfs files = some im ∧ Fs.fsinit im.disk lh = some fs ∧ Agrees fs files := by
  have hipb : 200 ≤ ipb := by decide
  obtain ⟨im, F, hrun, hdone⟩ := mkfs_spec (by omega) hslash hfit
  exact ⟨im, im.kernelFs, hrun, fsinit_eq hdone.toImgInv lh, hdone.agrees hnames⟩

theorem mkfs_kernel_agree_twoFiles :
    ∃ im fs, mkfs twoFiles = some im ∧ Fs.fsinit im.disk ⟨0, fun _ => 0⟩ = some fs ∧
      Agrees fs twoFiles :=
  mkfs_kernel_agree (by decide) (by decide) (by decide) (by decide) ⟨0, fun _ => 0⟩

end Image

end AudioPlayer
