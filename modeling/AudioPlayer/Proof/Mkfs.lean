import AudioPlayer.Proof.MkfsAppend
import Mathlib.Algebra.Ring.Nat
import Mathlib.Data.List.Infix

/-!
# The image that `mkfs` writes

`ImgInv` says which files an image has and which blocks they own, and the steps of `main`
keep it.

* `Image.iappend_spec`, `Image.iappend_full`: the bytes are appended to the file, if there
  are blocks for them;
* `Image.mkfs_spec`: the image of a list of files that fits has these files;
* `Image.mkfs_finished`: so has every image that `mkfs` comes to write;
* `Image.mkfs_consistent_iff`: the image is consistent exactly if there are at most 198 files.
-/

namespace AudioPlayer

open Function Bytes List Option

namespace Image

variable {im im' : Image} {r : Image × Dinode × ℕ} {chunks : List (List UInt8)} {addrs : ℕ → ℕ}

/-! ## Inodes -/

/-- The inode in its place in the inode block. -/
def inodeAt (im : Image) (i : ℕ) : Dinode := .decode (im.disk mkfsSb.inodestart) (dinodeSize * i)

/-- The image with an inode written. -/
def setInode (im : Image) (i : ℕ) (din : Dinode) : Image :=
  { im with
    disk := update im.disk mkfsSb.inodestart
      (move (im.disk mkfsSb.inodestart) (dinodeSize * i) dinodeSize din.encode)
    trace := .winode i mkfsSb.inodestart :: im.trace }

/-- The inodes in use fit into one block. -/
theorem iblock_of_lt {i : ℕ} (hi : i < ipb) : iblock i = mkfsSb.inodestart := by
  rw [iblock, Nat.div_eq_of_lt hi, zero_add]

theorem winode_eq (hn : im.nblk = fsSize) {i : ℕ} (hi : i < ipb) (din : Dinode) :
    im.winode i din = some (im.setInode i din) := by
  have hlt : mkfsSb.inodestart < fsSize := by decide
  unfold winode setInode
  simp only [iblock_of_lt hi, rsect_of_lt hn hlt, wsect_of_lt hn hlt, map_some,
    Nat.mod_eq_of_lt hi]

theorem rinode_eq (hn : im.nblk = fsSize) {i : ℕ} (hi : i < ipb) :
    im.rinode i = some (im.inodeAt i) := by
  have hlt : mkfsSb.inodestart < fsSize := by decide
  unfold rinode inodeAt
  simp only [iblock_of_lt hi, rsect_of_lt hn hlt, map_some, Nat.mod_eq_of_lt hi]

theorem inodeAt_setInode {din : Dinode} (h : din.Fits) (i : ℕ) :
    (im.setInode i din).inodeAt i = din := by
  unfold inodeAt setInode
  simp only [update_self]
  exact Dinode.decode_move h _ _

theorem inodeAt_setInode_of_ne {i j : ℕ} (hne : j ≠ i) (din : Dinode) :
    (im.setInode i din).inodeAt j = im.inodeAt j := by
  unfold inodeAt setInode
  simp only [update_self]
  refine Dinode.decode_congr fun k hk hk' => move_of_disjoint ?_
  simp only [dinodeSize] at *
  omega

theorem disk_setInode {b i : ℕ} (hne : b ≠ mkfsSb.inodestart) (din : Dinode) :
    (im.setInode i din).disk b = im.disk b := update_of_ne hne _ _

/-! ## The files of an image -/

/-- A file of the image. -/
structure FileEntry where
  type : ℕ
  nlink : ℕ
  content : List UInt8
  blks : List ℕ
  ind : ℕ

/-- The entry of an inode that is not in use. -/
def FileEntry.unused : FileEntry := ⟨0, 0, [], [], 0⟩

def FileEntry.owned (e : FileEntry) : List ℕ := AudioPlayer.owned e.blks e.ind

/-- The inode of the file, with its addresses. -/
def FileEntry.dinode (e : FileEntry) (addrs : ℕ → ℕ) : Dinode :=
  ⟨e.type, 0, 0, e.nlink, e.content.length, addrs⟩

/-- The inodes that `ialloc` has given out. -/
def InUse (im : Image) (i : ℕ) : Prop := 1 ≤ i ∧ i < im.freeinode

/-- What `winode` and `iappend` may do while the inodes below `n` are in use. -/
def AccessOk (n : ℕ) : MkfsAccess → Prop
  | .winode inum bn => inum < n ∧ bn = mkfsSb.inodestart
  | .indirect i => i < nIndirect

theorem AccessOk.mono {n m : ℕ} (hle : n ≤ m) {a : MkfsAccess} (h : AccessOk n a) :
    AccessOk m a := by
  cases a with
  | winode inum bn => exact ⟨h.1.trans_le hle, h.2⟩
  | indirect i => exact h

/-- **The files of an image.** The inodes have the files `F`, each one has its blocks for
itself, and everything else is as it was at the start. -/
structure ImgInv (im : Image) (F : ℕ → FileEntry) : Prop where
  nblk : im.nblk = fsSize
  free_ge : nmeta ≤ im.freeblock
  free_le : im.freeblock ≤ fsSize
  inodes_le : im.freeinode ≤ ipb
  inode : ∀ i < ipb, im.inodeAt i = (F i).dinode (im.inodeAt i).addrs
  holds : ∀ i < ipb, HoldsFile im.disk (im.inodeAt i).addrs (F i).content (F i).blks (F i).ind
  range : ∀ i < ipb, ∀ b ∈ (F i).owned, nmeta ≤ b ∧ b < im.freeblock
  nodup : ∀ i < ipb, (F i).owned.Nodup
  disjoint : ∀ i < ipb, ∀ j < ipb, i ≠ j → ∀ b ∈ (F i).owned, b ∉ (F j).owned
  cover : ∀ b, nmeta ≤ b → b < im.freeblock → ∃ i < ipb, b ∈ (F i).owned
  zero : ∀ b, im.freeblock ≤ b → b < fsSize → im.disk b = fun _ => 0
  unused : ∀ i < ipb, ¬ im.InUse i → F i = FileEntry.unused
  low : ∀ b < mkfsSb.inodestart, im.disk b = if b = 1 then mkfsSb.encode else fun _ => 0
  trace : ∀ a ∈ im.trace, AccessOk im.freeinode a

variable {F : ℕ → FileEntry} {i : ℕ} {p : List UInt8} {din : Dinode} {inum : ℕ}

theorem ImgInv.inode_lt (h : ImgInv im F) (hi : im.InUse i) : i < ipb := hi.2.trans_le h.inodes_le

theorem ImgInv.mapped (h : ImgInv im F) (hi : i < ipb) :
    Mapped im (im.inodeAt i).addrs (F i).content (F i).blks (F i).ind :=
  ⟨h.nblk, h.free_ge, h.free_le, (h.holds i hi).toFileMap, (h.holds i hi).data, h.range i hi,
    h.nodup i hi, h.zero, (Dinode.decode_fits _ _).addrs_end⟩

/-- Addresses are numbers of blocks. -/
theorem Mapped.addrs_lt {c : List UInt8} {blks : List ℕ} {ind : ℕ}
    (h : Mapped im addrs c blks ind) (k : ℕ) : addrs k < 2 ^ 32 := by
  have hfree := h.free_le
  have hsz := fsSize_eq
  have hblk : ∀ b ∈ owned blks ind, b < 2 ^ 32 := by
    intro b hb
    have := h.range b hb
    omega
  rcases lt_trichotomy k nDirect with hk | rfl | hk
  · rw [h.map.direct k hk]
    by_cases hlt : k < blks.length
    · rw [getD_eq_getElem _ _ hlt]
      exact hblk _ (mem_owned_of_mem (getElem_mem hlt))
    · rw [getD_eq_default _ _ (by omega)]
      decide
  · rw [h.map.indirect]
    by_cases hne : ind = 0
    · rw [hne]
      decide
    · exact hblk _ (ind_mem_owned hne)
  · rw [h.addrs_end k hk]
    decide

theorem FileEntry.dinode_fits {im1 : Image} {e : FileEntry}
    (hm : Mapped im1 addrs e.content e.blks e.ind) (hlen : e.blks.length = blockCount e.content.length)
    (htype : e.type < 2 ^ 16) (hnlink : e.nlink < 2 ^ 16) : (e.dinode addrs).Fits := by
  have hsize : e.content.length < 2 ^ 32 := by
    have hle := length_lt hm hlen
    have hmax : (fsSize - nmeta) * bsize < 2 ^ 32 := by decide
    omega
  exact ⟨htype, Nat.two_pow_pos 16, Nat.two_pow_pos 16, hnlink, hsize, hm.addrs_lt, hm.addrs_end⟩

/-- **A file is changed, and its inode written.** -/
theorem ImgInv.setFile {im1 : Image} {e : FileEntry} (h : ImgInv im F)
    (hi : im.InUse i) (hm : Mapped im1 addrs e.content e.blks e.ind)
    (hk : Kept im im1 (F i).owned e.owned) (hlen : e.blks.length = blockCount e.content.length)
    (htype : e.type < 2 ^ 16) (hnlink : e.nlink < 2 ^ 16) :
    ImgInv (im1.setInode i (e.dinode addrs)) (update F i e) := by
  have hilt := h.inode_lt hi
  have hge := h.free_ge
  have hstart : mkfsSb.inodestart < nmeta := by decide
  have hmono := hk.free_le
  have hfreeinode : (im1.setInode i (e.dinode addrs)).freeinode = im.freeinode := hk.freeinode
  -- the blocks of metadata are not touched before the inode is written
  have hmeta : ∀ b < nmeta, im1.disk b = im.disk b := by
    intro b hb
    refine hk.disk b (by omega) fun hmem => ?_
    have := h.range i hilt b hmem
    omega
  have hsame : ∀ j ≠ i, (im1.setInode i (e.dinode addrs)).inodeAt j = im.inodeAt j := by
    intro j hj
    rw [inodeAt_setInode_of_ne hj, inodeAt, hmeta _ hstart, inodeAt]
  have hself : (im1.setInode i (e.dinode addrs)).inodeAt i = e.dinode addrs :=
    inodeAt_setInode (FileEntry.dinode_fits hm hlen htype hnlink) i
  have hdisk : ∀ b, nmeta ≤ b → (im1.setInode i (e.dinode addrs)).disk b = im1.disk b :=
    fun b hb => disk_setInode (by omega) _
  -- a new block of the file was unused before
  have hnew : ∀ j < ipb, j ≠ i → ∀ b ∈ e.owned, b ∉ (F j).owned := by
    intro j hj hji b hb hb'
    rcases hk.own b hb with hold | hfree
    · exact h.disjoint i hilt j hj (Ne.symm hji) b hold hb'
    · have := h.range j hj b hb'
      omega
  refine ⟨hm.nblk, hm.free_ge, hm.free_le, hfreeinode ▸ h.inodes_le, fun j hj => ?_, fun j hj => ?_,
    fun j hj b hb => ?_, fun j hj => ?_, fun j hj k hk' hne b hb => ?_, fun b hb hlt => ?_,
    fun b hb hlt => ?_, fun j hj hn => ?_, fun b hb => ?_, fun a ha => ?_⟩
  · by_cases hji : j = i
    · subst hji
      rw [hself, update_self]
      rfl
    · rw [hsame j hji, update_of_ne hji]
      exact h.inode j hj
  · by_cases hji : j = i
    · subst hji
      rw [hself, update_self]
      have hfile : HoldsFile im1.disk addrs e.content e.blks e.ind :=
        { hm.map with length_eq := hlen, data := hm.data }
      exact hfile.congr fun b hb => hdisk b (hm.range b hb).1
    · rw [hsame j hji, update_of_ne hji]
      refine (h.holds j hj).congr fun b hb => ?_
      have hrange := h.range j hj b hb
      rw [hdisk b hrange.1]
      exact hk.disk b hrange.2 (h.disjoint j hj i hilt hji b hb)
  · by_cases hji : j = i
    · subst hji
      rw [update_self] at hb
      exact hm.range b hb
    · rw [update_of_ne hji] at hb
      have hrange := h.range j hj b hb
      exact ⟨hrange.1, hrange.2.trans_le hmono⟩
  · by_cases hji : j = i
    · subst hji
      rw [update_self]
      exact hm.nodup
    · rw [update_of_ne hji]
      exact h.nodup j hj
  · by_cases hji : j = i
    · subst hji
      rw [update_self] at hb
      rw [update_of_ne (Ne.symm hne)]
      exact hnew k hk' (Ne.symm hne) b hb
    · rw [update_of_ne hji] at hb
      by_cases hki : k = i
      · subst hki
        rw [update_self]
        exact fun hmem => hnew j hj hji b hmem hb
      · rw [update_of_ne hki]
        exact h.disjoint j hj k hk' hne b hb
  · -- a block in use belonged to a file before, or it is new
    by_cases hold : b < im.freeblock
    · obtain ⟨j, hj, hmem⟩ := h.cover b hb hold
      refine ⟨j, hj, ?_⟩
      by_cases hji : j = i
      · subst hji
        rw [update_self]
        exact hk.cover b (Or.inl hmem)
      · rwa [update_of_ne hji]
    · refine ⟨i, hilt, ?_⟩
      rw [update_self]
      exact hk.cover b (Or.inr ⟨by omega, hlt⟩)
  · have hb' : im1.freeblock ≤ b := hb
    rw [hdisk b (by omega)]
    exact hm.zero b hb hlt
  · have hn' : ¬ im.InUse j := by
      unfold InUse at *
      rwa [hfreeinode] at hn
    rw [update_of_ne fun hji : j = i => hn' (hji ▸ hi)]
    exact h.unused j hj hn'
  · rw [disk_setInode (by omega), hmeta b (by omega)]
    exact h.low b hb
  · rw [hfreeinode]
    obtain ⟨tr, htr, hall⟩ := hk.trace
    rcases mem_cons.1 ha with rfl | ha
    · exact ⟨hi.2, rfl⟩
    rw [htr] at ha
    rcases mem_append.1 ha with ha | ha
    · obtain ⟨k, hlt, rfl⟩ := hall a ha
      exact hlt
    · exact h.trace a ha

/-- The entry of a file with more bytes. -/
def FileEntry.grown (e : FileEntry) (p : List UInt8) (blks : List ℕ) (ind : ℕ) : FileEntry :=
  ⟨e.type, e.nlink, e.content ++ p, blks, ind⟩

theorem ImgInv.type_lt (h : ImgInv im F) (hi : i < ipb) :
    (F i).type < 2 ^ 16 ∧ (F i).nlink < 2 ^ 16 := by
  have hfits : (im.inodeAt i).Fits := Dinode.decode_fits _ _
  rw [h.inode i hi] at hfits
  exact ⟨hfits.type_lt, hfits.nlink_lt⟩

theorem ImgInv.size_eq (h : ImgInv im F) (hi : i < ipb) :
    (im.inodeAt i).size = (F i).content.length := by
  rw [h.inode i hi]
  rfl

/-- **`iappend`** appends the bytes to the file, if there are blocks for them, -/
theorem iappend_spec (h : ImgInv im F) (hi : im.InUse i)
    (hroom : Room im (F i).content p.length) :
    ∃ im' blks ind, im.iappend i p = some im' ∧
      ImgInv im' (update F i ((F i).grown p blks ind)) ∧
      im'.freeinode = im.freeinode ∧
      im'.freeblock + blockNeed (F i).content.length =
        im.freeblock + blockNeed ((F i).content ++ p).length := by
  have hlt := h.inode_lt hi
  obtain ⟨htype, hnlink⟩ := h.type_lt hlt
  obtain ⟨im1, din, blks, ind, hloop, hg, hlen, hcost⟩ :=
    appendLoop_spec (h.mapped hlt) (h.holds i hlt).length_eq le_rfl hroom
  have hdin : ({ din with size := ((F i).content ++ p).length } : Dinode) =
      ((F i).grown p blks ind).dinode din.addrs := by
    rw [hg.fields, h.inode i hlt]
    rfl
  refine ⟨_, blks, ind, ?_, h.setFile hi hg.mapped hg.kept hlen htype hnlink, hg.kept.freeinode, hcost⟩
  unfold iappend
  rw [rinode_eq h.nblk hlt, bind_some, h.size_eq hlt, hloop, bind_some, ← hdin]
  exact winode_eq hg.mapped.nblk hlt _

/-- and fails if there are not. -/
theorem iappend_full (h : ImgInv im F) (hi : im.InUse i)
    (hroom : ¬ Room im (F i).content p.length) : im.iappend i p = none := by
  have hlt := h.inode_lt hi
  unfold iappend
  rw [rinode_eq h.nblk hlt, bind_some, h.size_eq hlt,
    appendLoop_full (h.mapped hlt) (h.holds i hlt).length_eq le_rfl hroom, bind_none]

/-- The next inode is given out. -/
theorem ImgInv.nextInode (h : ImgInv im F) (hlt : im.freeinode < ipb) :
    ImgInv { im with freeinode := im.freeinode + 1 } F := by
  refine ⟨h.nblk, h.free_ge, h.free_le, hlt, h.inode, h.holds, h.range, h.nodup, h.disjoint, h.cover, h.zero,
    fun i hi hn => h.unused i hi fun hi' => hn ⟨hi'.1, hi'.2.trans (Nat.lt_succ_self _)⟩, h.low,
    fun a ha => (h.trace a ha).mono (Nat.le_succ _)⟩

/-- **`ialloc`** makes an empty file. -/
theorem ialloc_spec {type : ℕ} (h : ImgInv im F) (hpos : 1 ≤ im.freeinode)
    (hlt : im.freeinode < ipb) (htype : type < 2 ^ 16) :
    ∃ im', im.ialloc type = some (im', im.freeinode) ∧
      ImgInv im' (update F im.freeinode ⟨type, 1, [], [], 0⟩) ∧
      im'.freeinode = im.freeinode + 1 ∧ im'.freeblock = im.freeblock := by
  have hfree : F im.freeinode = FileEntry.unused :=
    h.unused _ hlt fun huse => lt_irrefl _ huse.2
  have hnext := h.nextInode hlt
  have hm : Mapped { im with freeinode := im.freeinode + 1 } (fun _ => 0) [] [] 0 :=
    ⟨h.nblk, h.free_ge, h.free_le, FileMap.empty _, by simp, by simp [owned], by simp [owned], h.zero,
      fun _ _ => rfl⟩
  have hkept : Kept { im with freeinode := im.freeinode + 1 }
      { im with freeinode := im.freeinode + 1 } (F im.freeinode).owned (owned [] 0) := by
    rw [hfree]
    exact Kept.refl _ _
  have hset := hnext.setFile (e := ⟨type, 1, [], [], 0⟩) ⟨hpos, Nat.lt_succ_self _⟩ hm hkept
    blockCount_zero.symm htype (Nat.one_lt_two_pow (by decide))
  refine ⟨_, ?_, hset, rfl, rfl⟩
  exact congrArg (Option.map fun im' => (im', im.freeinode)) (winode_eq hnext.nblk hlt _)

/-- The chunks of a file are appended one by one, -/
theorem appendChunks_spec (h : ImgInv im F) (hi : im.InUse i)
    (hroom : Room im (F i).content chunks.flatten.length) :
    ∃ im' blks ind, chunks.foldlM (fun im chunk => im.iappend i chunk) im = some im' ∧
      ImgInv im' (update F i ((F i).grown chunks.flatten blks ind)) ∧
      im'.freeinode = im.freeinode ∧
      im'.freeblock + blockNeed (F i).content.length =
        im.freeblock + blockNeed ((F i).content ++ chunks.flatten).length := by
  induction chunks generalizing im F with
  | nil =>
    refine ⟨im, (F i).blks, (F i).ind, rfl, ?_, rfl, by simp⟩
    have heq : (F i).grown [].flatten (F i).blks (F i).ind = F i := by simp [FileEntry.grown]
    rwa [heq, update_eq_self]
  | cons chunk chunks ih =>
    rw [flatten_cons, length_append] at hroom
    obtain ⟨im1, blks1, ind1, happ, hinv, hfree, hcost⟩ :=
      iappend_spec h hi (hroom.mono (Nat.le_add_right _ _))
    have hself : (update F i ((F i).grown chunk blks1 ind1)) i =
        (F i).grown chunk blks1 ind1 := update_self _ _ _
    have hi' : im1.InUse i := ⟨hi.1, hfree ▸ hi.2⟩
    have hroom' : Room im1 ((F i).content ++ chunk) chunks.flatten.length :=
      (room_iff hcost (by simp; omega)).2 hroom
    obtain ⟨im2, blks2, ind2, hrest, hinv2, hfree2, hcost2⟩ := ih hinv hi' (by rwa [hself])
    rw [hself] at hinv2 hcost2
    refine ⟨im2, blks2, ind2, ?_, ?_, hfree2.trans hfree, ?_⟩
    · rw [foldlM_cons, happ]
      exact hrest
    · have heq : ((F i).grown chunk blks1 ind1).grown chunks.flatten blks2 ind2 =
          (F i).grown (chunk :: chunks).flatten blks2 ind2 := by
        simp [FileEntry.grown]
      rwa [update_idem, heq] at hinv2
    · simp only [FileEntry.grown, append_assoc] at hcost2
      rw [flatten_cons]
      omega

/-- or one of them fails. -/
theorem appendChunks_full (h : ImgInv im F) (hi : im.InUse i)
    (hroom : ¬ Room im (F i).content chunks.flatten.length) :
    chunks.foldlM (fun im chunk => im.iappend i chunk) im = none := by
  induction chunks generalizing im F with
  | nil => exact absurd (Nat.add_le_add_right h.free_le _) hroom
  | cons chunk chunks ih =>
    rw [flatten_cons, length_append] at hroom
    rw [foldlM_cons]
    by_cases hone : Room im (F i).content chunk.length
    · obtain ⟨im1, blks1, ind1, happ, hinv, hfree, hcost⟩ := iappend_spec h hi hone
      have hself : (update F i ((F i).grown chunk blks1 ind1)) i =
          (F i).grown chunk blks1 ind1 := update_self _ _ _
      have hroom' : ¬ Room im1 ((F i).content ++ chunk) chunks.flatten.length := fun hr =>
        hroom ((room_iff hcost (by simp; omega)).1 hr)
      rw [happ]
      exact ih hinv ⟨hi.1, hfree ▸ hi.2⟩ (by rwa [hself])
    · rw [iappend_full h hi hone]
      rfl

/-! ## The files of `main` -/

/-- The contents of the root directory. -/
def rootContent (files : List InputFile) : List UInt8 :=
  direntBytes rootIno (ascii ".") ++ direntBytes rootIno (ascii "..") ++
    (files.mapIdx fun k f => direntBytes (k + 2) (shortname f.path)).flatten

theorem rootContent_append (files : List InputFile) (f : InputFile) :
    rootContent (files ++ [f]) =
      rootContent files ++ direntBytes (files.length + 2) (shortname f.path) := by
  simp [rootContent, mapIdx_append]

theorem length_direntBytes (inum : ℕ) (name : List UInt8) :
    (direntBytes inum name).length = direntSize := by
  simp [direntBytes, slice, dirSiz, direntSize]

theorem length_rootContent (files : List InputFile) :
    (rootContent files).length = direntSize * (files.length + 2) := by
  induction files using List.reverseRecOn with
  | nil => simp [rootContent, length_direntBytes, direntSize]
  | append_singleton files f ih =>
    rw [rootContent_append, length_append, ih, length_direntBytes, length_append,
      length_singleton]
    simp only [direntSize]
    omega

/-- The blocks that the files take. -/
def need (files : List InputFile) : ℕ :=
  nmeta + blockNeed (direntSize * (files.length + 2)) +
    (files.map fun f => blockNeed f.content.length).sum

theorem need_append (files : List InputFile) (f : InputFile) :
    need (files ++ [f]) + blockNeed (direntSize * (files.length + 2)) =
      need files + blockNeed (direntSize * (files.length + 3)) + blockNeed f.content.length := by
  have hlen : (files ++ [f]).length + 2 = files.length + 3 := by simp
  simp only [need, hlen, map_append, sum_append, map_cons, map_nil,
    sum_singleton]
  omega

/-- **The image after some of the files.** -/
structure Made (im : Image) (files : List InputFile) (F : ℕ → FileEntry) : Prop
    extends ImgInv im F where
  freeinode_eq : im.freeinode = files.length + 2
  root : (F rootIno).type = tDir ∧ (F rootIno).content = rootContent files
  file : ∀ k (h : k < files.length),
    (F (k + 2)).type = tFile ∧ (F (k + 2)).content = files[k].content
  freeblock_eq : im.freeblock = need files

variable {files : List InputFile} {f : InputFile}

theorem blockNeed_zero : blockNeed 0 = 0 := by decide

/-- The inode of the next file is given out, -/
theorem allocFile_spec (h : Made im files F) (hlt : files.length + 2 < ipb) :
    ∃ im', im.ialloc tFile = some (im', files.length + 2) ∧
      ImgInv im' (update F (files.length + 2) ⟨tFile, 1, [], [], 0⟩) ∧
      im'.InUse rootIno ∧ im'.freeinode = files.length + 3 ∧ im'.freeblock = im.freeblock := by
  have hfi := h.freeinode_eq
  obtain ⟨im', halloc, hinv, hfree, hblock⟩ :=
    ialloc_spec h.toImgInv (by omega) (by omega) (show tFile < 2 ^ 16 by decide)
  rw [hfi] at halloc hinv hfree
  exact ⟨im', halloc, hinv, ⟨le_rfl, by simp only [rootIno]; omega⟩, hfree, hblock⟩

theorem root_update (e : FileEntry) :
    (update F (files.length + 2) e) rootIno = F rootIno :=
  update_of_ne (by simp only [rootIno]; omega) _ _

/-- and its name entered. -/
theorem enterFile_spec (h : Made im files F) (hlt : files.length + 2 < ipb)
    (hroom : Room im (rootContent files) direntSize) :
    ∃ im1 im' blks ind, im.ialloc tFile = some (im1, files.length + 2) ∧
      im1.iappend rootIno (direntBytes (files.length + 2) (shortname f.path)) = some im' ∧
      ImgInv im' (update (update F (files.length + 2) ⟨tFile, 1, [], [], 0⟩)
        rootIno ((F rootIno).grown (direntBytes (files.length + 2) (shortname f.path)) blks ind)) ∧
      im'.freeinode = files.length + 3 ∧
      im'.freeblock + blockNeed (direntSize * (files.length + 2)) =
        im.freeblock + blockNeed (direntSize * (files.length + 3)) := by
  obtain ⟨im1, halloc, hinv1, huse, hfree1, hblock1⟩ := allocFile_spec h hlt
  have hroom1 : Room im1 ((update F (files.length + 2) ⟨tFile, 1, [], [], 0⟩) rootIno).content
      (direntBytes (files.length + 2) (shortname f.path)).length := by
    rw [root_update, h.root.2, length_direntBytes]
    unfold Room
    rw [hblock1]
    exact hroom
  obtain ⟨im', blks, ind, happ, hinv', hfree', hcost⟩ := iappend_spec hinv1 huse hroom1
  rw [root_update] at hinv' hcost
  refine ⟨im1, im', blks, ind, halloc, happ, hinv', by omega, ?_⟩
  rw [h.root.2, length_append, length_rootContent, length_direntBytes, hblock1] at hcost
  exact hcost

/-- The name in the assertion of `main`, with its underscore. -/
theorem slash_mem_iff (path : List UInt8) :
    47 ∈ (if strncmp 5 path (ascii "user/") = 0 then path.drop 5 else path) ↔ 47 ∈ shortname path := by
  unfold shortname
  generalize (if strncmp 5 path (ascii "user/") = 0 then path.drop 5 else path) = name
  dsimp only
  split
  · rename_i hhead
    obtain ⟨rest, rfl⟩ : ∃ rest, name = 95 :: rest := by
      cases name with
      | nil => simp at hhead
      | cons a rest => exact ⟨rest, by simpa using hhead⟩
    simp
  · rfl

/-- The steps of `addFile`. -/
theorem addFile_eq (f : InputFile) (hslash : 47 ∉ shortname f.path) {im1 im2 : Image}
    (halloc : im.ialloc tFile = some (im1, inum))
    (happ : im1.iappend rootIno (direntBytes inum (shortname f.path)) = some im2) :
    im.addFile f = f.chunks.foldlM (fun im chunk => im.iappend inum chunk) im2 := by
  unfold addFile
  simp only [if_neg fun h => hslash ((slash_mem_iff f.path).1 h), halloc, bind_some, happ]

/-- There is room for the entry of the file and for its bytes. -/
theorem room_of_need (h : Made im files F) (hfit : need (files ++ [f]) ≤ fsSize) :
    Room im (rootContent files) direntSize := by
  have hneed := need_append files f
  have hblock := h.freeblock_eq
  unfold Room
  rw [length_rootContent, hblock, show direntSize * (files.length + 2) + direntSize =
    direntSize * (files.length + 3) from rfl]
  omega

/-- **A file is added**, if there are blocks for it, -/
theorem addFile_spec (h : Made im files F) (hlt : files.length + 2 < ipb)
    (hslash : 47 ∉ shortname f.path) (hfit : need (files ++ [f]) ≤ fsSize) :
    ∃ im' F', im.addFile f = some im' ∧ Made im' (files ++ [f]) F' := by
  have hneed := need_append files f
  have hblock := h.freeblock_eq
  have hone : rootIno = 1 := rfl
  obtain ⟨im1, im2, blks, ind, halloc, happ, hinv, hfree, hcost⟩ :=
    enterFile_spec (f := f) h hlt (room_of_need h hfit)
  set F1 := update (update F (files.length + 2) ⟨tFile, 1, [], [], 0⟩) rootIno
    ((F rootIno).grown (direntBytes (files.length + 2) (shortname f.path)) blks ind) with hF1
  have hnew : F1 (files.length + 2) = ⟨tFile, 1, [], [], 0⟩ := by
    rw [hF1, update_of_ne (by omega), update_self]
  have hroom : Room im2 (F1 (files.length + 2)).content f.chunks.flatten.length := by
    rw [hnew]
    unfold Room
    simp only [length_nil, zero_add, blockNeed_zero]
    have hcontent : f.chunks.flatten.length = f.content.length := rfl
    rw [hcontent]
    omega
  obtain ⟨im', blks', ind', hfold, hinv', hfree', hcost'⟩ :=
    appendChunks_spec hinv ⟨by omega, by omega⟩ hroom
  rw [hnew] at hinv' hcost'
  refine ⟨im', _, (addFile_eq f hslash halloc happ).trans hfold,
    { hinv' with freeinode_eq := ?_, root := ?_, file := fun k hk => ?_, freeblock_eq := ?_ }⟩
  · rw [hfree', hfree, length_append]
    rfl
  · have hroot : update F1 (files.length + 2) (FileEntry.grown ⟨tFile, 1, [], [], 0⟩
        f.chunks.flatten blks' ind') rootIno =
        (F rootIno).grown (direntBytes (files.length + 2) (shortname f.path)) blks ind := by
      rw [update_of_ne (by omega), hF1, update_self]
    rw [hroot, rootContent_append, ← h.root.2]
    exact ⟨h.root.1, rfl⟩
  · by_cases hlast : k = files.length
    · subst hlast
      rw [update_self, getElem_concat_length rfl]
      exact ⟨rfl, nil_append _⟩
    · have hk' : k < files.length := by
        rw [length_append, length_singleton] at hk
        omega
      rw [update_of_ne (by omega), hF1, update_of_ne (by omega),
        update_of_ne (by omega), getElem_append_left hk']
      exact h.file k hk'
  · simp only [length_nil, blockNeed_zero, nil_append] at hcost'
    have hcontent : f.chunks.flatten.length = f.content.length := rfl
    rw [hcontent] at hcost'
    omega

/-- and the program fails if there are not. -/
theorem addFile_full (h : Made im files F) (hlt : files.length + 2 < ipb)
    (hfit : fsSize < need (files ++ [f])) : im.addFile f = none := by
  have hneed := need_append files f
  have hblock := h.freeblock_eq
  by_cases hslash : 47 ∈ shortname f.path
  · unfold addFile
    simp only [if_pos ((slash_mem_iff f.path).2 hslash)]
  by_cases hroom : Room im (rootContent files) direntSize
  · -- the entry is written, and the bytes do not fit
    obtain ⟨im1, im2, blks, ind, halloc, happ, hinv, hfree, hcost⟩ :=
      enterFile_spec (f := f) h hlt hroom
    refine (addFile_eq f hslash halloc happ).trans
      (appendChunks_full hinv ⟨by omega, by omega⟩ ?_)
    rw [update_of_ne (by simp only [rootIno]; omega), update_self]
    unfold Room
    simp only [length_nil, zero_add, blockNeed_zero]
    have hcontent : f.chunks.flatten.length = f.content.length := rfl
    rw [hcontent]
    omega
  · obtain ⟨im1, halloc, hinv, huse, -, hblock1⟩ := allocFile_spec h hlt
    have hroom1 : ¬ Room im1
        ((update F (files.length + 2) ⟨tFile, 1, [], [], 0⟩) rootIno).content
        (direntBytes (files.length + 2) (shortname f.path)).length := by
      rw [root_update, h.root.2, length_direntBytes]
      unfold Room
      rw [hblock1]
      exact hroom
    unfold addFile
    simp only [if_neg fun h => hslash ((slash_mem_iff f.path).1 h), halloc, bind_some,
      iappend_full hinv huse hroom1, bind_none]

theorem need_le_append (files rest : List InputFile) : need files ≤ need (files ++ rest) := by
  have hroot : blockNeed (direntSize * (files.length + 2)) ≤
      blockNeed (direntSize * ((files ++ rest).length + 2)) :=
    blockNeed_mono (Nat.mul_le_mul_left _ (by simp))
  simp only [need, map_append, sum_append]
  omega

/-- **The loop over the files**, when there are blocks for all of them, -/
theorem addFiles_spec {rest : List InputFile} (h : Made im files F)
    (hcount : files.length + rest.length + 2 ≤ ipb) (hslash : ∀ f ∈ rest, 47 ∉ shortname f.path)
    (hfit : need (files ++ rest) ≤ fsSize) :
    ∃ im' F', rest.foldlM addFile im = some im' ∧ Made im' (files ++ rest) F' := by
  induction rest generalizing im files F with
  | nil => exact ⟨im, F, rfl, by rwa [append_nil]⟩
  | cons f rest ih =>
    rw [length_cons] at hcount
    have hsplit : files ++ f :: rest = (files ++ [f]) ++ rest := by simp
    have hfirst : need (files ++ [f]) ≤ fsSize := (need_le_append _ rest).trans (hsplit ▸ hfit)
    obtain ⟨im1, F1, hadd, hmade⟩ :=
      addFile_spec h (by omega) (hslash f mem_cons_self) hfirst
    obtain ⟨im', F', hfold, hmade'⟩ := ih hmade (by rw [length_append, length_singleton]; omega)
      (fun g hg => hslash g (mem_cons_of_mem _ hg)) (hsplit ▸ hfit)
    refine ⟨im', F', ?_, hsplit ▸ hmade'⟩
    rw [foldlM_cons, hadd]
    exact hfold

/-- and when it ends without an error. -/
theorem addFiles_made {rest : List InputFile} (h : Made im files F)
    (hcount : files.length + rest.length + 2 ≤ ipb) (hrun : rest.foldlM addFile im = some im') :
    ∃ F', Made im' (files ++ rest) F' := by
  induction rest generalizing im files F with
  | nil =>
    obtain rfl : im = im' := by simpa using hrun
    exact ⟨F, by rwa [append_nil]⟩
  | cons f rest ih =>
    rw [length_cons] at hcount
    have hsplit : files ++ f :: rest = (files ++ [f]) ++ rest := by simp
    rw [foldlM_cons] at hrun
    obtain ⟨im1, hadd, hrest⟩ := bind_eq_some_iff.1 hrun
    have hslash : 47 ∉ shortname f.path := by
      intro hmem
      unfold addFile at hadd
      simp [if_pos ((slash_mem_iff f.path).2 hmem)] at hadd
    have hfit : need (files ++ [f]) ≤ fsSize := by
      by_contra hover
      rw [addFile_full h (by omega) (by omega)] at hadd
      cases hadd
    obtain ⟨im2, F1, hadd', hmade⟩ := addFile_spec h (by omega) hslash hfit
    obtain rfl : im1 = im2 := some.inj (hadd.symm.trans hadd')
    obtain ⟨F', hmade'⟩ := ih hmade (by rw [length_append, length_singleton]; omega) hrest
    exact ⟨F', hsplit ▸ hmade'⟩

/-! ## The start and the end of `main` -/

theorem decode_zero (off : ℕ) : Dinode.decode (fun _ => 0) off = Dinode.zero := by
  simp only [Dinode.decode, load_zero, ite_self, Dinode.zero]

theorem empty_inv : ImgInv empty fun _ => FileEntry.unused := by
  have hempty : empty = ⟨update (fun _ _ => 0) 1 mkfsSb.encode, fsSize, 1, nmeta, []⟩ :=
    wsect_of_lt rfl (by decide) _
  have hdisk : ∀ b, empty.disk b = if b = 1 then mkfsSb.encode else fun _ => 0 := by
    intro b
    rw [hempty]
    dsimp only
    rw [update_apply]
  have hinode : ∀ i, empty.inodeAt i = Dinode.zero := by
    intro i
    rw [inodeAt, hdisk, if_neg (by decide), decode_zero]
  have hfree : empty.freeblock = nmeta := rfl
  have hmeta : nmeta = 34 := rfl
  refine ⟨by rw [hempty], le_rfl, by rw [hfree]; decide, by decide, fun i _ => ?_, fun i _ => ?_,
    by simp [FileEntry.owned, FileEntry.unused, owned],
    by simp [FileEntry.owned, FileEntry.unused, owned],
    by simp [FileEntry.owned, FileEntry.unused, owned],
    fun b hb hlt => absurd hlt (by omega), fun b hb _ => ?_, fun _ _ _ => rfl, fun b _ => hdisk b, by rw [hempty]; simp⟩
  · rw [hinode i]
    rfl
  · rw [hinode i]
    exact { FileMap.empty _ with length_eq := blockCount_zero.symm, data := by simp [FileEntry.unused] }
  · rw [hdisk, if_neg (by omega)]

/-- **The root directory is made.** -/
theorem withRoot_spec : ∃ im F, withRoot = some im ∧ Made im [] F := by
  have hempty : empty.freeinode = 1 ∧ empty.freeblock = nmeta := ⟨rfl, rfl⟩
  obtain ⟨im1, halloc, hinv1, hfree1, hblock1⟩ :=
    ialloc_spec empty_inv (by decide) (by decide) (show tDir < 2 ^ 16 by decide)
  rw [hempty.1] at halloc hinv1 hfree1
  rw [hempty.2] at hblock1
  have hmeta : nmeta = 34 := rfl
  have hsz := fsSize_eq
  have hdot : blockNeed direntSize = 1 := by decide
  have hdots : blockNeed (direntSize + direntSize) = 1 := by decide
  have hself : ∀ e : FileEntry, update (fun _ => FileEntry.unused) 1 e rootIno = e :=
    fun e => update_self _ _ _
  obtain ⟨im2, blks2, ind2, happ2, hinv2, hfree2, hcost2⟩ :=
    iappend_spec (i := rootIno) (p := direntBytes rootIno (ascii ".")) hinv1
      ⟨le_rfl, by simp only [rootIno]; omega⟩ (by
        rw [hself, length_direntBytes]
        simp only [Room, length_nil, zero_add, hdot, blockNeed_zero]
        omega)
  rw [update_idem, hself] at hinv2
  rw [hself] at hcost2
  simp only [FileEntry.grown, nil_append, length_nil, length_direntBytes, hdot,
    blockNeed_zero] at hinv2 hcost2
  obtain ⟨im3, blks3, ind3, happ3, hinv3, hfree3, hcost3⟩ :=
    iappend_spec (i := rootIno) (p := direntBytes rootIno (ascii "..")) hinv2
      ⟨le_rfl, by simp only [rootIno]; omega⟩ (by
        rw [hself, length_direntBytes]
        simp only [Room, length_direntBytes, hdots, hdot]
        omega)
  rw [update_idem, hself] at hinv3
  rw [hself] at hcost3
  simp only [FileEntry.grown, length_append, length_direntBytes, hdot, hdots] at hinv3 hcost3
  refine ⟨im3, _, ?_, { hinv3 with
    freeinode_eq := by rw [hfree3, hfree2, hfree1]; rfl
    root := ?_
    file := fun k hk => absurd hk (Nat.not_lt_zero k)
    freeblock_eq := ?_ }⟩
  · unfold withRoot
    rw [halloc]
    simp only [bind_some, if_neg (not_not.2 rfl), happ2, happ3]
  · rw [hself]
    exact ⟨rfl, (append_nil _).symm⟩
  · have hneed : need [] = nmeta + blockNeed (direntSize + direntSize) := rfl
    omega

/-- The bitmap belongs to no file. -/
theorem ImgInv.setBitmap (h : ImgInv im F) (bitmap : Block) :
    ImgInv { im with disk := update im.disk mkfsSb.bmapstart bitmap } F := by
  have hmeta : mkfsSb.bmapstart < nmeta := by decide
  have hlow : mkfsSb.inodestart < mkfsSb.bmapstart := by decide
  have hge := h.free_ge
  have hdisk : ∀ b, b ≠ mkfsSb.bmapstart →
      (update im.disk mkfsSb.bmapstart bitmap) b = im.disk b := by
    intro b hb
    exact update_of_ne hb _ _
  have hinode : ∀ i, ({ im with disk := update im.disk mkfsSb.bmapstart bitmap } :
      Image).inodeAt i = im.inodeAt i := by
    intro i
    exact congrArg (fun block => Dinode.decode block _) (hdisk mkfsSb.inodestart (by decide))
  refine ⟨h.nblk, h.free_ge, h.free_le, h.inodes_le, ?_, ?_, h.range, h.nodup, h.disjoint, h.cover, ?_,
    h.unused, ?_, h.trace⟩
  · intro i hi
    rw [hinode i]
    exact h.inode i hi
  · intro i hi
    rw [hinode i]
    refine (h.holds i hi).congr fun b hb => hdisk b ?_
    have := (h.range i hi b hb).1
    omega
  · intro b hb hlt
    have hb' : im.freeblock ≤ b := hb
    exact (hdisk b (by omega)).trans (h.zero b hb hlt)
  · intro b hb
    exact (hdisk b (by omega)).trans (h.low b hb)

/-- The root directory with its size rounded up. -/
def paddedRoot (files : List InputFile) : List UInt8 :=
  rootContent files ++ List.replicate (bsize - (rootContent files).length) 0

/-- **The image at the end**: the root directory fills its block, and the bitmap marks the
blocks below `freeblock`. -/
structure Finished (im : Image) (files : List InputFile) (F : ℕ → FileEntry) : Prop
    extends ImgInv im F where
  freeinode_eq : im.freeinode = files.length + 2
  root : (F rootIno).type = tDir ∧ (F rootIno).content = paddedRoot files
  file : ∀ k (h : k < files.length),
    (F (k + 2)).type = tFile ∧ (F (k + 2)).content = files[k].content
  freeblock_eq : im.freeblock = need files
  bitmap : ∀ b, bit (im.disk mkfsSb.bmapstart) b = decide (b < im.freeblock)

/-- The root directory takes one block. -/
theorem Made.root_length (h : Made im files F) :
    0 < (rootContent files).length ∧ (rootContent files).length < bsize := by
  have hle := h.inodes_le
  rw [h.freeinode_eq] at hle
  rw [length_rootContent]
  simp only [direntSize, ipb, bsize, dinodeSize] at *
  omega

theorem getD_append_zeros (c : List UInt8) (n k : ℕ) :
    (c ++ List.replicate n 0).getD k 0 = c.getD k 0 := by
  by_cases hk : k < c.length
  · rw [getD_append _ _ _ _ hk]
  · rw [getD_append_right _ _ _ _ (by omega), getD_eq_default c _ (by omega)]
    by_cases hn : k - c.length < n
    · rw [getD_replicate _ hn]
    · rw [getD_eq_default _ _ (by simp; omega)]

/-- **The end of `main`.** -/
theorem finishRoot_spec (h : Made im files F) :
    ∃ im' F', im.finishRoot = some im' ∧ Finished im' files F' := by
  obtain ⟨hpos, hlen⟩ := h.root_length
  have huse : im.InUse rootIno := ⟨le_rfl, by rw [h.freeinode_eq]; simp only [rootIno]; omega⟩
  have hlt := h.inode_lt huse
  obtain ⟨htype, hnlink⟩ := h.type_lt hlt
  have hm := h.mapped hlt
  rw [h.root.2] at hm
  have hpad : (paddedRoot files).length = bsize := by
    rw [paddedRoot, length_append, length_replicate]
    omega
  -- the root directory fills its block
  have hm' : Mapped im (im.inodeAt rootIno).addrs (paddedRoot files) (F rootIno).blks
      (F rootIno).ind := by
    refine ⟨hm.nblk, hm.free_ge, hm.free_le, hm.map, ?_, hm.range, hm.nodup, hm.zero, hm.addrs_end⟩
    intro k hk j hj
    rw [hm.data k hk j hj, paddedRoot, getD_append_zeros]
  have hblks : (F rootIno).blks.length = blockCount (paddedRoot files).length := by
    rw [(h.holds rootIno hlt).length_eq, h.root.2, hpad]
    unfold blockCount
    simp only [bsize] at *
    omega
  have hinv := (h.setFile (e := ⟨tDir, (F rootIno).nlink, paddedRoot files, (F rootIno).blks,
    (F rootIno).ind⟩) huse hm' (Kept.refl _ _) hblks
      (show tDir < 2 ^ 16 by decide) hnlink).setBitmap
      ((List.range im.freeblock).foldl setBit fun _ => 0)
  refine ⟨_, _, ?_, { hinv with
    freeinode_eq := h.freeinode_eq
    root := ?_
    file := ?_
    freeblock_eq := h.freeblock_eq
    bitmap := ?_ }⟩
  · have hsize : ((im.inodeAt rootIno).size / bsize + 1) * bsize % 2 ^ 32 = (paddedRoot files).length := by
      rw [h.size_eq hlt, h.root.2, hpad]
      simp only [bsize] at *
      omega
    have hdin : ({ im.inodeAt rootIno with size := (paddedRoot files).length } : Dinode) =
        FileEntry.dinode ⟨tDir, (F rootIno).nlink, paddedRoot files, (F rootIno).blks, (F rootIno).ind⟩
          (im.inodeAt rootIno).addrs := by
      rw [h.inode rootIno hlt, ← h.root.1]
      rfl
    unfold finishRoot
    rw [rinode_eq h.nblk hlt, bind_some]
    dsimp only
    rw [hsize, hdin, winode_eq h.nblk hlt, bind_some]
    unfold balloc
    have hfree : im.freeblock < bsize * 8 := h.free_le.trans_lt (by decide)
    rw [if_pos (by exact hfree), wsect_of_lt (by exact h.nblk) (by decide)]
    rfl
  · rw [update_self]
    exact ⟨rfl, rfl⟩
  · intro k hk
    rw [update_of_ne (by simp only [rootIno]; omega)]
    exact h.file k hk
  · intro b
    dsimp only
    rw [update_self, bit_foldl_setBit]
    simp [bit, setInode]

/-- **`mkfs` succeeds** when the inodes fit into one block and there are blocks for the files, -/
theorem mkfs_spec (hcount : files.length + 2 ≤ ipb) (hslash : ∀ f ∈ files, 47 ∉ shortname f.path)
    (hfit : need files ≤ fsSize) : ∃ im F, mkfs files = some im ∧ Finished im files F := by
  obtain ⟨im0, F0, hroot, hmade0⟩ := withRoot_spec
  obtain ⟨im1, F1, hfold, hmade1⟩ := addFiles_spec hmade0 (by simpa using hcount) hslash hfit
  obtain ⟨im2, F2, hfin, hdone⟩ := finishRoot_spec hmade1
  refine ⟨im2, F2, ?_, hdone⟩
  unfold mkfs
  rw [hroot, bind_some, hfold, bind_some, hfin]

/-- and when it does, the image holds the files. -/
theorem mkfs_finished (hcount : files.length + 2 ≤ ipb) (hrun : mkfs files = some im) :
    ∃ F, Finished im files F := by
  obtain ⟨im0, F0, hroot, hmade0⟩ := withRoot_spec
  unfold mkfs at hrun
  rw [hroot, bind_some] at hrun
  obtain ⟨im1, hfold, hfin⟩ := bind_eq_some_iff.1 hrun
  obtain ⟨F1, hmade1⟩ := addFiles_made hmade0 (by simpa using hcount) hfold
  obtain ⟨im2, F2, hfin', hdone⟩ := finishRoot_spec hmade1
  obtain rfl : im = im2 := some.inj (hfin.symm.trans hfin')
  exact ⟨F2, hdone⟩

/-! ## Every write of an inode is recorded -/

/-- The trace grows, and no inode is given out. -/
def Later (im im' : Image) : Prop := im.trace ⊆ im'.trace ∧ im'.freeinode = im.freeinode

theorem Later.refl (im : Image) : Later im im := ⟨fun _ h => h, rfl⟩

theorem Later.trans {im1 im2 im3 : Image} (h : Later im1 im2) (h' : Later im2 im3) :
    Later im1 im3 := ⟨fun _ ha => h'.1 (h.1 ha), h'.2.trans h.2⟩

theorem later_winode (h : im.winode inum din = some im') :
    Later im im' ∧ .winode inum (iblock inum) ∈ im'.trace := by
  unfold winode at h
  obtain ⟨buf, -, rfl⟩ := map_eq_some_iff.1 h
  exact ⟨⟨fun _ ha => mem_cons_of_mem _ ha, rfl⟩, mem_cons_self⟩

/-- A block for the file or for its indirect block is taken, or not. -/
theorem later_newAddr {din din' : Dinode} {k : ℕ}
    (h : (if din.addrs k = 0 then im.newAddr din k else (im, din)) = (im', din')) : Later im im' := by
  split at h
  · obtain ⟨rfl, -⟩ := Prod.mk.inj h
    exact Later.refl im
  · obtain ⟨rfl, -⟩ := Prod.mk.inj h
    exact Later.refl im

theorem later_fileBlock {fbn : ℕ}
    (h : im.fileBlock din fbn = some r) : Later im r.1 := by
  unfold fileBlock at h
  split at h
  · generalize hnew : (if din.addrs fbn = 0 then im.newAddr din fbn else (im, din)) = p at h
    cases h
    exact later_newAddr hnew
  · generalize hnew : (if din.addrs nDirect = 0 then im.newAddr din nDirect else (im, din)) = p at h
    have hlater : Later im p.1 := later_newAddr hnew
    obtain ⟨indirect, -, rfl⟩ := map_eq_some_iff.1 h
    dsimp only
    split <;> exact ⟨fun _ ha => mem_cons_of_mem _ (hlater.1 ha), hlater.2⟩

theorem later_appendPass {off : ℕ}
    (h : im.appendPass din off p = some r) : Later im r.1 := by
  unfold appendPass at h
  dsimp only at h
  split at h
  · obtain ⟨q, hblock, hrest⟩ := bind_eq_some_iff.1 h
    obtain ⟨buf, -, rfl⟩ := map_eq_some_iff.1 hrest
    obtain ⟨hsub, hfree⟩ := later_fileBlock hblock
    exact ⟨hsub, hfree⟩
  · cases h

theorem later_appendLoop {fuel : ℕ} {off : ℕ}
    (h : im.appendLoop fuel din off p = some r) : Later im r.1 := by
  induction fuel generalizing im din off p with
  | zero =>
    cases h
    exact Later.refl im
  | succ fuel ih =>
    unfold appendLoop at h
    split at h
    · cases h
      exact Later.refl im
    · obtain ⟨q, hpass, hrest⟩ := bind_eq_some_iff.1 h
      exact (later_appendPass hpass).trans (ih hrest)

theorem later_iappend (h : im.iappend inum p = some im') :
    Later im im' := by
  unfold iappend at h
  obtain ⟨din, -, h⟩ := bind_eq_some_iff.1 h
  obtain ⟨q, hloop, h⟩ := bind_eq_some_iff.1 h
  exact (later_appendLoop hloop).trans (later_winode h).1

theorem later_appendChunks
    (h : chunks.foldlM (fun im chunk => im.iappend inum chunk) im = some im') : Later im im' := by
  induction chunks generalizing im with
  | nil =>
    obtain rfl := some.inj h
    exact Later.refl im
  | cons chunk chunks ih =>
    rw [foldlM_cons] at h
    obtain ⟨im1, happ, hrest⟩ := bind_eq_some_iff.1 h
    exact (later_iappend happ).trans (ih hrest)

/-- A file takes the next inode, whatever its number. -/
theorem addFile_winode (h : im.addFile f = some im') :
    im.trace ⊆ im'.trace ∧ .winode im.freeinode (iblock im.freeinode) ∈ im'.trace ∧
      im'.freeinode = im.freeinode + 1 := by
  unfold addFile at h
  by_cases hslash : 47 ∈ shortname f.path
  · simp only [if_pos ((slash_mem_iff f.path).2 hslash)] at h
    cases h
  simp only [if_neg fun hmem => hslash ((slash_mem_iff f.path).1 hmem)] at h
  obtain ⟨q, halloc, h⟩ := bind_eq_some_iff.1 h
  obtain ⟨im2, happ, h⟩ := bind_eq_some_iff.1 h
  obtain ⟨im1, hw, rfl⟩ := map_eq_some_iff.1 halloc
  obtain ⟨hlater, hmem⟩ := later_winode hw
  have hrest := (later_iappend happ).trans (later_appendChunks h)
  exact ⟨fun _ ha => hrest.1 (hlater.1 ha), hrest.1 hmem, hrest.2.trans hlater.2⟩

theorem addFiles_winode (h : files.foldlM addFile im = some im') :
    im.trace ⊆ im'.trace ∧ ∀ k < files.length,
      .winode (im.freeinode + k) (iblock (im.freeinode + k)) ∈ im'.trace := by
  induction files generalizing im with
  | nil =>
    cases h
    exact ⟨fun _ ha => ha, fun k hk => absurd hk (Nat.not_lt_zero k)⟩
  | cons f files ih =>
    rw [foldlM_cons] at h
    obtain ⟨im1, hadd, hrest⟩ := bind_eq_some_iff.1 h
    obtain ⟨hsub, hmem, hfree⟩ := addFile_winode hadd
    obtain ⟨hsub', hmem'⟩ := ih hrest
    refine ⟨fun _ ha => hsub' (hsub ha), ?_⟩
    intro k hk
    cases k with
    | zero => exact hsub' hmem
    | succ k =>
      have hk' := hmem' k (by simpa using hk)
      rwa [hfree, add_assoc, add_comm 1 k] at hk'

/-- **Every file has its inode written**, also one for which there is no inode. -/
theorem mkfs_winode (hrun : mkfs files = some im) {k : ℕ} (hk : k < files.length) :
    .winode (k + 2) (iblock (k + 2)) ∈ im.trace := by
  obtain ⟨im0, F0, hroot, hmade0⟩ := withRoot_spec
  unfold mkfs at hrun
  rw [hroot, bind_some] at hrun
  obtain ⟨im1, hfold, hfin⟩ := bind_eq_some_iff.1 hrun
  have hmem := (addFiles_winode hfold).2 k hk
  rw [hmade0.freeinode_eq, length_nil, zero_add, add_comm 2 k] at hmem
  unfold finishRoot at hfin
  obtain ⟨din, -, hfin⟩ := bind_eq_some_iff.1 hfin
  obtain ⟨im2, hw, hfin⟩ := bind_eq_some_iff.1 hfin
  unfold balloc at hfin
  split at hfin
  · cases hfin
    exact (later_winode hw).1.1 hmem
  · cases hfin

/-! ## Consistency -/

/-- The inode `inum` of the image. -/
def dinode (im : Image) (inum : ℕ) : Dinode :=
  .decode (im.disk (iblock inum)) (dinodeSize * (inum % ipb))

/-- **An image is consistent**: a block belongs to one file at most and is one behind the
metadata, the inodes written are among `NINODES` and lie in the inode blocks, `indirect[]` is
used inside its bounds, and the bitmap marks the blocks that are used. -/
structure Consistent (im : Image) : Prop where
  block : ∀ s : BlockSlot, s.Valid nInodes → s.value im.dinode im.disk ≠ 0 →
    nmeta ≤ s.value im.dinode im.disk ∧ s.value im.dinode im.disk < fsSize ∧
      ∀ s' : BlockSlot, s'.Valid nInodes → s'.value im.dinode im.disk = s.value im.dinode im.disk → s' = s
  winode : ∀ inum bn, .winode inum bn ∈ im.trace →
    inum < nInodes ∧ mkfsSb.inodestart ≤ bn ∧ bn < mkfsSb.bmapstart
  indirect : ∀ i, .indirect i ∈ im.trace → i < nIndirect
  bitmap : ∀ b < bpb, bit (im.disk mkfsSb.bmapstart) b = true ↔ b < im.freeblock

theorem dinode_eq (h : inum < ipb) : im.dinode inum = im.inodeAt inum := by
  rw [dinode, inodeAt, iblock_of_lt h, Nat.mod_eq_of_lt h]

theorem Finished.consistent (h : Finished im files F) (hcount : files.length + 2 ≤ nInodes) :
    im.Consistent := by
  have hlt : ∀ {s : BlockSlot}, s.Valid nInodes → s.inum < ipb :=
    fun hs => hs.inum_lt.trans_le (by decide)
  have hmap : ∀ {s : BlockSlot}, s.Valid nInodes →
      FileMap im.disk (im.dinode s.inum).addrs (F s.inum).blks (F s.inum).ind := by
    intro s hs
    rw [dinode_eq (hlt hs)]
    exact (h.holds s.inum (hlt hs)).toFileMap
  refine ⟨?_, ?_, ?_, ?_⟩
  · intro s hs hne
    have hmem := (hmap hs).value_mem hs hne
    have hrange := h.range s.inum (hlt hs) _ hmem
    refine ⟨hrange.1, hrange.2.trans_le h.free_le, ?_⟩
    intro s' hs' heq
    have hnum : s'.inum = s.inum := by
      by_contra hdiff
      have hmem' := (hmap hs').value_mem hs' (heq ▸ hne)
      exact h.disjoint s'.inum (hlt hs') s.inum (hlt hs) hdiff _ hmem' (heq ▸ hmem)
    exact (hmap hs).value_inj (h.nodup s.inum (hlt hs)) hs hs' hnum hne heq
  · intro inum bn hmem
    obtain ⟨hinum, rfl⟩ := h.trace _ hmem
    rw [h.freeinode_eq] at hinum
    exact ⟨by omega, le_rfl, by decide⟩
  · intro i hmem
    exact h.trace _ hmem
  · intro b _
    rw [h.bitmap b, decide_eq_true_iff]

/-- **`mkfs` writes a consistent image for at most 198 files**, and for these it fails when
there are not enough blocks. -/
theorem mkfs_consistent_iff (hrun : mkfs files = some im) :
    im.Consistent ∧ need files ≤ fsSize ↔ files.length ≤ 198 := by
  constructor
  · rintro ⟨hcons, -⟩
    by_contra hmany
    -- the file after the first 198 gets inode 200
    have hmem := mkfs_winode hrun (k := 198) (by omega)
    have hlt := (hcons.winode _ _ hmem).1
    exact absurd hlt (by decide)
  · intro hcount
    have hmax : 198 + 2 = nInodes := rfl
    have hipb : nInodes ≤ ipb := by decide
    obtain ⟨F, hdone⟩ := mkfs_finished (by omega) hrun
    exact ⟨hdone.consistent (by omega), hdone.freeblock_eq ▸ hdone.free_le⟩

/-- A program of the user and a text, read in two parts. -/
def twoFiles : List InputFile :=
  [⟨ascii "user/_cat", [ascii "elf"], by decide, by decide⟩,
    ⟨ascii "README", [ascii "xv", ascii "6"], by decide, by decide⟩]

theorem mkfs_consistent_iff_twoFiles :
    ∃ im, mkfs twoFiles = some im ∧ im.Consistent ∧ need twoFiles ≤ fsSize := by
  have hneed : need twoFiles ≤ fsSize := by decide
  obtain ⟨im, F, hrun, -⟩ := mkfs_spec (by decide) (by decide) hneed
  exact ⟨im, hrun, (mkfs_consistent_iff hrun).2 (by decide)⟩

/-- A file without bytes. -/
def emptyFile : InputFile := ⟨ascii "a", [], by decide, by simp⟩

/-- 199 empty files are written to an image with an inode 200. -/
theorem inode_200_is_written :
    ∃ im, mkfs (List.replicate 199 emptyFile) = some im ∧
      .winode 200 (iblock 200) ∈ im.trace ∧ ¬ im.Consistent := by
  have hneed : need (List.replicate 199 emptyFile) ≤ fsSize := by
    have hfile : blockNeed emptyFile.content.length = 0 := by decide
    rw [need, map_replicate, sum_replicate, length_replicate, hfile]
    decide
  obtain ⟨im, F, hrun, -⟩ := mkfs_spec (by rw [length_replicate]; decide)
    (fun f hf => by rw [eq_of_mem_replicate hf]; decide) hneed
  have hmem := mkfs_winode hrun (k := 198) (by rw [length_replicate]; decide)
  exact ⟨im, hrun, hmem, fun hcons => absurd (hcons.winode _ _ hmem).1 (by decide)⟩

end Image

end AudioPlayer
