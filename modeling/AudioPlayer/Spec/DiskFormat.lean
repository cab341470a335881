import AudioPlayer.Lib.Bytes

/-!
# The format of the disk (`kernel/fs.h`, `kernel/param.h`)

The structures that `mkfs` writes and the kernel reads, and the bytes they are stored as.
Numbers are little-endian. The fields of a structure are the patterns of their bits.
-/

namespace AudioPlayer

open Bytes

/-- A block of `BSIZE` bytes. What lies behind them is never looked at. -/
abbrev Block := Mem

/-- `BSIZE`, `2 << 15`. -/
abbrev bsize : ℕ := 65536

/-- `MAXOPBLOCKS`. -/
abbrev maxOpBlocks : ℕ := 10

/-- `LOGSIZE`. -/
abbrev logSize : ℕ := maxOpBlocks * 3

/-- `FSSIZE`. -/
abbrev fsSize : ℕ := 1000

/-- `ROOTINO`. -/
abbrev rootIno : ℕ := 1

/-- `FSMAGIC`. -/
abbrev fsMagic : ℕ := 0x10203040

/-- `NDIRECT`. -/
abbrev nDirect : ℕ := 12

/-- `NINDIRECT`. -/
abbrev nIndirect : ℕ := bsize / 4

/-- `MAXFILE`. -/
abbrev maxFile : ℕ := nDirect + nIndirect + nIndirect * nIndirect

/-- `DIRSIZ`. -/
abbrev dirSiz : ℕ := 30

/-- `T_DIR`, `T_FILE` and `T_DEVICE` of `kernel/stat.h`. -/
abbrev tDir : ℕ := 1

@[inherit_doc tDir] abbrev tFile : ℕ := 2

@[inherit_doc tDir] abbrev tDevice : ℕ := 3

/-- `O_WRONLY`, `O_RDWR`, `O_CREATE` and `O_TRUNC` of `kernel/fcntl.h`; `O_RDONLY` is 0. -/
abbrev oWronly : ℕ := 0x001

@[inherit_doc oWronly] abbrev oRdwr : ℕ := 0x002

@[inherit_doc oWronly] abbrev oCreate : ℕ := 0x200

@[inherit_doc oWronly] abbrev oTrunc : ℕ := 0x400

/-! ## The super block -/

/-- `struct superblock`. -/
structure Superblock where
  magic : ℕ
  size : ℕ
  nblocks : ℕ
  ninodes : ℕ
  nlog : ℕ
  logstart : ℕ
  inodestart : ℕ
  bmapstart : ℕ

/-- The numbers of a super block, in order. -/
def Superblock.words (sb : Superblock) : List ℕ :=
  [sb.magic, sb.size, sb.nblocks, sb.ninodes, sb.nlog, sb.logstart, sb.inodestart, sb.bmapstart]

def Superblock.encode (sb : Superblock) : Mem := storeWords (fun _ => 0) 0 8 (sb.words.getD · 0)

def Superblock.decode (m : Mem) : Superblock :=
  ⟨load 4 m 0, load 4 m 4, load 4 m 8, load 4 m 12, load 4 m 16, load 4 m 20, load 4 m 24,
    load 4 m 28⟩

/-! ## Inodes -/

/-- `struct dinode`. There are `NDIRECT + 1` addresses, the last one is that of the indirect
block. -/
@[ext] structure Dinode where
  type : ℕ
  major : ℕ
  minor : ℕ
  nlink : ℕ
  size : ℕ
  addrs : ℕ → ℕ

/-- `sizeof(struct dinode)`. -/
abbrev dinodeSize : ℕ := 64

/-- `IPB`. -/
abbrev ipb : ℕ := bsize / dinodeSize

def Dinode.encode (d : Dinode) : Mem :=
  storeWords (store 4 (store 2 (store 2 (store 2 (store 2 (fun _ => 0) 0 d.type) 2 d.major) 4 d.minor)
    6 d.nlink) 8 d.size) 12 (nDirect + 1) d.addrs

def Dinode.decode (m : Mem) (off : ℕ) : Dinode where
  type := load 2 m off
  major := load 2 m (off + 2)
  minor := load 2 m (off + 4)
  nlink := load 2 m (off + 6)
  size := load 4 m (off + 8)
  addrs i := if i < nDirect + 1 then load 4 m (off + 12 + 4 * i) else 0

/-- The zeroed structure. -/
def Dinode.zero : Dinode := ⟨0, 0, 0, 0, 0, fun _ => 0⟩

/-- The fields fit their types. -/
structure Dinode.Fits (d : Dinode) : Prop where
  type_lt : d.type < 2 ^ 16
  major_lt : d.major < 2 ^ 16
  minor_lt : d.minor < 2 ^ 16
  nlink_lt : d.nlink < 2 ^ 16
  size_lt : d.size < 2 ^ 32
  addrs_lt : ∀ i, d.addrs i < 2 ^ 32
  addrs_end : ∀ i, nDirect + 1 ≤ i → d.addrs i = 0

/-- **An inode is read back from its place in a block**, -/
theorem Dinode.decode_move {d : Dinode} (h : d.Fits) (m : Mem) (off : ℕ) :
    decode (move m off dinodeSize d.encode) off = d := by
  have hload : ∀ k pos, pos + k ≤ dinodeSize →
      load k (move m off dinodeSize d.encode) (off + pos) = load k d.encode pos :=
    fun k pos hpos => load_move hpos
  have htype : load 2 d.encode 0 = d.type := by
    unfold encode
    rw [load_storeWords_of_disjoint (by omega), load_store_of_disjoint (by omega),
      load_store_of_disjoint (by omega), load_store_of_disjoint (by omega),
      load_store_of_disjoint (by omega), load_store]
    exact Nat.mod_eq_of_lt h.type_lt
  have hmajor : load 2 d.encode 2 = d.major := by
    unfold encode
    rw [load_storeWords_of_disjoint (by omega), load_store_of_disjoint (by omega),
      load_store_of_disjoint (by omega), load_store_of_disjoint (by omega), load_store]
    exact Nat.mod_eq_of_lt h.major_lt
  have hminor : load 2 d.encode 4 = d.minor := by
    unfold encode
    rw [load_storeWords_of_disjoint (by omega), load_store_of_disjoint (by omega),
      load_store_of_disjoint (by omega), load_store]
    exact Nat.mod_eq_of_lt h.minor_lt
  have hnlink : load 2 d.encode 6 = d.nlink := by
    unfold encode
    rw [load_storeWords_of_disjoint (by omega), load_store_of_disjoint (by omega), load_store]
    exact Nat.mod_eq_of_lt h.nlink_lt
  have hsize : load 4 d.encode 8 = d.size := by
    unfold encode
    rw [load_storeWords_of_disjoint (by omega), load_store]
    exact Nat.mod_eq_of_lt h.size_lt
  have haddrs : ∀ i < nDirect + 1, load 4 d.encode (12 + 4 * i) = d.addrs i := by
    intro i hi
    unfold encode
    rw [load_storeWords hi]
    exact Nat.mod_eq_of_lt (h.addrs_lt i)
  refine Dinode.ext ?_ ?_ ?_ ?_ ?_ ?_ <;> simp only [decode]
  · rw [← htype, ← hload 2 0 (by decide), Nat.add_zero]
  · rw [hload 2 2 (by decide), hmajor]
  · rw [hload 2 4 (by decide), hminor]
  · rw [hload 2 6 (by decide), hnlink]
  · rw [hload 4 8 (by decide), hsize]
  · funext i
    split
    · rename_i hi
      rw [Nat.add_assoc, hload 4 (12 + 4 * i) (by simp only [nDirect, dinodeSize] at *; omega),
        haddrs i hi]
    · rename_i hi
      exact (h.addrs_end i (by omega)).symm

/-- and depends on its own bytes only. -/
theorem Dinode.decode_congr {m m' : Mem} {off : ℕ}
    (h : ∀ i, off ≤ i → i < off + dinodeSize → m i = m' i) : decode m off = decode m' off := by
  have hload : ∀ k pos, pos + k ≤ dinodeSize → load k m (off + pos) = load k m' (off + pos) :=
    fun k pos hpos => load_congr fun i h1 h2 => h i (by omega) (by omega)
  refine Dinode.ext ?_ ?_ ?_ ?_ ?_ ?_ <;> simp only [decode]
  · exact hload 2 0 (by decide)
  · exact hload 2 2 (by decide)
  · exact hload 2 4 (by decide)
  · exact hload 2 6 (by decide)
  · exact hload 4 8 (by decide)
  · funext i
    split
    · rename_i hi
      rw [Nat.add_assoc]
      exact hload 4 (12 + 4 * i) (by simp only [nDirect, dinodeSize] at *; omega)
    · rfl

theorem Dinode.decode_fits (m : Mem) (off : ℕ) : (decode m off).Fits := by
  refine ⟨load_lt 2 _ _, load_lt 2 _ _, load_lt 2 _ _, load_lt 2 _ _, load_lt 4 _ _, fun i => ?_,
    fun i hi => ?_⟩
  · simp only [decode]
    split
    · exact load_lt 4 _ _
    · decide
  · exact if_neg (by omega)

/-! ## The bitmap and directories -/

/-- The bytes of a string of ASCII characters. -/
def ascii (s : String) : List UInt8 := s.toList.map fun c => UInt8.ofNat c.toNat

/-- `BPB`. -/
abbrev bpb : ℕ := bsize * 8

/-- `sizeof(struct dirent)`. -/
abbrev direntSize : ℕ := 32

/-- The bytes of a `struct dirent`, with a name as `strncpy` leaves it. -/
def direntBytes (inum : ℕ) (name : List UInt8) : List UInt8 :=
  slice (store 2 (fun _ => 0) 0 inum) 0 2 ++ slice (ofList (name.take dirSiz)) 0 dirSiz

/-- `strncmp`. A string ends at its first zero or at the end of the list. -/
def strncmp : ℕ → List UInt8 → List UInt8 → ℤ
  | 0, _, _ => 0
  | n + 1, p, q =>
    let a := p.headD 0
    let b := q.headD 0
    if a ≠ 0 ∧ a = b then strncmp n p.tail q.tail else (a.toNat : ℤ) - b.toNat

end AudioPlayer
