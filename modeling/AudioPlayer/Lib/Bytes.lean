import Mathlib.Algebra.Group.Nat.Defs
import Mathlib.Logic.Function.Basic
import Mathlib.Data.Nat.Init
import Mathlib.Data.List.GetD

/-!
# Numbers, arrays and bits in memory

Memory is a function from addresses to bytes. `load k` reads a number from `k` bytes, the
lowest byte first, and `store k` writes one; `storeWords` writes an array of 32-bit numbers;
`move` copies a range of bytes. `bit` is the bit of a number in a bitmap.

* `load_store`, `load_storeWords`: a number that fits is read back;
* `load_move`: what was copied is read as from its source;
* `bit_setBit`, `bit_clearBit`: a change of one bit.

The lemmas on disjoint ranges say that other places are left alone.
-/

namespace AudioPlayer.Bytes

open Function List

abbrev Mem := ℕ → UInt8

/-- The number in the `k` bytes from `off` on. -/
def load : ℕ → Mem → ℕ → ℕ
  | 0, _, _ => 0
  | k + 1, m, off => (m off).toNat + 256 * load k m (off + 1)

/-- The low `k` bytes of `v`, written from `off` on. -/
def store : ℕ → Mem → ℕ → ℕ → Mem
  | 0, m, _, _ => m
  | k + 1, m, off, v => store k (update m off (UInt8.ofNat v)) (off + 1) (v / 256)

theorem load_congr {k : ℕ} {m m' : Mem} {off : ℕ} (h : ∀ i, off ≤ i → i < off + k → m i = m' i) :
    load k m off = load k m' off := by
  induction k generalizing off with
  | zero => rfl
  | succ k ih =>
    simp only [load]
    rw [h off (Nat.le_refl off) (by omega), ih fun i h1 h2 => h i (by omega) (by omega)]

theorem load_lt (k : ℕ) (m : Mem) (off : ℕ) : load k m off < 256 ^ k := by
  induction k generalizing off with
  | zero => simp [load]
  | succ k ih =>
    have hbyte := (m off).toNat_lt
    have hrest := ih (off + 1)
    simp only [load, Nat.pow_succ]
    omega

theorem store_of_disjoint {k : ℕ} {m : Mem} {off v i : ℕ} (h : i < off ∨ off + k ≤ i) :
    store k m off v i = m i := by
  induction k generalizing m off v with
  | zero => rfl
  | succ k ih =>
    simp only [store]
    rw [ih (by omega), update_of_ne (by omega)]

/-- **A number is read back from where it was written.** -/
theorem load_store (k : ℕ) (m : Mem) (off v : ℕ) : load k (store k m off v) off = v % 256 ^ k := by
  induction k generalizing m off v with
  | zero => simp [load, Nat.mod_one]
  | succ k ih =>
    have hpow : 256 ^ (k + 1) = 256 * 256 ^ k := Nat.pow_succ'
    simp only [load, store]
    rw [ih, store_of_disjoint (by omega), update_self, UInt8.toNat_ofNat', hpow,
      Nat.mod_mul]

theorem load_store_of_disjoint {k l : ℕ} {m : Mem} {off pos v : ℕ}
    (h : pos + l ≤ off ∨ off + k ≤ pos) : load l (store k m off v) pos = load l m pos :=
  load_congr fun i h1 h2 => store_of_disjoint (by omega)

theorem store_zero (k pos : ℕ) : store k (fun _ => 0) pos 0 = fun _ => 0 := by
  induction k generalizing pos with
  | zero => rfl
  | succ k ih =>
    have hbyte : update (fun _ => 0 : Mem) pos 0 = fun _ => 0 := update_eq_self _ _
    have hstep : store (k + 1) (fun _ => 0) pos 0 =
        store k (update (fun _ => 0) pos 0) (pos + 1) 0 := rfl
    rw [hstep, hbyte]
    exact ih (pos + 1)

theorem load_zero (k pos : ℕ) : load k (fun _ => 0) pos = 0 := by
  induction k generalizing pos with
  | zero => rfl
  | succ k ih => simp [load, ih]

/-! ## Arrays -/

/-- `n` numbers of 32 bits, written from `off` on. -/
def storeWords (m : Mem) (off n : ℕ) (f : ℕ → ℕ) : Mem :=
  (List.range n).foldl (fun m i => store 4 m (off + 4 * i) (f i)) m

theorem storeWords_succ (m : Mem) (off n : ℕ) (f : ℕ → ℕ) :
    storeWords m off (n + 1) f = store 4 (storeWords m off n f) (off + 4 * n) (f n) := by
  simp [storeWords, range_succ]

theorem load_storeWords_of_disjoint {m : Mem} {off n l pos : ℕ} {f : ℕ → ℕ}
    (h : pos + l ≤ off ∨ off + 4 * n ≤ pos) : load l (storeWords m off n f) pos = load l m pos := by
  induction n with
  | zero => rfl
  | succ n ih => rw [storeWords_succ, load_store_of_disjoint (by omega), ih (by omega)]

/-- **An array is read back.** -/
theorem load_storeWords {m : Mem} {off n i : ℕ} {f : ℕ → ℕ} (hi : i < n) :
    load 4 (storeWords m off n f) (off + 4 * i) = f i % 2 ^ 32 := by
  induction n with
  | zero => omega
  | succ n ih =>
    rw [storeWords_succ]
    rcases Nat.lt_succ_iff_lt_or_eq.1 hi with hlt | rfl
    · rw [load_store_of_disjoint (by omega), ih hlt]
    · exact load_store 4 _ _ _

/-! ## Ranges -/

/-- `n` bytes of `src`, copied to `off`. -/
def move (m : Mem) (off n : ℕ) (src : Mem) : Mem :=
  fun i => if off ≤ i ∧ i < off + n then src (i - off) else m i

theorem move_add {n : ℕ} {m src : Mem} {off i : ℕ} (h : i < n) : move m off n src (off + i) = src i := by
  rw [move, if_pos (by omega), Nat.add_sub_cancel_left]

/-- **A number inside the range that was copied.** -/
theorem load_move {k n : ℕ} {m src : Mem} {off pos : ℕ} (h : pos + k ≤ n) :
    load k (move m off n src) (off + pos) = load k src pos := by
  induction k generalizing pos with
  | zero => rfl
  | succ k ih =>
    simp only [load]
    rw [move_add (by omega), add_assoc, ih (by omega)]

theorem move_of_disjoint {n : ℕ} {m src : Mem} {off i : ℕ} (h : i < off ∨ off + n ≤ i) :
    move m off n src i = m i :=
  if_neg (by omega)

@[simp] theorem move_zero (m : Mem) (off : ℕ) (src : Mem) : move m off 0 src = m :=
  funext fun i => move_of_disjoint (by omega)

/-- The bytes of a list, with zeros behind them. -/
def ofList (bs : List UInt8) : Mem := fun i => bs.getD i 0

/-- The `n` bytes from `off` on. -/
def slice (m : Mem) (off n : ℕ) : List UInt8 := (List.range n).map fun i => m (off + i)

@[simp] theorem length_slice (m : Mem) (off n : ℕ) : (slice m off n).length = n := by
  simp [slice]

theorem getD_slice (m : Mem) (off n i : ℕ) :
    (slice m off n).getD i 0 = if i < n then m (off + i) else 0 := by
  split
  · rename_i hi
    rw [getD_eq_getElem _ _ (by simpa using hi)]
    simp [slice]
  · rename_i hi
    rw [getD_eq_default _ _ (by simpa using hi)]

theorem slice_add (m : Mem) (off k n : ℕ) : slice m off (k + n) = slice m off k ++ slice m (off + k) n := by
  simp [slice, range_add, add_assoc]

theorem slice_succ (m : Mem) (off n : ℕ) : slice m off (n + 1) = m off :: slice m (off + 1) n := by
  rw [add_comm n 1, slice_add]
  rfl

theorem slice_congr {m m' : Mem} {off n : ℕ} (h : ∀ i, off ≤ i → i < off + n → m i = m' i) :
    slice m off n = slice m' off n := by
  unfold slice
  refine map_congr_left fun i hi => ?_
  have hlt := mem_range.1 hi
  exact h _ (by omega) (by omega)

/-- A part of a part. -/
theorem slice_drop_take (m : Mem) (off : ℕ) {n k l : ℕ} (h : k + l ≤ n) :
    ((slice m off n).drop k).take l = slice m (off + k) l := by
  have hsplit : slice m off n = slice m off k ++ (slice m (off + k) l ++ slice m (off + k + l) (n - k - l)) := by
    rw [← slice_add, ← slice_add]
    congr 1
    omega
  rw [hsplit, drop_left' (length_slice _ _ _), take_left' (length_slice _ _ _)]

/-- **Two copies, one behind the other.** -/
theorem move_move (m : Mem) (off k n : ℕ) (src : List UInt8) :
    move (move m off k (ofList src)) (off + k) n (ofList (src.drop k)) = move m off (k + n) (ofList src) := by
  funext i
  unfold move ofList
  by_cases hsecond : off + k ≤ i ∧ i < off + k + n
  · have hidx : k + (i - (off + k)) = i - off := by omega
    rw [if_pos hsecond, if_pos (by omega), getD_eq_getElem?_getD, getD_eq_getElem?_getD,
      List.getElem?_drop, hidx]
  · rw [if_neg hsecond]
    by_cases hfirst : off ≤ i ∧ i < off + k
    · rw [if_pos hfirst, if_pos (by omega)]
    · rw [if_neg hfirst, if_neg (by omega)]

/-- **A list is copied into an array**, which may become longer. -/
theorem slice_move {m : Mem} {off size : ℕ} {d : List UInt8} (h : off ≤ size) :
    slice (move m off d.length (ofList d)) 0 (max size (off + d.length)) =
      (slice m 0 size).take off ++ d ++ (slice m 0 size).drop (off + d.length) := by
  have hfirst : slice (move m off d.length (ofList d)) 0 off = (slice m 0 size).take off := by
    have htake := slice_drop_take m 0 (show 0 + off ≤ size by omega)
    rw [drop_zero] at htake
    rw [htake]
    exact slice_congr fun i _ hi => move_of_disjoint (by omega)
  have hmiddle : slice (move m off d.length (ofList d)) off d.length = d := by
    refine ext_getElem (length_slice _ _ _) fun i h1 h2 => ?_
    have hin : off ≤ off + i ∧ off + i < off + d.length := ⟨by omega, by omega⟩
    simp only [slice, getElem_map, getElem_range, move, if_pos hin, ofList,
      Nat.add_sub_cancel_left]
    exact getD_eq_getElem _ _ h2
  have hlast : slice (move m off d.length (ofList d)) (off + d.length) (size - (off + d.length)) =
      (slice m 0 size).drop (off + d.length) := by
    by_cases hend : off + d.length ≤ size
    · have hsplit := slice_add m 0 (off + d.length) (size - (off + d.length))
      rw [Nat.add_sub_cancel' hend, zero_add] at hsplit
      rw [hsplit, drop_left' (length_slice _ _ _)]
      exact slice_congr fun i hi _ => move_of_disjoint (by omega)
    · rw [drop_eq_nil_of_le (by rw [length_slice]; omega), Nat.sub_eq_zero_of_le (by omega)]
      rfl
  have hlen : max size (off + d.length) = off + d.length + (size - (off + d.length)) := by omega
  rw [hlen, slice_add, slice_add, zero_add, zero_add, hfirst, hmiddle, hlast]

/-! ## Bitmaps -/

/-- Bit `i` of a bitmap. -/
def bit (m : Mem) (i : ℕ) : Bool := (m (i / 8)).toBitVec.getLsbD (i % 8)

/-- The byte with bit `i % 8` set. -/
def mask (i : ℕ) : UInt8 := UInt8.ofNat (2 ^ (i % 8))

def setBit (m : Mem) (i : ℕ) : Mem := update m (i / 8) (m (i / 8) ||| mask i)

def clearBit (m : Mem) (i : ℕ) : Mem := update m (i / 8) (m (i / 8) &&& ~~~ mask i)

theorem getLsbD_mask (i : ℕ) {k : ℕ} (hk : k < 8) :
    (mask i).toBitVec.getLsbD k = decide (i % 8 = k) := by
  have hmod : i % 8 < 8 := Nat.mod_lt _ (by decide)
  show (BitVec.ofNat 8 (2 ^ (i % 8))).getLsbD k = _
  rw [BitVec.getLsbD_ofNat, Nat.testBit_two_pow]
  simp [hk]

/-- Two bits in the same byte are told apart by their place in it. -/
theorem bit_ext {i j : ℕ} (h : i / 8 = j / 8) : i % 8 = j % 8 ↔ i = j := by
  omega

theorem bit_setBit (m : Mem) (i j : ℕ) : bit (setBit m i) j = (bit m j || decide (i = j)) := by
  have hk : j % 8 < 8 := Nat.mod_lt _ (by decide)
  unfold bit setBit
  by_cases h : j / 8 = i / 8
  · rw [h, update_self, UInt8.toBitVec_or, BitVec.getLsbD_or, getLsbD_mask i hk]
    simp only [bit_ext h.symm]
  · have hne : i ≠ j := fun heq => h (by rw [heq])
    rw [update_of_ne h]
    simp [hne]

theorem bit_clearBit (m : Mem) (i j : ℕ) : bit (clearBit m i) j = (bit m j && !decide (i = j)) := by
  have hk : j % 8 < 8 := Nat.mod_lt _ (by decide)
  unfold bit clearBit
  by_cases h : j / 8 = i / 8
  · rw [h, update_self, UInt8.toBitVec_and, UInt8.toBitVec_not, BitVec.getLsbD_and,
      BitVec.getLsbD_not, getLsbD_mask i hk]
    simp only [bit_ext h.symm, hk, decide_true, Bool.true_and]
  · have hne : i ≠ j := fun heq => h (by rw [heq])
    rw [update_of_ne h]
    simp [hne]

/-- The first `n` bits are set. -/
theorem bit_foldl_setBit (m : Mem) (n j : ℕ) :
    bit ((List.range n).foldl setBit m) j = (bit m j || decide (j < n)) := by
  induction n with
  | zero => simp
  | succ n ih =>
    have hlt : j < n + 1 ↔ j < n ∨ n = j := by omega
    rw [range_succ, foldl_append, foldl_cons, foldl_nil, bit_setBit, ih]
    simp only [hlt, Bool.decide_or, Bool.or_assoc]

end AudioPlayer.Bytes
