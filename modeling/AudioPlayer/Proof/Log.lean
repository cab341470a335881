import AudioPlayer.Spec.Log
import AudioPlayer.Lib.Writes
import Mathlib.Logic.Relation
import Mathlib.Data.List.Nodup

/-!
# Crash atomicity of the redo log

A disk stands for the contents that recovery would give it: the blocks the header names,
copied from the log area to their places (`LogArea.contents`). Every write of `commit` and
of `recover_from_log` leaves these contents alone, but for the one that writes a header with
`n > 0`: it changes all blocks of the transaction at once.

* `LogDisk.commit_writes`, `LogDisk.recoverFromLog_writes`: the writes in order;
* `contents_install`: a crash while blocks are installed keeps the contents;
* `crash_atomic`: the transaction is applied after recovery if and only if its header was
  written.
-/

namespace AudioPlayer

open Function Bytes Writes List

/-- `n` of a header block. -/
def headN (b : Block) : ℤ := int32 (load 4 b 0)

/-- `block[i]` of a header block. -/
def headEntry (b : Block) (i : ℕ) : ℕ := load 4 b (4 + 4 * i)

/-! ## The header block -/

namespace LogDisk

/-- **The header is read back as it was written.** -/
theorem headBlock_spec {lh : LogHeader} {m : ℕ} (hn : lh.n = m) (hm : m < 2 ^ 31)
    (hblock : ∀ i < m, lh.block i < 2 ^ 32) (buf : Block) :
    headN (headBlock lh buf) = m ∧ ∀ i < m, headEntry (headBlock lh buf) i = lh.block i := by
  have hmod : ((m : ℤ) % 2 ^ 32).toNat = m := by omega
  have hN : lh.n.toNat = m := by omega
  unfold headN headEntry headBlock
  rw [hN]
  constructor
  · rw [load_storeWords_of_disjoint (by omega), load_store, hn, hmod, Nat.mod_eq_of_lt (by omega),
      int32_of_lt hm]
  · intro i hi
    rw [load_storeWords hi, Nat.mod_eq_of_lt (hblock i hi)]

/-! ## The loops -/

/-- A loop that copies blocks to blocks it does not read again. -/
theorem foldl_copyBlock (dst src : LogHeader → ℕ → ℕ) (is : List ℕ) (s : LogDisk)
    (h : ∀ i ∈ is, ∀ j ∈ is, src s.lh i ≠ dst s.lh j) :
    let ws := is.map fun i => (dst s.lh i, s.cache (src s.lh i))
    is.foldl (fun s i => s.copyBlock (dst s.lh i) (src s.lh i)) s =
      ⟨apply ws s.disk, apply ws s.cache, s.lh, s.writes ++ ws⟩ := by
  induction is generalizing s with
  | nil => simp
  | cons i is ih =>
    have hcache : ∀ j ∈ is, (s.copyBlock (dst s.lh i) (src s.lh i)).cache (src s.lh j) =
        s.cache (src s.lh j) := fun j hj =>
      update_of_ne (h j (mem_cons_of_mem _ hj) i mem_cons_self) _ _
    have hws : is.map (fun j => (dst s.lh j,
          (s.copyBlock (dst s.lh i) (src s.lh i)).cache (src s.lh j))) =
        is.map fun j => (dst s.lh j, s.cache (src s.lh j)) :=
      map_congr_left fun j hj => by rw [hcache j hj]
    have hrest := ih (s.copyBlock (dst s.lh i) (src s.lh i)) fun j hj l hl =>
      h j (mem_cons_of_mem _ hj) l (mem_cons_of_mem _ hl)
    have hlh : (s.copyBlock (dst s.lh i) (src s.lh i)).lh = s.lh := rfl
    simp only [hlh, hws] at hrest
    simp only [foldl_cons, map_cons, apply_cons]
    rw [hrest]
    simp [copyBlock, modify, bwrite]

theorem installTrans_eq (L : LogArea) (s : LogDisk)
    (h : ∀ i < s.lh.n.toNat, ∀ j < s.lh.n.toNat, L.start + i + 1 ≠ s.lh.block j) :
    let ws := (List.range s.lh.n.toNat).map fun i => (s.lh.block i, s.cache (L.start + i + 1))
    s.installTrans L = ⟨apply ws s.disk, apply ws s.cache, s.lh, s.writes ++ ws⟩ :=
  foldl_copyBlock (fun lh i => lh.block i) (fun _ i => L.start + i + 1) _ s fun i hi j hj =>
    h i (mem_range.1 hi) j (mem_range.1 hj)

theorem writeLog_eq (L : LogArea) (s : LogDisk)
    (h : ∀ i < s.lh.n.toNat, ∀ j < s.lh.n.toNat, L.start + j + 1 ≠ s.lh.block i) :
    let ws := (List.range s.lh.n.toNat).map fun i => (L.start + i + 1, s.cache (s.lh.block i))
    s.writeLog L = ⟨apply ws s.disk, apply ws s.cache, s.lh, s.writes ++ ws⟩ :=
  foldl_copyBlock (fun _ i => L.start + i + 1) (fun lh i => lh.block i) _ s fun i hi j hj =>
    (h i (mem_range.1 hi) j (mem_range.1 hj)).symm

end LogDisk

/-! ## What a disk stands for -/

namespace LogArea

variable (L : LogArea)

/-- The writes recovery makes for the header on the disk. -/
def redo (d : ℕ → Block) : List (ℕ × Block) :=
  (List.range (headN (d L.start)).toNat).map fun i =>
    (headEntry (d L.start) i, d (L.start + i + 1))

/-- The contents of the disk once the log is installed. -/
def contents (d : ℕ → Block) : ℕ → Block := apply (L.redo d) d

/-- The header names blocks outside the log area, no more than the log holds. -/
structure LogOK (d : ℕ → Block) : Prop where
  length_lt : headN (d L.start) < L.size ∨ headN (d L.start) = 0
  outside : ∀ i < (headN (d L.start)).toNat, ¬ L.Contains (headEntry (d L.start) i)

/-- Two disks agree outside the log area. -/
def Agree (d d' : ℕ → Block) : Prop := ∀ b, ¬ L.Contains b → d b = d' b

theorem contains_start : L.Contains L.start := ⟨le_refl _, by have := L.pos; omega⟩

theorem contains_block {i : ℕ} (h : i + 1 < L.size) : L.Contains (L.start + i + 1) :=
  ⟨by omega, by omega⟩

variable {L} {d d' : ℕ → Block}

theorem redo_of_empty (h : headN (d L.start) = 0) : L.redo d = [] := by
  simp [redo, h]

theorem logOK_of_empty (h : headN (d L.start) = 0) : L.LogOK d :=
  ⟨Or.inr h, by simp [h]⟩

theorem LogOK.mem_redo (h : L.LogOK d) {w : ℕ × Block} (hw : w ∈ L.redo d) : ¬ L.Contains w.1 := by
  obtain ⟨i, hi, rfl⟩ := mem_map.1 hw
  exact h.outside i (mem_range.1 hi)

/-- The log is what its header and its blocks say. -/
theorem redo_congr (h : ∀ b, L.Contains b → d b = d' b) (hok : L.LogOK d) :
    L.redo d' = L.redo d := by
  have hstart : d L.start = d' L.start := h _ L.contains_start
  unfold redo
  rw [← hstart]
  refine map_congr_left fun i hi => ?_
  have hi := mem_range.1 hi
  have hlt := hok.length_lt
  rw [h (L.start + i + 1) ⟨by omega, by omega⟩]

/-- Writes outside the log area do not change the log. -/
theorem LogOK.apply_outside (hok : L.LogOK d) {ws : List (ℕ × Block)}
    (hws : ∀ w ∈ ws, ¬ L.Contains w.1) :
    L.LogOK (apply ws d) ∧ L.redo (apply ws d) = L.redo d := by
  have hin : ∀ b, L.Contains b → d b = apply ws d b := by
    intro b hb
    refine (apply_of_notMem (fun hmem => ?_) d).symm
    obtain ⟨w, hw, rfl⟩ := mem_map.1 hmem
    exact hws w hw hb
  have hstart := hin _ L.contains_start
  refine ⟨⟨?_, ?_⟩, redo_congr hin hok⟩
  · rw [← hstart]; exact hok.length_lt
  · rw [← hstart]; exact hok.outside

/-- **A crash while the blocks of the log are installed.** However many of these writes are
made, the contents stay, and with the empty header `h0` the log is empty. -/
theorem contents_install (hok : L.LogOK d) {h0 : Block} (hh0 : headN h0 = 0) (k : ℕ) :
    let d' := apply ((L.redo d ++ [(L.start, h0)]).take k) d
    L.LogOK d' ∧ L.Agree (L.contents d') (L.contents d) := by
  intro d'
  by_cases hk : k ≤ (L.redo d).length
  · have hd' : d' = apply ((L.redo d).take k) d := by
      simp only [d', take_append_of_le_length hk]
    have hout : ∀ w ∈ (L.redo d).take k, ¬ L.Contains w.1 := fun w hw =>
      hok.mem_redo (mem_of_mem_take hw)
    obtain ⟨hok', hredo⟩ := hok.apply_outside hout
    rw [hd']
    refine ⟨hok', fun b _ => ?_⟩
    unfold contents
    rw [hredo, apply_absorb fun w hw => mem_map_of_mem (mem_of_mem_take hw)]
  · have hd' : d' = update (L.contents d) L.start h0 := by
      have htake : (L.redo d ++ [(L.start, h0)]).take k = L.redo d ++ [(L.start, h0)] :=
        take_of_length_le (by simp; omega)
      simp only [d', htake, apply_append, apply_cons, apply_nil]
      rfl
    have hempty : headN (d' L.start) = 0 := by rw [hd', update_self, hh0]
    refine ⟨logOK_of_empty hempty, fun b hb => ?_⟩
    have hne : b ≠ L.start := fun h => hb (h ▸ L.contains_start)
    show apply (L.redo d') d' b = _
    rw [redo_of_empty hempty, apply_nil, hd', update_of_ne hne]

end LogArea

/-! ## The writes of `recover_from_log` and `commit` -/

namespace LogDisk

open LogArea

variable {L : LogArea} {s : LogDisk} {hs : List ℕ}

theorem headN_cleared (block : ℕ → ℕ) (buf : Block) : headN (headBlock ⟨0, block⟩ buf) = 0 := by
  have hn : (⟨0, block⟩ : LogHeader).n = (0 : ℕ) := rfl
  exact (headBlock_spec hn (by decide) (by simp) buf).1

/-- Recovery installs the log and then clears its header. -/
theorem recoverFromLog_writes {d : ℕ → Block} (hok : L.LogOK d) (lh : LogHeader) :
    ∃ h0, headN h0 = 0 ∧
      ((boot d lh).recoverFromLog L).writes = L.redo d ++ [(L.start, h0)] ∧
      ((boot d lh).recoverFromLog L).disk = apply (L.redo d ++ [(L.start, h0)]) d := by
  set s := (boot d lh).readHead L with hs
  have hn : s.lh.n = headN (d L.start) := rfl
  have hblock : ∀ i < s.lh.n.toNat, s.lh.block i = headEntry (d L.start) i := fun i hi =>
    if_pos (show (i : ℤ) < s.lh.n by omega)
  have hredo : (List.range s.lh.n.toNat).map (fun i => (s.lh.block i, s.cache (L.start + i + 1))) =
      L.redo d :=
    map_congr_left fun i hi => by rw [hblock i (mem_range.1 hi)]; rfl
  have hinst := installTrans_eq L s fun i hi j hj heq => by
    have hlt := hok.length_lt
    rw [hblock j hj] at heq
    exact hok.outside j hj (heq ▸ L.contains_block (by omega))
  simp only [hredo] at hinst
  refine ⟨headBlock ⟨0, s.lh.block⟩ (apply (L.redo d) d L.start), headN_cleared _ _, ?_, ?_⟩
  · show (((s.installTrans L).clearHead).writeHead L).writes = _
    rw [hinst]
    simp [clearHead, writeHead, modify, bwrite, hs, readHead, boot]
  · show (((s.installTrans L).clearHead).writeHead L).disk = _
    rw [hinst, apply_append]
    simp [clearHead, writeHead, modify, bwrite, hs, readHead, boot]

/-- The header lists the blocks `hs`. -/
structure Lists (lh : LogHeader) (hs : List ℕ) : Prop where
  n_eq : lh.n = hs.length
  block_eq : ∀ i (h : i < hs.length), lh.block i = hs[i]

/-- The log header in memory is that of a transaction on the blocks `hs`, whose new
contents are in the cache. -/
structure Transaction (L : LogArea) (s : LogDisk) (hs : List ℕ) : Prop extends Lists s.lh hs where
  nodup : hs.Nodup
  lt : ∀ b ∈ hs, b < 2 ^ 32
  outside : ∀ b ∈ hs, ¬ L.Contains b
  length_le : hs.length ≤ L.size - 1

/-- The writes of a transaction. -/
def txWrites (s : LogDisk) (hs : List ℕ) : List (ℕ × Block) := hs.map fun b => (b, s.cache b)

theorem Transaction.length_lt (ht : Transaction L s hs) :
    hs.length < L.size := by
  have h := ht.length_le
  have hpos := L.pos
  omega

/-- The writes of `write_log`. -/
def logWrites (L : LogArea) (s : LogDisk) (hs : List ℕ) : List (ℕ × Block) :=
  (List.range hs.length).map fun i => (L.start + i + 1, s.cache (s.lh.block i))

theorem mem_logWrites (ht : Transaction L s hs) {w : ℕ × Block}
    (hw : w ∈ logWrites L s hs) : L.Contains w.1 ∧ w.1 ≠ L.start := by
  obtain ⟨i, hi, rfl⟩ := mem_map.1 hw
  have hi := mem_range.1 hi
  have hlt := ht.length_lt
  exact ⟨L.contains_block (by omega), by simp only; omega⟩

theorem apply_logWrites (L : LogArea) (s : LogDisk) (hs : List ℕ) (d : ℕ → Block) {i : ℕ}
    (hi : i < hs.length) : apply (logWrites L s hs) d (L.start + i + 1) = s.cache (s.lh.block i) := by
  have hnodup : ((logWrites L s hs).map Prod.fst).Nodup := by
    unfold logWrites
    rw [map_map]
    refine List.Nodup.map (fun i j hij => ?_) nodup_range
    simp only [Function.comp] at hij
    omega
  exact apply_of_mem hnodup (mem_map_of_mem (mem_range.2 hi)) d

theorem Transaction.txWrites_eq (ht : Transaction L s hs) :
    s.txWrites hs = (List.range hs.length).map fun i => (s.lh.block i, s.cache (s.lh.block i)) := by
  refine ext_getElem (by simp [txWrites]) fun i h1 h2 => ?_
  have hi : i < hs.length := by simpa [txWrites] using h1
  simp [txWrites, ht.block_eq i hi]

/-- `commit` writes the log, its header, the blocks of the transaction, and an empty
header. -/
theorem commit_writes (ht : Transaction L s hs) (hne : hs ≠ []) :
    ∃ h h0, headN h = hs.length ∧ (∀ i < hs.length, headEntry h i = s.lh.block i) ∧ headN h0 = 0 ∧
      (s.commit L).writes = s.writes ++
        (logWrites L s hs ++ (L.start, h) :: (s.txWrites hs ++ [(L.start, h0)])) := by
  have hN : s.lh.n.toNat = hs.length := by rw [ht.n_eq]; rfl
  have hpos : 0 < hs.length := length_pos_of_ne_nil hne
  have hlt := ht.length_lt
  have hfits := L.fits
  have houtside : ∀ i < hs.length, ¬ L.Contains (s.lh.block i) := fun i hi => by
    rw [ht.block_eq i hi]; exact ht.outside _ (getElem_mem hi)
  have hdisj : ∀ i < hs.length, ∀ j < hs.length, L.start + j + 1 ≠ s.lh.block i :=
    fun i hi j hj heq => houtside i hi (heq ▸ L.contains_block (by omega))
  have hlog := writeLog_eq L s (by rwa [hN])
  simp only [hN] at hlog
  have hspec := headBlock_spec ht.n_eq (by omega)
    (fun i hi => by rw [ht.block_eq i hi]; exact ht.lt _ (getElem_mem hi))
    ((s.writeLog L).cache L.start)
  -- the log blocks hold the transaction when it is installed
  set s1 := (s.writeLog L).writeHead L with hs1
  have hlh : s1.lh = s.lh := by rw [hs1, hlog]; rfl
  have hcache : ∀ i < hs.length, s1.cache (L.start + i + 1) = s.cache (s.lh.block i) := by
    intro i hi
    have hne : L.start + i + 1 ≠ L.start := by omega
    rw [hs1, hlog]
    simp only [writeHead, modify, bwrite, update_of_ne hne]
    exact apply_logWrites L s hs s.cache hi
  have hinst := installTrans_eq L s1 (by
    rw [hlh, hN]; exact fun i hi j hj => hdisj j hj i hi)
  have hws : (List.range s1.lh.n.toNat).map
      (fun i => (s1.lh.block i, s1.cache (L.start + i + 1))) = s.txWrites hs := by
    rw [hlh, hN, ht.txWrites_eq]
    exact map_congr_left fun i hi => by rw [hcache i (mem_range.1 hi)]
  simp only [hws] at hinst
  refine ⟨headBlock s.lh ((s.writeLog L).cache L.start),
    headBlock ⟨0, s.lh.block⟩ ((s1.installTrans L).cache L.start), hspec.1, hspec.2,
    headN_cleared _ _, ?_⟩
  unfold commit
  rw [if_pos (by rw [ht.n_eq]; omega)]
  have hwrites : s1.writes = s.writes ++ logWrites L s hs ++
      [(L.start, headBlock s.lh ((s.writeLog L).cache L.start))] := by
    rw [hs1, hlog]
    simp [writeHead, modify, bwrite, logWrites]
  show (((s1.installTrans L).clearHead).writeHead L).writes = _
  rw [hinst]
  simp [clearHead, writeHead, modify, bwrite, hwrites, hlh]

end LogDisk

/-! ## Crashes -/

open LogArea LogDisk

/-- A header with `n > 0` is among the writes. -/
def HeadWritten (L : LogArea) (ws : List (ℕ × Block)) : Prop :=
  ∃ w ∈ ws, w.1 = L.start ∧ 0 < headN w.2

instance (L : LogArea) (ws : List (ℕ × Block)) : Decidable (HeadWritten L ws) :=
  inferInstanceAs (Decidable (∃ w ∈ ws, w.1 = L.start ∧ 0 < headN w.2))

/-- The disk `d'` is left by a crash inside a recovery of `d`, or by a complete one. -/
def CrashedRecovery (L : LogArea) (d d' : ℕ → Block) : Prop :=
  ∃ lh k, d' = apply (((boot d lh).recoverFromLog L).writes.take k) d

variable {L : LogArea} {d : ℕ → Block}

/-- The contents survive a crash inside recovery. -/
theorem contents_crashedRecovery {d d' : ℕ → Block} (hok : L.LogOK d) (h : CrashedRecovery L d d') :
    L.LogOK d' ∧ L.Agree (L.contents d') (L.contents d) := by
  obtain ⟨lh, k, rfl⟩ := h
  obtain ⟨h0, hh0, hws, -⟩ := recoverFromLog_writes hok lh
  rw [hws]
  exact contents_install hok hh0 k

theorem contents_crashedRecoveries {d d' : ℕ → Block} (hok : L.LogOK d)
    (h : Relation.ReflTransGen (CrashedRecovery L) d d') :
    L.LogOK d' ∧ L.Agree (L.contents d') (L.contents d) := by
  induction h with
  | refl => exact ⟨hok, fun _ _ => rfl⟩
  | tail _ hstep ih =>
    obtain ⟨hok', hagree⟩ := contents_crashedRecovery ih.1 hstep
    exact ⟨hok', fun b hb => (hagree b hb).trans (ih.2 b hb)⟩

/-- A complete recovery gives the disk its contents. -/
theorem recoverFromLog_contents (hok : L.LogOK d) (lh : LogHeader) :
    headN (((boot d lh).recoverFromLog L).disk L.start) = 0 ∧
      L.Agree ((boot d lh).recoverFromLog L).disk (L.contents d) := by
  obtain ⟨h0, hh0, -, hdisk⟩ := recoverFromLog_writes hok lh
  rw [hdisk, apply_append]
  refine ⟨by simp [hh0], fun b hb => ?_⟩
  have hne : b ≠ L.start := fun h => hb (h ▸ L.contains_start)
  simp [update_of_ne hne, contents]

/-- Writes to the log area that leave the header empty do not change the contents. -/
theorem contents_empty {ws : List (ℕ × Block)}
    (hhead : headN (apply ws d L.start) = 0) (hws : ∀ w ∈ ws, L.Contains w.1) :
    L.LogOK (apply ws d) ∧ L.Agree (L.contents (apply ws d)) d := by
  refine ⟨logOK_of_empty hhead, fun b hb => ?_⟩
  unfold contents
  rw [redo_of_empty hhead, apply_nil]
  refine apply_of_notMem (fun hmem => ?_) _
  obtain ⟨w, hw, rfl⟩ := mem_map.1 hmem
  exact hb (hws w hw)

/-- With its header on the disk, the log is the transaction. -/
theorem redo_header (ht : Transaction L s hs) {h : Block}
    (hn : headN h = hs.length) (hentry : ∀ i < hs.length, headEntry h i = s.lh.block i)
    (d : ℕ → Block) :
    let d1 := update (apply (logWrites L s hs) d) L.start h
    L.LogOK d1 ∧ L.redo d1 = s.txWrites hs := by
  intro d1
  have hstart : d1 L.start = h := update_self ..
  have hN : (headN (d1 L.start)).toNat = hs.length := by rw [hstart, hn]; rfl
  refine ⟨⟨Or.inl ?_, fun i hi => ?_⟩, ?_⟩
  · have hlt := ht.length_lt
    rw [hstart, hn]
    omega
  · rw [hN] at hi
    rw [hstart, hentry i hi, ht.block_eq i hi]
    exact ht.outside _ (getElem_mem hi)
  · unfold redo
    rw [hN, ht.txWrites_eq]
    refine map_congr_left fun i hi => ?_
    have hi := mem_range.1 hi
    have hne : L.start + i + 1 ≠ L.start := by omega
    rw [hstart, hentry i hi]
    simp only [d1, update_of_ne hne, apply_logWrites L s hs _ hi]

/-- Outside the log area the transaction does not depend on what the log holds. -/
theorem apply_tx_agree (ht : Transaction L s hs) (h : Block)
    (d : ℕ → Block) :
    L.Agree (apply (s.txWrites hs) (update (apply (logWrites L s hs) d) L.start h))
      (apply (s.txWrites hs) d) := by
  intro b hb
  by_cases hmem : b ∈ (s.txWrites hs).map Prod.fst
  · exact apply_congr hmem _ _
  · have hlog : b ∉ (logWrites L s hs).map Prod.fst := by
      intro hin
      obtain ⟨w, hw, rfl⟩ := mem_map.1 hin
      exact hb (mem_logWrites ht hw).1
    have hne : b ≠ L.start := fun h => hb (h ▸ L.contains_start)
    rw [apply_of_notMem hmem, apply_of_notMem hmem, update_of_ne hne, apply_of_notMem hlog]

/-- **A crash inside `commit`.** The contents are the old ones until the header is written,
and the new ones from then on. -/
theorem contents_commit (ht : Transaction L s hs)
    (hwrites : s.writes = []) (hempty : headN (s.disk L.start) = 0) (k : ℕ) :
    let ws := (s.commit L).writes.take k
    L.LogOK (apply ws s.disk) ∧ L.Agree (L.contents (apply ws s.disk))
      (if HeadWritten L ws then apply (s.txWrites hs) s.disk else s.disk) := by
  intro ws
  by_cases hne : hs = []
  · have hws : ws = [] := by
      have hn : ¬ s.lh.n > 0 := by rw [ht.n_eq, hne]; simp
      simp only [ws, commit, if_neg hn, hwrites, take_nil]
    rw [hws, if_neg (by simp [HeadWritten])]
    exact contents_empty hempty (by simp)
  · obtain ⟨h, h0, hheadN, hentry, hh0, hcommit⟩ := commit_writes ht hne
    rw [hwrites, nil_append] at hcommit
    have hlen : (logWrites L s hs).length = hs.length := by simp [logWrites]
    by_cases hk : k ≤ hs.length
    · -- inside `write_log`, or just before the header is written
      have hws : ws = (logWrites L s hs).take k := by
        simp only [ws, hcommit, take_append_of_le_length (hlen.symm ▸ hk)]
      have hmem : ∀ w ∈ ws, L.Contains w.1 ∧ w.1 ≠ L.start := fun w hw =>
        mem_logWrites ht (mem_of_mem_take (hws ▸ hw))
      have hhead : apply ws s.disk L.start = s.disk L.start := by
        refine apply_of_notMem (fun hin => ?_) _
        obtain ⟨w, hw, hstart⟩ := mem_map.1 hin
        exact (hmem w hw).2 hstart
      rw [if_neg fun ⟨w, hw, hstart, _⟩ => (hmem w hw).2 hstart]
      exact contents_empty (hhead ▸ hempty) fun w hw => (hmem w hw).1
    · -- the header is on the disk: what follows are the writes of a recovery
      obtain ⟨j, rfl⟩ : ∃ j, k = hs.length + 1 + j := ⟨k - hs.length - 1, by omega⟩
      have hws : ws = logWrites L s hs ++ (L.start, h) ::
          (s.txWrites hs ++ [(L.start, h0)]).take j := by
        simp only [ws, hcommit]
        rw [take_append, hlen, take_of_length_le (by omega),
          show hs.length + 1 + j - hs.length = j + 1 by omega, take_succ_cons]
      have hyes : HeadWritten L ws := by
        refine ⟨(L.start, h), by rw [hws]; simp, rfl, ?_⟩
        have hpos := length_pos_of_ne_nil hne
        simp only [hheadN]; omega
      obtain ⟨hok1, hredo⟩ := redo_header ht hheadN hentry s.disk
      obtain ⟨hok, hagree⟩ := contents_install hok1 hh0 j
      rw [hredo] at hok hagree
      rw [if_pos hyes, hws, apply_append, apply_cons]
      refine ⟨hok, fun b hb => (hagree b hb).trans ?_⟩
      unfold contents
      rw [hredo]
      exact apply_tx_agree ht h s.disk b hb

/-- **Crash atomicity.** A transaction on the blocks `hs` is committed over a disk whose log
is empty. The machine crashes after any number `k` of the writes of `commit`, then any
number of times inside recoveries, and in the end recovery completes. Then every block
outside the log area holds its new contents if the header with `n > 0` was written before
the first crash and its old contents if not, and the log is empty. -/
theorem crash_atomic (ht : Transaction L s hs) (hwrites : s.writes = [])
    (hempty : headN (s.disk L.start) = 0) (k : ℕ)
    (hd : Relation.ReflTransGen (CrashedRecovery L) (apply ((s.commit L).writes.take k) s.disk) d)
    (lh : LogHeader) :
    headN (((boot d lh).recoverFromLog L).disk L.start) = 0 ∧
    ∀ b, ¬ L.Contains b → ((boot d lh).recoverFromLog L).disk b =
      if HeadWritten L ((s.commit L).writes.take k) ∧ b ∈ hs then s.cache b else s.disk b := by
  obtain ⟨hok, hcommit⟩ := contents_commit ht hwrites hempty k
  obtain ⟨hok', hcrash⟩ := contents_crashedRecoveries hok hd
  obtain ⟨hhead, hrec⟩ := recoverFromLog_contents hok' lh
  refine ⟨hhead, fun b hb => ?_⟩
  rw [hrec b hb, hcrash b hb, hcommit b hb]
  by_cases hw : HeadWritten L ((s.commit L).writes.take k)
  · rw [if_pos hw]
    have hfst : (s.txWrites hs).map Prod.fst = hs := by
      simp [txWrites, Function.comp_def]
    by_cases hmem : b ∈ hs
    · rw [if_pos ⟨hw, hmem⟩]
      exact apply_of_mem (hfst.symm ▸ ht.nodup) (mem_map_of_mem hmem) _
    · rw [if_neg (fun h => hmem h.2)]
      exact apply_of_notMem (by rw [hfst]; exact hmem) _
  · rw [if_neg hw, if_neg (fun h => hw h.1)]

/-- The log area that `mkfs` makes. -/
def LogArea.mkfs : LogArea := ⟨2, 30, by decide, by decide⟩

/-- A transaction that fills block 40 with ones and block 50 with twos. -/
def twoLogged : LogDisk where
  disk := fun _ _ => 0
  cache := fun b _ => if b = 40 then 1 else if b = 50 then 2 else 0
  lh := ⟨2, fun i => if i = 0 then 40 else 50⟩
  writes := []

/-- The crash comes right after the header was written, and the next one when recovery has
installed block 40: both blocks are new. -/
theorem crash_atomic_twoBlocks :
    ∃ d d', d = apply ((twoLogged.commit .mkfs).writes.take 3) twoLogged.disk ∧
      d' = apply (((boot d ⟨0, fun _ => 0⟩).recoverFromLog .mkfs).writes.take 1) d ∧
      headN (((boot d' ⟨0, fun _ => 0⟩).recoverFromLog .mkfs).disk 2) = 0 ∧
      ((boot d' ⟨0, fun _ => 0⟩).recoverFromLog .mkfs).disk 40 = (fun _ => 1) ∧
      ((boot d' ⟨0, fun _ => 0⟩).recoverFromLog .mkfs).disk 50 = fun _ => 2 := by
  have ht : Transaction .mkfs twoLogged [40, 50] := by
    refine ⟨⟨rfl, ?_⟩, by decide, by decide, by decide, by decide⟩
    decide
  have hw : HeadWritten .mkfs ((twoLogged.commit .mkfs).writes.take 3) := by decide +kernel
  obtain ⟨hempty, hblocks⟩ := crash_atomic ht rfl (by decide +kernel) 3
    (.single ⟨⟨0, fun _ => 0⟩, 1, rfl⟩) ⟨0, fun _ => 0⟩
  refine ⟨_, _, rfl, rfl, hempty, ?_, ?_⟩
  · rw [hblocks 40 (by decide), if_pos ⟨hw, by simp⟩]
    rfl
  · rw [hblocks 50 (by decide), if_pos ⟨hw, by simp⟩]
    rfl

end AudioPlayer
