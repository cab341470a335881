import AudioPlayer.Proof.Log
import AudioPlayer.Lib.Runs

/-!
# The room of the log

`begin_op` admits operations as long as their `MAXOPBLOCKS` blocks fit into `LOGSIZE`, but
the log area has one block less: its first block is the header.

* `Lists.addBlock`: the header lists the blocks that were logged, each one once;
* `log_room_iff`: no call panics if and only if `log_write` is never called with
  `log.size - 1` blocks in the log.
-/

namespace AudioPlayer

open Function Runs LogDisk List Option

namespace LogDisk.Lists

variable {lh : LogHeader} {hs : List ℕ} {b : ℕ}

theorem logSlot_of_mem (h : Lists lh hs) (hb : b ∈ hs) :
    LogSys.logSlot lh b < hs.length ∧ lh.block (LogSys.logSlot lh b) = b := by
  have hn : lh.n.toNat = hs.length := by rw [h.n_eq]; rfl
  obtain ⟨i, hi, rfl⟩ := getElem_of_mem hb
  have hsome : ((List.range lh.n.toNat).find? fun j => lh.block j = hs[i]).isSome := by
    rw [List.find?_isSome]
    exact ⟨i, mem_range.2 (hn ▸ hi), by simp [h.block_eq i hi]⟩
  obtain ⟨j, hj⟩ := isSome_iff_exists.1 hsome
  unfold LogSys.logSlot
  rw [hj, getD_some]
  exact ⟨hn ▸ mem_range.1 (mem_of_find?_eq_some hj), by simpa using List.find?_some hj⟩

theorem logSlot_of_notMem (h : Lists lh hs) (hb : b ∉ hs) : LogSys.logSlot lh b = hs.length := by
  have hn : lh.n.toNat = hs.length := by rw [h.n_eq]; rfl
  have hnone : ((List.range lh.n.toNat).find? fun j => lh.block j = b) = none := by
    rw [List.find?_eq_none]
    intro j hj heq
    have hj : j < hs.length := hn ▸ mem_range.1 hj
    rw [decide_eq_true_eq, h.block_eq j hj] at heq
    exact hb (heq ▸ getElem_mem hj)
  unfold LogSys.logSlot
  rw [hnone, getD_none, hn]

/-- **`log_write` lists the block, unless it is listed already.** -/
theorem addBlock (h : Lists lh hs) (b : ℕ) :
    Lists (LogSys.addBlock lh b) (if b ∈ hs then hs else hs ++ [b]) := by
  split
  · rename_i hb
    obtain ⟨hlt, hslot⟩ := h.logSlot_of_mem hb
    have hne : (LogSys.logSlot lh b : ℤ) ≠ lh.n := by rw [h.n_eq]; omega
    have hsame : LogSys.addBlock lh b = lh := by
      unfold LogSys.addBlock
      simp only [if_neg hne]
      rw [← congrArg (update lh.block (LogSys.logSlot lh b)) hslot,
        update_eq_self]
    rw [hsame]
    exact h
  · rename_i hb
    have hslot := h.logSlot_of_notMem hb
    have heq : (LogSys.logSlot lh b : ℤ) = lh.n := by rw [hslot, h.n_eq]
    unfold LogSys.addBlock
    rw [hslot] at heq
    simp only [hslot, if_pos heq]
    refine ⟨by simp [h.n_eq], fun i hi => ?_⟩
    simp only [length_append, length_singleton] at hi
    show update lh.block hs.length b i = _
    rcases Nat.lt_succ_iff_lt_or_eq.1 hi with hi | rfl
    · rw [update_of_ne (by omega), h.block_eq i hi, getElem_append_left hi]
    · rw [update_self, getElem_concat_length rfl]

end LogDisk.Lists

/-- What every step of the operations keeps. -/
structure LogInv (L : LogArea) (s : LogSys) : Prop where
  panic : s.panic = none ∨ s.panic = some "too big a transaction"
  outstanding : s.outstanding = s.ops.length
  committing : s.committing = true → s.ops = []
  listed : ∃ hs, Lists s.log.lh hs ∧ hs.Nodup ∧ hs.toFinset = s.since
  card_lt : s.since.card < L.size

/-- `log_write` is called with room for one more block, whether it needs it or not. -/
def HasRoom (L : LogArea) (s : LogSys) : LogStep → Prop
  | .logWrite _ _ _ => s.since.card < L.size - 1
  | _ => True

variable {L : LogArea} {s s' : LogSys}

/-- The blocks in the log, by number. -/
theorem LogInv.n_eq (h : LogInv L s) : s.log.lh.n = s.since.card := by
  obtain ⟨hs, hl, hnodup, hset⟩ := h.listed
  rw [hl.n_eq, ← hset, toFinset_card_of_nodup hnodup]

namespace LogSys

theorem logWrite_inv (hsize : L.size = logSize) (h : LogInv L s) (hpanic : s.panic = none) (op b : ℕ)
    (data : Block) (hop : op < s.ops.length) :
    LogInv L (s.logWrite L op b data) ∧
      ((s.logWrite L op b data).panic = none ↔ s.since.card < L.size - 1) := by
  have hn := h.n_eq
  unfold logWrite
  split
  · rename_i hfull
    exact ⟨⟨Or.inr rfl, h.outstanding, h.committing, h.listed, h.card_lt⟩,
      by simp only [reduceCtorEq, false_iff]; omega⟩
  · rename_i hroom
    have hcard : s.since.card < L.size - 1 := by omega
    have hout : ¬ s.outstanding < 1 := by rw [h.outstanding]; omega
    rw [if_neg hout]
    obtain ⟨hs, hl, hnodup, hset⟩ := h.listed
    refine ⟨⟨Or.inl hpanic, by simp [h.outstanding], fun hc => ?_, ⟨_, hl.addBlock b, ?_, ?_⟩, ?_⟩,
      by simp [hpanic, hcard]⟩
    · simp [h.committing hc]
    · split
      · exact hnodup
      · rename_i hb
        exact List.Nodup.append hnodup (by simp) (by simpa using hb)
    · simp only [← hset]
      split
      · rename_i hb
        rw [Finset.insert_eq_of_mem (by simpa using hb)]
      · rw [toFinset_append, toFinset_cons, toFinset_nil, Finset.union_comm]
        rfl
    · have hle := Finset.card_insert_le b s.since
      simp only
      omega

/-- **One step.** Only `log_write` can panic, with a message that the log is full; it does so
exactly when the log has no room for another block. -/
theorem step_inv (hsize : L.size = logSize) (h : LogInv L s) {a : LogStep}
    (hs : s.step L a = some s') : LogInv L s' ∧ (s'.panic = none ↔ HasRoom L s a) := by
  unfold step at hs
  split at hs
  · simp at hs
  · rename_i hpanic
    have hpanic : s.panic = none := by simpa using hpanic
    cases a with
    | beginOp =>
      simp only [beginOp] at hs
      split at hs
      · simp at hs
      · rename_i hc
        split at hs
        · simp at hs
        · cases hs
          exact ⟨⟨h.panic, by simp [h.outstanding], fun hc' => absurd hc' hc, h.listed, h.card_lt⟩,
            by simp [hpanic, HasRoom]⟩
    | logWrite op b data =>
      simp only at hs
      split at hs
      · rename_i hop
        cases hs
        have hlt : op < s.ops.length := by
          by_contra hge
          rw [List.getElem?_eq_none (by omega)] at hop
          simp at hop
        exact logWrite_inv hsize h hpanic op b data hlt
      · simp at hs
    | endOp op =>
      simp only at hs
      split at hs
      · rename_i hop
        cases hs
        -- a commit runs only after the last operation has ended
        have hc : ¬ s.committing = true := fun hc => by simp [h.committing hc] at hop
        have hlen : (s.ops.eraseIdx op).length = s.ops.length - 1 := length_eraseIdx_of_lt hop
        unfold endOp
        simp only [if_neg hc]
        split
        · rename_i hlast
          have hlast : s.outstanding - 1 = 0 := hlast
          refine ⟨⟨h.panic, ?_, fun _ => ?_, h.listed, h.card_lt⟩, by simp [hpanic, HasRoom]⟩
          · simp only [hlen, h.outstanding]; omega
          · refine eq_nil_of_length_eq_zero ?_
            rw [hlen]
            have := h.outstanding
            omega
        · refine ⟨⟨h.panic, ?_, fun hc' => absurd hc' hc, h.listed, h.card_lt⟩,
            by simp [hpanic, HasRoom]⟩
          simp only [hlen, h.outstanding]; omega
      · simp at hs
    | commit =>
      simp only at hs
      split at hs
      · rename_i hc
        cases hs
        refine ⟨⟨h.panic, h.outstanding, by simp [LogSys.commit], ⟨[], ⟨?_, by simp⟩, by simp, rfl⟩,
          L.pos⟩, by simp [hpanic, HasRoom, LogSys.commit]⟩
        have hn := h.n_eq
        simp only [LogSys.commit, LogDisk.commit]
        split
        · rfl
        · simp only [length_nil]; omega
      · simp at hs

theorem initlog_inv (d : ℕ → Block) (lh : LogHeader) :
    LogInv L (initlog L d lh) :=
  ⟨Or.inl rfl, rfl, by simp [initlog], ⟨[], ⟨rfl, by simp⟩, by simp, rfl⟩, L.pos⟩

/-- The blocks `write_log` writes to. -/
theorem writeLog_blocks (L : LogArea) (s : LogDisk) :
    (s.writeLog L).writes.map Prod.fst =
      s.writes.map Prod.fst ++ (List.range s.lh.n.toNat).map (L.start + · + 1) := by
  unfold writeLog
  induction List.range s.lh.n.toNat generalizing s with
  | nil => simp
  | cons i is ih =>
    rw [foldl_cons, ih]
    simp [copyBlock, LogDisk.modify, bwrite]

end LogSys

/-- **The room of the log.** `log.size` is what `mkfs` writes. In every run of any number of
operations, each of which logs at most `MAXOPBLOCKS` different blocks, the only panic is
that of a `log_write` into a full log, and `write_log` writes to blocks of the log area
behind the header only. No call of the run panics if and only if every `log_write` finds
fewer than `log.size - 1` different blocks logged since the last commit. -/
theorem log_room_iff {L : LogArea} (hsize : L.size = logSize) (d : ℕ → Block) (lh : LogHeader)
    {as : List LogStep} {s : LogSys} (h : exec (LogSys.step L) (.initlog L d lh) as = some s) :
    (s.panic = none ∨ s.panic = some "too big a transaction") ∧
    (∃ bs, (s.log.writeLog L).writes.map Prod.fst = s.log.writes.map Prod.fst ++ bs ∧
      ∀ b ∈ bs, L.start + 1 ≤ b ∧ b ≤ L.start + L.size - 1) ∧
    ((∀ bs cs u, as = bs ++ cs → exec (LogSys.step L) (.initlog L d lh) bs = some u →
      u.panic = none) ↔ Along (LogSys.step L) (HasRoom L) (.initlog L d lh) as) := by
  have hinv : LogInv L s :=
    exec_inv (fun u a u' hu hs => (LogSys.step_inv hsize hu hs).1) (LogSys.initlog_inv d lh) h
  refine ⟨hinv.panic, ⟨_, LogSys.writeLog_blocks L s.log, fun b hb => ?_⟩, ?_⟩
  · obtain ⟨i, hi, rfl⟩ := mem_map.1 hb
    have hi := mem_range.1 hi
    have hn := hinv.n_eq
    have hlt := hinv.card_lt
    omega
  · have hkeep : ∀ u a u', LogInv L u ∧ u.panic = none → HasRoom L u a →
        LogSys.step L u a = some u' → LogInv L u' ∧ u'.panic = none := by
      rintro u a u' ⟨hu, -⟩ hroom hs
      obtain ⟨hu', hiff⟩ := LogSys.step_inv hsize hu hs
      exact ⟨hu', hiff.2 hroom⟩
    have hbad : ∀ u a u', LogInv L u ∧ u.panic = none → ¬ HasRoom L u a →
        LogSys.step L u a = some u' → ¬ u'.panic = none := by
      rintro u a u' ⟨hu, -⟩ hroom hs hnone
      exact hroom ((LogSys.step_inv hsize hu hs).2.1 hnone)
    exact (along_iff hkeep (fun u hu => hu.2) hbad ⟨LogSys.initlog_inv d lh, rfl⟩ h).symm

/-- Operation `op` logs the `k` blocks from `b` on. -/
def logBlocks (op b k : ℕ) : List LogStep :=
  (List.range k).map fun i => .logWrite op (b + i) fun _ => 0

/-- Three operations begin, and log `i`, `j` and `k` blocks of their own. -/
def threeOps (i j k : ℕ) : List LogStep :=
  [.beginOp, .beginOp, .beginOp] ++ logBlocks 0 100 i ++ logBlocks 1 110 j ++ logBlocks 2 120 k

/-- The log of `mkfs`, empty after a first boot. -/
def LogSys.fresh : LogSys := .initlog .mkfs (fun _ _ => 0) ⟨0, fun _ => 0⟩

instance (L : LogArea) (s : LogSys) : ∀ a, Decidable (HasRoom L s a)
  | .logWrite _ _ _ => inferInstanceAs (Decidable (s.since.card < L.size - 1))
  | .beginOp => isTrue trivial
  | .endOp _ => isTrue trivial
  | .commit => isTrue trivial

/-- With one block less there is room for all of them. -/
theorem log_room_iff_threeOps :
    ∃ s, exec (LogSys.step .mkfs) .fresh (threeOps 10 10 9 ++ [.endOp 0, .endOp 0, .endOp 0, .commit]) =
      some s ∧ s.panic = none := by
  have hrun : (exec (LogSys.step .mkfs) .fresh
      (threeOps 10 10 9 ++ [.endOp 0, .endOp 0, .endOp 0, .commit])).isSome := by decide +kernel
  obtain ⟨s, hs⟩ := isSome_iff_exists.1 hrun
  have hroom : Along (LogSys.step .mkfs) (HasRoom .mkfs) .fresh
      (threeOps 10 10 9 ++ [.endOp 0, .endOp 0, .endOp 0, .commit]) := by decide +kernel
  exact ⟨s, hs, (log_room_iff (by decide) _ _ hs).2.2.2 hroom _ [] s (append_nil _).symm hs⟩

/-- Three operations that each use their full budget. -/
theorem full_budgets_panic :
    ∃ s, exec (LogSys.step .mkfs) .fresh (threeOps 10 10 10) = some s ∧
      s.panic = some "too big a transaction" := by
  have hrun : (exec (LogSys.step .mkfs) .fresh (threeOps 10 10 10)).any
      (fun s => s.panic = some "too big a transaction") := by decide +kernel
  obtain ⟨s, hs, h⟩ := (any_eq_true _ _).1 hrun
  exact ⟨s, hs, of_decide_eq_true h⟩

end AudioPlayer
