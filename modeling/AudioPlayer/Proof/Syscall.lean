import AudioPlayer.Spec.Syscall
import AudioPlayer.Proof.Dma
import AudioPlayer.Proof.UserCopy

/-!
# `sys_writeDecodedAudio` with any arguments

`copyin` copies up to the first byte that is not mapped (`copyin_spec`). A negative `size`
passes the test `size > 2048` and is a length near `2 ^ 64`, so the call stores all mapped bytes
from `buf_addr` on into its buffer of 2049 bytes. `write_safe_iff` says when this is harmless;
in all other respects the call is safe whatever its arguments are.
-/

namespace AudioPlayer

open List Option Runs Kernel

/-! ## The call -/

variable {L : Layout} {s s' : Sys} {k : Kernel} {A : UserArgs}

theorem size_bounds (A : UserArgs) : -2 ^ 31 ≤ A.size ∧ A.size < 2 ^ 31 := by
  unfold UserArgs.size int32
  exact ⟨BitVec.le_toInt _, BitVec.toInt_lt⟩

/-- The bytes a call stores into its buffer. -/
theorem stored_eq (hsize : A.size ≤ 2048) : (k.callWriteDecodedAudio L A).stored =
    (copyin A.ptes A.mem A.pagetable A.bufAddr (A.size % 2 ^ 64).toNat).1 := by
  unfold callWriteDecodedAudio
  rw [if_neg (by omega)]
  dsimp only
  split <;> rfl

/-- **A call refuses its arguments, or goes on with as many bytes as it was asked to copy.** -/
theorem call_cases (L : Layout) (k : Kernel) (A : UserArgs) :
    (k.callWriteDecodedAudio L A).result = some (k, .returned (-1)) ∨
      ((k.callWriteDecodedAudio L A).stored.length ≤ 2048 ∧
        (k.callWriteDecodedAudio L A).result =
          (k.sysWriteDecodedAudio L (k.callWriteDecodedAudio L A).stored).map fun r =>
            (r.1, match r.2 with
              | none => .returned 0
              | some w => .searching w)) := by
  by_cases hsize : A.size > 2048
  · refine Or.inl ?_
    unfold callWriteDecodedAudio
    rw [if_pos hsize]
  · obtain ⟨-, hmapped, hend⟩ := copyin_spec A.ptes A.mem A.pagetable A.bufAddr (A.size % 2 ^ 64).toNat
    have hstored := @stored_eq L k A (by omega)
    rcases hend with ⟨hret, hall⟩ | ⟨hret, -, -⟩
    · refine Or.inr ⟨?_, ?_⟩
      · -- a negative size is a length that no page table can map
        rw [hstored, hall]
        have hbounds := size_bounds A
        by_contra hlong
        have hlast := (hmapped maxva (by rw [hall]; have : maxva = 2 ^ 38 := rfl; omega)).lt
        omega
      · rw [hstored]
        unfold callWriteDecodedAudio
        rw [if_neg hsize]
        exact congrArg WriteCall.result (if_neg (by rw [hret]; decide))
    · refine Or.inl ?_
      unfold callWriteDecodedAudio
      rw [if_neg hsize]
      exact congrArg WriteCall.result (if_pos (by rw [hret]; decide))

/-- A write as a process makes it changes nothing, or is a write of some bytes. -/
theorem userStep_write {p : ℕ} (h : s.userStep L (.write p A) = some s') :
    s' = s ∨ s.step L (.write p (s.kernel.callWriteDecodedAudio L A).stored) = some s' := by
  unfold Sys.userStep at h
  obtain ⟨hidle, h⟩ := ite_none_left_eq_some.1 h
  have hnone : s.calls p = none := by simpa using hidle
  rcases call_cases L s.kernel A with href | ⟨hlen, hgo⟩
  · rw [href] at h
    refine Or.inl ((some.inj h).symm.trans ?_)
    show (⟨s.kernel, Function.update s.calls p none⟩ : Sys) = s
    rw [← hnone, Function.update_eq_self]
  · refine Or.inr ?_
    rw [hgo, Option.map_map] at h
    rw [Sys.step, if_neg (by simp [hnone]; omega), ← h]
    refine congrFun (congrArg _ (funext fun r => ?_)) _
    obtain ⟨k', _ | w⟩ := r <;> rfl

/-- **A step as processes make them is no step, or one of the sound system.** -/
theorem userStep_cases {a : UserStep} (h : s.userStep L a = some s') :
    s' = s ∨ ∃ b, s.step L b = some s' := by
  cases a with
  | write p A => exact (userStep_write h).imp_right fun h => ⟨_, h⟩
  | search p => exact Or.inr ⟨.search p, h⟩
  | finish => exact Or.inr ⟨.finish, h⟩
  | clear => exact Or.inr ⟨.clear, h⟩
  | setPlay play => exact Or.inr ⟨.setPlay play, h⟩
  | intr => exact Or.inr ⟨.intr, h⟩

/-! ## Stores into the nodes -/

/-- All stores of write calls lie in the data of a node. -/
def StoresIn (k : Kernel) : Prop := ∀ st ∈ k.stores, 0 ≤ st.off ∧ st.off + st.len ≤ dataSize

theorem storesIn_store (h : StoresIn k) (i : NodeId) {off len : ℤ} (hoff : 0 ≤ off)
    (hlen : off + len ≤ dataSize) : StoresIn (k.store i off len) := by
  intro st hst
  rcases mem_cons.1 hst with rfl | hst
  · exact ⟨hoff, hlen⟩
  · exact h st hst

theorem storesIn_writeZero (h : StoresIn k) (i : NodeId) : StoresIn (k.writeZero i) :=
  storesIn_store h i le_rfl (by omega)

theorem storesIn_writeCopy (h : StoresIn k) (i : NodeId) {off : ℤ} {src : List UInt8} (hoff : 0 ≤ off)
    (hlen : off + src.length ≤ dataSize) : StoresIn (k.writeCopy i off src) :=
  storesIn_store h i hoff hlen

theorem storesIn_clearNew (h : StoresIn k) : StoresIn k.clearNew := by
  unfold clearNew
  split
  · exact storesIn_writeZero h _
  · exact h

theorem storesIn_write (h : StoresIn k) (hlo : 0 ≤ k.usedSize) (hhi : k.usedSize < bufsize)
    {buf : List UInt8} {r : Kernel × Option Search} (hr : k.sysWriteDecodedAudio L buf = some r) :
    StoresIn r.1 := by
  have hus : k.clearNew.usedSize = k.usedSize := by
    unfold clearNew
    split <;> rfl
  have hnew := storesIn_clearNew h
  have hdata : (dataSize : ℤ) = bufsize := by decide
  unfold sysWriteDecodedAudio at hr
  simp only [hus] at hr
  split at hr
  · rename_i hfit
    cases hr
    exact storesIn_writeCopy hnew _ hlo (by omega)
  · obtain ⟨k', hk, rfl⟩ := map_eq_some_iff.1 hr
    obtain ⟨-, -, -, -, hst⟩ := addSoundNode_frame hk
    unfold StoresIn
    rw [hst]
    refine storesIn_writeCopy hnew _ hlo ?_
    rw [length_take]
    omega

theorem storesIn_search (h : StoresIn k) {w : Search} (hw : w.OK) {r : Kernel × Option Search}
    (hr : k.searchPass L w = some r) : StoresIn r.1 := by
  rcases search_spec (k := k) L hw.fits with ⟨hk, -⟩ | ⟨i, -, hk⟩
  · rw [hk] at hr
    cases hr
    exact h
  · rw [hk] at hr
    cases hr
    refine storesIn_writeCopy (storesIn_writeZero h i) i le_rfl ?_
    have := hw.size
    have hdata : dataSize = 65536 := rfl
    rw [length_drop]
    omega

theorem finish_stores {k' : Kernel} (h : k.sysFinishWriteAudio L = some k') :
    k'.stores = k.stores := by
  unfold sysFinishWriteAudio at h
  split at h
  · obtain ⟨-, -, -, -, hst⟩ := addSoundNode_frame h
    exact hst
  · rw [← some.inj h]

theorem soundintr_stores {k' : Kernel} (h : k.soundintr L = some k') : k'.stores = k.stores := by
  unfold soundintr at h
  split at h
  · cases h
  · dsimp only at h
    split at h
    · rw [← some.inj h]
      rfl
    · rw [← some.inj h]
      rfl

theorem storesIn_step (hs : FillOK s) (h : StoresIn s.kernel) {a : Step}
    (hstep : s.step L a = some s') :
    StoresIn s'.kernel := by
  cases a with
  | write p buf =>
    obtain ⟨-, -, r, hr, rfl⟩ := Sys.step_write hstep
    exact storesIn_write h hs.lo hs.hi hr
  | search p =>
    obtain ⟨w, r, hw, hr, rfl⟩ := Sys.step_search hstep
    exact storesIn_search h (hs.calls p w hw) hr
  | finish =>
    obtain ⟨k', hk, rfl⟩ := Sys.step_finish hstep
    unfold StoresIn
    rw [finish_stores hk]
    exact h
  | clear =>
    rw [Sys.step_clear hstep]
    obtain ⟨-, -, -, -, hst⟩ := clear_spec s.kernel
    unfold StoresIn
    rw [hst]
    exact h
  | setPlay play =>
    rw [Sys.step_setPlay hstep]
    obtain ⟨d, hd⟩ := setPlay_frame s.kernel play
    rw [hd]
    exact h
  | intr =>
    obtain ⟨k', hk, rfl⟩ := Sys.step_intr hstep
    unfold StoresIn
    rw [soundintr_stores hk]
    exact h

/-! ## Runs -/

/-- The fill position is in order, and all stores so far were into the data of a node. -/
structure WriteOK (s : Sys) : Prop where
  fill : FillOK s
  stores : StoresIn s.kernel

theorem writeOK_boot (L : Layout) : WriteOK (Sys.boot L) :=
  ⟨fill_boot L, fun _ hst => absurd hst not_mem_nil⟩

theorem writeOK_step (hs : WriteOK s) {a : UserStep} (h : s.userStep L a = some s') : WriteOK s' := by
  rcases userStep_cases h with rfl | ⟨b, hb⟩
  · exact hs
  · exact ⟨fill_step hs.fill hb, storesIn_step hs.fill hs.stores hb⟩

theorem writeOK_run {as : List UserStep} (hs : WriteOK s) (h : exec (Sys.userStep L) s as = some s') :
    WriteOK s' :=
  exec_inv (fun _ _ _ hs h => writeOK_step hs h) hs h

/-- What a call of process `p` in state `s` must not do. Its search passes are made in states
that any steps have led to since. (That `buffer_index` is below 3 is its type.) -/
structure WriteSafe (L : Layout) (s : Sys) (p : ℕ) (A : UserArgs) : Prop where
  /-- the call stores into `buf[0]` to `buf[2048]` only -/
  buf : (s.kernel.callWriteDecodedAudio L A).stored.length ≤ 2049
  nodes : ∀ k' r, (s.kernel.callWriteDecodedAudio L A).result = some (k', r) →
    StoresIn k' ∧ 0 ≤ k'.usedSize ∧ k'.usedSize < 65536
  refused : ∀ k', (s.kernel.callWriteDecodedAudio L A).result = some (k', .returned (-1)) →
    k' = s.kernel
  passes : ∀ as t w k' r, exec (Sys.userStep L) s (.write p A :: as) = some t → t.calls p = some w →
    t.kernel.searchPass L w = some (k', r) →
      StoresIn k' ∧ 0 ≤ k'.usedSize ∧ k'.usedSize < 65536 ∧ ¬ t.kernel.fillsNode w

/-- **When a call is safe.** In every state a run reaches, and for every process that makes the
call: exactly if `size` is not negative or one of the 2050 bytes from `buf_addr` on is not mapped. -/
theorem write_safe_iff (L : Layout) {as : List UserStep}
    (h : exec (Sys.userStep L) (Sys.boot L) as = some s) {p : ℕ} (hidle : s.calls p = none)
    (A : UserArgs) :
    WriteSafe L s p A ↔
      0 ≤ A.size ∨ ∃ j ≤ 2049, walkaddr A.ptes A.pagetable (pgRoundDown (A.bufAddr + j)) = 0 := by
  have hs := writeOK_run (writeOK_boot L) h
  have hbounds := size_bounds A
  obtain ⟨-, hmapped, hend⟩ := copyin_spec A.ptes A.mem A.pagetable A.bufAddr (A.size % 2 ^ 64).toNat
  constructor
  · intro hsafe
    by_contra hnot
    push Not at hnot
    obtain ⟨hneg, hall⟩ := hnot
    have hbuf := hsafe.buf
    rw [stored_eq (by omega)] at hbuf
    rcases hend with ⟨-, hlen⟩ | ⟨-, -, hun⟩
    · omega
    · exact hun (hall _ hbuf)
  · intro hcond
    refine ⟨?_, ?_, ?_, ?_⟩
    · rcases lt_or_ge 2048 A.size with hbig | hsize
      · unfold callWriteDecodedAudio
        rw [if_pos hbig]
        exact Nat.zero_le _
      · rw [stored_eq hsize]
        rcases hcond with hpos | ⟨j, hj, hun⟩
        · rcases hend with ⟨-, hlen⟩ | ⟨-, hlen, -⟩ <;> omega
        · by_contra hlong
          exact hmapped j (by omega) hun
    · intro k' r hr
      have hstep : s.userStep L (.write p A) = some (s.progress p (k', r)) := by
        rw [Sys.userStep, if_neg (by simp [hidle]), hr, map_some]
      have hs' := writeOK_step hs hstep
      exact ⟨hs'.stores, hs'.fill.lo, hs'.fill.hi⟩
    · intro k' hr
      rcases call_cases L s.kernel A with href | ⟨-, hgo⟩
      · rw [href] at hr
        exact (congrArg Prod.fst (some.inj hr)).symm
      · -- behind the copy the call returns 0
        rw [hgo] at hr
        obtain ⟨⟨k1, _ | w⟩, -, hr⟩ := map_eq_some_iff.1 hr
        · exact absurd (congrArg Prod.snd hr) (by simp)
        · exact absurd (congrArg Prod.snd hr) (by simp)
    · intro as t w k' r ht hw hpass
      have htOK := writeOK_run hs ht
      have hwOK := htOK.fill.calls p w hw
      have hstep : t.step L (.search p) = some (t.after p (k', r)) := by
        rw [Sys.step, hw, bind_some, hpass, map_some]
      have hfill := fill_step htOK.fill hstep
      refine ⟨storesIn_search htOK.stores hwOK hpass, hfill.lo, hfill.hi, ?_⟩
      rintro ⟨i, -, hwhole⟩
      exact hwhole hwOK.fits

/-- A page table whose pages from `va` on, `n` of them, are mapped to page 1, with its own pages
at 2, 3 and 4. -/
def samplePtes (va n : ℕ) : PageMem := fun page i =>
  let leaf : Pte := ⟨1, true, true, true, false, true, 0⟩
  let none : Pte := ⟨0, false, false, false, false, false, 0⟩
  if page = 2 then if i = px 2 va then ⟨3, true, false, false, false, false, 0⟩ else none
  else if page = 3 then if i = px 1 va then ⟨4, true, false, false, false, false, 0⟩ else none
  else if page = 4 then if px 0 va ≤ i ∧ i < px 0 va + n then leaf else none
  else none

/-- Four bytes from a mapped page, and a write of -1 bytes close to its end. -/
theorem write_safe_iff_mapped :
    WriteSafe .sample (Sys.boot .sample) 0 ⟨0, 4, 2, samplePtes 0 1, fun _ => 0⟩ ∧
      WriteSafe .sample (Sys.boot .sample) 0 ⟨4000, 2 ^ 64 - 1, 2, samplePtes 0 1, fun _ => 0⟩ := by
  have hboot : exec (Sys.userStep .sample) (Sys.boot .sample) [] = some (Sys.boot .sample) := rfl
  exact ⟨(write_safe_iff .sample hboot rfl _).2 (Or.inl (by decide +kernel)),
    (write_safe_iff .sample hboot rfl _).2 (Or.inr ⟨96, by decide, by decide +kernel⟩)⟩

/-- **A write of -1 bytes from a mapped page** stores the whole page, 4096 bytes, into the
buffer of 2049 bytes. -/
theorem negative_size_overflows :
    ∃ A : UserArgs, A.size = -1 ∧
      ((Sys.boot .sample).kernel.callWriteDecodedAudio .sample A).stored.length = 4096 ∧
      ¬ WriteSafe .sample (Sys.boot .sample) 0 A := by
  have hlen : ((Sys.boot .sample).kernel.callWriteDecodedAudio .sample
      ⟨0, 2 ^ 64 - 1, 2, samplePtes 0 1, fun _ => 0⟩).stored.length = 4096 := by
    decide +kernel
  refine ⟨_, by decide +kernel, hlen, fun hsafe => ?_⟩
  have hbuf := hsafe.buf
  omega

end AudioPlayer
