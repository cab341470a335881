import AudioPlayer.Spec.Bio
import AudioPlayer.Proof.Transactions
import AudioPlayer.Lib.Counts

/-!
# The buffer cache holds one copy of a block

* `Bcache.Ok`: the ring has every buffer once, and no two buffers hold the same block;
* `Contents`: the buffers hold what was written last, and a block that is not in a buffer is
  on the disk;
* `Users`: `refcnt` counts the processes that use a buffer and its pin;
* `buffer_cache_coherent`: every state of a run.
-/

namespace AudioPlayer

open Function AudioPlayer.Ring Runs Counts LogDisk List Option

/-! ## The ring -/

namespace Bcache

variable {c c' : Bcache} {b : BufId} {v : DiskBuf} {dev blockno : ℕ}

@[simp] theorem buf_setBuf_self (c : Bcache) (b : BufId) (v : DiskBuf) : (c.setBuf b v).buf b = v :=
  update_self _ _ _

theorem buf_setBuf_of_ne {b' : BufId} (c : Bcache) (v : DiskBuf) (hne : b' ≠ b) :
    (c.setBuf b v).buf b' = c.buf b' :=
  update_of_ne hne _ _

/-- All buffers are in the ring, and no two of them hold the same block. Device 0 is that of a
buffer which was never used. -/
structure Ok (c : Bcache) : Prop where
  ring : ∃ l, IsRing c.links l ∧ ∀ b, b ∈ l
  unique : ∀ b b', 1 ≤ (c.buf b).dev → (c.buf b').dev = (c.buf b).dev →
    (c.buf b').blockno = (c.buf b).blockno → b' = b

theorem binit_ok : binit.Ok := by
  refine ⟨⟨_, isRing_empty.foldl_pushFront (nodup_finRange nbuf) (by simp), ?_⟩, ?_⟩
  · intro b
    rw [append_nil, mem_reverse]
    exact mem_finRange b
  · intro b b' hdev
    exact absurd hdev (Nat.not_succ_le_zero 0)

/-- **What `bget` does**: it takes the buffer of the block, or one that nobody uses when there
is none. -/
theorem bget_cases (h : c.Ok) (hrun : c.bget dev blockno = some (c', b)) :
    ((c.buf b).dev = dev ∧ (c.buf b).blockno = blockno ∧ c' = c.bpin b) ∨
    ((∀ b', ¬ ((c.buf b').dev = dev ∧ (c.buf b').blockno = blockno)) ∧ (c.buf b).refcnt = 0 ∧
      c' = c.setBuf b
        { c.buf b with dev := dev, blockno := blockno, valid := false, refcnt := 1 }) := by
  obtain ⟨l, hring, hall⟩ := h.ring
  have hlen : l.length < nbuf + 1 := by
    have hle := hring.length_le
    rw [Fintype.card_fin] at hle
    omega
  have hback : search c.links.prev (fun b => decide ((c.buf b).refcnt = 0)) (nbuf + 1)
      (c.links.prev none) = l.reverse.find? fun b => decide ((c.buf b).refcnt = 0) :=
    hring.flip.search_eq _ (by rwa [length_reverse])
  unfold bget at hrun
  rw [hring.search_eq _ hlen, hback] at hrun
  cases hfind : l.find? (c.isBlock dev blockno) with
  | some b0 =>
    rw [hfind] at hrun
    obtain ⟨rfl, rfl⟩ := Prod.mk.inj (some.inj hrun)
    have hkey : c.isBlock dev blockno b0 = true := List.find?_some hfind
    simp only [isBlock, decide_eq_true_eq] at hkey
    exact Or.inl ⟨hkey.1, hkey.2, rfl⟩
  | none =>
    rw [hfind] at hrun
    have hnone : ∀ b', ¬ ((c.buf b').dev = dev ∧ (c.buf b').blockno = blockno) := by
      intro b'
      have hno := List.find?_eq_none.1 hfind b' (hall b')
      simpa only [isBlock, decide_eq_true_eq] using hno
    cases hfree : l.reverse.find? fun b => decide ((c.buf b).refcnt = 0) with
    | none =>
      rw [hfree] at hrun
      cases hrun
    | some b0 =>
      rw [hfree] at hrun
      cases hrun
      have hzero := List.find?_some hfree
      rw [decide_eq_true_eq] at hzero
      exact Or.inr ⟨hnone, hzero, rfl⟩

/-- A buffer that keeps its block. -/
theorem Ok.setBuf (h : c.Ok) (hdev : v.dev = (c.buf b).dev) (hno : v.blockno = (c.buf b).blockno) :
    (c.setBuf b v).Ok := by
  have hkey : ∀ b', ((c.setBuf b v).buf b').dev = (c.buf b').dev ∧
      ((c.setBuf b v).buf b').blockno = (c.buf b').blockno := by
    intro b'
    by_cases hb : b' = b
    · rw [hb, buf_setBuf_self]
      exact ⟨hdev, hno⟩
    · rw [buf_setBuf_of_ne c v hb]
      exact ⟨rfl, rfl⟩
  refine ⟨h.ring, ?_⟩
  intro b1 b2 hpos hd hn
  rw [(hkey b1).1] at hpos hd
  rw [(hkey b2).1] at hd
  rw [(hkey b1).2, (hkey b2).2] at hn
  exact h.unique b1 b2 hpos hd hn

theorem Ok.bget (h : c.Ok) (hrun : c.bget dev blockno = some (c', b)) : c'.Ok := by
  rcases bget_cases h hrun with ⟨-, -, rfl⟩ | ⟨hnone, -, rfl⟩
  · exact h.setBuf rfl rfl
  · refine ⟨h.ring, ?_⟩
    intro b1 b2 hpos hd hn
    by_cases h1 : b1 = b
    · by_cases h2 : b2 = b
      · rw [h1, h2]
      · subst h1
        rw [buf_setBuf_self, buf_setBuf_of_ne c _ h2] at hd hn
        exact absurd ⟨hd, hn⟩ (hnone b2)
    · by_cases h2 : b2 = b
      · subst h2
        rw [buf_setBuf_self, buf_setBuf_of_ne c _ h1] at hd hn
        exact absurd ⟨hd.symm, hn.symm⟩ (hnone b1)
      · rw [buf_setBuf_of_ne c _ h1] at hpos hd hn
        rw [buf_setBuf_of_ne c _ h2] at hd hn
        exact h.unique b1 b2 hpos hd hn

theorem Ok.drop (h : c.Ok) (b : BufId) : (c.drop b).Ok := by
  have hset : (c.bunpin b).Ok := h.setBuf rfl rfl
  unfold Bcache.drop
  dsimp only
  split
  · obtain ⟨l, hring, hall⟩ := h.ring
    have hb : b ∉ l.erase b := hring.nodup.not_mem_erase
    refine ⟨⟨b :: l.erase b, (hring.unlink (hall b)).pushFront hb, ?_⟩, hset.unique⟩
    intro b'
    by_cases hbb : b' = b
    · rw [hbb]
      exact mem_cons_self
    · exact mem_cons_of_mem _ ((mem_erase_of_ne hbb).2 (hall b'))
  · exact hset

/-- **What a step does to the cache**: the ring stays one, and a buffer in use keeps its block. -/
structure Next (c c' : Bcache) : Prop where
  ok : c'.Ok
  kept : ∀ b, 0 < (c.buf b).refcnt → (c'.buf b).dev = (c.buf b).dev ∧
    (c'.buf b).blockno = (c.buf b).blockno ∧ ((c.buf b).valid = true → (c'.buf b).valid = true)

theorem Ok.next_self (h : c.Ok) : Next c c := ⟨h, fun _ _ => ⟨rfl, rfl, id⟩⟩

theorem Ok.next_setBuf (h : c.Ok) (hdev : v.dev = (c.buf b).dev) (hno : v.blockno = (c.buf b).blockno)
    (hvalid : (c.buf b).valid = true → v.valid = true) : Next c (c.setBuf b v) := by
  refine ⟨h.setBuf hdev hno, ?_⟩
  intro b' _
  by_cases hb : b' = b
  · rw [hb, buf_setBuf_self]
    exact ⟨hdev, hno, hvalid⟩
  · rw [buf_setBuf_of_ne c v hb]
    exact ⟨rfl, rfl, id⟩

theorem Ok.next_bget (h : c.Ok) (hrun : c.bget dev blockno = some (c', b)) :
    Next c c' := by
  rcases bget_cases h hrun with ⟨-, -, rfl⟩ | ⟨-, hzero, rfl⟩
  · exact h.next_setBuf rfl rfl id
  · refine ⟨h.bget hrun, ?_⟩
    intro b' hpos
    have hb : b' ≠ b := by
      rintro rfl
      omega
    rw [buf_setBuf_of_ne c _ hb]
    exact ⟨rfl, rfl, id⟩

theorem drop_buf (c : Bcache) (b : BufId) : (c.drop b).buf = (c.bunpin b).buf := by
  unfold drop
  dsimp only
  split
  · rfl
  · rfl

theorem Ok.next_drop (h : c.Ok) (b : BufId) : Next c (c.drop b) := by
  have hset : Next c (c.bunpin b) := h.next_setBuf rfl rfl id
  refine ⟨h.drop b, ?_⟩
  rw [drop_buf]
  exact hset.kept

end Bcache

/-- The block that is read satisfies `P`. -/
def BioStep.On (P : ℕ → ℕ → Prop) : BioStep → Prop
  | .bget _ dev blockno => P dev blockno
  | _ => True

namespace BioSys

variable {L : LogArea} {dev : ℕ} {s s' : BioSys} {p : Slot}

theorem bget_inv {dev' blockno : ℕ} (h : s.bget p dev' blockno = some s') :
    s.busy p = .idle ∧ ∃ c' b, s.cache.bget dev' blockno = some (c', b) ∧
      s' = { s with cache := c' }.setBusy p (.locking b) := by
  obtain ⟨hidle, hmap⟩ := ite_none_right_eq_some.1 h
  obtain ⟨⟨c', b⟩, hrun, rfl⟩ := map_eq_some_iff.1 hmap
  exact ⟨hidle, c', b, hrun, rfl⟩

theorem acquire_inv (h : s.acquire p = some s') :
    ∃ b, s.busy p = .locking b ∧ (s.cache.buf b).lock = none ∧
      s' = ((s.setBuf b { s.cache.buf b with lock := some p }).setMode b .clean).setBusy p
        (.filling b) := by
  unfold acquire at h
  split at h
  · rename_i b hbusy
    obtain ⟨hfree, heq⟩ := ite_none_right_eq_some.1 h
    exact ⟨b, hbusy, hfree, (some.inj heq).symm⟩
  · cases h

theorem fill_inv (h : s.fill p = some s') :
    ∃ b, s.busy p = .filling b ∧
      ((s.cache.buf b).valid = true ∧ s' = s.setBusy p .idle ∨
        (s.cache.buf b).valid = false ∧ s' = (s.setBusy p .idle).setBuf b
          { s.cache.buf b with data := s.disk (sectorOf (s.cache.buf b).blockno), valid := true }) := by
  unfold fill at h
  split at h
  · rename_i b hbusy
    refine ⟨b, hbusy, ?_⟩
    dsimp only at h
    split at h
    · rename_i hvalid
      exact Or.inl ⟨hvalid, (some.inj h).symm⟩
    · rename_i hvalid
      exact Or.inr ⟨Bool.eq_false_of_not_eq_true hvalid, (some.inj h).symm⟩
  · cases h

theorem drop_inv (h : s.drop p = some s') :
    ∃ b, s.busy p = .dropping b ∧ s' = { s with cache := s.cache.drop b }.setBusy p .idle := by
  unfold drop at h
  split at h
  · rename_i b hbusy
    exact ⟨b, hbusy, (some.inj h).symm⟩
  · cases h

theorem logWrite_inv {b : BufId} (h : s.logWrite L p b = some s') :
    s.Holds p b ∧ ¬ s.outstanding < 1 ∧
      s' = { s.setMode b .logged with
        cache := if LogSys.logSlot s.lh (s.cache.buf b).blockno = s.lh.n then s.cache.bpin b else s.cache
        lh := LogSys.addBlock s.lh (s.cache.buf b).blockno } := by
  obtain ⟨hholds, h⟩ := ite_none_right_eq_some.1 h
  obtain ⟨-, h⟩ := ite_none_left_eq_some.1 h
  obtain ⟨hout, h⟩ := ite_none_left_eq_some.1 h
  exact ⟨hholds, hout, (some.inj h).symm⟩

/-- **One step keeps the ring and the blocks apart.** -/
theorem step_next {a : BioStep} (h : s.cache.Ok) (hstep : s.step L dev a = some s') :
    s.cache.Next s'.cache := by
  cases a with
  | bget p dev' blockno =>
    obtain ⟨-, c', b, hrun, rfl⟩ := bget_inv hstep
    exact h.next_bget hrun
  | acquire p =>
    obtain ⟨b, -, -, rfl⟩ := acquire_inv hstep
    exact h.next_setBuf rfl rfl id
  | fill p =>
    obtain ⟨b, -, ⟨-, rfl⟩ | ⟨-, rfl⟩⟩ := fill_inv hstep
    · exact h.next_self
    · exact h.next_setBuf rfl rfl fun _ => rfl
  | modify p b data =>
    obtain ⟨-, ⟨⟩⟩ := ite_none_right_eq_some.1 hstep
    exact h.next_setBuf rfl rfl id
  | bwrite p b =>
    obtain ⟨-, ⟨⟩⟩ := ite_none_right_eq_some.1 hstep
    exact h.next_self
  | logWrite p b =>
    obtain ⟨-, -, rfl⟩ := logWrite_inv hstep
    dsimp only
    split
    · exact h.next_setBuf rfl rfl id
    · exact h.next_self
  | brelse p b =>
    obtain ⟨-, ⟨⟩⟩ := ite_none_right_eq_some.1 hstep
    exact h.next_setBuf rfl rfl id
  | drop p =>
    obtain ⟨b, -, rfl⟩ := drop_inv hstep
    exact h.next_drop b
  | unpin p b =>
    obtain ⟨-, ⟨⟩⟩ := ite_none_right_eq_some.1 hstep
    exact h.next_setBuf rfl rfl id
  | beginOp p =>
    obtain ⟨-, ⟨⟩⟩ := ite_none_right_eq_some.1 hstep
    exact h.next_self
  | endOp p =>
    obtain ⟨-, ⟨⟩⟩ := ite_none_right_eq_some.1 hstep
    dsimp only
    split <;> exact h.next_self
  | clearHead p =>
    obtain ⟨-, ⟨⟩⟩ := ite_none_right_eq_some.1 hstep
    exact h.next_self
  | endCommit p =>
    obtain ⟨-, ⟨⟩⟩ := ite_none_right_eq_some.1 hstep
    exact h.next_self

end BioSys

/-! ## The contents of the buffers -/

/-- The blocks whose sectors have numbers of 32 bits. -/
abbrev maxBlockno : ℕ := 2 ^ 32 / (bsize / 512)

theorem sectorOf_inj {x y : ℕ} (hx : x < maxBlockno) (hy : y < maxBlockno)
    (h : sectorOf x = sectorOf y) : x = y := by
  simp only [sectorOf, maxBlockno, bsize] at *
  omega

/-- **What the buffers and the disk hold.** Device `dev` is the one in use, and `pend` are the
blocks that are logged and not yet installed. -/
structure Contents (dev : ℕ) (buf : BufId → DiskBuf) (mode : BufId → BufMode) (disk : ℕ → Block)
    (latest : ℕ → ℕ → Block) (pend : List ℕ) : Prop where
  home : ∀ b, (buf b).valid = true → (buf b).dev = dev ∧ (buf b).blockno < maxBlockno
  kept : ∀ x ∈ pend, ∃ b, (buf b).dev = dev ∧ (buf b).blockno = x ∧ (buf b).valid = true
  data : ∀ b, (buf b).valid = true → (buf b).data = latest dev (buf b).blockno
  stored : ∀ b, (buf b).valid = true →
    mode b = .written ∨ mode b ≠ .dirty ∧ (buf b).blockno ∉ pend →
    disk (sectorOf (buf b).blockno) = (buf b).data
  uncached : ∀ x < maxBlockno, (∀ b, (buf b).dev = dev → (buf b).blockno = x → (buf b).valid = false) →
    disk (sectorOf x) = latest dev x

namespace Contents

variable {dev : ℕ} {buf buf' : BufId → DiskBuf} {mode : BufId → BufMode} {disk : ℕ → Block}
  {latest : ℕ → ℕ → Block} {pend pend' : List ℕ} {b : BufId}

/-- A block that no buffer has, where buffer `b` is looked at by itself. -/
theorem uncached_of (h : Contents dev buf mode disk latest pend) {x : ℕ} (hx : x < maxBlockno)
    (hself : (buf b).dev = dev → (buf b).blockno = x → (buf b).valid = false)
    (hother : ∀ b' ≠ b, (buf b').dev = dev → (buf b').blockno = x → (buf b').valid = false) :
    disk (sectorOf x) = latest dev x := by
  refine h.uncached x hx fun b' => ?_
  by_cases hb : b' = b
  · rw [hb]
    exact hself
  · exact hother b' hb

/-- **One buffer changes.** Only this buffer is to be looked at. -/
theorem change {v : DiskBuf} {m : BufMode} {latest' : ℕ → ℕ → Block}
    (h : Contents dev buf mode disk latest pend)
    (hlatest : ∀ b' ≠ b, (buf b').valid = true →
      latest' dev (buf b').blockno = latest dev (buf b').blockno)
    (hkept : (buf b).valid = true → (buf b).blockno ∈ pend →
      v.dev = dev ∧ v.blockno = (buf b).blockno ∧ v.valid = true)
    (hself : v.valid = true → (v.dev = dev ∧ v.blockno < maxBlockno) ∧
      v.data = latest' dev v.blockno ∧
      (m = .written ∨ m ≠ .dirty ∧ v.blockno ∉ pend → disk (sectorOf v.blockno) = v.data))
    (huncached : ∀ x < maxBlockno, (v.dev = dev → v.blockno = x → v.valid = false) →
      (∀ b' ≠ b, (buf b').dev = dev → (buf b').blockno = x → (buf b').valid = false) →
      disk (sectorOf x) = latest' dev x) :
    Contents dev (update buf b v) (update mode b m) disk latest' pend := by
  have hb : update buf b v b = v := update_self ..
  have hother : ∀ b' ≠ b, update buf b v b' = buf b' := fun b' hne => update_of_ne hne ..
  refine ⟨?_, ?_, ?_, ?_, ?_⟩
  · intro b' hvalid
    obtain rfl | hne := eq_or_ne b' b
    · rw [hb] at hvalid ⊢
      exact (hself hvalid).1
    · rw [hother b' hne] at hvalid ⊢
      exact h.home b' hvalid
  · intro x hx
    obtain ⟨b', hdev, rfl, hvalid⟩ := h.kept x hx
    obtain rfl | hne := eq_or_ne b' b
    · exact ⟨b', by rw [hb]; exact hkept hvalid hx⟩
    · exact ⟨b', by rw [hother b' hne]; exact ⟨hdev, rfl, hvalid⟩⟩
  · intro b' hvalid
    obtain rfl | hne := eq_or_ne b' b
    · rw [hb] at hvalid ⊢
      exact (hself hvalid).2.1
    · rw [hother b' hne] at hvalid ⊢
      exact (h.data b' hvalid).trans (hlatest b' hne hvalid).symm
  · intro b' hvalid
    obtain rfl | hne := eq_or_ne b' b
    · rw [hb] at hvalid ⊢
      rw [update_self]
      exact (hself hvalid).2.2
    · rw [hother b' hne] at hvalid ⊢
      rw [update_of_ne hne]
      exact h.stored b' hvalid
  · intro x hx hnone
    refine huncached x hx (hb ▸ hnone b) fun b' hne => ?_
    have hnone' := hnone b'
    rwa [hother b' hne] at hnone'

/-- The lock and the count of a buffer do not matter. -/
theorem touch {v : DiskBuf} (h : Contents dev buf mode disk latest pend) (hdev : v.dev = (buf b).dev)
    (hno : v.blockno = (buf b).blockno) (hv : v.valid = (buf b).valid) (hdata : v.data = (buf b).data) :
    Contents dev (update buf b v) mode disk latest pend := by
  rw [← update_eq_self b mode]
  refine h.change (fun _ _ _ => rfl) ?_ ?_ ?_
  · intro hvalid _
    exact ⟨hdev.trans (h.home b hvalid).1, hno, hv.trans hvalid⟩
  · rw [hdev, hno, hv, hdata]
    exact fun hvalid => ⟨h.home b hvalid, h.data b hvalid, h.stored b hvalid⟩
  · intro x hx hself hother
    rw [hdev, hno, hv] at hself
    exact h.uncached_of hx hself hother

/-- Another process gets a buffer that is not modified. -/
theorem setClean (h : Contents dev buf mode disk latest pend) (hclean : mode b ≠ .dirty) :
    Contents dev buf (update mode b .clean) disk latest pend := by
  refine ⟨h.home, h.kept, h.data, ?_, h.uncached⟩
  intro b' hvalid hmode
  by_cases hb : b' = b
  · subst hb
    rw [update_self] at hmode
    refine h.stored b' hvalid (Or.inr ⟨hclean, ?_⟩)
    rcases hmode with hmode | hmode
    · cases hmode
    · exact hmode.2
  · rw [update_of_ne hb] at hmode
    exact h.stored b' hvalid hmode

/-- **A buffer is taken for another block.** What it holds is on the disk. -/
theorem recycle {x : ℕ} (h : Contents dev buf mode disk latest pend) (hclean : mode b ≠ .dirty)
    (hpend : (buf b).valid = true → (buf b).blockno ∉ pend) :
    Contents dev (update buf b
      { buf b with dev := dev, blockno := x, valid := false, refcnt := 1 }) mode disk latest pend := by
  rw [← update_eq_self b mode]
  refine h.change (fun _ _ _ => rfl) ?_ ?_ ?_
  · exact fun hvalid hmem => absurd hmem (hpend hvalid)
  · exact fun hvalid => Bool.noConfusion hvalid
  · intro y hy _ hother
    by_cases hold : (buf b).valid = true ∧ (buf b).blockno = y
    · obtain ⟨hvalid, rfl⟩ := hold
      rw [h.stored b hvalid (Or.inr ⟨hclean, hpend hvalid⟩), h.data b hvalid]
    · refine h.uncached_of hy (fun _ hno => ?_) hother
      exact Bool.eq_false_of_not_eq_true fun hvalid => hold ⟨hvalid, hno⟩

/-- No other buffer holds the block of buffer `b`. -/
def Only (dev : ℕ) (buf : BufId → DiskBuf) (b : BufId) : Prop :=
  ∀ b', (buf b').dev = dev → (buf b').blockno = (buf b).blockno → b' = b

/-- **`bread` reads the block** from the disk. -/
theorem fill (h : Contents dev buf mode disk latest pend) (hhome : (buf b).dev = dev)
    (hlt : (buf b).blockno < maxBlockno) (honly : Only dev buf b) (hinvalid : (buf b).valid = false) :
    Contents dev (update buf b
      { buf b with data := disk (sectorOf (buf b).blockno), valid := true }) mode disk latest pend := by
  -- no buffer has the block, so the disk has what was written last
  have hdisk : disk (sectorOf (buf b).blockno) = latest dev (buf b).blockno := by
    refine h.uncached _ hlt fun b' hdev hno => ?_
    rw [honly b' hdev hno]
    exact hinvalid
  rw [← update_eq_self b mode]
  refine h.change (fun _ _ _ => rfl) ?_ ?_ ?_
  · exact fun hvalid => absurd hvalid (by simp [hinvalid])
  · exact fun _ => ⟨⟨hhome, hlt⟩, hdisk, fun _ => rfl⟩
  · exact fun y hy _ hother => h.uncached_of hy (fun _ _ => hinvalid) hother

/-- **The contents of a buffer are modified.** -/
theorem modify (h : Contents dev buf mode disk latest pend) (hvalid : (buf b).valid = true)
    (honly : Only dev buf b) (data : Block) :
    Contents dev (update buf b { buf b with data := data }) (update mode b .dirty) disk
      (update latest (buf b).dev
        (update (latest (buf b).dev) (buf b).blockno data)) pend := by
  have hhome := (h.home b hvalid).1
  have hlatest : ∀ y, y ≠ (buf b).blockno → update latest (buf b).dev
      (update (latest (buf b).dev) (buf b).blockno data) dev y = latest dev y := by
    intro y hy
    rw [hhome, update_self, update_of_ne hy]
  refine h.change ?_ ?_ ?_ ?_
  · exact fun b' hb hv => hlatest _ fun heq => hb (honly b' (h.home b' hv).1 heq)
  · exact fun hv _ => ⟨hhome, rfl, hv⟩
  · refine fun _ => ⟨h.home b hvalid, ?_, ?_⟩
    · rw [hhome, update_self, update_self]
    · rintro (hm | hm)
      · cases hm
      · exact absurd rfl hm.1
  · intro y hy hself hother
    have hne : y ≠ (buf b).blockno := by
      rintro rfl
      exact Bool.noConfusion (hvalid.symm.trans (hself hhome rfl))
    rw [hlatest y hne]
    exact h.uncached_of hy (fun _ hn => absurd hn.symm hne) hother

/-- **`bwrite`.** -/
theorem bwrite (h : Contents dev buf mode disk latest pend) (hvalid : (buf b).valid = true)
    (honly : Only dev buf b) :
    Contents dev buf (update mode b .written)
      (update disk (sectorOf (buf b).blockno) (buf b).data) latest pend := by
  obtain ⟨hhome, hlt⟩ := h.home b hvalid
  refine ⟨h.home, h.kept, h.data, ?_, ?_⟩
  · intro b' hv hmode
    by_cases hb : b' = b
    · rw [hb, update_self]
    · obtain ⟨hhome', hlt'⟩ := h.home b' hv
      have hsector : sectorOf (buf b').blockno ≠ sectorOf (buf b).blockno := fun heq =>
        hb (honly b' hhome' (sectorOf_inj hlt' hlt heq))
      rw [update_of_ne hsector]
      rw [update_of_ne hb] at hmode
      exact h.stored b' hv hmode
  · intro y hy hnone
    have hsector : sectorOf y ≠ sectorOf (buf b).blockno := by
      intro heq
      obtain rfl := sectorOf_inj hy hlt heq
      exact absurd hvalid (by simp [hnone b hhome rfl])
    rw [update_of_ne hsector]
    exact h.uncached y hy hnone

/-- **`log_write`.** The block is in the log now. -/
theorem log (h : Contents dev buf mode disk latest pend) (hvalid : (buf b).valid = true)
    (hpend : ∀ x, x ∈ pend' ↔ x ∈ pend ∨ x = (buf b).blockno) :
    Contents dev buf (update mode b .logged) disk latest pend' := by
  refine ⟨h.home, ?_, h.data, ?_, h.uncached⟩
  · intro x hx
    rcases (hpend x).1 hx with hx | rfl
    · exact h.kept x hx
    · exact ⟨b, (h.home b hvalid).1, rfl, hvalid⟩
  · intro b' hv hmode
    by_cases hb : b' = b
    · rw [hb, update_self] at hmode
      rcases hmode with hmode | hmode
      · cases hmode
      · exact absurd ((hpend _).2 (Or.inr rfl)) hmode.2
    · rw [update_of_ne hb] at hmode
      refine h.stored b' hv (hmode.imp id fun hm => ⟨hm.1, fun hmem => hm.2 ?_⟩)
      exact (hpend _).2 (Or.inl hmem)

/-- **`install_trans` has written the block.** -/
theorem install (h : Contents dev buf mode disk latest ((buf b).blockno :: pend))
    (honly : Only dev buf b) (hmode : mode b = .written) : Contents dev buf mode disk latest pend := by
  refine ⟨h.home, fun x hx => h.kept x (mem_cons_of_mem _ hx), h.data, ?_, h.uncached⟩
  intro b' hv hmode'
  by_cases hb : b' = b
  · subst hb
    exact h.stored b' hv (Or.inl hmode)
  · refine h.stored b' hv (hmode'.imp id fun hm => ⟨hm.1, fun hmem => ?_⟩)
    rcases mem_cons.1 hmem with heq | hmem
    · exact hb (honly b' (h.home b' hv).1 heq)
    · exact hm.2 hmem

end Contents

/-! ## The users of a buffer -/

/-- The blocks in the log. -/
def LogHeader.logged (lh : LogHeader) : List ℕ := (List.range lh.n.toNat).map lh.block

namespace BioSys

/-- The process that holds the lock of a buffer. -/
def holders (s : BioSys) (b : BufId) : ℕ := if (s.cache.buf b).lock.isSome then 1 else 0

/-- The processes that use a buffer: the one that holds its lock, those that wait for it, and
those that have released it and not yet dropped their reference. -/
def uses (s : BioSys) (b : BufId) : ℕ :=
  s.holders b + tally s.busy (.locking b) + tally s.busy (.dropping b)

/-- The blocks in the log that `install_trans` has not written. -/
def pending (s : BioSys) : List ℕ := s.lh.logged.drop s.tail

/-- The pin of the log. -/
def pins (dev : ℕ) (s : BioSys) (b : BufId) : ℕ :=
  if (s.cache.buf b).dev = dev ∧ (s.cache.buf b).blockno ∈ s.pending then 1 else 0

end BioSys

/-- **Who uses the buffers.** -/
structure Users (dev : ℕ) (s : BioSys) : Prop where
  filling : ∀ p b, s.busy p = .filling b → (s.cache.buf b).lock = some p
  ready : ∀ p b, (s.cache.buf b).lock = some p → s.busy p = .filling b ∨ (s.cache.buf b).valid = true
  dirty : ∀ b, s.mode b = .dirty → (s.cache.buf b).lock ≠ none
  home : ∀ b, 0 < (s.cache.buf b).refcnt →
    (s.cache.buf b).dev = dev ∧ (s.cache.buf b).blockno < maxBlockno
  refcnt : ∀ b, (s.cache.buf b).refcnt = s.uses b + s.pins dev b

/-- **The header of the log.** No block is added while one operation commits. -/
structure HeadOk (lh : LogHeader) (tail : ℕ) (committing : Option Slot) (outstanding : ℤ) : Prop where
  nonneg : 0 ≤ lh.n
  nodup : lh.logged.Nodup
  tail_le : tail ≤ lh.logged.length
  quiet : committing = none → tail = 0
  alone : committing ≠ none → outstanding = 0

structure BioInv (dev : ℕ) (s : BioSys) : Prop where
  ok : s.cache.Ok
  users : Users dev s
  contents : Contents dev s.cache.buf s.mode s.disk s.latest s.pending
  head : HeadOk s.lh s.tail s.committing s.outstanding

theorem incr_of_lt {n : ℕ} (h : n < 2 ^ 32 - 1) : incr n = n + 1 := Nat.mod_eq_of_lt (by omega)

theorem decr_of_pos {n : ℕ} (hpos : 0 < n) (hlt : n < 2 ^ 32) : decr n = n - 1 := by
  unfold decr
  omega

variable {L : LogArea} {dev : ℕ} {s s' : BioSys} {p : Slot} {b : BufId}

theorem Users.refcnt_le (h : Users dev s) (b : BufId) : (s.cache.buf b).refcnt ≤ 2 * nproc + 2 := by
  have hlock := tally_le s.busy (.locking b)
  have hdrop := tally_le s.busy (.dropping b)
  rw [Fintype.card_fin] at hlock hdrop
  have hpins : s.pins dev b ≤ 1 := by
    unfold BioSys.pins
    split <;> omega
  have huses : s.uses b ≤ 1 + nproc + nproc := by
    unfold BioSys.uses BioSys.holders
    split <;> omega
  rw [h.refcnt b]
  omega

theorem Users.incr_refcnt (h : Users dev s) (b : BufId) :
    incr (s.cache.buf b).refcnt = (s.cache.buf b).refcnt + 1 :=
  incr_of_lt ((h.refcnt_le b).trans_lt (by decide))

theorem Users.decr_refcnt (h : Users dev s) (hpos : 0 < (s.cache.buf b).refcnt) :
    decr (s.cache.buf b).refcnt = (s.cache.buf b).refcnt - 1 :=
  decr_of_pos hpos ((h.refcnt_le b).trans_lt (by decide))

/-- A buffer with a holder is in use. -/
theorem Users.pos_of_lock (h : Users dev s) (hlock : (s.cache.buf b).lock = some p) :
    0 < (s.cache.buf b).refcnt := by
  have huses : 0 < s.uses b := by
    simp only [BioSys.uses, BioSys.holders, hlock, isSome_some, if_true]
    omega
  have heq := h.refcnt b
  omega

/-- A process that waits for a buffer, or is to drop it, is counted. -/
theorem Users.pos_of_busy (h : Users dev s) (hbusy : s.busy p = .locking b ∨ s.busy p = .dropping b) :
    0 < (s.cache.buf b).refcnt := by
  have huses := h.refcnt b
  rw [BioSys.uses] at huses
  rcases hbusy with hbusy | hbusy
  · have hcount := tally_pos hbusy
    omega
  · have hcount := tally_pos hbusy
    omega

/-- Nobody else starts to read a buffer. -/
theorem filling_update {w : Busy} {p' : Slot} (hbusy : s'.busy = update s.busy p w) (hw : w ≠ .filling b)
    (hf : s'.busy p' = .filling b) : p' ≠ p ∧ s.busy p' = .filling b := by
  have hp : p' ≠ p := by
    rintro rfl
    rw [hbusy, update_self] at hf
    exact hw hf
  rw [hbusy, update_of_ne hp] at hf
  exact ⟨hp, hf⟩

/-- What a process holds is the block it has read. -/
theorem Users.of_holds (h : Users dev s) (hholds : s.Holds p b) :
    (s.cache.buf b).valid = true ∧ (s.cache.buf b).dev = dev ∧
      (s.cache.buf b).blockno < maxBlockno := by
  obtain ⟨hidle, hlock⟩ := hholds
  refine ⟨?_, h.home b (h.pos_of_lock hlock)⟩
  rcases h.ready p b hlock with hbusy | hvalid
  · rw [hidle] at hbusy
    cases hbusy
  · exact hvalid

theorem BioInv.only (h : BioInv dev s) (hdev : 1 ≤ dev) (hhome : (s.cache.buf b).dev = dev) :
    Contents.Only dev s.cache.buf b := by
  intro b' hd hn
  exact h.ok.unique b b' (hhome ▸ hdev) (hd.trans hhome.symm) hn

/-- The process is concerned with no buffer but `b`. -/
def Busy.About (b : BufId) (v : Busy) : Prop :=
  v = .idle ∨ v = .locking b ∨ v = .filling b ∨ v = .dropping b

/-- The process uses buffer `b` without its lock. -/
def Busy.weight (b : BufId) (v : Busy) : ℕ := if v = .locking b ∨ v = .dropping b then 1 else 0

theorem uses_update {w : Busy} (hbusy : s'.busy = update s.busy p w) (b : BufId) :
    s'.uses b + (s.busy p).weight b + s.holders b = s.uses b + w.weight b + s'.holders b := by
  have hlock := tally_update s.busy p w (.locking b)
  have hdrop := tally_update s.busy p w (.dropping b)
  have hweight : ∀ v : Busy, v.weight b =
      (if v = .locking b then 1 else 0) + if v = .dropping b then 1 else 0 := by
    intro v
    unfold Busy.weight
    cases v <;> simp
  simp only [BioSys.uses, hbusy, hweight]
  omega

theorem Busy.About.weight_eq_zero {v : Busy} {b' : BufId} (h : v.About b) (hne : b' ≠ b) :
    v.weight b' = 0 := by
  rcases h with rfl | rfl | rfl | rfl <;> simp [Busy.weight, hne.symm]

/-- **A process does something to one buffer.** Only this buffer is to be looked at. -/
theorem Users.change {w : Busy} (h : Users dev s) (hbusy : s'.busy = update s.busy p w)
    (hold : (s.busy p).About b) (hnew : w.About b)
    (hbuf : ∀ b' ≠ b, s'.cache.buf b' = s.cache.buf b')
    (hmode : ∀ b' ≠ b, s'.mode b' = s.mode b')
    (hpins : ∀ b' ≠ b, s'.pins dev b' = s.pins dev b')
    (hfilling : ∀ p', s'.busy p' = .filling b → (s'.cache.buf b).lock = some p')
    (hready : ∀ p', (s'.cache.buf b).lock = some p' →
      s'.busy p' = .filling b ∨ (s'.cache.buf b).valid = true)
    (hdirty : s'.mode b = .dirty → (s'.cache.buf b).lock ≠ none)
    (hhome : 0 < (s'.cache.buf b).refcnt →
      (s'.cache.buf b).dev = dev ∧ (s'.cache.buf b).blockno < maxBlockno)
    (hrefcnt : (s'.cache.buf b).refcnt + (s.busy p).weight b + s.holders b + s.pins dev b =
      (s.cache.buf b).refcnt + w.weight b + s'.holders b + s'.pins dev b) : Users dev s' := by
  -- at another buffer nobody does anything
  have hsame : ∀ p' b', b' ≠ b → (s'.busy p' = .filling b' ↔ s.busy p' = .filling b') := by
    intro p' b' hb
    by_cases hp : p' = p
    · have hno : ∀ v : Busy, v.About b → v ≠ .filling b' := by
        rintro v (rfl | rfl | rfl | rfl) heq
        · cases heq
        · cases heq
        · exact hb (Busy.filling.inj heq).symm
        · cases heq
      rw [hp, hbusy, update_self]
      exact iff_of_false (hno w hnew) (hno _ hold)
    · rw [hbusy, update_of_ne hp]
  refine ⟨?_, ?_, ?_, ?_, ?_⟩
  · intro p' b' hf
    by_cases hb : b' = b
    · subst hb
      exact hfilling p' hf
    · rw [hbuf b' hb]
      exact h.filling p' b' ((hsame p' b' hb).1 hf)
  · intro p' b' hl
    by_cases hb : b' = b
    · subst hb
      exact hready p' hl
    · rw [hbuf b' hb] at hl ⊢
      rw [hsame p' b' hb]
      exact h.ready p' b' hl
  · intro b' hm
    by_cases hb : b' = b
    · subst hb
      exact hdirty hm
    · rw [hbuf b' hb]
      exact h.dirty b' (hmode b' hb ▸ hm)
  · intro b' hpos
    by_cases hb : b' = b
    · subst hb
      exact hhome hpos
    · rw [hbuf b' hb] at hpos ⊢
      exact h.home b' hpos
  · intro b'
    have huses := uses_update hbusy b'
    have heq := h.refcnt b'
    by_cases hb : b' = b
    · subst hb
      omega
    · rw [hold.weight_eq_zero hb, hnew.weight_eq_zero hb] at huses
      have hholders : s'.holders b' = s.holders b' := by rw [BioSys.holders, BioSys.holders, hbuf b' hb]
      rw [hbuf b' hb, hpins b' hb, heq]
      omega

namespace BioSys

/-! ## One step -/

theorem pins_eq (hd : (s'.cache.buf b).dev = (s.cache.buf b).dev)
    (hn : (s'.cache.buf b).blockno = (s.cache.buf b).blockno) (hp : s'.pending = s.pending) :
    s'.pins dev b = s.pins dev b := by
  rw [pins, pins, hd, hn, hp]

theorem holders_eq (hl : (s'.cache.buf b).lock = (s.cache.buf b).lock) : s'.holders b = s.holders b := by
  rw [holders, holders, hl]

/-- The users of a buffer whose lock and contents stay as they are. -/
theorem users_of_same (h : BioInv dev s) {w : Busy} (hbusy : s'.busy = update s.busy p w)
    (hidle : s.busy p = .idle ∨ s.busy p = .dropping b) (hw : w = .idle ∨ w = .locking b)
    (hmode : s'.mode = s.mode) (hpend : s'.pending = s.pending)
    (hbuf : ∀ b' ≠ b, s'.cache.buf b' = s.cache.buf b')
    (hself : ∃ n, s'.cache.buf b = { s.cache.buf b with refcnt := n } ∧
      n + (s.busy p).weight b = (s.cache.buf b).refcnt + w.weight b)
    (hhome : (s.cache.buf b).dev = dev ∧ (s.cache.buf b).blockno < maxBlockno) : Users dev s' := by
  obtain ⟨n, hself, hn⟩ := hself
  have hbusy' : ∀ p', s'.busy p' = .filling b ↔ s.busy p' = .filling b := by
    intro p'
    by_cases hp : p' = p
    · rw [hp, hbusy, update_self]
      rcases hw with rfl | rfl <;> rcases hidle with hidle | hidle <;> simp [hidle]
    · rw [hbusy, update_of_ne hp]
  have hpins : ∀ b', s'.pins dev b' = s.pins dev b' := by
    intro b'
    by_cases hb : b' = b
    · subst hb
      exact pins_eq (by rw [hself]) (by rw [hself]) hpend
    · exact pins_eq (by rw [hbuf b' hb]) (by rw [hbuf b' hb]) hpend
  have hholders : s'.holders b = s.holders b := holders_eq (by rw [hself])
  refine h.users.change hbusy ?_ ?_ hbuf (fun _ _ => by rw [hmode]) (fun b' _ => hpins b') ?_ ?_ ?_ ?_ ?_
  · exact hidle.imp id fun heq => Or.inr (Or.inr heq)
  · exact hw.imp id Or.inl
  · intro p' hf
    rw [hself]
    exact h.users.filling p' b ((hbusy' p').1 hf)
  · intro p' hl
    rw [hself] at hl ⊢
    rw [hbusy']
    exact h.users.ready p' b hl
  · intro hm
    rw [hself]
    exact h.users.dirty b (hmode ▸ hm)
  · intro _
    rw [hself]
    exact hhome
  · rw [hself, hpins, hholders]
    dsimp only
    omega

theorem buf_setBuf {c c' : Bcache} {b : BufId} {v : DiskBuf} (h : c' = c.setBuf b v) :
    c'.buf b = v ∧ ∀ b' ≠ b, c'.buf b' = c.buf b' := by
  rw [h]
  exact ⟨update_self .., fun b' hb => update_of_ne hb ..⟩

/-- A buffer that nobody uses: it has no holder, is not modified and is not pinned. -/
theorem unused (h : BioInv dev s) (hzero : (s.cache.buf b).refcnt = 0) :
    (s.cache.buf b).lock = none ∧ s.mode b ≠ .dirty ∧ s.holders b = 0 ∧ s.pins dev b = 0 := by
  have huses := h.users.refcnt b
  have hle : s.holders b ≤ s.uses b := (Nat.le_add_right _ _).trans (Nat.le_add_right _ _)
  have hlock : (s.cache.buf b).lock = none := by
    cases hl : (s.cache.buf b).lock with
    | none => rfl
    | some q =>
      have hone : s.holders b = 1 := by simp [holders, hl]
      omega
  exact ⟨hlock, fun hm => h.users.dirty b hm hlock, by omega, by omega⟩

theorem bget_step (h : BioInv dev s) {blockno : ℕ} (hno : blockno < maxBlockno)
    (hstep : s.bget p dev blockno = some s') : BioInv dev s' := by
  obtain ⟨hidle, c', b, hrun, hs'⟩ := bget_inv hstep
  have hok := h.ok.bget hrun
  rcases Bcache.bget_cases h.ok hrun with ⟨hd, hn, rfl⟩ | ⟨hnone, hzero, rfl⟩
  · subst hs'
    refine ⟨hok, ?_, h.contents.touch rfl rfl rfl rfl, h.head⟩
    refine users_of_same h rfl (Or.inl hidle) (Or.inr rfl) rfl rfl
      (fun b' hb => update_of_ne hb _ _) ⟨_, update_self _ _ _, ?_⟩
      ⟨hd, hn ▸ hno⟩
    rw [h.users.incr_refcnt b, hidle]
    simp [Busy.weight]
  · obtain ⟨hlock, hclean, hholders, hpins⟩ := unused h hzero
    have hpend : (s.cache.buf b).valid = true → (s.cache.buf b).blockno ∉ s.pending := by
      intro hvalid hmem
      rw [pins, if_pos ⟨(h.contents.home b hvalid).1, hmem⟩] at hpins
      cases hpins
    obtain ⟨hself, hbuf⟩ := buf_setBuf (congrArg BioSys.cache hs')
    have hbusy : s'.busy = update s.busy p (.locking b) := by rw [hs']; rfl
    have hsame : s'.pending = s.pending := by rw [hs']; rfl
    have hmode : s'.mode = s.mode := by rw [hs']; rfl
    -- the block is new in the cache, so the log does not have it
    have hpins' : s'.pins dev b = 0 := by
      rw [pins, hself, hsame]
      refine if_neg fun hmem => ?_
      obtain ⟨b', hd, hn, -⟩ := h.contents.kept blockno hmem.2
      exact hnone b' ⟨hd, hn⟩
    have hholders' : s'.holders b = 0 := by rw [holders, hself, hlock]; rfl
    refine ⟨hs' ▸ hok, ?_, ?_, ?_⟩
    · refine h.users.change hbusy (Or.inl hidle) (Or.inr (Or.inl rfl)) hbuf (fun b' _ => by rw [hmode])
        (fun b' hb => pins_eq (by rw [hbuf b' hb]) (by rw [hbuf b' hb]) hsame) ?_ ?_ ?_ ?_ ?_
      · intro p' hf
        rw [hself]
        exact h.users.filling p' b (filling_update hbusy Busy.noConfusion hf).2
      · intro p' hl
        rw [hself, hlock] at hl
        cases hl
      · intro hm
        exact absurd (hmode ▸ hm) hclean
      · intro _
        rw [hself]
        exact ⟨rfl, hno⟩
      · rw [hself, hidle, hpins, hpins', hholders, hholders', hzero]
        simp [Busy.weight]
    · rw [hs']
      exact h.contents.recycle hclean hpend
    · rw [hs']
      exact h.head

theorem acquire_step (h : BioInv dev s) (hstep : s.acquire p = some s') : BioInv dev s' := by
  obtain ⟨b, hbusy0, hfree, hs'⟩ := acquire_inv hstep
  obtain ⟨hself, hbuf⟩ := buf_setBuf (congrArg BioSys.cache hs')
  have hbusy : s'.busy = update s.busy p (.filling b) := by rw [hs']; rfl
  have hpend : s'.pending = s.pending := by rw [hs']; rfl
  have hmode : s'.mode = update s.mode b .clean := by rw [hs']; rfl
  have hclean : s.mode b ≠ .dirty := fun hm => h.users.dirty b hm hfree
  have hpos := h.users.pos_of_busy (Or.inl hbusy0)
  refine ⟨?_, ?_, ?_, ?_⟩
  · rw [hs']
    exact h.ok.setBuf rfl rfl
  · refine h.users.change hbusy (Or.inr (Or.inl hbusy0)) (Or.inr (Or.inr (Or.inl rfl))) hbuf
      (fun b' hb => by rw [hmode, update_of_ne hb])
      (fun b' hb => pins_eq (by rw [hbuf b' hb]) (by rw [hbuf b' hb]) hpend) ?_ ?_ ?_ ?_ ?_
    · intro p' hf
      by_cases hp : p' = p
      · rw [hp, hself]
      · rw [hbusy, update_of_ne hp] at hf
        exact absurd (h.users.filling p' b hf) (by simp [hfree])
    · intro p' hl
      rw [hself] at hl
      cases hl
      rw [hbusy, update_self]
      exact Or.inl rfl
    · intro _
      rw [hself]
      simp
    · intro _
      rw [hself]
      exact h.users.home b hpos
    · have hpins : s'.pins dev b = s.pins dev b := pins_eq (by rw [hself]) (by rw [hself]) hpend
      have hh : s.holders b = 0 := by simp [holders, hfree]
      have hh' : s'.holders b = 1 := by simp [holders, hself]
      rw [hself, hbusy0, hpins, hh, hh']
      simp [Busy.weight]
  · rw [hs']
    exact (h.contents.setClean hclean).touch rfl rfl rfl rfl
  · rw [hs']
    exact h.head

theorem fill_step (hdev : 1 ≤ dev) (h : BioInv dev s) (hstep : s.fill p = some s') : BioInv dev s' := by
  obtain ⟨b, hbusy0, hcases⟩ := fill_inv hstep
  have hlock := h.users.filling p b hbusy0
  have hhome := h.users.home b (h.users.pos_of_lock hlock)
  have hbusy : s'.busy = update s.busy p .idle := by
    rcases hcases with ⟨-, hs'⟩ | ⟨-, hs'⟩ <;> rw [hs'] <;> rfl
  have hpend : s'.pending = s.pending := by
    rcases hcases with ⟨-, hs'⟩ | ⟨-, hs'⟩ <;> rw [hs'] <;> rfl
  have hmode : s'.mode = s.mode := by
    rcases hcases with ⟨-, hs'⟩ | ⟨-, hs'⟩ <;> rw [hs'] <;> rfl
  have hbuf : ∀ b' ≠ b, s'.cache.buf b' = s.cache.buf b' := by
    intro b' hb
    rcases hcases with ⟨-, hs'⟩ | ⟨-, hs'⟩
    · rw [hs']
      rfl
    · rw [hs']
      exact update_of_ne hb _ _
  have hself : ∃ data, s'.cache.buf b = { s.cache.buf b with data := data, valid := true } := by
    rcases hcases with ⟨hvalid, hs'⟩ | ⟨-, hs'⟩
    · refine ⟨(s.cache.buf b).data, ?_⟩
      rw [hs', ← hvalid]
      rfl
    · rw [hs']
      exact ⟨_, update_self _ _ _⟩
  obtain ⟨data, hself⟩ := hself
  have husers : Users dev s' := by
    refine h.users.change hbusy (Or.inr (Or.inr (Or.inl hbusy0))) (Or.inl rfl) hbuf
      (fun b' _ => by rw [hmode])
      (fun b' hb => pins_eq (by rw [hbuf b' hb]) (by rw [hbuf b' hb]) hpend) ?_ ?_ ?_ ?_ ?_
    · intro p' hf
      rw [hself]
      exact h.users.filling p' b (filling_update hbusy Busy.noConfusion hf).2
    · intro p' _
      rw [hself]
      exact Or.inr rfl
    · intro _
      rw [hself]
      simp [hlock]
    · intro _
      rw [hself]
      exact hhome
    · have hpins : s'.pins dev b = s.pins dev b := pins_eq (by rw [hself]) (by rw [hself]) hpend
      have hh : s'.holders b = s.holders b := holders_eq (by rw [hself])
      rw [hself, hbusy0, hpins, hh]
      simp [Busy.weight]
  rcases hcases with ⟨-, hs'⟩ | ⟨hinvalid, hs'⟩
  · refine ⟨?_, husers, ?_, ?_⟩
    · rw [hs']
      exact h.ok
    · rw [hs']
      exact h.contents
    · rw [hs']
      exact h.head
  · refine ⟨?_, husers, ?_, ?_⟩
    · rw [hs']
      exact h.ok.setBuf rfl rfl
    · rw [hs']
      exact h.contents.fill hhome.1 hhome.2 (h.only hdev hhome.1) hinvalid
    · rw [hs']
      exact h.head

/-- A process that holds a buffer keeps its lock. -/
theorem users_of_holds (h : BioInv dev s) (hholds : s.Holds p b) (hbusy : s'.busy = s.busy)
    (hbuf : ∀ b' ≠ b, s'.cache.buf b' = s.cache.buf b')
    (hmode : ∀ b' ≠ b, s'.mode b' = s.mode b')
    (hpins : ∀ b' ≠ b, s'.pins dev b' = s.pins dev b')
    (hself : (s'.cache.buf b).lock = (s.cache.buf b).lock ∧
      (s'.cache.buf b).valid = (s.cache.buf b).valid ∧ (s'.cache.buf b).dev = (s.cache.buf b).dev ∧
      (s'.cache.buf b).blockno = (s.cache.buf b).blockno)
    (hrefcnt : (s'.cache.buf b).refcnt + s.pins dev b = (s.cache.buf b).refcnt + s'.pins dev b) :
    Users dev s' := by
  obtain ⟨hidle, hlock⟩ := hholds
  obtain ⟨hl, hv, hd, hn⟩ := hself
  have hsame : s'.busy = update s.busy p (s.busy p) := by
    rw [hbusy, update_eq_self]
  refine h.users.change hsame (Or.inl hidle) (Or.inl hidle) hbuf hmode hpins ?_ ?_ ?_ ?_ ?_
  · intro p' hf
    rw [hl]
    exact h.users.filling p' b (hbusy ▸ hf)
  · intro p' hl'
    rw [hbusy, hv]
    exact h.users.ready p' b (hl ▸ hl')
  · intro _
    rw [hl, hlock]
    simp
  · intro _
    rw [hd, hn]
    exact h.users.home b (h.users.pos_of_lock hlock)
  · have hh : s'.holders b = s.holders b := holders_eq hl
    omega

theorem modify_step (hdev : 1 ≤ dev) (h : BioInv dev s) {data : Block}
    (hstep : s.modify p b data = some s') : BioInv dev s' := by
  obtain ⟨hholds, heq⟩ := ite_none_right_eq_some.1 hstep
  have hs' := (some.inj heq).symm
  obtain ⟨hvalid, hhome, -⟩ := h.users.of_holds hholds
  obtain ⟨hself, hbuf⟩ := buf_setBuf (congrArg BioSys.cache hs')
  have hpend : s'.pending = s.pending := by rw [hs']; rfl
  refine ⟨?_, ?_, ?_, ?_⟩
  · rw [hs']
    exact h.ok.setBuf rfl rfl
  · refine users_of_holds h hholds (by rw [hs']; rfl) hbuf ?_ ?_ (by simp [hself]) ?_
    · intro b' hb
      rw [hs']
      exact update_of_ne hb _ _
    · intro b' hb
      exact pins_eq (by rw [hbuf b' hb]) (by rw [hbuf b' hb]) hpend
    · rw [hself, pins_eq (by rw [hself]) (by rw [hself]) hpend]
  · rw [hs']
    exact h.contents.modify hvalid (h.only hdev hhome) data
  · rw [hs']
    exact h.head

theorem bwrite_step (hdev : 1 ≤ dev) (h : BioInv dev s) (hstep : s.bwrite p b = some s') :
    BioInv dev s' := by
  obtain ⟨hholds, ⟨⟩⟩ := ite_none_right_eq_some.1 hstep
  obtain ⟨hvalid, hhome, -⟩ := h.users.of_holds hholds
  refine ⟨h.ok, ?_, h.contents.bwrite hvalid (h.only hdev hhome), h.head⟩
  exact users_of_holds h hholds rfl (fun _ _ => rfl) (fun b' hb => update_of_ne hb _ _)
    (fun _ _ => rfl) ⟨rfl, rfl, rfl, rfl⟩ rfl

theorem brelse_step (h : BioInv dev s) (hstep : s.brelse p b = some s') : BioInv dev s' := by
  obtain ⟨⟨⟨hidle, hlock⟩, hclean⟩, heq⟩ := ite_none_right_eq_some.1 hstep
  have hs' := (some.inj heq).symm
  obtain ⟨hself, hbuf⟩ := buf_setBuf (congrArg BioSys.cache hs')
  have hbusy : s'.busy = update s.busy p (.dropping b) := by rw [hs']; rfl
  have hpend : s'.pending = s.pending := by rw [hs']; rfl
  have hmode : s'.mode = s.mode := by rw [hs']; rfl
  refine ⟨?_, ?_, ?_, ?_⟩
  · rw [hs']
    exact h.ok.setBuf rfl rfl
  · refine h.users.change hbusy (Or.inl hidle) (Or.inr (Or.inr (Or.inr rfl))) hbuf
      (fun b' _ => by rw [hmode])
      (fun b' hb => pins_eq (by rw [hbuf b' hb]) (by rw [hbuf b' hb]) hpend) ?_ ?_ ?_ ?_ ?_
    · -- nobody else can be reading the buffer
      intro p' hf
      obtain ⟨hp, hf⟩ := filling_update hbusy Busy.noConfusion hf
      have hother := h.users.filling p' b hf
      rw [hlock] at hother
      exact absurd (some.inj hother).symm hp
    · intro p' hl
      rw [hself] at hl
      cases hl
    · intro hm
      exact absurd (hmode ▸ hm) hclean
    · intro _
      rw [hself]
      exact h.users.home b (h.users.pos_of_lock hlock)
    · have hpins : s'.pins dev b = s.pins dev b := pins_eq (by rw [hself]) (by rw [hself]) hpend
      have hh : s.holders b = 1 := by simp [holders, hlock]
      have hh' : s'.holders b = 0 := by simp [holders, hself]
      rw [hself, hidle, hpins, hh, hh']
      simp [Busy.weight]
  · rw [hs']
    exact h.contents.touch rfl rfl rfl rfl
  · rw [hs']
    exact h.head

theorem drop_step (h : BioInv dev s) (hstep : s.drop p = some s') : BioInv dev s' := by
  obtain ⟨b, hbusy0, rfl⟩ := drop_inv hstep
  have hpos := h.users.pos_of_busy (Or.inr hbusy0)
  have hbuf : ({ s with cache := s.cache.drop b }.setBusy p .idle).cache.buf = (s.cache.bunpin b).buf :=
    s.cache.drop_buf b
  refine ⟨h.ok.drop b, ?_, ?_, h.head⟩
  · refine users_of_same h rfl (Or.inr hbusy0) (Or.inl rfl) rfl rfl ?_
      ⟨decr (s.cache.buf b).refcnt, ?_, ?_⟩ (h.users.home b hpos)
    · intro b' hb
      rw [hbuf]
      exact update_of_ne hb _ _
    · rw [hbuf]
      exact update_self _ _ _
    · rw [h.users.decr_refcnt hpos, hbusy0]
      simp only [Busy.weight]
      simp
      omega
  · rw [hbuf]
    exact h.contents.touch rfl rfl rfl rfl

/-! ### The log -/

end BioSys

theorem LogHeader.lists_logged {lh : LogHeader} (h : 0 ≤ lh.n) : Lists lh lh.logged := by
  have hlen : lh.logged.length = lh.n.toNat := by simp [LogHeader.logged]
  refine ⟨by omega, ?_⟩
  intro i hi
  simp [LogHeader.logged]

theorem LogDisk.Lists.eq_logged {lh : LogHeader} {hs : List ℕ} (h : Lists lh hs) : lh.logged = hs := by
  have hn : lh.n.toNat = hs.length := by
    have := h.n_eq
    omega
  refine ext_getElem (by simp [LogHeader.logged, hn]) ?_
  intro i hi hi'
  simp [LogHeader.logged, h.block_eq i hi']

namespace BioSys

/-- **`log_write` pins the buffer of a block that is new in the log.** -/
theorem logWrite_step (hdev : 1 ≤ dev) (h : BioInv dev s) (hstep : s.logWrite L p b = some s') :
    BioInv dev s' := by
  obtain ⟨hholds, hout, hs'⟩ := logWrite_inv hstep
  obtain ⟨hvalid, hhome, hlt⟩ := h.users.of_holds hholds
  have honly := h.only hdev hhome
  set x := (s.cache.buf b).blockno with hx
  -- an operation is running, so none commits and the whole log is pending
  have htail : s.tail = 0 := by
    refine h.head.quiet ?_
    by_contra hcommit
    have := h.head.alone hcommit
    omega
  have hlists := LogHeader.lists_logged h.head.nonneg
  have hlists' := hlists.addBlock x
  have hlh : s'.lh = LogSys.addBlock s.lh x := by rw [hs']
  have hold : s.pending = s.lh.logged := by rw [pending, htail, drop_zero]
  have hlogged : s'.lh.logged = if x ∈ s.lh.logged then s.lh.logged else s.lh.logged ++ [x] := by
    rw [hlh, hlists'.eq_logged]
  have hnew : s'.pending = s'.lh.logged := by
    have ht : s'.tail = s.tail := by rw [hs']; rfl
    rw [pending, ht, htail, drop_zero]
  have hmem : ∀ y, y ∈ s'.pending ↔ y ∈ s.pending ∨ y = x := by
    intro y
    rw [hnew, hlogged, hold]
    split
    · rename_i hin
      refine ⟨Or.inl, ?_⟩
      rintro (hy | rfl)
      · exact hy
      · exact hin
    · rw [mem_append, mem_singleton]
  have hpins : ∀ b' ≠ b, (s'.cache.buf b').dev = (s.cache.buf b').dev →
      (s'.cache.buf b').blockno = (s.cache.buf b').blockno → s'.pins dev b' = s.pins dev b' := by
    intro b' hb hd hn
    rw [pins, pins, hd, hn]
    refine if_congr (and_congr_right fun hd' => ?_) rfl rfl
    rw [hmem]
    exact ⟨fun hor => hor.resolve_right fun heq => hb (honly b' hd' heq), Or.inl⟩
  have hcount : (if LogSys.logSlot s.lh x = s.lh.n then s.cache.bpin b else s.cache) =
      if x ∈ s.lh.logged then s.cache else s.cache.bpin b := by
    by_cases hin : x ∈ s.lh.logged
    · obtain ⟨hslot, -⟩ := hlists.logSlot_of_mem hin
      rw [if_pos hin, if_neg (by rw [hlists.n_eq]; omega)]
    · rw [if_neg hin, if_pos (by rw [hlists.logSlot_of_notMem hin, hlists.n_eq])]
  have hcache : s'.cache = if x ∈ s.lh.logged then s.cache else s.cache.bpin b := by
    rw [hs', ← hcount]
  have hself : ∃ n, s'.cache.buf b = { s.cache.buf b with refcnt := n } ∧
      n + s.pins dev b = (s.cache.buf b).refcnt + s'.pins dev b := by
    have hpin : s.pins dev b = if x ∈ s.lh.logged then 1 else 0 := by
      rw [pins, hold]
      exact if_congr (and_iff_right hhome) rfl rfl
    have hpin' : (s'.cache.buf b).dev = dev → (s'.cache.buf b).blockno = x → s'.pins dev b = 1 :=
      fun hd hn => if_pos ⟨hd, hn ▸ (hmem x).2 (Or.inr rfl)⟩
    rw [hcache] at hpin' ⊢
    rw [hpin]
    split at hpin'
    · rename_i hin
      rw [if_pos hin, if_pos hin, hpin' hhome rfl]
      exact ⟨_, rfl, rfl⟩
    · rename_i hin
      rw [if_neg hin, if_neg hin]
      have hbuf : (s.cache.bpin b).buf b = { s.cache.buf b with refcnt := incr (s.cache.buf b).refcnt } :=
        update_self _ _ _
      rw [hpin' (by rw [hbuf]; exact hhome) (by rw [hbuf])]
      exact ⟨_, hbuf, h.users.incr_refcnt b⟩
  obtain ⟨n, hself, hn⟩ := hself
  have hbuf : ∀ b' ≠ b, s'.cache.buf b' = s.cache.buf b' := by
    intro b' hb
    rw [hcache]
    split
    · rfl
    · exact update_of_ne hb _ _
  refine ⟨?_, ?_, ?_, ?_⟩
  · rw [hcache]
    split
    · exact h.ok
    · exact h.ok.setBuf rfl rfl
  · refine users_of_holds h hholds (by rw [hs']; rfl) hbuf ?_ ?_ (by simp [hself]) (by rw [hself]; exact hn)
    · intro b' hb
      rw [hs']
      exact update_of_ne hb _ _
    · intro b' hb
      exact hpins b' hb (by rw [hbuf b' hb]) (by rw [hbuf b' hb])
  · have hcontents := h.contents.log hvalid hmem
    have hsame : Contents dev s'.cache.buf s'.mode s'.disk s'.latest s'.pending := by
      have hupd : s'.cache.buf = update s.cache.buf b (s'.cache.buf b) := by
        funext b'
        by_cases hb : b' = b
        · rw [hb, update_self]
        · rw [update_of_ne hb, hbuf b' hb]
      have hmode : s'.mode = update s.mode b .logged := by rw [hs']; rfl
      have hdisk : s'.disk = s.disk := by rw [hs']; rfl
      have hlatest : s'.latest = s.latest := by rw [hs']; rfl
      rw [hupd, hmode, hdisk, hlatest]
      exact hcontents.touch (by rw [hself]) (by rw [hself]) (by rw [hself]) (by rw [hself])
    exact hsame
  · refine ⟨?_, ?_, ?_, ?_, ?_⟩
    · rw [hlh, hlists'.n_eq]
      omega
    · rw [hlogged]
      split
      · exact h.head.nodup
      · rename_i hin
        exact List.Nodup.append h.head.nodup (nodup_singleton x) (by simpa using hin)
    · have ht : s'.tail = 0 := by rw [hs']; exact htail
      omega
    · rw [hs']
      exact h.head.quiet
    · rw [hs']
      exact h.head.alone

/-- **`install_trans` unpins the buffer of a block that it has written.** -/
theorem unpin_step (hdev : 1 ≤ dev) (h : BioInv dev s) (hstep : s.unpin dev p b = some s') :
    BioInv dev s' := by
  obtain ⟨⟨hholds, hcommit, htail, hhome, hno, hmode⟩, heq⟩ := ite_none_right_eq_some.1 hstep
  have hs' := (some.inj heq).symm
  obtain ⟨hvalid, -, -⟩ := h.users.of_holds hholds
  have honly := h.only hdev hhome
  have hlen : s.tail < s.lh.logged.length := by
    have := (LogHeader.lists_logged h.head.nonneg).n_eq
    omega
  have hget : s.lh.logged[s.tail] = (s.cache.buf b).blockno := by
    rw [hno, (LogHeader.lists_logged h.head.nonneg).block_eq s.tail hlen]
  have hlh : s'.lh = s.lh := by rw [hs']
  have hold : s.pending = (s.cache.buf b).blockno :: s'.pending := by
    have ht : s'.tail = s.tail + 1 := by rw [hs']
    rw [pending, pending, hlh, ht, drop_eq_getElem_cons hlen, hget]
  have hnotin : (s.cache.buf b).blockno ∉ s'.pending := by
    have hnodup : s.pending.Nodup := h.head.nodup.sublist (drop_sublist _ _)
    rw [hold] at hnodup
    exact (nodup_cons.1 hnodup).1
  have hpin : s.pins dev b = 1 := if_pos ⟨hhome, by rw [hold]; exact mem_cons_self⟩
  have hpos := h.users.pos_of_lock hholds.2
  obtain ⟨hself, hbuf⟩ := buf_setBuf (congrArg BioSys.cache hs')
  refine ⟨?_, ?_, ?_, ?_⟩
  · rw [hs']
    exact h.ok.setBuf rfl rfl
  · refine users_of_holds h hholds (by rw [hs']) hbuf (fun b' _ => by rw [hs']) ?_ (by simp [hself]) ?_
    · intro b' hb
      rw [pins, pins, hbuf b' hb]
      refine if_congr (and_congr_right fun hd => ?_) rfl rfl
      rw [hold, mem_cons]
      exact ⟨Or.inr, fun hor => hor.resolve_left fun heq => hb (honly b' hd heq)⟩
    · have hpin' : s'.pins dev b = 0 := by
        rw [pins, hself]
        exact if_neg fun hmem => hnotin hmem.2
      rw [hself, hpin, hpin']
      show decr (s.cache.buf b).refcnt + 1 = _
      rw [h.users.decr_refcnt hpos]
      omega
  · have hcontents := h.contents
    rw [hold] at hcontents
    have hupd : s'.cache.buf = update s.cache.buf b (s'.cache.buf b) := by
      rw [hself, hs']
      rfl
    have hsame : s'.mode = s.mode ∧ s'.disk = s.disk ∧ s'.latest = s.latest := by
      rw [hs']
      exact ⟨rfl, rfl, rfl⟩
    rw [hupd, hsame.1, hsame.2.1, hsame.2.2]
    exact (hcontents.install honly hmode).touch (by rw [hself]) (by rw [hself]) (by rw [hself])
      (by rw [hself])
  · rw [hs']
    exact ⟨h.head.nonneg, h.head.nodup, hlen, fun hnone => absurd hnone (by simp [hcommit]),
      h.head.alone⟩

/-- A step that leaves the cache and the pending blocks alone. -/
theorem inv_of_log (h : BioInv dev s) (hcache : s'.cache = s.cache) (hbusy : s'.busy = s.busy)
    (hmode : s'.mode = s.mode) (hdisk : s'.disk = s.disk) (hlatest : s'.latest = s.latest)
    (hpend : s'.pending = s.pending) (hhead : HeadOk s'.lh s'.tail s'.committing s'.outstanding) :
    BioInv dev s' := by
  have huses : ∀ b, s'.uses b = s.uses b := by
    intro b
    rw [uses, uses, holders, holders, hcache, hbusy]
  refine ⟨hcache ▸ h.ok, ⟨?_, ?_, ?_, ?_, ?_⟩, ?_, hhead⟩
  · rw [hcache, hbusy]
    exact h.users.filling
  · rw [hcache, hbusy]
    exact h.users.ready
  · rw [hcache, hmode]
    exact h.users.dirty
  · rw [hcache]
    exact h.users.home
  · intro b
    rw [huses, pins_eq (by rw [hcache]) (by rw [hcache]) hpend, hcache]
    exact h.users.refcnt b
  · rw [hcache, hmode, hdisk, hlatest, hpend]
    exact h.contents

theorem beginOp_step (h : BioInv dev s) (hstep : s.beginOp p = some s') : BioInv dev s' := by
  obtain ⟨⟨-, hnone, -⟩, ⟨⟩⟩ := ite_none_right_eq_some.1 hstep
  exact inv_of_log h rfl rfl rfl rfl rfl rfl
    ⟨h.head.nonneg, h.head.nodup, h.head.tail_le, h.head.quiet, fun hsome => absurd hnone hsome⟩

theorem endOp_step (h : BioInv dev s) (hstep : s.endOp p = some s') : BioInv dev s' := by
  obtain ⟨⟨-, -, hnone⟩, heq⟩ := ite_none_right_eq_some.1 hstep
  have htail := h.head.quiet hnone
  cases heq
  dsimp only
  split
  · rename_i hlast
    exact inv_of_log h rfl rfl rfl rfl rfl rfl
      ⟨h.head.nonneg, h.head.nodup, h.head.tail_le, fun _ => htail, fun _ => hlast⟩
  · exact inv_of_log h rfl rfl rfl rfl rfl rfl
      ⟨h.head.nonneg, h.head.nodup, h.head.tail_le, h.head.quiet, fun hsome => absurd hnone hsome⟩

theorem clearHead_step (h : BioInv dev s) (hstep : s.clearHead p = some s') : BioInv dev s' := by
  obtain ⟨⟨-, hcommit, htail⟩, ⟨⟩⟩ := ite_none_right_eq_some.1 hstep
  have hpend : s.pending = [] := by
    have hlen := (LogHeader.lists_logged h.head.nonneg).n_eq
    exact drop_eq_nil_of_le (by omega)
  refine inv_of_log h rfl rfl rfl rfl rfl hpend.symm ?_
  exact ⟨le_rfl, nodup_nil, le_rfl, fun _ => rfl, h.head.alone⟩

theorem endCommit_step (h : BioInv dev s) (hstep : s.endCommit p = some s') : BioInv dev s' := by
  obtain ⟨⟨-, -, hzero⟩, heq⟩ := ite_none_right_eq_some.1 hstep
  have htail : s.tail = 0 := by
    have hlen := (LogHeader.lists_logged h.head.nonneg).n_eq
    have hle := h.head.tail_le
    omega
  cases heq
  exact inv_of_log h rfl rfl rfl rfl rfl rfl
    ⟨h.head.nonneg, h.head.nodup, h.head.tail_le, fun _ => htail, fun hsome => absurd rfl hsome⟩

/-- **One step**, where blocks of the one device are read. -/
theorem step_inv {a : BioStep} (hdev : 1 ≤ dev) (h : BioInv dev s)
    (hon : a.On fun d x => d = dev ∧ x < maxBlockno) (hstep : s.step L dev a = some s') :
    BioInv dev s' := by
  cases a with
  | bget p d x =>
    obtain ⟨rfl, hx⟩ := hon
    exact bget_step h hx hstep
  | acquire p => exact acquire_step h hstep
  | fill p => exact fill_step hdev h hstep
  | modify p b data => exact modify_step hdev h hstep
  | bwrite p b => exact bwrite_step hdev h hstep
  | logWrite p b => exact logWrite_step hdev h hstep
  | brelse p b => exact brelse_step h hstep
  | drop p => exact drop_step h hstep
  | beginOp p => exact beginOp_step h hstep
  | endOp p => exact endOp_step h hstep
  | unpin p b => exact unpin_step hdev h hstep
  | clearHead p => exact clearHead_step h hstep
  | endCommit p => exact endCommit_step h hstep

theorem boot_inv (dev : ℕ) (disk : ℕ → Block) : BioInv dev (boot disk) := by
  have hidle : ∀ v : Busy, v ≠ .idle → tally (boot disk).busy v = 0 :=
    fun v hv => tally_eq_zero fun _ heq => hv heq.symm
  have hbuf : ∀ b, (boot disk).cache.buf b = ⟨false, 0, 0, none, 0, fun _ => 0⟩ := fun _ => rfl
  refine ⟨Bcache.binit_ok, ⟨?_, ?_, ?_, ?_, ?_⟩, ⟨?_, ?_, ?_, ?_, ?_⟩, ?_⟩
  · intro p b hf
    exact absurd hf (by simp [boot])
  · intro p b hl
    exact absurd hl (by simp [hbuf])
  · intro b hm
    exact absurd hm (by simp [boot])
  · intro b hpos
    exact absurd hpos (by simp [hbuf])
  · intro b
    have hpins : (boot disk).pins dev b = 0 := if_neg fun hmem => not_mem_nil hmem.2
    rw [hpins, uses, hidle _ (by simp), hidle _ (by simp), holders, hbuf]
    rfl
  · intro b hv
    exact absurd hv (by simp [hbuf])
  · intro x hx
    exact absurd hx not_mem_nil
  · intro b hv
    exact absurd hv (by simp [hbuf])
  · intro b hv
    exact absurd hv (by simp [hbuf])
  · intro x _ _
    rfl
  · exact ⟨le_rfl, nodup_nil, le_rfl, fun _ => rfl, fun _ => rfl⟩

end BioSys

/-! ## Every run -/

/-- **The cache is coherent**: `refcnt` counts the users of a buffer and its pin, whoever holds
a buffer finds in it what was written last, and a block of the log that is not installed is in
a buffer that is in use. -/
structure Coherent (dev : ℕ) (s : BioSys) : Prop where
  refcnt : ∀ b, (s.cache.buf b).refcnt = s.uses b + s.pins dev b
  noWrap : ∀ b, (s.cache.buf b).refcnt ≤ 2 * nproc + 2
  latest : ∀ p b, s.Holds p b → (s.cache.buf b).valid = true ∧
    (s.cache.buf b).data = s.latest (s.cache.buf b).dev (s.cache.buf b).blockno
  logged : ∀ x ∈ s.pending, ∃ b, (s.cache.buf b).dev = dev ∧ (s.cache.buf b).blockno = x ∧
    (s.cache.buf b).valid = true ∧ 0 < (s.cache.buf b).refcnt ∧ (s.cache.buf b).data = s.latest dev x

theorem BioInv.coherent (h : BioInv dev s) : Coherent dev s := by
  refine ⟨h.users.refcnt, h.users.refcnt_le, ?_, ?_⟩
  · intro p b hholds
    obtain ⟨hvalid, hhome, -⟩ := h.users.of_holds hholds
    rw [hhome]
    exact ⟨hvalid, h.contents.data b hvalid⟩
  · intro x hx
    obtain ⟨b, hd, rfl, hvalid⟩ := h.contents.kept x hx
    have hpin : s.pins dev b = 1 := if_pos ⟨hd, hx⟩
    have hcount := h.users.refcnt b
    exact ⟨b, hd, rfl, hvalid, by omega, h.contents.data b hvalid⟩

/-- **The buffer cache.** In every state that is reached, the ring has each buffer once in both
directions, no two buffers hold the same block, and no step takes away a buffer in use. When
only blocks of the log's device are read, the cache is coherent. -/
theorem buffer_cache_coherent {disk : ℕ → Block} {as : List BioStep} {t : BioSys}
    (hrun : exec (BioSys.step L dev) (.boot disk) as = some t) :
    (∃ l, IsRing t.cache.links l ∧ ∀ b, b ∈ l) ∧
    (∀ x, t.cache.links.prev (t.cache.links.next x) = x ∧ t.cache.links.next (t.cache.links.prev x) = x) ∧
    (∀ b b', 1 ≤ (t.cache.buf b).dev → (t.cache.buf b').dev = (t.cache.buf b).dev →
      (t.cache.buf b').blockno = (t.cache.buf b).blockno → b' = b) ∧
    (∀ a t', t.step L dev a = some t' → ∀ b, 0 < (t.cache.buf b).refcnt →
      (t'.cache.buf b).dev = (t.cache.buf b).dev ∧ (t'.cache.buf b).blockno = (t.cache.buf b).blockno ∧
        ((t.cache.buf b).valid = true → (t'.cache.buf b).valid = true)) ∧
    (1 ≤ dev → (∀ a ∈ as, a.On fun d x => d = dev ∧ x < maxBlockno) → Coherent dev t) := by
  have hok : t.cache.Ok := exec_inv (fun _ _ _ h hstep => (BioSys.step_next h hstep).ok)
    Bcache.binit_ok hrun
  obtain ⟨l, hring, hall⟩ := hok.ring
  refine ⟨⟨l, hring, hall⟩, hring.inverse hall, hok.unique, ?_, ?_⟩
  · intro a t' hstep
    exact (BioSys.step_next hok hstep).kept
  · intro hdev hon
    have hinv : BioInv dev t := exec_inv_along (fun _ _ _ h hP hstep => BioSys.step_inv hdev h hP hstep)
      (BioSys.boot_inv dev disk) (along_of_forall hon _) hrun
    exact hinv.coherent

/-- `bread(dev, blockno)` without waiting. -/
def breadSteps (p : Slot) (dev blockno : ℕ) : List BioStep :=
  [.bget p dev blockno, .acquire p, .fill p]

/-- `brelse`. -/
def brelseSteps (p : Slot) (b : BufId) : List BioStep := [.brelse p b, .drop p]

/-- An operation that writes block 5 of device `dev` through the log. -/
def writeOp (dev : ℕ) : List BioStep :=
  .beginOp 0 :: breadSteps 0 dev 5 ++ [.modify 0 0 fun _ => 1, .logWrite 0 0] ++ brelseSteps 0 0 ++
    [.endOp 0]

/-- `write_log`, `write_head` and `install_trans` for block 5 of device 1, whose log starts at
block 2. -/
def commitSteps : List BioStep :=
  breadSteps 0 1 3 ++ breadSteps 0 1 5 ++ [.modify 0 1 fun _ => 0, .bwrite 0 1] ++ brelseSteps 0 2 ++
    brelseSteps 0 1 ++
  breadSteps 0 1 2 ++ [.modify 0 3 fun _ => 1, .bwrite 0 3] ++ brelseSteps 0 3 ++
  breadSteps 0 1 3 ++ breadSteps 0 1 5 ++ [.modify 0 2 fun _ => 0, .bwrite 0 2, .unpin 0 2] ++
    brelseSteps 0 1 ++ brelseSteps 0 2

theorem buffer_cache_coherent_writeOp :
    ∃ t, exec (BioSys.step .mkfs 1) (.boot fun _ _ => 0) (writeOp 1) = some t ∧ Coherent 1 t := by
  have hrun : (exec (BioSys.step .mkfs 1) (.boot fun _ _ => 0) (writeOp 1)).isSome = true := by
    decide +kernel
  obtain ⟨t, ht⟩ := isSome_iff_exists.1 hrun
  have hlt : 5 < maxBlockno := by decide
  refine ⟨t, ht, (buffer_cache_coherent ht).2.2.2.2 le_rfl ?_⟩
  simp [writeOp, breadSteps, brelseSteps, BioStep.On, hlt]

/-- Block 0 of device 1 is written, and the block `2 ^ 25` is read. -/
def farBlock : List BioStep :=
  breadSteps 0 1 0 ++ [.modify 0 0 fun _ => 1, .bwrite 0 0] ++ brelseSteps 0 0 ++
    breadSteps 0 1 (2 ^ 25)

/-- **A log of one device, and sectors of 32 bits.** An operation writes block 5 of device 2.
The commit installs block 5 of device 1 and unpins its buffer, which was not pinned: its count
underflows. And the block `2 ^ 25` lies on the sectors of block 0. -/
theorem other_device_underflows :
    (∃ t, exec (BioSys.step .mkfs 1) (.boot fun _ _ => 0) (writeOp 2 ++ commitSteps) = some t ∧
      (∀ p, t.busy p = .idle) ∧ (t.cache.buf 2).lock = none ∧
        (t.cache.buf 2).refcnt = 2 ^ 32 - 1) ∧
    ∃ t, exec (BioSys.step .mkfs 1) (.boot fun _ _ => 0) farBlock = some t ∧ t.Holds 0 1 ∧
      (t.cache.buf 1).data 0 ≠ t.latest (t.cache.buf 1).dev (t.cache.buf 1).blockno 0 := by
  have hother : (exec (BioSys.step .mkfs 1) (.boot fun _ _ => 0) (writeOp 2 ++ commitSteps)).any
      (fun t => (∀ p, t.busy p = .idle) ∧ (t.cache.buf 2).lock = none ∧
        (t.cache.buf 2).refcnt = 2 ^ 32 - 1) = true := by
    decide +kernel
  have hfar : (exec (BioSys.step .mkfs 1) (.boot fun _ _ => 0) farBlock).any
      (fun t => t.Holds 0 1 ∧
        (t.cache.buf 1).data 0 ≠ t.latest (t.cache.buf 1).dev (t.cache.buf 1).blockno 0) = true := by
    decide +kernel
  obtain ⟨t, ht, hend⟩ := (any_eq_true _ _).1 hother
  obtain ⟨u, hu, hend'⟩ := (any_eq_true _ _).1 hfar
  exact ⟨⟨t, ht, of_decide_eq_true hend⟩, u, hu, of_decide_eq_true hend'⟩

end AudioPlayer
