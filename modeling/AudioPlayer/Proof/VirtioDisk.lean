import AudioPlayer.Spec.VirtioDisk
import AudioPlayer.Lib.RingBuffer
import AudioPlayer.Lib.Runs
import Mathlib.Data.Finset.Card
import Mathlib.Data.List.Perm.Basic

/-!
# The descriptor protocol of the disk driver

Every descriptor is free or in the chain of one waiting call, and the head of a chain
whose request is not done is in exactly one place: in the available ring, with the device,
or in the used ring.

* `VirtioDisk.allocLoop_none`: `alloc3_desc` gives back what it took;
* `VirtioDisk.freeChain_eq`: `free_chain` frees the three descriptors of a chain;
* `DiskInv`, `step_inv`: who owns what, kept by every step of driver and device;
* `disk_protocol`: the protocol, over runs of any length.
-/

namespace AudioPlayer

open Function Runs RingBuffer List Option

namespace VirtioDisk

variable {s t : VirtioDisk} {idx : List ℕ} {id : ℕ} {a : DiskStep}

/-! ## Descriptors -/

theorem allocDesc_some {i : ℕ} (h : s.allocDesc = some (t, i)) :
    i < num ∧ s.free i = true ∧ t = { s with free := update s.free i false } := by
  obtain ⟨j, hj, h⟩ := map_eq_some_iff.1 h
  obtain ⟨rfl, rfl⟩ := Prod.mk.inj h
  exact ⟨mem_range.1 (mem_of_find?_eq_some hj), by simpa using List.find?_some hj, rfl⟩

/-- **Freeing a list of descriptors** that are in use. -/
theorem foldl_freeDesc (hpanic : s.panic = none) (hnodup : idx.Nodup)
    (hidx : ∀ i ∈ idx, i < num ∧ s.free i = false) :
    idx.foldl freeDesc s =
      { s with
        desc := fun i => if i ∈ idx then ⟨.null, 0, 0, 0⟩ else s.desc i
        free := fun i => s.free i || decide (i ∈ idx) } := by
  induction idx generalizing s with
  | nil => simp
  | cons i idx ih =>
    obtain ⟨hlt, hfree⟩ := hidx i mem_cons_self
    have hnotMem := (nodup_cons.1 hnodup).1
    have hone : s.freeDesc i =
        { s with
          desc := update s.desc i ⟨.null, 0, 0, 0⟩
          free := update s.free i true } := by
      simp [freeDesc, hpanic, hfree, hlt]
    have hrest : ∀ j ∈ idx, j < num ∧ update s.free i true j = false := by
      intro j hj
      have hne : j ≠ i := fun h => hnotMem (h ▸ hj)
      rw [update_of_ne hne]
      exact hidx j (mem_cons_of_mem _ hj)
    have hfold := ih (s := { s with
      desc := update s.desc i ⟨.null, 0, 0, 0⟩
      free := update s.free i true }) hpanic (nodup_cons.1 hnodup).2 hrest
    rw [foldl_cons, hone, hfold]
    congr 1
    · funext j
      by_cases hj : j = i
      · subst hj; simp [hnotMem]
      · simp [hj]
    · funext j
      by_cases hj : j = i
      · subst hj; simp
      · simp [hj]

/-- The descriptors that `alloc3_desc` finds. -/
theorem allocLoop_some {n : ℕ} {l : List ℕ} (h : allocLoop n s idx = (t, some l)) :
    ∃ new, l = idx ++ new ∧ new.length = n ∧ new.Nodup ∧
      (∀ i ∈ new, i < num ∧ s.free i = true) ∧
      t = { s with free := fun i => s.free i && !decide (i ∈ new) } := by
  induction n generalizing s idx with
  | zero =>
    simp only [allocLoop, Prod.mk.injEq, some.injEq] at h
    obtain ⟨rfl, rfl⟩ := h
    exact ⟨[], by simp⟩
  | succ n ih =>
    simp only [allocLoop] at h
    split at h
    · simp at h
    · rename_i u i hu
      obtain ⟨hlt, hfree, rfl⟩ := allocDesc_some hu
      obtain ⟨new, hl, hlen, hnodup, hnew, ht⟩ := ih h
      have hi : i ∉ new := fun hi => by simpa using (hnew i hi).2
      refine ⟨i :: new, by simp [hl], by simp [hlen], nodup_cons.2 ⟨hi, hnodup⟩, ?_, ?_⟩
      · intro j hj
        rcases mem_cons.1 hj with rfl | hj
        · exact ⟨hlt, hfree⟩
        · have hne : j ≠ i := fun h => hi (h ▸ hj)
          obtain ⟨hjlt, hjfree⟩ := hnew j hj
          exact ⟨hjlt, by simpa [update_of_ne hne] using hjfree⟩
      · rw [ht]
        congr 1
        funext j
        by_cases hj : j = i
        · subst hj; simp
        · simp [hj]

/-- **`alloc3_desc` that fails gives back what it took**, and clears only descriptors that
were free. -/
theorem allocLoop_none {n : ℕ} (hpanic : s.panic = none) (hnodup : idx.Nodup)
    (hidx : ∀ i ∈ idx, i < num ∧ s.free i = false) (h : allocLoop n s idx = (t, none)) :
    ∃ new, (∀ i ∈ new, s.free i = true) ∧
      t = { s with
        desc := fun i => if i ∈ idx ++ new then ⟨.null, 0, 0, 0⟩ else s.desc i
        free := fun i => s.free i || decide (i ∈ idx) } := by
  induction n generalizing s idx with
  | zero => simp [allocLoop] at h
  | succ n ih =>
    simp only [allocLoop] at h
    split at h
    · obtain ⟨rfl, -⟩ := Prod.mk.inj h
      exact ⟨[], by simp, by simpa using foldl_freeDesc hpanic hnodup hidx⟩
    · rename_i u i hu
      obtain ⟨hlt, hfree, rfl⟩ := allocDesc_some hu
      have hi : i ∉ idx := fun hi => by simpa [hfree] using (hidx i hi).2
      have hnodup' : (idx ++ [i]).Nodup := by
        rw [nodup_append]
        exact ⟨hnodup, by simp, fun a ha b hb => by
          rw [mem_singleton.1 hb]; exact fun h => hi (h ▸ ha)⟩
      have hidx' : ∀ j ∈ idx ++ [i], j < num ∧ update s.free i false j = false := by
        intro j hj
        rcases mem_append.1 hj with hj | hj
        · have hne : j ≠ i := fun h => hi (h ▸ hj)
          rw [update_of_ne hne]
          exact hidx j hj
        · rw [mem_singleton.1 hj]
          exact ⟨hlt, by simp⟩
      obtain ⟨new, hnew, ht⟩ := ih
        (s := { s with free := update s.free i false }) hpanic hnodup' hidx' h
      refine ⟨i :: new, ?_, ?_⟩
      · intro j hj
        rcases mem_cons.1 hj with rfl | hj
        · exact hfree
        · by_cases hne : j = i
          · rw [hne]; exact hfree
          · simpa [update_of_ne hne] using hnew j hj
      · rw [ht]
        congr 1
        · funext j
          simp [append_assoc]
        · funext j
          by_cases hj : j = i
          · subst hj; simp [hfree]
          · simp [hj]

theorem alloc3Desc_none (hpanic : s.panic = none) (h : s.alloc3Desc = (t, none)) :
    ∃ new : List ℕ, (∀ i ∈ new, s.free i = true) ∧
      t = { s with desc := fun i => if i ∈ new then ⟨.null, 0, 0, 0⟩ else s.desc i } := by
  obtain ⟨new, hnew, ht⟩ := allocLoop_none hpanic nodup_nil (by simp) h
  exact ⟨new, hnew, by simpa using ht⟩

/-! ## Chains -/

/-- The descriptors and the entry of `disk.info` for the request of a waiting call. -/
structure Formatted (s : VirtioDisk) (r : DiskReq) (i0 i1 i2 : ℕ) : Prop where
  idx : r.idx = [i0, i1, i2]
  flags0 : (s.desc i0).flags &&& vringDescFNext ≠ 0
  next0 : (s.desc i0).next = i1
  flags1 : (s.desc i1).flags &&& vringDescFNext ≠ 0
  next1 : (s.desc i1).next = i2
  flags2 : (s.desc i2).flags &&& vringDescFNext = 0
  addr2 : (s.desc i2).addr = .status i0
  buf : (s.info i0).b = some r.b

variable {r : DiskReq} {i0 i1 i2 : ℕ}

theorem Formatted.congr (h : Formatted s r i0 i1 i2) (hdesc : ∀ i ∈ r.idx, t.desc i = s.desc i)
    (hinfo : (t.info i0).b = (s.info i0).b) : Formatted t r i0 i1 i2 := by
  have h0 := hdesc i0 (by simp [h.idx])
  have h1 := hdesc i1 (by simp [h.idx])
  have h2 := hdesc i2 (by simp [h.idx])
  exact ⟨h.idx, by rw [h0]; exact h.flags0, by rw [h0]; exact h.next0, by rw [h1]; exact h.flags1,
    by rw [h1]; exact h.next1, by rw [h2]; exact h.flags2, by rw [h2]; exact h.addr2,
    by rw [hinfo]; exact h.buf⟩

/-- `free_chain` walks along the chain. -/
theorem freeChain_eq (h : Formatted s r i0 i1 i2) (hnodup : r.idx.Nodup) (u : VirtioDisk)
    (hu : u.desc = s.desc) (fuel : ℕ) :
    freeChain (fuel + 3) u i0 = r.idx.foldl freeDesc u := by
  have hdesc : ∀ (v : VirtioDisk) (i j : ℕ), j ≠ i → (v.freeDesc i).desc j = v.desc j := by
    intro v i j hne
    unfold freeDesc
    split
    · rfl
    · split
      · rfl
      · split
        · rfl
        · exact update_of_ne hne _ _
  rw [h.idx] at hnodup ⊢
  simp only [nodup_cons, mem_cons, not_mem_nil, or_false, not_or] at hnodup
  obtain ⟨⟨h01, h02⟩, h12, -⟩ := hnodup
  have hd1 : (u.freeDesc i0).desc i1 = s.desc i1 := by rw [hdesc _ _ _ (Ne.symm h01), hu]
  have hd2 : ((u.freeDesc i0).freeDesc i1).desc i2 = s.desc i2 := by
    rw [hdesc _ _ _ (Ne.symm h12), hdesc _ _ _ (Ne.symm h02), hu]
  simp only [freeChain, hu, h.flags0, h.next0, hd1, h.flags1, h.next1, hd2, h.flags2,
    foldl_cons, foldl_nil, ne_eq, not_true_eq_false, not_false_eq_true, if_true, if_false]

/-! ## Ownership -/

/-- The first descriptor of a chain. -/
def head (r : DiskReq) : ℕ := r.idx.headD 0

/-- The descriptors in use. -/
def inUse (s : VirtioDisk) : List ℕ := s.reqs.flatMap (·.idx)

/-- The heads of the requests the disk is not done with. -/
def pendingHeads (s : VirtioDisk) : List ℕ := (s.reqs.filter fun r => s.bufDisk r.b).map head

/-- Where the heads of pending requests are: in the available ring, with the device, and in
the used ring. -/
structure Rings (s : VirtioDisk) (avail used : List ℕ) : Prop where
  availWindow : Window num idxMod s.availRing s.lastAvail s.availIdx avail
  usedWindow : Window num idxMod s.usedRing s.usedIdx s.usedRingIdx used
  perm : (avail ++ s.taken ++ used).Perm s.pendingHeads
  status : ∀ id ∈ used, (s.info id).status = 0

/-- **Who owns what.** -/
structure DiskInv (s : VirtioDisk) : Prop where
  panic : s.panic = none
  chain : ∀ r ∈ s.reqs, ∃ i0 i1 i2, Formatted s r i0 i1 i2
  nodup : s.inUse.Nodup
  lt : ∀ i ∈ s.inUse, i < num
  free : ∀ i < num, s.free i = true ↔ i ∉ s.inUse
  bufs : (s.reqs.map (·.b)).Nodup
  rings : ∃ avail used, Rings s avail used

theorem mem_inUse {i : ℕ} (hr : r ∈ s.reqs) (hi : i ∈ r.idx) : i ∈ s.inUse :=
  mem_flatMap.2 ⟨r, hr, hi⟩

theorem Formatted.head_eq (h : Formatted s r i0 i1 i2) : head r = i0 := by
  simp [head, h.idx]

/-- There is room for two requests only. -/
theorem DiskInv.length_reqs (h : DiskInv s) : s.reqs.length ≤ 2 := by
  have hlen : s.inUse.length = 3 * s.reqs.length := by
    unfold inUse
    rw [length_flatMap]
    have hthree : s.reqs.map (fun r => r.idx.length) = s.reqs.map fun _ => 3 := by
      refine map_congr_left fun r hr => ?_
      obtain ⟨i0, i1, i2, hf⟩ := h.chain r hr
      simp [hf.idx]
    rw [hthree]
    simp [mul_comm]
  have hle : s.inUse.length ≤ num := by
    have hsub : s.inUse.toFinset ⊆ Finset.range num := fun i hi =>
      Finset.mem_range.2 (h.lt i (mem_toFinset.1 hi))
    have hcard := Finset.card_le_card hsub
    rwa [toFinset_card_of_nodup h.nodup, Finset.card_range] at hcard
  have hnum : num = 8 := rfl
  omega

theorem Rings.length_le (h : DiskInv s) {avail used : List ℕ} (hr : Rings s avail used) :
    avail.length + s.taken.length + used.length ≤ 2 := by
  have hlen := hr.perm.length_eq
  have hle : s.pendingHeads.length ≤ s.reqs.length := by
    unfold pendingHeads
    rw [length_map]
    exact length_filter_le _ _
  have hreqs := h.length_reqs
  simp only [length_append] at hlen
  omega

/-- A pending head belongs to a request. -/
theorem of_pending (hid : id ∈ s.pendingHeads) :
    ∃ r ∈ s.reqs, head r = id ∧ s.bufDisk r.b = true := by
  obtain ⟨r, hr, rfl⟩ := mem_map.1 hid
  obtain ⟨hr, hb⟩ := mem_filter.1 hr
  exact ⟨r, hr, rfl, hb⟩

theorem Rings.pending {avail used : List ℕ} (h : Rings s avail used)
    (hid : id ∈ avail ++ s.taken ++ used) : ∃ r ∈ s.reqs, head r = id ∧ s.bufDisk r.b = true :=
  of_pending (h.perm.mem_iff.1 hid)

/-- What a request that is not `r` looks like. -/
theorem DiskInv.erase_ne (h : DiskInv s) (hr : r ∈ s.reqs) {q : DiskReq} (hq : q ∈ s.reqs.erase r) :
    q ∈ s.reqs ∧ q.b ≠ r.b ∧ ∀ i ∈ q.idx, i ∉ r.idx := by
  have hperm := perm_cons_erase hr
  have hbufs : ((r :: s.reqs.erase r).map (·.b)).Nodup := (hperm.map _).nodup_iff.1 h.bufs
  have huse : ((r :: s.reqs.erase r).flatMap (·.idx)).Nodup :=
    (hperm.flatMap_right _).nodup_iff.1 h.nodup
  rw [map_cons, nodup_cons] at hbufs
  rw [flatMap_cons, nodup_append] at huse
  refine ⟨mem_of_mem_erase hq, ?_, ?_⟩
  · intro heq
    exact hbufs.1 (heq ▸ mem_map_of_mem hq)
  · intro i hi hir
    exact huse.2.2 i hir i (mem_flatMap.2 ⟨q, hq, hi⟩) rfl

/-! ## The steps of the device -/

theorem take_inv (h : DiskInv s) (hne : s.lastAvail ≠ s.availIdx) : DiskInv s.take := by
  obtain ⟨avail, used, hr⟩ := h.rings
  have hlen := hr.length_le h
  cases avail with
  | nil => exact absurd ((hr.availWindow.eq_nil_iff (by decide)).2 rfl) hne
  | cons x avail =>
    obtain ⟨hx, hwin⟩ := hr.availWindow.pop
    refine ⟨h.panic, fun r hr => ?_, h.nodup, h.lt, h.free, h.bufs, avail, used, hwin, hr.usedWindow,
      ?_, hr.status⟩
    · obtain ⟨i0, i1, i2, hf⟩ := h.chain r hr
      exact ⟨i0, i1, i2, hf.congr (fun _ _ => rfl) rfl⟩
    · show (avail ++ s.availRing (s.lastAvail % num) :: s.taken ++ used).Perm s.pendingHeads
      rw [hx]
      refine List.Perm.trans ?_ hr.perm
      simp only [append_assoc, cons_append]
      exact perm_middle

/-- The device writes the status of the request it posts. -/
theorem post_info (hf : Formatted s r i0 i1 i2) (hid : head r = id) :
    (s.post id).info = update s.info id { s.info id with status := 0 } := by
  obtain rfl : i0 = id := hf.head_eq.symm.trans hid
  simp only [post, hf.next0, hf.next1, hf.addr2]

theorem post_inv (h : DiskInv s) (hid : id ∈ s.taken) : DiskInv (s.post id) := by
  obtain ⟨avail, used, hr⟩ := h.rings
  have hlen := hr.length_le h
  have hmem : id ∈ avail ++ s.taken ++ used := by simp [hid]
  obtain ⟨q, hq, hhead, -⟩ := hr.pending hmem
  obtain ⟨j0, j1, j2, hqf⟩ := h.chain q hq
  have hinfo := post_info hqf hhead
  have hroom : used.length < num := by
    have hnum : num = 8 := rfl
    omega
  refine ⟨h.panic, fun r hr => ?_, h.nodup, h.lt, h.free, h.bufs, avail, used ++ [id],
    hr.availWindow, hr.usedWindow.push hroom id, ?_, ?_⟩
  · obtain ⟨i0, i1, i2, hf⟩ := h.chain r hr
    refine ⟨i0, i1, i2, hf.congr (fun _ _ => rfl) ?_⟩
    rw [hinfo]
    by_cases hi : i0 = id
    · rw [hi, update_self]
    · rw [update_of_ne hi]
  · show (avail ++ s.taken.erase id ++ (used ++ [id])).Perm s.pendingHeads
    refine List.Perm.trans ?_ hr.perm
    have htaken := perm_cons_erase hid
    calc (avail ++ s.taken.erase id ++ (used ++ [id])).Perm
          (id :: (avail ++ s.taken.erase id ++ used)) := by
            rw [← append_assoc]
            exact perm_append_singleton _ _
      _ |>.Perm (avail ++ id :: s.taken.erase id ++ used) := by
            simp only [append_assoc, cons_append]
            exact perm_middle.symm
      _ |>.Perm (avail ++ s.taken ++ used) :=
            (htaken.symm.append_left avail).append_right used
  · intro i hi
    rw [hinfo]
    by_cases heq : i = id
    · rw [heq, update_self]
    · rw [update_of_ne heq]
      refine hr.status i ?_
      simpa [heq] using hi

/-! ## The steps of the driver -/

/-- **A completion.** The chain it names is that of a waiting call, and the pass clears
`b->disk` of its buffer. -/
theorem intr_spec (h : DiskInv s) (hne : s.usedIdx ≠ s.usedRingIdx) :
    ∃ r ∈ s.reqs, head r = s.usedRing (s.usedIdx % num) ∧ s.bufDisk r.b = true ∧
      s.intr = { s with
        bufDisk := update s.bufDisk r.b false
        usedIdx := (s.usedIdx + 1) % idxMod } := by
  obtain ⟨avail, used, hr⟩ := h.rings
  cases used with
  | nil => exact absurd ((hr.usedWindow.eq_nil_iff (by decide)).2 rfl) hne
  | cons id used =>
    obtain ⟨hid, -⟩ := hr.usedWindow.pop
    have hmem : id ∈ avail ++ s.taken ++ id :: used := by simp
    obtain ⟨r, hrmem, hhead, hb⟩ := hr.pending hmem
    obtain ⟨i0, i1, i2, hf⟩ := h.chain r hrmem
    obtain rfl : i0 = id := hf.head_eq.symm.trans hhead
    have hstatus := hr.status i0 (by simp)
    refine ⟨r, hrmem, by rw [hhead, hid], hb, ?_⟩
    simp [intr, hid, hstatus, hf.buf]

theorem intr_inv (h : DiskInv s) (hne : s.usedIdx ≠ s.usedRingIdx) : DiskInv s.intr := by
  obtain ⟨r, hrmem, hhead, hb, hintr⟩ := intr_spec h hne
  obtain ⟨avail, used, hr⟩ := h.rings
  have hperm := perm_cons_erase hrmem
  rw [hintr]
  cases used with
  | nil => exact absurd ((hr.usedWindow.eq_nil_iff (by decide)).2 rfl) hne
  | cons id used =>
    obtain ⟨hid, hwin⟩ := hr.usedWindow.pop
    refine ⟨h.panic, fun q hq => ?_, h.nodup, h.lt, h.free, h.bufs, avail, used, hr.availWindow, hwin,
      ?_, fun i hi => hr.status i (mem_cons_of_mem _ hi)⟩
    · obtain ⟨j0, j1, j2, hf⟩ := h.chain q hq
      exact ⟨j0, j1, j2, hf.congr (fun _ _ => rfl) rfl⟩
    · -- the other requests are as pending as before
      have hothers : (s.reqs.erase r).filter (fun q => update s.bufDisk r.b false q.b) =
          (s.reqs.erase r).filter fun q => s.bufDisk q.b := by
        refine filter_congr fun q hq => ?_
        rw [update_of_ne (h.erase_ne hrmem hq).2.1]
      have hbefore : s.pendingHeads.Perm (id :: ((s.reqs.erase r).filter fun q => s.bufDisk q.b).map head) := by
        have hfilter := (hperm.filter fun q => s.bufDisk q.b).map head
        rwa [filter_cons, if_pos hb, map_cons, hhead, hid] at hfilter
      have hafter : (((s.reqs.erase r).filter fun q => s.bufDisk q.b).map head).Perm
          ((s.reqs.filter fun q => update s.bufDisk r.b false q.b).map head) := by
        have hfilter := (hperm.filter fun q => update s.bufDisk r.b false q.b).map head
        rw [filter_cons, if_neg (by simp), hothers] at hfilter
        exact hfilter.symm
      have hcons : (id :: (avail ++ s.taken ++ used)).Perm
          (id :: ((s.reqs.erase r).filter fun q => s.bufDisk q.b).map head) :=
        (perm_middle.symm.trans hr.perm).trans hbefore
      exact hcons.cons_inv.trans hafter

theorem finish_eq (h : DiskInv s) (hr : r ∈ s.reqs) :
    s.finish r = { s with
      info := update s.info (head r) { s.info (head r) with b := none }
      reqs := s.reqs.erase r
      desc := fun i => if i ∈ r.idx then ⟨.null, 0, 0, 0⟩ else s.desc i
      free := fun i => s.free i || decide (i ∈ r.idx) } := by
  obtain ⟨i0, i1, i2, hf⟩ := h.chain r hr
  have hnodup : r.idx.Nodup := h.nodup.sublist (sublist_flatten_of_mem (mem_map_of_mem hr))
  have hidx : ∀ i ∈ r.idx, i < num ∧ s.free i = false := by
    intro i hi
    have hmem := mem_inUse hr hi
    have hlt := h.lt i hmem
    refine ⟨hlt, ?_⟩
    rw [← Bool.not_eq_true, h.free i hlt]
    exact not_not.2 hmem
  have hhead : r.idx.headD 0 = i0 := hf.head_eq
  unfold finish
  simp only [head, hhead]
  refine Eq.trans (freeChain_eq hf hnodup _ ?_ 6) (foldl_freeDesc h.panic hnodup hidx)
  rfl

theorem finish_inv (h : DiskInv s) (hr : r ∈ s.reqs) (hb : s.bufDisk r.b = false) :
    DiskInv (s.finish r) := by
  rw [finish_eq h hr]
  have hperm := perm_cons_erase hr
  have huse : s.inUse.Perm (r.idx ++ (s.reqs.erase r).flatMap (·.idx)) := hperm.flatMap_right _
  have hnodup := huse.nodup_iff.1 h.nodup
  rw [nodup_append] at hnodup
  obtain ⟨j0, j1, j2, hrf⟩ := h.chain r hr
  have hheadr : head r ∈ r.idx := by rw [hrf.head_eq, hrf.idx]; simp
  obtain ⟨avail, used, hrings⟩ := h.rings
  refine ⟨h.panic, fun q hq => ?_, hnodup.2.1, fun i hi => ?_, fun i hi => ?_, ?_, avail, used,
    hrings.availWindow, hrings.usedWindow, ?_, fun i hi => ?_⟩
  · -- the other chains are left alone
    obtain ⟨hqmem, -, hdisj⟩ := h.erase_ne hr hq
    obtain ⟨i0, i1, i2, hf⟩ := h.chain q hqmem
    refine ⟨i0, i1, i2, hf.congr (fun i hi => if_neg (hdisj i hi)) ?_⟩
    have hne : i0 ≠ head r := fun heq => hdisj i0 (by simp [hf.idx]) (heq ▸ hheadr)
    simp only [update_of_ne hne]
  · exact h.lt i (huse.mem_iff.2 (mem_append_right _ hi))
  · simp only [Bool.or_eq_true, decide_eq_true_eq, h.free i hi, huse.mem_iff, mem_append, not_or]
    constructor
    · rintro (hnot | hmem)
      · exact hnot.2
      · exact fun hmem' => hnodup.2.2 i hmem i hmem' rfl
    · intro hnot
      by_cases hmem : i ∈ r.idx
      · exact Or.inr hmem
      · exact Or.inl ⟨hmem, hnot⟩
  · exact h.bufs.sublist ((erase_sublist).map _)
  · refine hrings.perm.trans ?_
    have hfilter := (hperm.filter fun q => s.bufDisk q.b).map head
    rwa [filter_cons, if_neg (by simp [hb])] at hfilter
  · -- a completion that was not seen yet is not that of `r`
    have hmem : i ∈ avail ++ s.taken ++ used := by simp [hi]
    obtain ⟨q, hq, hhead, hqb⟩ := hrings.pending hmem
    have hne : i ≠ head r := by
      rintro rfl
      by_cases hqr : q = r
      · rw [hqr, hb] at hqb
        simp at hqb
      · obtain ⟨i0, i1, i2, hf⟩ := h.chain q hq
        have hq' : q ∈ s.reqs.erase r := (mem_erase_of_ne hqr).2 hq
        refine (h.erase_ne hr hq').2.2 (head r) ?_ hheadr
        rw [← hhead, hf.head_eq, hf.idx]
        simp
    simp only [update_of_ne hne]
    exact hrings.status i hi

/-- **A pass of `virtio_disk_rw` over `alloc3_desc`.** It sleeps, with no more done than to
clear free descriptors, or it submits its request with three descriptors that were free. -/
theorem rw_cases (hpanic : s.panic = none) (b blockno : ℕ) (write : Bool) :
    (∃ new : List ℕ, (∀ i ∈ new, s.free i = true) ∧ s.rw b blockno write =
      { s with desc := fun i => if i ∈ new then ⟨.null, 0, 0, 0⟩ else s.desc i }) ∨
    ∃ i0 i1 i2, [i0, i1, i2].Nodup ∧ (∀ i ∈ [i0, i1, i2], i < num ∧ s.free i = true) ∧
      s.rw b blockno write = { s with
        free := fun i => s.free i && !decide (i ∈ [i0, i1, i2]) }.submit i0 i1 i2 b blockno write := by
  unfold rw
  rcases halloc : s.alloc3Desc with ⟨t, _ | l⟩
  · obtain ⟨new, hnew, ht⟩ := alloc3Desc_none hpanic halloc
    exact Or.inl ⟨new, hnew, ht⟩
  · obtain ⟨new, hl, hlen, hnodup, hnew, ht⟩ := allocLoop_some halloc
    obtain ⟨i0, i1, i2, rfl⟩ := length_eq_three.1 hlen
    rw [nil_append] at hl
    subst hl
    exact Or.inr ⟨i0, i1, i2, hnodup, hnew, by rw [ht]⟩

/-- The chain that a call submits. -/
theorem formatted_submit (hnodup : [i0, i1, i2].Nodup) (b blockno : ℕ) (write : Bool) :
    Formatted (s.submit i0 i1 i2 b blockno write) ⟨b, [i0, i1, i2]⟩ i0 i1 i2 := by
  simp only [nodup_cons, mem_cons, not_mem_nil, or_false, not_or] at hnodup
  obtain ⟨⟨h01, h02⟩, h12, -⟩ := hnodup
  have hdesc : (s.submit i0 i1 i2 b blockno write).desc =
      formatDescs s.desc i0 i1 i2 b write := rfl
  have h0 : formatDescs s.desc i0 i1 i2 b write i0 = ⟨.op i0, 16, vringDescFNext, i1⟩ := by
    simp only [formatDescs, update_of_ne h02, update_of_ne h01,
      update_self]
  have h1 : formatDescs s.desc i0 i1 i2 b write i1 =
      ⟨.data b, bsize, (if write then 0 else vringDescFWrite) ||| vringDescFNext, i2⟩ := by
    simp only [formatDescs, update_of_ne h12, update_self]
  have h2 : formatDescs s.desc i0 i1 i2 b write i2 = ⟨.status i0, 1, vringDescFWrite, 0⟩ := by
    simp only [formatDescs, update_self]
  refine ⟨rfl, ?_, ?_, ?_, ?_, ?_, ?_, by simp [submit]⟩
  · rw [hdesc, h0]; simp
  · rw [hdesc, h0]
  · rw [hdesc, h1]
    cases write <;> simp
  · rw [hdesc, h1]
  · rw [hdesc, h2]; simp
  · rw [hdesc, h2]

theorem formatDescs_of_ne {i : ℕ} (h : i ∉ [i0, i1, i2]) (desc : ℕ → VirtqDesc) (b : ℕ)
    (write : Bool) : formatDescs desc i0 i1 i2 b write i = desc i := by
  simp only [mem_cons, not_mem_nil, or_false, not_or] at h
  obtain ⟨h0, h1, h2⟩ := h
  simp only [formatDescs, update_of_ne h0, update_of_ne h1,
    update_of_ne h2]

theorem submit_inv (h : DiskInv s) {b : ℕ} (hb : b ∉ s.reqs.map (·.b)) (blockno : ℕ) (write : Bool)
    (hnodup : [i0, i1, i2].Nodup) (hfree : ∀ i ∈ [i0, i1, i2], i < num ∧ s.free i = true) :
    DiskInv ({ s with free := fun i => s.free i && !decide (i ∈ [i0, i1, i2]) }.submit
      i0 i1 i2 b blockno write) := by
  -- what was free is in no chain
  have hnew : ∀ i ∈ [i0, i1, i2], i ∉ s.inUse := fun i hi =>
    (h.free i (hfree i hi).1).1 (hfree i hi).2
  have hold : ∀ r ∈ s.reqs, r.b ≠ b := fun r hr heq => hb (heq ▸ mem_map_of_mem hr)
  obtain ⟨avail, used, hr⟩ := h.rings
  have hlen := hr.length_le h
  have hroom : avail.length < num := by
    have hnum : num = 8 := rfl
    omega
  have hhead : ∀ r ∈ s.reqs, head r ≠ i0 := by
    intro r hr heq
    obtain ⟨j0, j1, j2, hf⟩ := h.chain r hr
    refine hnew i0 (by simp) (mem_inUse hr ?_)
    rw [← heq, hf.head_eq, hf.idx]
    simp
  refine ⟨h.panic, fun r hrmem => ?_, ?_, fun i hi => ?_, fun i hi => ?_, ?_, avail ++ [i0], used,
    hr.availWindow.push hroom i0, hr.usedWindow, ?_, fun i hi => ?_⟩
  · rcases mem_cons.1 hrmem with rfl | hrmem
    · exact ⟨i0, i1, i2, formatted_submit hnodup b blockno write⟩
    · obtain ⟨j0, j1, j2, hf⟩ := h.chain r hrmem
      have hne : j0 ≠ i0 := hf.head_eq ▸ hhead r hrmem
      refine ⟨j0, j1, j2, hf.congr (fun i hi => ?_) (by simp [submit, hne])⟩
      exact formatDescs_of_ne (fun hmem => hnew i hmem (mem_inUse hrmem hi)) s.desc b write
  · exact nodup_append.2 ⟨hnodup, h.nodup, fun i hi j hj heq => hnew i hi (heq ▸ hj)⟩
  · rcases mem_append.1 hi with hi | hi
    · exact (hfree i hi).1
    · exact h.lt i hi
  · show (s.free i && !decide (i ∈ [i0, i1, i2])) = true ↔ i ∉ [i0, i1, i2] ++ s.inUse
    rw [Bool.and_eq_true, h.free i hi, mem_append, not_or]
    simp [and_comm]
  · exact nodup_cons.2 ⟨hb, h.bufs⟩
  · have hpending : (s.reqs.filter fun r => update s.bufDisk b true r.b) =
        s.reqs.filter fun r => s.bufDisk r.b :=
      filter_congr fun r hr => by rw [update_of_ne (hold r hr)]
    have heads : ({ s with free := fun i => s.free i && !decide (i ∈ [i0, i1, i2]) }.submit
        i0 i1 i2 b blockno write).pendingHeads = i0 :: s.pendingHeads := by
      simp [pendingHeads, submit, hpending, head]
    rw [heads]
    refine List.Perm.trans ?_ (hr.perm.cons i0)
    simp only [submit, append_assoc, singleton_append]
    exact perm_middle
  · have hmem : i ∈ avail ++ s.taken ++ used := by simp [hi]
    obtain ⟨r, hrmem, rfl, -⟩ := hr.pending hmem
    simp only [submit, update_of_ne (hhead r hrmem)]
    exact hr.status _ hi

theorem rw_inv (h : DiskInv s) {b : ℕ} (hb : b ∉ s.reqs.map (·.b)) (blockno : ℕ) (write : Bool) :
    DiskInv (s.rw b blockno write) := by
  rcases rw_cases h.panic b blockno write with ⟨new, hnew, hrw⟩ | ⟨i0, i1, i2, hnodup, hfree, hrw⟩
  · rw [hrw]
    obtain ⟨avail, used, hr⟩ := h.rings
    refine ⟨h.panic, fun r hrmem => ?_, h.nodup, h.lt, h.free, h.bufs, avail, used, hr.availWindow,
      hr.usedWindow, hr.perm, hr.status⟩
    obtain ⟨j0, j1, j2, hf⟩ := h.chain r hrmem
    refine ⟨j0, j1, j2, hf.congr (fun i hi => if_neg fun hmem => ?_) rfl⟩
    have huse := mem_inUse hrmem hi
    exact (h.free i (h.lt i huse)).1 (hnew i hmem) huse
  · rw [hrw]
    exact submit_inv h hb blockno write hnodup hfree

/-- **Every step of driver and device keeps the invariant.** -/
theorem step_inv (h : DiskInv s) (hs : s.step a = some t) : DiskInv t := by
  unfold step at hs
  rw [if_neg (by simp [h.panic])] at hs
  cases a with
  | rw b blockno write =>
    simp only at hs
    split at hs
    · simp at hs
    · cases hs
      exact rw_inv h ‹_› blockno write
  | finish b =>
    simp only at hs
    split at hs
    · simp at hs
    · rename_i hb
      obtain ⟨r, hr, rfl⟩ := map_eq_some_iff.1 hs
      obtain rfl : r.b = b := by simpa using List.find?_some hr
      exact finish_inv h (mem_of_find?_eq_some hr) (by simpa using hb)
  | intr =>
    simp only at hs
    split at hs
    · simp at hs
    · cases hs
      exact intr_inv h ‹_›
  | take =>
    simp only at hs
    split at hs
    · simp at hs
    · cases hs
      exact take_inv h ‹_›
  | post id =>
    simp only at hs
    split at hs
    · cases hs
      exact post_inv h ‹_›
    · simp at hs

theorem init_inv : DiskInv init := by
  refine ⟨rfl, by simp [init], by simp [inUse, init], by simp [inUse, init], fun i hi => ?_,
    by simp [init], [], [], .empty (by decide) (by decide), .empty (by decide) (by decide), ?_, by simp⟩
  · simp [init, inUse, hi]
  · simp [init, pendingHeads]

/-- A step other than a call of `virtio_disk_rw` leaves the available ring alone. -/
theorem step_availRing (h : DiskInv s) (hs : s.step a = some t)
    (ha : ∀ b blockno write, a ≠ .rw b blockno write) : t.availRing = s.availRing := by
  unfold step at hs
  rw [if_neg (by simp [h.panic])] at hs
  cases a with
  | rw b blockno write => exact absurd rfl (ha b blockno write)
  | finish b =>
    simp only at hs
    split at hs
    · simp at hs
    · obtain ⟨r, hr, rfl⟩ := map_eq_some_iff.1 hs
      rw [finish_eq h (mem_of_find?_eq_some hr)]
  | intr =>
    simp only at hs
    split at hs
    · simp at hs
    · rename_i hne
      cases hs
      obtain ⟨r, -, -, -, hintr⟩ := intr_spec h hne
      rw [hintr]
  | take =>
    simp only at hs
    split at hs
    · simp at hs
    · cases hs
      rfl
  | post id =>
    simp only at hs
    split at hs
    · cases hs
      rfl
    · simp at hs

/-- **No slot of the available ring is overwritten** before the device has read it. -/
theorem step_unread (h : DiskInv s) (hs : s.step a = some t) {k : ℕ}
    (hk : k < (s.availIdx + idxMod - s.lastAvail) % idxMod) :
    t.availRing ((s.lastAvail + k) % num) = s.availRing ((s.lastAvail + k) % num) := by
  obtain ⟨avail, used, hr⟩ := h.rings
  have hlen := hr.length_le h
  have hnum : num = 8 := rfl
  have hmod : idxMod = 65536 := rfl
  rw [hr.availWindow.length_eq (by omega)] at hk
  by_cases ha : ∃ b blockno write, a = .rw b blockno write
  · obtain ⟨b, blockno, write, rfl⟩ := ha
    unfold step at hs
    rw [if_neg (by simp [h.panic])] at hs
    simp only at hs
    split at hs
    · simp at hs
    · cases hs
      rcases rw_cases h.panic b blockno write with ⟨new, -, hrw⟩ | ⟨i0, i1, i2, -, -, hrw⟩
      · rw [hrw]
      · -- the ring has room, so the new entry goes behind the others
        have hpush := (hr.availWindow.push (by omega) i0).slot k (by simp; omega)
        rw [getElem_append_left hk, ← hr.availWindow.slot k hk] at hpush
        rw [hrw]
        exact hpush
  · rw [step_availRing h hs fun b blockno write heq => ha ⟨b, blockno, write, heq⟩]

end VirtioDisk

open VirtioDisk

/-- **The descriptor protocol.** After any run of calls, interrupts and steps of the device,
however long: nothing has panicked; no descriptor is in two chains of waiting calls, each of
which has three, and the others are the free ones; `alloc3_desc` that fails gives back the
free set it found; a completion names the chain of a waiting call and clears `b->disk` of its
buffer only; no step overwrites a slot of the available ring that the device has not read;
and once no call waits all descriptors are free. -/
theorem disk_protocol {as : List DiskStep} {s : VirtioDisk} (h : exec step init as = some s) :
    s.panic = none ∧
    (s.reqs.flatMap (·.idx)).Nodup ∧ (∀ r ∈ s.reqs, r.idx.length = 3 ∧ ∀ i ∈ r.idx, i < num) ∧
    (∀ i < num, s.free i = true ↔ ∀ r ∈ s.reqs, i ∉ r.idx) ∧
    (∀ t, s.alloc3Desc = (t, none) → t.free = s.free ∧ t.panic = none) ∧
    (∀ t, s.step .intr = some t → ∃ r ∈ s.reqs,
      r.idx.head? = some (s.usedRing (s.usedIdx % num)) ∧ s.bufDisk r.b = true ∧
      t.bufDisk = update s.bufDisk r.b false) ∧
    (∀ a t, s.step a = some t → ∀ k < (s.availIdx + idxMod - s.lastAvail) % idxMod,
      t.availRing ((s.lastAvail + k) % num) = s.availRing ((s.lastAvail + k) % num)) ∧
    (s.reqs = [] → ∀ i < num, s.free i = true) := by
  have hinv : DiskInv s := exec_inv (fun _ _ _ hu hs => step_inv hu hs) init_inv h
  have hfree : ∀ i < num, s.free i = true ↔ ∀ r ∈ s.reqs, i ∉ r.idx := by
    intro i hi
    rw [hinv.free i hi]
    simp [inUse]
  refine ⟨hinv.panic, hinv.nodup, fun r hr => ?_, hfree, fun t ht => ?_, fun t ht => ?_,
    fun a t ht k hk => step_unread hinv ht hk, fun hnil i hi => ?_⟩
  · obtain ⟨i0, i1, i2, hf⟩ := hinv.chain r hr
    exact ⟨by simp [hf.idx], fun i hi => hinv.lt i (mem_inUse hr hi)⟩
  · obtain ⟨new, -, rfl⟩ := alloc3Desc_none hinv.panic ht
    exact ⟨rfl, hinv.panic⟩
  · unfold step at ht
    rw [if_neg (by simp [hinv.panic])] at ht
    simp only at ht
    split at ht
    · simp at ht
    · rename_i hne
      cases ht
      obtain ⟨r, hr, hhead, hb, hintr⟩ := intr_spec hinv hne
      obtain ⟨i0, i1, i2, hf⟩ := hinv.chain r hr
      refine ⟨r, hr, ?_, hb, by rw [hintr]⟩
      rw [← hhead, hf.head_eq, hf.idx]
      rfl
  · rw [hfree i hi, hnil]
    simp

/-- Two requests, completed in the other order. -/
def twoRequests : List DiskStep :=
  [.rw 5 40 false, .rw 6 41 true, .take, .take, .post 3, .intr, .post 0, .finish 6, .intr, .finish 5]

theorem disk_protocol_twoRequests :
    ∃ s, exec step init twoRequests = some s ∧ s.reqs = [] ∧ ∀ i < num, s.free i = true := by
  have hrun : (exec step init twoRequests).any (fun s => s.reqs = []) := by decide +kernel
  obtain ⟨s, hs, hreqs⟩ := (any_eq_true _ _).1 hrun
  have hreqs := of_decide_eq_true hreqs
  obtain ⟨-, -, -, -, -, -, -, hfree⟩ := disk_protocol hs
  exact ⟨s, hs, hreqs, hfree hreqs⟩

end AudioPlayer
