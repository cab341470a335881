import AudioPlayer.Proof.Contents
import AudioPlayer.Proof.FsTrace

/-!
# Writes that fail

When a copy from user space fails, `writei` leaves its loop without logging the block it copied
into. The copy may have changed a part of that block already: the part is seen through the cache,
and `commit` does not write it.

* `Good.failed_loop`: the block of the copy that fails is the only one that is changed and not
  logged, and it is logged only if it was allocated by this call;
* `failed_write_iff`: when such a write changes nothing but what it reports.
-/

namespace AudioPlayer

open Function Bytes FsAccess Runs List Option

namespace Fs

variable {fs fs' : Fs} {I : ℕ → Dinode} {ip ip' : Dinode} {i j k b bn addr x : ℕ}

/-! ## The blocks that are logged -/

theorem balloc_unlogged (h : fs.balloc = some (fs', b)) (hx : x ≠ fs.bblock b) (hxb : x ≠ b) :
    fs'.blocks x = fs.blocks x := by
  unfold balloc at h
  obtain ⟨b', -, heq⟩ := map_eq_some_iff.1 h
  obtain ⟨rfl, rfl⟩ := Prod.mk.inj heq
  exact (update_of_ne hxb _ _).trans (update_of_ne hx _ _)

variable {l : List ℕ}

/-- `bmap` logs the blocks it changes. -/
theorem BmapStep.unlogged (h : BmapStep fs I i bn fs' ip addr l) (hx : x ∉ l) :
    fs'.blocks x = fs.blocks x := by
  cases h with
  | found => rfl
  | direct _ _ halloc =>
    simp only [mem_cons, not_mem_nil, or_false, not_or] at hx
    exact balloc_unlogged halloc hx.1 hx.2
  | entry _ _ _ halloc =>
    simp only [mem_cons, not_mem_nil, or_false, not_or] at hx
    exact (update_of_ne hx.2.2 _ _).trans (balloc_unlogged halloc hx.1 hx.2.1)
  | indirect _ _ halloc _ halloc' =>
    simp only [mem_cons, not_mem_nil, or_false, not_or] at hx
    rw [← balloc_unlogged halloc hx.1 hx.2.1, ← balloc_unlogged halloc' hx.2.2.1 hx.2.2.2.1]
    exact update_of_ne hx.2.1 _ _

/-- A block that `bmap` allocates is logged. -/
theorem BmapStep.mem_of_none (h : BmapStep fs I i bn fs' ip addr l)
    (hs : fs.slot I (placeOf i bn) = none) : addr ∈ l := by
  cases h with
  | found hs' =>
    rw [hs] at hs'
    cases hs'
  | direct => simp
  | entry => simp
  | indirect => simp

/-- `balloc` logs no block of a file. -/
theorem Taken.ne_data {v : BlockSlot → Option ℕ} {p : BlockSlot} (ht : Taken fs fs' b) (h : Marked fs v)
    (hp : v p = some x) : x ≠ fs.bblock b ∧ x ≠ b := by
  obtain ⟨hdata, hmark⟩ := h.owners.mem _ _ hp
  refine ⟨Ne.symm (bblock_ne h.layout ht.data.2 (Or.inr hdata.1)), ?_⟩
  rintro rfl
  exact absurd hmark (by simp [ht.clear])

/-- The blocks of files are not logged by `bmap`. -/
theorem BmapStep.not_mem (h : BmapStep fs I i bn fs' ip addr l) (hgood : Good fs I) (hi : fs.Live I i)
    (hs : fs.slot I (placeOf j k) = some b) : b ∉ l := by
  have htaken : ∀ {fs1 fs2 : Fs} {I1 : ℕ → Dinode} {c : ℕ}, Good fs1 I1 → fs1.balloc = some (fs2, c) →
      fs1.slot I1 (placeOf j k) = some b → b ≠ fs1.bblock c ∧ b ≠ c := fun hg halloc hb =>
    (balloc_taken hg.marked.layout hg.marked.low halloc).ne_data hg.marked hb
  cases h with
  | found => exact not_mem_nil
  | direct _ _ halloc =>
    obtain ⟨hbit, hne⟩ := htaken hgood halloc hs
    simp [hbit, hne]
  | entry _ hind _ halloc =>
    obtain ⟨hbit, hne⟩ := htaken hgood halloc hs
    have hindirect : b ≠ (I i).addrs nDirect := by
      rintro rfl
      have hslot : fs.slot I (.addr i nDirect) = some ((I i).addrs nDirect) :=
        slot_eq_some_iff.2 ⟨⟨hi.1, Nat.lt_succ_self _⟩, hi.2, rfl, hind⟩
      exact placeOf_ne_indirect (hgood.marked.owners.inj _ _ _ hs hslot)
    simp [hbit, hne, hindirect]
  | indirect _ hzero halloc _ halloc' =>
    obtain ⟨hbit, hne⟩ := htaken hgood halloc hs
    have hgrow := (hgood.growAddr hi (Nat.lt_succ_self _) hzero halloc).1
    obtain ⟨hbit', hne'⟩ := htaken hgrow.good halloc' (hgrow.slots _ _ hs)
    simp [hbit, hne, hbit', hne']

/-! ## The loop -/

variable {copyin : ℕ → Option ℕ} {off n t : ℕ}

theorem CopyFails.next (h : CopyFails copyin off n t k) (ht : t ≠ 0) :
    min n (bsize - off % bsize) ≤ t ∧
      CopyFails (fun x => copyin (min n (bsize - off % bsize) + x)) (off + min n (bsize - off % bsize))
        (n - min n (bsize - off % bsize)) (t - min n (bsize - off % bsize)) k := by
  obtain ⟨hle, hstart⟩ := h.start.next h.lt ht
  have hlt := h.lt
  refine ⟨hle, by omega, hstart, ?_, ?_⟩
  · rw [Nat.add_sub_cancel' hle]
    exact h.fails
  · intro x hx hsx
    refine h.first _ (by omega) (Or.inr ?_)
    rcases hsx with rfl | hmod
    · simp only [bsize] at *
      omega
    · rwa [← add_assoc]

/-- The copy that fails is determined by the call. -/
theorem CopyFails.end_eq {t' e : ℕ} (h : CopyFails copyin off n t k) (h' : LoopEnd copyin off n t' e) :
    t' = t ∧ e = min k (min (n - t) (bsize - (off + t) % bsize)) := by
  rcases h' with ⟨-, -, hnone⟩ | ⟨k', hfails, he⟩
  · have hcopy := hnone t h.lt h.start
    rw [h.fails] at hcopy
    cases hcopy
  · have ht : t' = t := by
      rcases lt_trichotomy t' t with hlt | heq | hgt
      · have hcopy := h.first t' hlt hfails.start
        rw [hfails.fails] at hcopy
        cases hcopy
      · exact heq
      · have hcopy := hfails.first t hgt h.start
        rw [h.fails] at hcopy
        cases hcopy
    subst ht
    have hk : k' = k := some.inj (hfails.fails.symm.trans h.fails)
    exact ⟨rfl, by rw [he, hk]⟩

/-- **The loop of a write that fails.** -/
theorem Good.failed_loop {fuel tot off' tot' : ℕ} {src : List UInt8} (h : Good fs I) (hi : fs.Live I i)
    (hlt : off + src.length < 2 ^ 32) (hfuel : src.length ≤ fuel)
    (hfails : CopyFails (fun x => copyin (tot + x)) off src.length t k)
    (hrun : writeLoop copyin fuel fs (I i) off src tot = some (fs', ip, off', tot')) :
    ∃ addr, fs'.slot (update I i ip) (placeOf i ((off + t) / bsize)) = some addr ∧
      (∀ x ∉ logged (writeLoopTrace copyin fuel fs (I i) off src tot), x ≠ addr →
        fs'.blocks x = fs.blocks x) ∧
      (fs.slot I (placeOf i ((off + t) / bsize)) = none →
        addr ∈ logged (writeLoopTrace copyin fuel fs (I i) off src tot)) ∧
      ∀ b, fs.slot I (placeOf i ((off + t) / bsize)) = some b →
        b = addr ∧ b ∉ logged (writeLoopTrace copyin fuel fs (I i) off src tot) := by
  induction fuel generalizing fs I off src tot t with
  | zero =>
    have := hfails.lt
    omega
  | succ fuel ih =>
    have hlen : 0 < src.length := Nat.zero_lt_of_lt hfails.lt
    have hsrc : src ≠ [] := ne_nil_of_length_pos hlen
    unfold writeLoop at hrun
    unfold writeLoopTrace
    rw [if_neg hsrc] at hrun ⊢
    obtain ⟨⟨fs1, ip1, addr1⟩, hmap, hrest⟩ := bind_eq_some_iff.1 hrun
    have hmapped := h.bmap_of_some hi hmap
    have hstep := h.bmap_step hi hmap
    have hself : update I i ip1 i = ip1 := update_self _ _ _
    have hmod : off % bsize < bsize := Nat.mod_lt _ (by decide)
    set m := min src.length (bsize - off % bsize) with hm
    rw [hmap]
    dsimp only at hrest ⊢
    by_cases ht : t = 0
    · -- the first copy fails
      subst ht
      have hcopy : copyin tot = some k := hfails.fails
      simp only [hcopy] at hrest ⊢
      obtain ⟨rfl, hrest'⟩ := Prod.mk.inj (some.inj hrest)
      obtain ⟨rfl, -⟩ := Prod.mk.inj hrest'
      rw [append_nil, add_zero]
      refine ⟨addr1, ?_, ?_, hstep.mem_of_none, ?_⟩
      · rw [hmapped.grow.good.slot_setData hmapped.slot, hmapped.slot]
      · intro x hx hne
        exact (update_of_ne hne _ _).trans (hstep.unlogged hx)
      · intro b hs
        have heq := hmapped.grow.slots _ _ hs
        rw [hmapped.slot] at heq
        rw [logged_bmapTrace_of_slot hs]
        exact ⟨(some.inj heq).symm, not_mem_nil⟩
    · obtain ⟨hle, hnext⟩ := hfails.next ht
      rw [← hm] at hle hnext
      have hcopy : copyin tot = none := hfails.first 0 (by omega) (Or.inl rfl)
      simp only [hcopy] at hrest ⊢
      rw [Nat.mod_eq_of_lt (show off + m < 2 ^ 32 by omega), ← hself] at hrest
      have hgrow := hmapped.grow.good.setData hmapped.slot
        (move (fs1.blocks addr1) (off % bsize) m (ofList src))
      have hslot := hmapped.grow.good.slot_setData hmapped.slot
        (move (fs1.blocks addr1) (off % bsize) m (ofList src))
      have hdrop : (src.drop m).length = src.length - m := length_drop
      rw [← hdrop] at hnext
      simp only [← add_assoc] at hnext
      obtain ⟨addr, hafter, hsame, hnew, hold⟩ := ih hgrow.good (hgrow.live (hmapped.grow.live hi))
        (by omega)
        (by omega) hnext hrest
      rw [update_idem] at hafter
      rw [hslot] at hnew hold
      rw [hself] at hsame hnew hold
      have hpos : off + m + (t - m) = off + t := by omega
      rw [hpos] at hafter hnew hold
      -- the block of this pass is another one
      have hplace : placeOf i ((off + t) / bsize) ≠ placeOf i (off / bsize) := by
        intro heq
        have hdiv := (placeOf_inj heq).2
        have hstart := hfails.start.resolve_left ht
        simp only [bsize] at *
        omega
      rw [Nat.mod_eq_of_lt (show off + m < 2 ^ 32 by omega), logged_append, logged_logWrite]
      refine ⟨addr, hafter, ?_, ?_, ?_⟩
      · intro x hx hne
        rw [mem_append, mem_cons, not_or, not_or] at hx
        rw [hsame x hx.2.2 hne]
        exact (update_of_ne hx.2.1 _ _).trans (hstep.unlogged hx.1)
      · intro hs
        rw [hmapped.others _ _ hplace] at hnew
        exact mem_append_right _ (mem_cons_of_mem _ (hnew hs))
      · intro b hs
        have hkept := hmapped.grow.slots _ _ hs
        obtain ⟨rfl, hnot⟩ := hold b hkept
        refine ⟨rfl, ?_⟩
        rw [mem_append, mem_cons, not_or, not_or]
        refine ⟨hstep.not_mem h hi hs, ?_, hnot⟩
        rintro rfl
        exact hplace (hmapped.grow.good.marked.owners.inj _ _ _ hkept hmapped.slot)

end Fs

open Fs

namespace FsState

variable {s : FsState} {fs' : Fs} {i off t k : ℕ} {ip : Dinode} {src : List UInt8}
  {copyin : ℕ → Option ℕ} {r : ℤ}

/-- **A write that fails** changes one block that it does not log, unless it allocated it. -/
theorem WellFormed.failed_writei (h : s.WellFormed) (hi : s.fs.Live s.fs.readInode i)
    (hoff : off ≤ (s.fs.readInode i).size) (hlt : off + src.length < 2 ^ 32)
    (hfails : CopyFails copyin off src.length t k)
    (hrun : s.fs.writei i (s.fs.readInode i) off src copyin = some (fs', ip, r)) :
    ∃ addr, fs'.slot fs'.readInode (placeOf i ((off + t) / bsize)) = some addr ∧
      (∀ x ∉ logged (s.fs.writeiTrace i (s.fs.readInode i) off src copyin), x ≠ addr →
        fs'.blocks x = s.fs.blocks x) ∧
      (s.fs.slot s.fs.readInode (placeOf i ((off + t) / bsize)) = none →
        addr ∈ logged (s.fs.writeiTrace i (s.fs.readInode i) off src copyin)) ∧
      ∀ b, s.fs.slot s.fs.readInode (placeOf i ((off + t) / bsize)) = some b →
        b = addr ∧ b ∉ logged (s.fs.writeiTrace i (s.fs.readInode i) off src copyin) := by
  have hmax : 2 ^ 32 ≤ maxFile * bsize := by decide
  rw [writei_eq hoff hlt] at hrun
  obtain ⟨⟨fs1, ip1, off1, tot1⟩, hloop, heq⟩ := map_eq_some_iff.1 hrun
  obtain ⟨rfl, -⟩ := Prod.mk.inj heq
  have htrace : logged (s.fs.writeiTrace i (s.fs.readInode i) off src copyin) =
      logged (writeLoopTrace copyin src.length s.fs (s.fs.readInode i) off src 0) ++ [s.fs.iblock i] := by
    unfold writeiTrace
    rw [Nat.mod_eq_of_lt hlt, if_neg (by omega), if_neg (by omega), logged_append, hloop]
    rfl
  obtain ⟨hgrow, -, hlt1, -⟩ := h.good.writeLoop_spec hi hlt hloop
  obtain ⟨addr, hslot, hsame, hnew, hold⟩ := h.good.failed_loop hi hlt le_rfl
    (by simpa only [zero_add] using hfails) hloop
  have hsize1 := hgrow.size_eq i
  rw [update_self] at hsize1
  have hsize := (h.good.fits i).size_lt
  have hstored := hgrow.store h.good hi (show max ip1.size off1 < 2 ^ 32 by omega)
  have hiblock : fs1.iblock i = s.fs.iblock i := by rw [iblock, iblock, hgrow.sb]
  rw [htrace]
  refine ⟨addr, by rw [hstored.slot, hslot], ?_, fun hs => mem_append_left _ (hnew hs), ?_⟩
  · intro x hx hne
    rw [mem_append, mem_singleton, not_or] at hx
    exact (update_of_ne (hiblock ▸ hx.2) _ _).trans (hsame x hx.1 hne)
  · intro b hs
    obtain ⟨heq, hnot⟩ := hold b hs
    refine ⟨heq, ?_⟩
    rw [mem_append, mem_singleton, not_or]
    refine ⟨hnot, ?_⟩
    -- the inodes lie before the data
    have hbmap := ((h.good.marked.owners.mem _ _ hs).1).bmapstart_lt h.good.marked.layout
    have hinode := iblock_lt h.good.marked.layout hi.1
    omega

end FsState

/-- What is read behind `lo` stays the same exactly when the bytes there do. -/
theorem reads_eq_iff {f g : Mem} {size lo : ℕ} (hsize : size < 2 ^ 32) :
    (∀ off' n', lo ≤ off' → n' < 2 ^ 32 →
      (if off' > max size lo ∨ 2 ^ 32 ≤ off' + n' then []
        else ((slice f 0 (max size lo)).drop off').take n') =
        if off' > size ∨ 2 ^ 32 ≤ off' + n' then [] else ((slice g 0 size).drop off').take n') ↔
      ∀ pos, lo ≤ pos → pos < size → f pos = g pos := by
  constructor
  · intro h pos hlo hpos
    have hread := h pos 1 hlo (by decide)
    rw [max_eq_left (by omega), if_neg (by omega), if_neg (by omega), slice_drop_take f 0 (by omega),
      slice_drop_take g 0 (by omega), zero_add] at hread
    exact (List.cons.inj hread).1
  · intro h off' n' hlo hn
    by_cases hwrap : 2 ^ 32 ≤ off' + n'
    · rw [if_pos (Or.inr hwrap), if_pos (Or.inr hwrap)]
    by_cases hin : lo ≤ size
    · rw [max_eq_left hin]
      by_cases hout : off' > size
      · rw [if_pos (Or.inl hout), if_pos (Or.inl hout)]
      · have hdrop : ∀ m : Mem, (slice m 0 size).drop off' = slice m off' (size - off') := by
          intro m
          have hpart := slice_drop_take m 0 (show off' + (size - off') ≤ size by omega)
          rw [take_of_length_le (by simp), zero_add] at hpart
          exact hpart
        rw [if_neg (by omega), if_neg (by omega), hdrop f, hdrop g,
          slice_congr fun p hp hp' => h p (by omega) (by omega)]
    · rw [max_eq_right (by omega), if_pos (show off' > size ∨ _ from Or.inl (by omega)),
        drop_eq_nil_of_le (by rw [length_slice]; omega), take_nil, ite_self]

/-- **When a write that fails changes only what it reports.** The copy fails after `k` bytes in the
pass that begins after `t` bytes. The bytes of the file behind those that were reported stay as
they were, and the cache holds what `commit` writes, exactly when the block of that pass was not
mapped before, or every byte that was copied into it was there already, or lies behind the end of
the file in a block that was logged before. -/
theorem failed_write_iff {s : FsState} {fs' : Fs} {i off t k : ℕ} {ip : Dinode} {src : List UInt8}
    {copyin : ℕ → Option ℕ} {r : ℤ} {disk : ℕ → Block} {log : List ℕ} (h : s.WellFormed)
    (hi : s.fs.Live s.fs.readInode i) (hoff : off ≤ (s.fs.readInode i).size)
    (hlt : off + src.length < 2 ^ 32)
    (hdisk : ∀ b ∉ log, ∀ y < bsize, s.fs.blocks b y = disk b y)
    (hfails : CopyFails copyin off src.length t k)
    (hrun : s.fs.writei i (s.fs.readInode i) off src copyin = some (fs', ip, r)) :
    r = t ∧
    (((∀ off' n', off + t ≤ off' → n' < 2 ^ 32 →
        (fs'.readi ip off' n' fun _ => true).map (·.2.2) =
          (s.fs.readi (s.fs.readInode i) off' n' fun _ => true).map (·.2.2)) ∧
      ∀ b ∉ log ++ logged (s.fs.writeiTrace i (s.fs.readInode i) off src copyin), ∀ y < bsize,
        fs'.blocks b y = disk b y) ↔
      ∀ b, s.fs.slot s.fs.readInode (placeOf i ((off + t) / bsize)) = some b →
        ∀ j < min k (min (src.length - t) (bsize - (off + t) % bsize)),
          src.getD (t + j) 0 = s.fs.blocks b ((off + t) % bsize + j) ∨
            ((s.fs.readInode i).size ≤ off + t + j ∧ b ∈ log)) := by
  have hsize := (h.good.fits i).size_lt
  have hwf := h.writei hi ⟨by omega, by omega⟩ hrun
  obtain ⟨addr, hslot, hsame, hnew, hold⟩ := h.failed_writei hi hoff hlt hfails hrun
  obtain ⟨t', e, rfl, hend, rfl, hfields, -, hbytes⟩ := h.writei_bytes hi hoff hlt hrun
  have hsize' : (fs'.readInode i).size = max (s.fs.readInode i).size (off + t') := by rw [hfields]
  obtain ⟨rfl, he⟩ := hfails.end_eq hend
  have hlive := (hwf.cache i _ (update_self _ _ _)).1
  rw [← he]
  refine ⟨rfl, ?_⟩
  have hreads : (∀ off' n', off + t' ≤ off' → n' < 2 ^ 32 →
      (fs'.readi (fs'.readInode i) off' n' fun _ => true).map (·.2.2) =
        (s.fs.readi (s.fs.readInode i) off' n' fun _ => true).map (·.2.2)) ↔
      ∀ pos, off + t' ≤ pos → pos < (s.fs.readInode i).size →
        fs'.fileByte fs'.readInode i pos = s.fs.fileByte s.fs.readInode i pos := by
    rw [← reads_eq_iff hsize]
    refine forall₄_congr fun off' n' _ hn => ?_
    have hread := hwf.readi_contents hlive off' hn
    dsimp only at hread
    rw [hread, h.readi_contents hi off' hn, contents, contents, hsize']
    simp only [map_some, some.injEq]
  rw [hreads]
  have hsplit := Nat.div_add_mod' (off + t') bsize
  have hfit : e ≤ src.length - t' ∧ e ≤ bsize - (off + t') % bsize := by omega
  -- the positions that were copied before the copy failed
  have hpos : ∀ j, off + t' + j = (off + t') / bsize * bsize + ((off + t') % bsize + j) := by
    intro j
    omega
  have hcopied : ∀ j < e, fs'.fileByte fs'.readInode i (off + t' + j) = src.getD (t' + j) 0 := by
    intro j hj
    have hin : off ≤ off + t' + j ∧ off + t' + j < off + (t' + e) := ⟨by omega, by omega⟩
    rw [hbytes, if_pos rfl, move, if_pos hin, ofList]
    congr 1
    omega
  have hcell : ∀ j < e, fs'.fileByte fs'.readInode i (off + t' + j) =
      fs'.blocks addr ((off + t') % bsize + j) := by
    intro j hj
    rw [hpos, fileByte_block hslot (by omega)]
  constructor
  · rintro ⟨hfile, hlog⟩ b hb j hj
    obtain ⟨rfl, hnot⟩ := hold b hb
    have hbefore : s.fs.fileByte s.fs.readInode i (off + t' + j) =
        s.fs.blocks b ((off + t') % bsize + j) := by
      rw [hpos, fileByte_block hb (by omega)]
    by_cases hsrc : src.getD (t' + j) 0 = s.fs.blocks b ((off + t') % bsize + j)
    · exact Or.inl hsrc
    refine Or.inr ⟨?_, ?_⟩
    · by_contra hin
      have hkept := hfile (off + t' + j) (by omega) (by omega)
      rw [hcopied j hj, hbefore] at hkept
      exact hsrc hkept
    · by_contra hlogged
      have hkept := hlog b (by rw [mem_append, not_or]; exact ⟨hlogged, hnot⟩)
        ((off + t') % bsize + j) (by omega)
      rw [← hcell j hj, hcopied j hj, ← hdisk b hlogged _ (by omega)] at hkept
      exact hsrc hkept
  · intro hcond
    refine ⟨?_, ?_⟩
    · intro pos hlow hend'
      by_cases hin : pos < off + t' + e
      · obtain ⟨j, rfl⟩ := Nat.exists_eq_add_of_le hlow
        have hj : j < e := by omega
        obtain ⟨b, hb⟩ := isSome_iff_exists.1
          (h.mapped i hi _ (div_lt_blockCount (show off + t' < _ by omega)))
        rw [hcopied j hj, hpos, fileByte_block hb (by omega)]
        exact (hcond b hb j hj).resolve_right fun hout => by omega
      · rw [hbytes, if_pos rfl]
        exact move_of_disjoint (by omega)
    · intro b hb y hy
      rw [mem_append, not_or] at hb
      rw [← hdisk b hb.1 y hy]
      by_cases hne : b = addr
      · subst hne
        cases hs : s.fs.slot s.fs.readInode (placeOf i ((off + t') / bsize)) with
        | none => exact absurd (hnew hs) hb.2
        | some b' =>
          obtain ⟨rfl, -⟩ := hold b' hs
          rw [← fileByte_block hslot hy]
          by_cases hin : (off + t') % bsize ≤ y ∧ y < (off + t') % bsize + e
          · obtain ⟨j, rfl⟩ := Nat.exists_eq_add_of_le hin.1
            have hj : j < e := by omega
            rw [← hpos, hcopied j hj]
            exact (hcond b' hs j hj).resolve_right fun hout => hb.1 hout.2
          · rw [← fileByte_block hs hy, hbytes, if_pos rfl]
            refine move_of_disjoint ?_
            -- the pass begins at the start of the block, or of the write
            rcases hfails.start with rfl | hstart
            · omega
            · omega
      · exact congrFun (hsame b hb.2 hne) y

/-- A write into a file without blocks fails after one byte: the block is a new one. -/
theorem failed_write_new_block :
    ∃ t fs' ip r, exec FsState.step smallDisk [.ialloc tFile (by decide), .ilock 1] = some t ∧
      t.fs.writei 1 (t.fs.readInode 1) 0 [9, 9] (fun _ => some 1) = some (fs', ip, r) ∧ r = 0 ∧
      ∀ b ∉ [] ++ logged (t.fs.writeiTrace 1 (t.fs.readInode 1) 0 [9, 9] fun _ => some 1),
        ∀ y < bsize, fs'.blocks b y = t.fs.blocks b y := by
  have hrun : (exec FsState.step smallDisk [.ialloc tFile (by decide), .ilock 1]).any
      (fun t => (t.icache 1).isSome && decide (t.fs.slot t.fs.readInode (placeOf 1 0) = none) &&
        (t.fs.writei 1 (t.fs.readInode 1) 0 [9, 9] fun _ => some 1).isSome) = true := by
    decide +kernel
  obtain ⟨t, ht, hstate⟩ := (any_eq_true _ _).1 hrun
  simp only [Bool.and_eq_true, decide_eq_true_eq] at hstate
  obtain ⟨⟨hcache, hslot⟩, hsome⟩ := hstate
  obtain ⟨⟨fs', ip, r⟩, hwrite⟩ := isSome_iff_exists.1 hsome
  obtain ⟨ip0, hip⟩ := isSome_iff_exists.1 hcache
  have hwf := FsState.exec_wellFormed smallDisk_wellFormed ht
  have hfails : CopyFails (fun _ => some 1) 0 2 0 1 :=
    ⟨by decide, Or.inl rfl, rfl, fun x hx => absurd hx (Nat.not_lt_zero x)⟩
  obtain ⟨hr, hiff⟩ := failed_write_iff hwf (hwf.cache 1 ip0 hip).1 (Nat.zero_le _)
    (by decide) (fun _ _ _ _ => rfl) hfails hwrite
  refine ⟨t, fs', ip, r, ht, hwrite, hr, (hiff.2 fun b hb => ?_).2⟩
  have hzero : (0 + 0) / bsize = 0 := by decide
  rw [hzero, hslot] at hb
  cases hb

/-- **One byte of two is copied over a file of three bytes.** The call returns 0, but the first byte
has changed, in a block that is not logged. -/
theorem failed_write_leaks :
    ∃ t fs' ip, exec FsState.step smallDisk smallCalls = some t ∧ t.WellFormed ∧
      CopyFails (fun _ => some 1) 0 2 0 1 ∧
      t.fs.writei 1 (t.fs.readInode 1) 0 [9, 9] (fun _ => some 1) = some (fs', ip, 0) ∧
      (t.fs.readi (t.fs.readInode 1) 0 3 fun _ => true).map (·.2.2) = some (some [1, 2, 3]) ∧
      (fs'.readi ip 0 3 fun _ => true).map (·.2.2) = some (some [9, 2, 3]) ∧
      5 ∉ logged (t.fs.writeiTrace 1 (t.fs.readInode 1) 0 [9, 9] fun _ => some 1) ∧
      fs'.blocks 5 0 ≠ t.fs.blocks 5 0 := by
  have hrun : (exec FsState.step smallDisk smallCalls).any (fun t =>
      (t.fs.writei 1 (t.fs.readInode 1) 0 [9, 9] fun _ => some 1).any fun r => decide (r.2.2 = 0 ∧
        (t.fs.readi (t.fs.readInode 1) 0 3 fun _ => true).map (·.2.2) = some (some [1, 2, 3]) ∧
        (r.1.readi r.2.1 0 3 fun _ => true).map (·.2.2) = some (some [9, 2, 3]) ∧
        5 ∉ logged (t.fs.writeiTrace 1 (t.fs.readInode 1) 0 [9, 9] fun _ => some 1) ∧
        r.1.blocks 5 0 ≠ t.fs.blocks 5 0)) = true := by
    decide +kernel
  obtain ⟨t, ht, hstate⟩ := (any_eq_true _ _).1 hrun
  obtain ⟨⟨fs', ip, r⟩, hwrite, hfacts⟩ := (any_eq_true _ _).1 hstate
  obtain ⟨rfl, hfacts⟩ := decide_eq_true_eq.mp hfacts
  have hwf := FsState.exec_wellFormed smallDisk_wellFormed ht
  exact ⟨t, fs', ip, ht, hwf, ⟨by decide, Or.inl rfl, rfl, fun x hx => absurd hx (Nat.not_lt_zero x)⟩, hwrite,
    hfacts⟩

end AudioPlayer
