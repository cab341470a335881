import AudioPlayer.Proof.Sysfile

/-!
# The ends of a pipe

`pipealloc` makes two files for a pipe, one for each end, and descriptors are copied by `dup` and by
`fork`. `Piped` is what every call keeps: an end is open as long as its file is in use. So an end is
open exactly while some process has a descriptor for it, and the page of a pipe is freed with the
last descriptor of both (`pipe_open_iff_descriptor`). A process that waits for the other end waits
for a process that can still come.
-/

namespace AudioPlayer

open Function Counts Option

/-- The end of a pipe that a file is while it is in use; `true` is the end for writing. -/
def KFile.pipeEnd (x : KFile) : Option (ℕ × Bool) :=
  if 0 < x.ref ∧ x.type = .pipe then some (x.pipe, x.writable) else none

/-- An end of a pipe is open. -/
def PipeEnds.isOpen (e : PipeEnds) (writable : Bool) : Bool := if writable then e.writeopen else e.readopen

theorem KFile.pipeEnd_of_ne {x : KFile} (h : x.type ≠ .pipe) : x.pipeEnd = none := if_neg fun hx => h hx.2

theorem KFile.pipeEnd_congr {x y : KFile} (href : 0 < x.ref ↔ 0 < y.ref) (htype : x.type = y.type)
    (hpipe : x.pipe = y.pipe) (hwritable : x.writable = y.writable) : x.pipeEnd = y.pipeEnd := by
  unfold KFile.pipeEnd
  simp only [href, htype, hpipe, hwritable]

namespace FileSys

/-- The ends of pipes that the files are. -/
def pipeEnds (s : FileSys) (f : FilePtr) : Option (ℕ × Bool) := (s.file f).pipeEnd

/-- One end of a pipe is open. -/
def EndOpen (s : FileSys) (pi : ℕ) (writable : Bool) : Prop := ∃ e, s.pipe pi = some e ∧ e.isOpen writable = true

/-- **An end that is open has one file**, one that is not has none, and there is no pipe with both
ends closed. -/
structure Piped (s : FileSys) : Prop where
  free : ∀ f, (s.file f).ref = 0 → (s.file f).type = .none
  opened : ∀ pi w, s.EndOpen pi w → tally s.pipeEnds (some (pi, w)) = 1
  closed : ∀ pi w, ¬ s.EndOpen pi w → tally s.pipeEnds (some (pi, w)) = 0
  used : ∀ pi e, s.pipe pi = some e → ∃ w, e.isOpen w = true

variable {s s' : FileSys} {p np : Slot} {f : FilePtr} {x : KFile} {r : ℤ}

theorem pipeEnds_setFile (s : FileSys) (f : FilePtr) (x : KFile) :
    (s.setFile f x).pipeEnds = update s.pipeEnds f x.pipeEnd :=
  comp_update KFile.pipeEnd s.file f x

/-- A file that is not in use has no type, also after one file has changed. -/
theorem free_setFile (h : ∀ g, (s.file g).ref = 0 → (s.file g).type = .none)
    (hx : x.ref = 0 → x.type = .none) (g : FilePtr) :
    ((s.setFile f x).file g).ref = 0 → ((s.setFile f x).file g).type = .none :=
  (forall_update_iff s.file fun _ y => y.ref = 0 → y.type = .none).2 ⟨hx, fun g _ => h g⟩ g

/-- The files and the pipes are the same. -/
theorem Piped.congr (h : s.Piped) (hfile : s'.file = s.file) (hpipe : s'.pipe = s.pipe) : s'.Piped := by
  have hends : s'.pipeEnds = s.pipeEnds := by
    unfold pipeEnds
    rw [hfile]
  have hopen : ∀ pi w, s'.EndOpen pi w ↔ s.EndOpen pi w := by
    intro pi w
    unfold EndOpen
    rw [hpipe]
  refine ⟨?_, ?_, ?_, ?_⟩
  · rw [hfile]
    exact h.free
  · intro pi w hw
    rw [hends]
    exact h.opened pi w ((hopen pi w).1 hw)
  · intro pi w hw
    rw [hends]
    exact h.closed pi w fun hw' => hw ((hopen pi w).2 hw')
  · rw [hpipe]
    exact h.used

theorem Piped.setOfile (h : s.Piped) (p : Slot) (fd : Fin nofile) (v : Option FilePtr) :
    (s.setOfile p fd v).Piped :=
  h.congr rfl rfl

/-- A file changes, but not which end of which pipe it is. -/
theorem Piped.setFile (h : s.Piped) (hfree : x.ref = 0 → x.type = .none)
    (hend : x.pipeEnd = (s.file f).pipeEnd) : (s.setFile f x).Piped := by
  have hends : (s.setFile f x).pipeEnds = s.pipeEnds := by
    rw [pipeEnds_setFile, hend]
    exact update_eq_self f s.pipeEnds
  refine ⟨free_setFile h.free hfree, ?_, ?_, h.used⟩
  · rw [hends]
    exact h.opened
  · rw [hends]
    exact h.closed

theorem Piped.filealloc (h : s.Piped) (hrun : s.filealloc = some (s', f)) :
    s'.Piped ∧ s'.pipe = s.pipe ∧ (s.file f).ref = 0 ∧ (s'.file f).ref = 1 ∧ (s'.file f).type = .none ∧
    ∀ g ≠ f, s'.file g = s.file g := by
  obtain ⟨f0, hfind, ⟨⟩⟩ := map_eq_some_iff.1 hrun
  have hyes := List.find?_some hfind
  have hzero : (s.file f).ref = 0 := of_decide_eq_true hyes
  have htype := h.free f hzero
  have hne : (s.file f).type ≠ .pipe := by
    rw [htype]
    decide
  have hself : (s.setFile f { s.file f with ref := 1 }).file f = { s.file f with ref := 1 } :=
    update_self ..
  refine ⟨h.setFile (fun h1 => absurd h1 one_ne_zero) ?_, rfl, hzero, ?_, ?_, ?_⟩
  · rw [KFile.pipeEnd_of_ne hne]
    exact KFile.pipeEnd_of_ne hne
  · rw [hself]
  · rw [hself]
    exact htype
  · intro g hg
    exact update_of_ne hg ..

/-- A file stays in use. -/
theorem Piped.setRef (h : s.Piped) {n : ℤ} (hold : 0 < (s.file f).ref) (hnew : 0 < n) :
    (s.setFile f { s.file f with ref := n }).Piped :=
  h.setFile (fun h0 => absurd h0 hnew.ne') (KFile.pipeEnd_congr (iff_of_true hnew hold) rfl rfl rfl)

theorem Piped.filedup (h : s.Piped) (hrun : s.filedup f = some s') : s'.Piped := by
  unfold FileSys.filedup at hrun
  split at hrun
  · cases hrun
  · rename_i hpos
    cases hrun
    exact h.setRef (by omega) (by omega)

/-- **A file that is an end of a pipe finds the pipe.** -/
theorem Piped.endOpen (h : s.Piped) (href : 0 < (s.file f).ref) (htype : (s.file f).type = .pipe) :
    s.EndOpen (s.file f).pipe (s.file f).writable := by
  by_contra hno
  have hend : s.pipeEnds f = some ((s.file f).pipe, (s.file f).writable) := if_pos ⟨href, htype⟩
  have hzero := h.closed _ _ hno
  have hpos := tally_pos hend
  omega

theorem isOpen_pipeclose (e : PipeEnds) (writable w : Bool) :
    (if writable then { e with writeopen := false } else { e with readopen := false } : PipeEnds).isOpen w =
      (e.isOpen w && (w != writable)) := by
  unfold PipeEnds.isOpen
  cases writable <;> cases w <;> simp

/-- Which ends are open after `pipeclose`. -/
theorem pipeclose_endOpen {pi : ℕ} {writable : Bool} (hrun : s.pipeclose pi writable = some s') (pi' : ℕ)
    (w : Bool) : s'.EndOpen pi' w ↔ s.EndOpen pi' w ∧ ¬(pi' = pi ∧ w = writable) := by
  obtain ⟨e, he, rfl⟩ := map_eq_some_iff.1 hrun
  dsimp only
  unfold EndOpen
  dsimp only
  by_cases hpi : pi' = pi
  · rw [hpi, update_self, he]
    set e' : PipeEnds := if writable then { e with writeopen := false } else { e with readopen := false } with he'
    have hopen := isOpen_pipeclose e writable w
    rw [← he'] at hopen
    constructor
    · rintro ⟨e1, heq, hw⟩
      split at heq
      · cases heq
        rw [hopen, Bool.and_eq_true, bne_iff_ne] at hw
        exact ⟨⟨e, rfl, hw.1⟩, fun hsame => hw.2 hsame.2⟩
      · cases heq
    · rintro ⟨⟨e1, heq, hw⟩, hne⟩
      cases heq
      have hw' : e'.isOpen w = true := by
        rw [hopen, Bool.and_eq_true, bne_iff_ne]
        exact ⟨hw, fun hsame => hne ⟨rfl, hsame⟩⟩
      refine ⟨e', if_pos ?_, hw'⟩
      unfold PipeEnds.isOpen at hw'
      cases w
      · exact Or.inl hw'
      · exact Or.inr hw'
  · rw [update_of_ne hpi]
    exact ⟨fun hw => ⟨hw, fun hsame => hpi hsame.1⟩, And.left⟩

/-- **The file of an end is closed with the end.** -/
theorem Piped.closePipe (h : s.Piped) (href : (s.file f).ref = 1) (htype : (s.file f).type = .pipe)
    (hrun : (s.setFile f { s.file f with ref := 0, type := .none }).pipeclose (s.file f).pipe
      (s.file f).writable = some s') : s'.Piped := by
  set s1 := s.setFile f { s.file f with ref := 0, type := .none } with hs1
  have hopen := pipeclose_endOpen hrun
  obtain ⟨-, hfile, -⟩ := pipeclose_spec hrun
  have hold : s.pipeEnds f = some ((s.file f).pipe, (s.file f).writable) :=
    if_pos ⟨by rw [href]; exact one_pos, htype⟩
  -- one file less is this end
  have htally : ∀ pi w, tally s'.pipeEnds (some (pi, w)) +
      (if pi = (s.file f).pipe ∧ w = (s.file f).writable then 1 else 0) = tally s.pipeEnds (some (pi, w)) := by
    intro pi w
    have hends : s'.pipeEnds = update s.pipeEnds f none := by
      have hnone : KFile.pipeEnd { s.file f with ref := 0, type := .none } = none :=
        KFile.pipeEnd_of_ne (by intro hx; cases hx)
      rw [← hnone, ← pipeEnds_setFile]
      unfold pipeEnds
      rw [hfile]
    have hupdate := tally_update s.pipeEnds f none (some (pi, w))
    rw [← hends, hold, if_neg (some_ne_none _).symm] at hupdate
    simp only [some.injEq, Prod.mk.injEq, eq_comm (a := (s.file f).pipe),
      eq_comm (a := (s.file f).writable)] at hupdate
    omega
  refine ⟨?_, ?_, ?_, ?_⟩
  · rw [hfile]
    exact free_setFile h.free fun _ => rfl
  · intro pi w hw
    obtain ⟨hw', hne⟩ := (hopen pi w).1 hw
    have hpi := htally pi w
    rw [if_neg hne, h.opened pi w hw'] at hpi
    exact hpi
  · intro pi w hw
    have hpi := htally pi w
    by_cases hsame : pi = (s.file f).pipe ∧ w = (s.file f).writable
    · have hendOpen := h.endOpen (by rw [href]; exact one_pos) htype
      rw [← hsame.1, ← hsame.2] at hendOpen
      rw [if_pos hsame, h.opened pi w hendOpen] at hpi
      omega
    · have hno : ¬ s.EndOpen pi w := fun hw' => hw ((hopen pi w).2 ⟨hw', hsame⟩)
      rw [if_neg hsame, h.closed pi w hno] at hpi
      exact hpi
  · intro pi e he
    obtain ⟨e0, he0, rfl⟩ := map_eq_some_iff.1 hrun
    dsimp only at he
    generalize (if (s.file f).writable = true then
      { readopen := e0.readopen, writeopen := false } else
      { readopen := false, writeopen := e0.writeopen } : PipeEnds) = e1 at he
    by_cases hpi : pi = (s.file f).pipe
    · rw [hpi, update_self] at he
      split at he
      · rename_i hor
        cases he
        rcases hor with hread | hwrite
        · exact ⟨false, hread⟩
        · exact ⟨true, hwrite⟩
      · cases he
    · rw [update_of_ne hpi] at he
      exact h.used pi e he

theorem Piped.fileclose (h : s.Piped) (hrun : s.fileclose f = some s') : s'.Piped := by
  unfold FileSys.fileclose at hrun
  dsimp only at hrun
  split at hrun
  · cases hrun
  split at hrun
  · rename_i hmore
    cases hrun
    exact h.setRef (by omega) (by omega)
  · rename_i hpos hlast
    have hone : (s.file f).ref = 1 := by omega
    have hother (hne : (s.file f).type ≠ .pipe) :
        (s.setFile f { s.file f with ref := 0, type := .none }).Piped := by
      apply h.setFile
      · exact fun _ => rfl
      · rw [KFile.pipeEnd_of_ne hne]
        exact KFile.pipeEnd_of_ne (by intro hx; cases hx)
    cases htype : (s.file f).type with
    | pipe =>
      rw [htype] at hrun
      exact h.closePipe hone htype hrun
    | none =>
      rw [htype] at hrun
      cases hrun
      exact hother (by rw [htype]; decide)
    | inode | device =>
      rw [htype] at hrun
      obtain ⟨t, -, rfl⟩ := map_eq_some_iff.1 hrun
      exact (hother (by rw [htype]; decide)).congr rfl rfl

/-- A file of `pipealloc` becomes an end. -/
theorem tally_setEnd (writable : Bool) {pi : ℕ} (href : (s.file f).ref = 1) (htype : (s.file f).type = .none)
    (q : ℕ × Bool) :
    tally (s.setFile f
      { s.file f with type := .pipe, readable := !writable, writable := writable, pipe := pi }).pipeEnds
        (some q) = tally s.pipeEnds (some q) + if q = (pi, writable) then 1 else 0 := by
  have hold : s.pipeEnds f = none := KFile.pipeEnd_of_ne (by rw [htype]; decide)
  have hnew : KFile.pipeEnd
      { s.file f with type := .pipe, readable := !writable, writable := writable, pipe := pi } =
        some (pi, writable) := if_pos ⟨by rw [href]; exact one_pos, rfl⟩
  have hupdate := tally_update s.pipeEnds f (some (pi, writable)) (some q)
  rw [hold, if_neg (some_ne_none _).symm] at hupdate
  rw [pipeEnds_setFile, hnew]
  simp only [some.injEq, eq_comm] at hupdate ⊢
  omega

theorem Piped.pipealloc {page : Option ℕ} {files : Option (FilePtr × FilePtr)} (h : s.Piped)
    (hrun : s.pipealloc page = some (s', files)) : s'.Piped := by
  unfold FileSys.pipealloc at hrun
  split at hrun
  · cases hrun
    exact h
  rename_i s1 f0 halloc1
  obtain ⟨h1, -, -, href1, htype1, -⟩ := h.filealloc halloc1
  split at hrun
  · obtain ⟨s2, hclose, ⟨⟩⟩ := map_eq_some_iff.1 hrun
    exact h1.fileclose hclose
  rename_i s2 f1 halloc2
  obtain ⟨h2, -, hzero, href2, htype2, hother⟩ := h1.filealloc halloc2
  split at hrun
  · obtain ⟨s3, hclose3, hrun⟩ := bind_eq_some_iff.1 hrun
    obtain ⟨s4, hclose4, ⟨⟩⟩ := map_eq_some_iff.1 hrun
    exact (h2.fileclose hclose3).fileclose hclose4
  rename_i pi
  split at hrun
  · cases hrun
  rename_i hfresh
  cases hrun
  have hne : f0 ≠ f1 := by
    intro heq
    rw [heq, hzero] at href1
    exact absurd href1 zero_ne_one
  have hf0 : s2.file f0 = s1.file f0 := hother f0 hne
  set s3 : FileSys := { s2 with pipe := update s2.pipe pi (some ⟨true, true⟩) } with hs3
  set s4 := s3.setFile f0
    { s3.file f0 with type := .pipe, readable := true, writable := false, pipe := pi } with hs4
  have hf1 : s4.file f1 = s2.file f1 := update_of_ne hne.symm ..
  set s5 := s4.setFile f1
    { s4.file f1 with type := .pipe, readable := false, writable := true, pipe := pi } with hs5
  -- each of the two files is one of the new ends
  have htally : ∀ q, tally s5.pipeEnds (some q) = tally s2.pipeEnds (some q) +
      (if q = (pi, false) then 1 else 0) + if q = (pi, true) then 1 else 0 := by
    intro q
    have h4 : tally s4.pipeEnds (some q) = _ :=
      tally_setEnd (s := s3) false (by rw [← hf0] at href1; exact href1)
        (by rw [← hf0] at htype1; exact htype1) q
    have h5 : tally s5.pipeEnds (some q) = _ :=
      tally_setEnd (s := s4) true (by rw [hf1]; exact href2) (by rw [hf1]; exact htype2) q
    rw [h5, h4]
    rfl
  have hopen : ∀ pi' w, s5.EndOpen pi' w ↔ pi' = pi ∨ s2.EndOpen pi' w := by
    intro pi' w
    unfold EndOpen
    by_cases hpi : pi' = pi
    · have hnew : s5.pipe pi' = some ⟨true, true⟩ := by
        rw [hpi]
        exact update_self ..
      refine iff_of_true ⟨_, hnew, ?_⟩ (Or.inl hpi)
      cases w <;> rfl
    · have hsame : s5.pipe pi' = s2.pipe pi' := update_of_ne hpi ..
      rw [hsame]
      exact ⟨Or.inr, fun hor => hor.resolve_left hpi⟩
  have hclosed : ∀ w, ¬ s2.EndOpen pi w := by
    rintro w ⟨e, he, -⟩
    rw [he] at hfresh
    exact hfresh rfl
  refine ⟨?_, ?_, ?_, ?_⟩
  · -- `filealloc` left one reference on either file, so typing it `FD_PIPE` types no free file
    have hone0 : (s2.file f0).ref = 1 := by
      rw [hf0]
      exact href1
    have hone1 : (s4.file f1).ref = 1 := by
      rw [hf1]
      exact href2
    have h4 : ∀ g, (s4.file g).ref = 0 → (s4.file g).type = .none :=
      free_setFile h2.free fun h0 => absurd (h0.symm.trans hone0) zero_ne_one
    exact free_setFile h4 fun h0 => absurd (h0.symm.trans hone1) zero_ne_one
  · intro pi' w hw
    rw [htally]
    rcases (hopen pi' w).1 hw with rfl | hw'
    · rw [h2.closed pi' w (hclosed w)]
      cases w <;> simp
    · have hpi : pi' ≠ pi := fun heq => hclosed w (heq ▸ hw')
      rw [h2.opened pi' w hw']
      simp [hpi]
  · intro pi' w hw
    have hpi : pi' ≠ pi := fun heq => hw ((hopen pi' w).2 (Or.inl heq))
    have hno : ¬ s2.EndOpen pi' w := fun hw' => hw ((hopen pi' w).2 (Or.inr hw'))
    rw [htally, h2.closed pi' w hno]
    simp [hpi]
  · refine (forall_update_iff s2.pipe fun _ x => ∀ e, x = some e → ∃ w, e.isOpen w = true).2
      ⟨?_, fun pi' _ => h2.used pi'⟩
    rintro e ⟨⟩
    exact ⟨true, rfl⟩

/-! ## Every call -/

theorem Piped.seek (h : s.Piped) (f : FilePtr) (off : ℕ) :
    (s.setFile f { s.file f with off := off }).Piped :=
  h.setFile (h.free f) (KFile.pipeEnd_congr Iff.rfl rfl rfl rfl)

theorem Piped.fileread {n r' : ℤ} {copyout : ℕ → Bool} (h : s.Piped)
    (hrun : s.fileread f n copyout r = some (s', r')) : s'.Piped := by
  unfold FileSys.fileread at hrun
  dsimp only at hrun
  split at hrun
  · cases hrun
    exact h
  split at hrun
  · cases hrun
    exact h
  · cases hrun
    exact h
  · obtain ⟨t1, -, hrun⟩ := bind_eq_some_iff.1 hrun
    obtain ⟨⟨t2, data⟩, -, hrun⟩ := bind_eq_some_iff.1 hrun
    obtain ⟨t3, -, ⟨⟩⟩ := map_eq_some_iff.1 hrun
    exact (h.seek f _).congr rfl rfl
  · cases hrun

theorem Piped.writeChunks {n fuel i i' : ℕ} {src : ℕ → UInt8} {copyin : ℕ → ℕ → Option ℕ} (h : s.Piped)
    (hrun : s.writeChunks f n src copyin fuel i = some (s', i')) : s'.Piped := by
  induction fuel generalizing s i with
  | zero =>
    cases hrun
    exact h
  | succ fuel ih =>
    unfold FileSys.writeChunks at hrun
    split at hrun
    · obtain ⟨t1, -, hrun⟩ := bind_eq_some_iff.1 hrun
      obtain ⟨⟨t2, r⟩, -, hrun⟩ := bind_eq_some_iff.1 hrun
      obtain ⟨t3, -, hrun⟩ := bind_eq_some_iff.1 hrun
      dsimp only at hrun
      have h1 : ∀ off, ({ s with inodes := t3.endOp }.setFile f { s.file f with off := off }).Piped := by
        intro off
        exact (h.seek f off).congr rfl rfl
      split at hrun
      · cases hrun
        exact h1 _
      · exact ih (h1 _) hrun
    · cases hrun
      exact h

theorem Piped.filewrite {n r' : ℤ} {src : ℕ → UInt8} {copyin : ℕ → ℕ → Option ℕ} (h : s.Piped)
    (hrun : s.filewrite f n src copyin r = some (s', r')) : s'.Piped := by
  unfold FileSys.filewrite at hrun
  dsimp only at hrun
  split at hrun
  · cases hrun
    exact h
  split at hrun
  · cases hrun
    exact h
  · cases hrun
    exact h
  · obtain ⟨⟨s1, i⟩, hchunks, ⟨⟩⟩ := map_eq_some_iff.1 hrun
    exact h.writeChunks hchunks
  · cases hrun

theorem Piped.openFile {ip : InodePtr} {omode : ℕ} (h : s.Piped)
    (hrun : s.openFile p ip omode = some (s', r)) : s'.Piped := by
  have hbad {s1 : FileSys} (h1 : s1.Piped) (hrun : s1.openBad ip = some (s', r)) : s'.Piped := by
    obtain ⟨t, -, ⟨⟩⟩ := map_eq_some_iff.1 hrun
    exact h1.congr rfl rfl
  unfold FileSys.openFile at hrun
  dsimp only at hrun
  split at hrun
  · exact hbad h hrun
  split at hrun
  · exact hbad h hrun
  rename_i s1 f halloc
  obtain ⟨h1, -, -, href, htype, -⟩ := h.filealloc halloc
  split at hrun
  · obtain ⟨s2, hclose, hrun⟩ := bind_eq_some_iff.1 hrun
    exact hbad (h1.fileclose hclose) hrun
  · rename_i s2 fd hfd
    obtain ⟨-, rfl⟩ := fdalloc_eq hfd
    have h2 := h1.setOfile p fd (some f)
    obtain ⟨t1, -, hrun⟩ := bind_eq_some_iff.1 hrun
    obtain ⟨t2, -, ⟨⟩⟩ := map_eq_some_iff.1 hrun
    -- the file is no end of a pipe, before and after
    have h3 : ((s1.setOfile p fd (some f)).setFile f
        (openedFile (s1.file f) ip (s.inodes.inode ip).din omode)).Piped := by
      have hfile : (openedFile (s1.file f) ip (s.inodes.inode ip).din omode).ref = 1 ∧
          (openedFile (s1.file f) ip (s.inodes.inode ip).din omode).type ≠ .pipe := by
        unfold openedFile
        dsimp only
        split
        · exact ⟨href, by intro hx; cases hx⟩
        · exact ⟨href, by intro hx; cases hx⟩
      apply h2.setFile
      · intro h0
        rw [hfile.1] at h0
        exact absurd h0 one_ne_zero
      · have hold : (s1.file f).pipeEnd = none := KFile.pipeEnd_of_ne (by rw [htype]; decide)
        rw [KFile.pipeEnd_of_ne hfile.2]
        exact hold.symm
    exact h3.congr rfl rfl

theorem Piped.forkFiles {l : List (Fin nofile)} (h : s.Piped)
    (hrun : l.foldlM (forkFile p np) s = some s') : s'.Piped := by
  induction l generalizing s with
  | nil =>
    cases hrun
    exact h
  | cons fd l ih =>
    obtain ⟨s1, hfd, hrun⟩ := bind_eq_some_iff.1 hrun
    refine ih ?_ hrun
    unfold forkFile at hfd
    split at hfd
    · cases hfd
      exact h
    · obtain ⟨s2, hdup, rfl⟩ := map_eq_some_iff.1 hfd
      exact (h.filedup hdup).setOfile np fd _

theorem Piped.exitFiles {l : List (Fin nofile)} (h : s.Piped)
    (hrun : l.foldlM (exitFile p) s = some s') : s'.Piped := by
  induction l generalizing s with
  | nil =>
    cases hrun
    exact h
  | cons fd l ih =>
    obtain ⟨s1, hfd, hrun⟩ := bind_eq_some_iff.1 hrun
    refine ih ?_ hrun
    unfold exitFile at hfd
    split at hfd
    · cases hfd
      exact h
    · obtain ⟨s2, hclose, rfl⟩ := map_eq_some_iff.1 hfd
      exact (h.fileclose hclose).setOfile p fd none

theorem Piped.sysPipe {page : Option ℕ} {copyout : Bool} (h : s.Piped)
    (hrun : s.sysPipe p page copyout = some (s', r)) : s'.Piped := by
  have hbad {s1 : FileSys} {rf wf : FilePtr} (h1 : s1.Piped) (hrun : s1.pipeBad rf wf = some (s', r)) :
      s'.Piped := by
    obtain ⟨s2, hclose, hrun⟩ := bind_eq_some_iff.1 hrun
    obtain ⟨s3, hclose', ⟨⟩⟩ := map_eq_some_iff.1 hrun
    exact (h1.fileclose hclose).fileclose hclose'
  obtain ⟨⟨s1, files⟩, halloc, hrun⟩ := bind_eq_some_iff.1 hrun
  have h1 := h.pipealloc halloc
  cases files with
  | none =>
    cases hrun
    exact h1
  | some e =>
    dsimp only at hrun
    split at hrun
    · exact hbad h1 hrun
    rename_i s2 fd0 hfd0
    obtain ⟨-, rfl⟩ := fdalloc_eq hfd0
    have h2 := h1.setOfile p fd0 (some e.1)
    split at hrun
    · exact hbad (h2.setOfile p fd0 none) hrun
    rename_i s3 fd1 hfd1
    obtain ⟨-, rfl⟩ := fdalloc_eq hfd1
    have h3 := h2.setOfile p fd1 (some e.2)
    split at hrun
    · cases hrun
      exact h3
    · exact hbad ((h3.setOfile p fd0 none).setOfile p fd1 none) hrun

theorem sysChdir_frame {path : Option KString} (hrun : s.sysChdir p path = some (s', r)) :
    s'.file = s.file ∧ s'.pipe = s.pipe := by
  unfold FileSys.sysChdir at hrun
  split at hrun
  · cases hrun
    exact ⟨rfl, rfl⟩
  · obtain ⟨cwd, -, hrun⟩ := bind_eq_some_iff.1 hrun
    obtain ⟨⟨t1, ip⟩, -, hrun⟩ := bind_eq_some_iff.1 hrun
    cases ip with
    | none =>
      cases hrun
      exact ⟨rfl, rfl⟩
    | some ip =>
      obtain ⟨t2, -, hrun⟩ := bind_eq_some_iff.1 hrun
      split at hrun
      · obtain ⟨t3, -, ⟨⟩⟩ := map_eq_some_iff.1 hrun
        exact ⟨rfl, rfl⟩
      · obtain ⟨t3, -, hrun⟩ := bind_eq_some_iff.1 hrun
        obtain ⟨t4, -, ⟨⟩⟩ := map_eq_some_iff.1 hrun
        exact ⟨rfl, rfl⟩

theorem sysExec_frame {path : Option KString} {m : ExecMem} {fetch : ℕ → Heap.ArgFetch}
    (hrun : s.sysExec p path m fetch = some (s', r)) : s'.file = s.file ∧ s'.pipe = s.pipe := by
  unfold FileSys.sysExec at hrun
  split at hrun
  · cases hrun
    exact ⟨rfl, rfl⟩
  · dsimp only at hrun
    split at hrun
    · obtain ⟨m', -, ⟨⟩⟩ := map_eq_some_iff.1 hrun
      exact ⟨rfl, rfl⟩
    · obtain ⟨cwd, -, hrun⟩ := bind_eq_some_iff.1 hrun
      obtain ⟨⟨x, r'⟩, -, hrun⟩ := bind_eq_some_iff.1 hrun
      obtain ⟨m', -, ⟨⟩⟩ := map_eq_some_iff.1 hrun
      exact ⟨rfl, rfl⟩

/-- **One call.** -/
theorem Piped.call {c : FileCall} (h : s.Piped) (hrun : s.call p c = some (s', r)) : s'.Piped := by
  have hinodes {call : InodePtr → Option (Inodes × ℤ)} (hrun : s.onInodes p call = some (s', r)) :
      s'.Piped := by
    obtain ⟨cwd, -, hrun⟩ := bind_eq_some_iff.1 hrun
    obtain ⟨e, -, ⟨⟩⟩ := map_eq_some_iff.1 hrun
    exact h.congr rfl rfl
  have hfile {fd : ℤ} {call : Fin nofile → FilePtr → Option (FileSys × ℤ)}
      (hcall : ∀ fd f, call fd f = some (s', r) → s'.Piped) (hrun : s.onFile p fd call = some (s', r)) :
      s'.Piped := by
    rcases onFile_cases hrun with rfl | ⟨fd, f, -, hrun⟩
    · exact h
    · exact hcall fd f hrun
  cases c with
  | «open» path omode =>
    change s.sysOpen p path omode = some (s', r) at hrun
    unfold FileSys.sysOpen at hrun
    split at hrun
    · cases hrun
      exact h
    · obtain ⟨cwd, -, hrun⟩ := bind_eq_some_iff.1 hrun
      obtain ⟨⟨t, ip⟩, -, hrun⟩ := bind_eq_some_iff.1 hrun
      cases ip with
      | none =>
        cases hrun
        exact h.congr rfl rfl
      | some ip =>
        have h1 : { s with inodes := t }.Piped := h.congr rfl rfl
        exact h1.openFile hrun
  | close fd =>
    refine hfile ?_ hrun
    intro fd f hcall
    obtain ⟨s1, hclose, ⟨⟩⟩ := map_eq_some_iff.1 hcall
    exact (h.setOfile p fd none).fileclose hclose
  | dup fd =>
    refine hfile ?_ hrun
    intro fd f hcall
    split at hcall
    · cases hcall
      exact h
    · rename_i s1 fd1 hfd
      obtain ⟨-, rfl⟩ := fdalloc_eq hfd
      obtain ⟨s2, hdup, ⟨⟩⟩ := map_eq_some_iff.1 hcall
      exact (h.setOfile p fd1 (some f)).filedup hdup
  | pipe page copyout => exact h.sysPipe hrun
  | read fd n copyout r' => exact hfile (fun _ _ hread => h.fileread hread) hrun
  | write fd n src copyin r' => exact hfile (fun _ _ hwrite => h.filewrite hwrite) hrun
  | fstat fd copyout =>
    refine hfile ?_ hrun
    intro fd f hcall
    unfold FileSys.filestat at hcall
    dsimp only at hcall
    split at hcall
    · obtain ⟨t1, -, hcall⟩ := bind_eq_some_iff.1 hcall
      obtain ⟨t2, -, ⟨⟩⟩ := map_eq_some_iff.1 hcall
      exact h.congr rfl rfl
    · cases hcall
      exact h
  | link old new =>
    change s.sysLink p old new = some (s', r) at hrun
    unfold FileSys.sysLink at hrun
    split at hrun
    · exact hinodes hrun
    · cases hrun
      exact h
  | unlink path =>
    change s.sysUnlink p path = some (s', r) at hrun
    unfold FileSys.sysUnlink at hrun
    split at hrun
    · exact hinodes hrun
    · cases hrun
      exact h
  | mkdir path =>
    change s.sysMkdir p path = some (s', r) at hrun
    unfold FileSys.sysMkdir at hrun
    split at hrun
    · exact hinodes hrun
    · cases hrun
      exact h.congr rfl rfl
  | mknod path major minor =>
    change s.sysMknod p path major minor = some (s', r) at hrun
    unfold FileSys.sysMknod at hrun
    split at hrun
    · exact hinodes hrun
    · cases hrun
      exact h.congr rfl rfl
  | chdir path =>
    obtain ⟨hfile, hpipe⟩ := sysChdir_frame hrun
    exact h.congr hfile hpipe
  | exec path m fetch =>
    obtain ⟨hfile, hpipe⟩ := sysExec_frame hrun
    exact h.congr hfile hpipe
  | fork mem =>
    change s.fork p mem = some (s', r) at hrun
    unfold FileSys.fork at hrun
    split at hrun
    · cases hrun
      exact h
    split at hrun
    · cases hrun
      exact h
    obtain ⟨s1, hfiles, hrun⟩ := bind_eq_some_iff.1 hrun
    obtain ⟨cwd, -, ⟨⟩⟩ := map_eq_some_iff.1 hrun
    exact (h.forkFiles hfiles).congr rfl rfl
  | exit =>
    obtain ⟨s1, hexit, ⟨⟩⟩ := map_eq_some_iff.1 hrun
    unfold FileSys.exit at hexit
    split at hexit
    · cases hexit
    obtain ⟨s1, hfiles, hexit⟩ := bind_eq_some_iff.1 hexit
    obtain ⟨cwd, -, hexit⟩ := bind_eq_some_iff.1 hexit
    obtain ⟨t, -, rfl⟩ := map_eq_some_iff.1 hexit
    exact (h.exitFiles hfiles).congr rfl rfl
  | wait c =>
    obtain ⟨s1, hwait, ⟨⟩⟩ := map_eq_some_iff.1 hrun
    unfold FileSys.wait at hwait
    split at hwait
    · cases hwait
      exact h.congr rfl rfl
    · cases hwait

theorem boot_piped (fs : Fs) : (boot fs).Piped := by
  have hno : ∀ pi w, ¬ (boot fs).EndOpen pi w := by
    rintro pi w ⟨e, he, -⟩
    cases he
  refine ⟨fun f _ => rfl, fun pi w hw => absurd hw (hno pi w), ?_, ?_⟩
  · intro pi w _
    apply tally_eq_zero
    intro f hf
    have hnone : (boot fs).pipeEnds f = none := KFile.pipeEnd_of_ne (by intro hx; cases hx)
    rw [hnone] at hf
    cases hf
  · intro pi e he
    cases he

/-- A process with a descriptor is alive. -/
theorem Consistent.alive {fd : Fin nofile} (hs : s.Consistent) (hslot : (s.proc p).ofile fd = some f) :
    (s.proc p).alive := by
  have hp := hs.procs p
  unfold Settled at hp
  by_contra hdead
  rw [if_neg hdead] at hp
  rw [hp.1 fd] at hslot
  cases hslot

/-- **An end of a pipe is open exactly while a live process has a descriptor for it**, in every state
that calls of any processes lead to, and a pipe exists exactly while one of its ends is open. -/
theorem pipe_open_iff_descriptor {fs : Fs} {calls : List (Slot × FileCall)}
    (hrun : Runs.exec FileSys.step (boot fs) calls = some s) (pi : ℕ) :
    (∀ w, s.EndOpen pi w ↔ ∃ p fd f, (s.proc p).alive ∧ (s.proc p).ofile fd = some f ∧
      (s.file f).type = .pipe ∧ (s.file f).pipe = pi ∧ (s.file f).writable = w) ∧
    ((s.pipe pi).isSome ↔ ∃ w, s.EndOpen pi w) := by
  have hkeep : ∀ (t : FileSys) a t', t.Consistent ∧ t.Piped → t.step a = some t' →
      t'.Consistent ∧ t'.Piped := by
    intro t a t' ht hstep
    refine ⟨(ht.1.step hstep).1, ?_⟩
    unfold FileSys.step at hstep
    split at hstep
    · obtain ⟨⟨t1, r⟩, hcall, rfl⟩ := map_eq_some_iff.1 hstep
      exact ht.2.call hcall
    · cases hstep
  obtain ⟨hs, hp⟩ := Runs.exec_inv hkeep ⟨boot_consistent fs, boot_piped fs⟩ hrun
  refine ⟨fun w => ⟨?_, ?_⟩, ?_, ?_⟩
  · intro hw
    -- the file of the end is in use, so that a descriptor points to it
    have hone := hp.opened pi w hw
    obtain ⟨f, hend⟩ := exists_of_tally_pos (f := s.pipeEnds) (v := some (pi, w)) (by omega)
    unfold pipeEnds KFile.pipeEnd at hend
    split at hend
    · rename_i hused
      have href := hs.file f
      obtain ⟨x, hslot⟩ := exists_of_tally_pos (f := s.slots) (v := some f) (by omega)
      obtain ⟨hpi, hw'⟩ := Prod.mk.inj (some.inj hend)
      exact ⟨x.1, x.2, f, hs.alive hslot, hslot, hused.2, hpi, hw'⟩
    · cases hend
  · rintro ⟨p, fd, f, -, hslot, htype, rfl, rfl⟩
    have hpos := tally_pos (f := s.slots) (i := (p, fd)) hslot
    have href := hs.file f
    exact hp.endOpen (by omega) htype
  · intro hsome
    obtain ⟨e, he⟩ := isSome_iff_exists.1 hsome
    obtain ⟨w, hw⟩ := hp.used pi e he
    exact ⟨w, e, he, hw⟩
  · rintro ⟨w, e, he, -⟩
    rw [he]
    rfl

/-- The first process closes both of its descriptors; its child keeps the end for writing. -/
theorem pipe_open_iff_descriptor_child :
    let calls : List (Slot × FileCall) := [(0, .pipe (some 7) true), (0, .fork true), (0, .close 0),
      (0, .close 1), (1, .close 0)]
    ∃ s, Runs.exec FileSys.step (boot emptyDirs) calls = some s ∧ s.pipe 7 = some ⟨false, true⟩ ∧
      ∃ p fd f, (s.proc p).alive ∧ (s.proc p).ofile fd = some f ∧ (s.file f).type = .pipe ∧
        (s.file f).pipe = 7 ∧ (s.file f).writable = true := by
  intro calls
  have hpipe : ((Runs.exec FileSys.step (boot emptyDirs) calls).bind fun s => s.pipe 7) =
      some ⟨false, true⟩ := by decide +kernel
  obtain ⟨s, hrun, hs⟩ := bind_eq_some_iff.1 hpipe
  exact ⟨s, hrun, hs, ((pipe_open_iff_descriptor hrun 7).1 true).1 ⟨_, hs, rfl⟩⟩

end FileSys

end AudioPlayer
