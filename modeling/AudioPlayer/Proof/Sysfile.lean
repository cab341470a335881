import AudioPlayer.Lib.Runs
import AudioPlayer.Proof.FileTable
import AudioPlayer.Proof.Path

/-!
# Reference counts over all system calls

Whatever a call comes across, at its end the counts are exact again, no inode is locked and its
transaction is over (`refs_exact`). Each call is followed with `Holds` through all of its exits.
-/

namespace AudioPlayer

open Function Counts Inodes List Option

/-! ## Reading a program -/

section Exec

variable {σ : Type} {read : FileReader σ} {P : σ → Prop} {s s' : σ}

/-- Reading keeps `P`. -/
def KeepsReading (read : FileReader σ) (P : σ → Prop) : Prop :=
  ∀ ⦃s off n s' bytes⦄, P s → read s off n = some (s', bytes) → P s'

theorem loadsegLoop_keeps (hread : KeepsReading read P) {pagetable va offset sz rounds i : ℕ}
    {m m' : PageMem} {ok : Bool} (hs : P s)
    (hrun : loadsegLoop read pagetable va offset sz rounds m s i = some (m', s', ok)) : P s' := by
  induction rounds generalizing m s i with
  | zero =>
    cases hrun
    exact hs
  | succ rounds ih =>
    unfold loadsegLoop at hrun
    dsimp only at hrun
    generalize (if sz - i < pgsize then sz - i else pgsize) = n at hrun
    split at hrun
    · cases hrun
    · obtain ⟨⟨s1, bytes⟩, hbytes, hrun⟩ := bind_eq_some_iff.1 hrun
      have hs1 := hread hs hbytes
      dsimp only at hrun
      split at hrun
      · cases hrun
        exact hs1
      · exact ih hs1 hrun

namespace Heap

theorem loadLoop_keeps (hread : KeepsReading read P) {pagetable n off sz sz' : ℕ} {h h' : Heap} {ok : Bool}
    (hs : P s) (hrun : loadLoop read pagetable n h s off sz = some (h', s', sz', ok)) : P s' := by
  induction n generalizing h s off sz with
  | zero =>
    cases hrun
    exact hs
  | succ n ih =>
    unfold loadLoop at hrun
    obtain ⟨⟨s1, hdr⟩, hbytes, hrun⟩ := bind_eq_some_iff.1 hrun
    have hs1 := hread hs hbytes
    dsimp only at hrun
    split at hrun
    · cases hrun
      exact hs1
    split at hrun
    · exact ih hs1 hrun
    split at hrun
    · cases hrun
      exact hs1
    split at hrun
    · cases hrun
      exact hs1
    obtain ⟨⟨h1, sz1⟩, -, hrun⟩ := bind_eq_some_iff.1 hrun
    dsimp only at hrun
    split at hrun
    · cases hrun
      exact hs1
    split at hrun
    · cases hrun
      exact hs1
    obtain ⟨⟨m, s2, ok2⟩, hseg, hrun⟩ := bind_eq_some_iff.1 hrun
    have hs2 := loadsegLoop_keeps hread hs1 hseg
    dsimp only at hrun
    split at hrun
    · exact ih hs2 hrun
    · cases hrun
      exact hs2

theorem execLoad_keeps (hread : KeepsReading read P) {h h' : Heap} {trapframe : ℕ} {l : ExecLoad}
    (hs : P s) (hrun : h.execLoad read trapframe s = some (h', s', l)) : P s' := by
  obtain ⟨⟨s1, hdr⟩, hbytes, hrun⟩ := bind_eq_some_iff.1 hrun
  have hs1 := hread hs hbytes
  dsimp only at hrun
  split at hrun
  · cases hrun
    exact hs1
  split at hrun
  · cases hrun
    exact hs1
  obtain ⟨⟨h1, pagetable⟩, -, hrun⟩ := bind_eq_some_iff.1 hrun
  cases pagetable with
  | none =>
    cases hrun
    exact hs1
  | some pagetable =>
    obtain ⟨⟨h2, s2, sz, ok⟩, hloop, ⟨⟩⟩ := map_eq_some_iff.1 hrun
    exact loadLoop_keeps hread hs1 hloop

end Heap

end Exec

variable {b t t' : Inodes} {held : Multiset InodePtr} {cwd ip : InodePtr} {a a' : Slot → FileProc}
  {path : KString}

theorem Inodes.Refs.keepsReading (b : Inodes) (ip : InodePtr) (held : Multiset InodePtr)
    (locks : Finset InodePtr) : KeepsReading (ExecState.reader ip) fun t => Refs b t held locks := by
  intro t1 off n t2 bytes ht hrun
  obtain ⟨⟨t3, data⟩, hread, ⟨⟩⟩ := map_eq_some_iff.1 hrun
  exact ht.readi hread

/-- **`exec`** gives the inode of the program back, with any memory. -/
theorem ExecState.load_refs {x x' : ExecState} {image : Option ExecImage}
    (h : Refs b x.inodes held ∅) (hcwd : 0 < (x.inodes.inode x.proc.cwd).ref)
    (hrun : x.load path = some (x', image)) : Refs b x'.inodes held ∅ := by
  obtain ⟨⟨t1, ip⟩, hnamei, hrun⟩ := bind_eq_some_iff.1 hrun
  have h1 := h.beginOp.namei hcwd hnamei
  cases ip with
  | none =>
    cases hrun
    exact h1.endOp
  | some ip =>
    obtain ⟨t2, hlock, hrun⟩ := bind_eq_some_iff.1 hrun
    obtain ⟨h2, -⟩ := h1.ilock hlock
    obtain ⟨⟨m, t3, l⟩, hload, hrun⟩ := bind_eq_some_iff.1 hrun
    have h3 : Refs b.beginOp t3 (ip ::ₘ held) (insert ip ∅) :=
      Heap.execLoad_keeps (P := fun t => Refs b.beginOp t (ip ::ₘ held) (insert ip ∅))
        (Refs.keepsReading _ ip _ _) h2 hload
    have hdone {t4 : Inodes} (hput : t3.iunlockput ip = some t4) : Refs b t4.endOp held ∅ :=
      (Refs.erase_lock ip ▸ h3.iunlockput hput).endOp
    dsimp only at hrun
    split at hrun
    · obtain ⟨t4, hput, ⟨⟩⟩ := map_eq_some_iff.1 hrun
      exact hdone hput
    · obtain ⟨m', -, hrun⟩ := bind_eq_some_iff.1 hrun
      obtain ⟨t4, hput, ⟨⟩⟩ := map_eq_some_iff.1 hrun
      exact hdone hput

theorem ExecState.exec_refs {x x' : ExecState} {argv : List KString} {r : ℤ}
    (h : Refs b x.inodes held ∅) (hcwd : 0 < (x.inodes.inode x.proc.cwd).ref)
    (hrun : x.exec path argv = some (x', r)) : Refs b x'.inodes held ∅ := by
  obtain ⟨⟨x1, image⟩, hload, hrun⟩ := bind_eq_some_iff.1 hrun
  have h1 := ExecState.load_refs h hcwd hload
  cases image with
  | none =>
    cases hrun
    exact h1
  | some image =>
    obtain ⟨⟨m, stack⟩, -, hrun⟩ := bind_eq_some_iff.1 hrun
    cases stack with
    | none =>
      cases hrun
      exact h1
    | some e =>
      obtain ⟨m', -, ⟨⟩⟩ := map_eq_some_iff.1 hrun
      exact h1

/-- **The inode of `open`** is held and locked. -/
theorem Inodes.Refs.openInode {omode : ℕ} {r : Option InodePtr} (h : Refs b t held ∅)
    (hcwd : 0 < (t.inode cwd).ref) (hrun : t.openInode cwd path omode = some (t', r)) :
    Refs b t' (holding r held) (Refs.lockOn r) := by
  unfold Inodes.openInode at hrun
  split at hrun
  · exact h.create hcwd hrun
  · obtain ⟨⟨t1, ip⟩, hnamei, hrun⟩ := bind_eq_some_iff.1 hrun
    have h1 := h.namei hcwd hnamei
    cases ip with
    | none =>
      cases hrun
      exact h1
    | some ip =>
      obtain ⟨t2, hlock, hrun⟩ := bind_eq_some_iff.1 hrun
      obtain ⟨h2, -⟩ := h1.ilock hlock
      split at hrun
      · obtain ⟨t3, hput, ⟨⟩⟩ := map_eq_some_iff.1 hrun
        have h3 : Refs b t' held ∅ := Refs.erase_lock ip ▸ h2.iunlockput hput
        exact h3
      · cases hrun
        exact h2

namespace FileSys

variable {s s' s'' : FileSys} {p q : Slot} {f : FilePtr} {fd : Fin nofile} {d : FilePtr → ℤ} {r : ℤ}
  {path : Option KString}

/-! ## Processes -/

/-- A process that is alive is in a directory; any other one has no descriptors. -/
def Settled (x : FileProc) : Prop :=
  if x.alive then x.cwd ≠ none else (∀ fd, x.ofile fd = none) ∧ x.cwd = none

/-- **Between two calls.** -/
structure Consistent (s : FileSys) : Prop extends RefsExact s where
  free : ∀ f, (s.file f).ref = 0 → (s.file f).type = .none
  procs : ∀ p, Settled (s.proc p)

/-- A call of process `p` changes no other process, and of `p` only the descriptors. -/
structure Frame (p : Slot) (a a' : Slot → FileProc) : Prop where
  state : ∀ q, (a' q).state = (a q).state
  cwd : ∀ q, (a' q).cwd = (a q).cwd
  ofile : ∀ q ≠ p, (a' q).ofile = (a q).ofile

theorem Frame.of_eq (h : a' = a) : Frame p a a' := by
  constructor <;> intros <;> rw [h]

theorem Frame.trans {a a' a'' : Slot → FileProc} (h : Frame p a a') (h' : Frame p a' a'') :
    Frame p a a'' where
  state q := (h'.state q).trans (h.state q)
  cwd q := (h'.cwd q).trans (h.cwd q)
  ofile q hq := (h'.ofile q hq).trans (h.ofile q hq)

theorem Frame.setOfile (s : FileSys) (p : Slot) (fd : Fin nofile) (v : Option FilePtr) :
    Frame p s.proc (s.setOfile p fd v).proc := by
  have hself : (s.setOfile p fd v).proc p =
      { s.proc p with ofile := update (s.proc p).ofile fd v } := update_self ..
  have hother : ∀ q ≠ p, (s.setOfile p fd v).proc q = s.proc q := by
    intro q hq
    exact update_of_ne hq ..
  constructor
  · intro q
    by_cases hq : q = p
    · rw [hq, hself]
    · rw [hother q hq]
  · intro q
    by_cases hq : q = p
    · rw [hq, hself]
    · rw [hother q hq]
  · intro q hq
    rw [hother q hq]

theorem ofile_setOfile_self (s : FileSys) (p : Slot) (fd : Fin nofile) (v : Option FilePtr) :
    ((s.setOfile p fd v).proc p).ofile fd = v := by
  show (update s.proc p _ p).ofile fd = v
  rw [update_self]
  exact update_self ..

theorem ofile_setOfile_of_ne (s : FileSys) (p : Slot) {fd fd' : Fin nofile} (hne : fd' ≠ fd)
    (v : Option FilePtr) : ((s.setOfile p fd v).proc p).ofile fd' = (s.proc p).ofile fd' := by
  show (update s.proc p _ p).ofile fd' = _
  rw [update_self]
  exact update_of_ne hne ..

theorem Settled.congr {x y : FileProc} (hx : Settled x) (hstate : y.state = x.state) (hcwd : y.cwd = x.cwd)
    (hofile : y.ofile = x.ofile) : Settled y := by
  unfold Settled FileProc.alive at hx ⊢
  rwa [hstate, hcwd, hofile]

/-- Another process than the one that makes the call. -/
theorem Frame.settled (h : Frame p a a') (hq : q ≠ p) (hs : Settled (a q)) :
    Settled (a' q) :=
  hs.congr (h.state q) (h.cwd q) (h.ofile q hq)

/-- The process that makes the call stays settled, as the others do. -/
theorem Frame.procs (h : Frame p a a') (halive : (a p).alive)
    (hs : ∀ q, Settled (a q)) : ∀ q, Settled (a' q) := by
  intro q
  by_cases hq : q = p
  · have hp := hs p
    have halive' : (a' p).alive := by
      unfold FileProc.alive at halive ⊢
      rwa [h.state p]
    rw [hq]
    unfold Settled at hp ⊢
    rw [if_pos halive] at hp
    rwa [if_pos halive', h.cwd p]
  · exact h.settled hq (hs q)

/-- One process is changed. -/
theorem settled_setProc {x : FileProc} (hx : Settled x) (hs : ∀ q ≠ p, Settled (s.proc q)) :
    ∀ q, Settled ((s.setProc p x).proc q) := by
  intro q
  by_cases hq : q = p
  · have hself : (s.setProc p x).proc p = x := update_self ..
    rw [hq, hself]
    exact hx
  · have hother : (s.setProc p x).proc q = s.proc q := update_of_ne hq ..
    rw [hother]
    exact hs q hq

/-! ## Descriptors -/

theorem fdalloc_eq (hrun : s.fdalloc p f = some (s', fd)) :
    (s.proc p).ofile fd = none ∧ s' = s.setOfile p fd (some f) := by
  obtain ⟨fd0, hfind, ⟨⟩⟩ := map_eq_some_iff.1 hrun
  have hyes := List.find?_some hfind
  exact ⟨of_decide_eq_true hyes, rfl⟩

/-- A call on a descriptor either finds none, or the file that it points to. -/
theorem onFile_cases {fd : ℤ} {call : Fin nofile → FilePtr → Option (FileSys × ℤ)}
    (hrun : s.onFile p fd call = some (s', r)) :
    s' = s ∨ ∃ fd f, (s.proc p).ofile fd = some f ∧ call fd f = some (s', r) := by
  unfold onFile at hrun
  cases harg : s.argfd p fd with
  | none =>
    rw [harg] at hrun
    cases hrun
    exact Or.inl rfl
  | some e =>
    rw [harg] at hrun
    unfold argfd at harg
    split at harg
    · obtain ⟨f, hf, ⟨⟩⟩ := map_eq_some_iff.1 harg
      exact Or.inr ⟨_, f, hf, hrun⟩
    · cases harg

theorem Holds.sysDup {fd : ℤ} (h : Holds b s 0 0 ∅) (hrun : s.sysDup p fd = some (s', r)) :
    Holds b s' 0 0 ∅ ∧ Frame p s.proc s'.proc := by
  rcases onFile_cases hrun with rfl | ⟨fd, f, -, hrun⟩
  · exact ⟨h, .of_eq rfl⟩
  · split at hrun
    · cases hrun
      exact ⟨h, .of_eq rfl⟩
    · rename_i s1 fd1 hfd
      obtain ⟨hnone, rfl⟩ := fdalloc_eq hfd
      obtain ⟨s2, hdup, ⟨⟩⟩ := map_eq_some_iff.1 hrun
      obtain ⟨h2, -, hproc⟩ := (h.point hnone f).filedup hdup
      rw [sub_add_cancel] at h2
      exact ⟨h2, (Frame.setOfile s p fd1 (some f)).trans (.of_eq hproc)⟩

theorem Holds.sysClose {fd : ℤ} (h : Holds b s 0 0 ∅) (hrun : s.sysClose p fd = some (s', r)) :
    Holds b s' 0 0 ∅ ∧ Frame p s.proc s'.proc := by
  rcases onFile_cases hrun with rfl | ⟨fd, f, hf, hrun⟩
  · exact ⟨h, .of_eq rfl⟩
  · obtain ⟨s1, hclose, ⟨⟩⟩ := map_eq_some_iff.1 hrun
    obtain ⟨h1, hproc⟩ := (h.clear hf).fileclose hclose
    rw [add_sub_cancel_right] at h1
    exact ⟨h1, (Frame.setOfile s p fd none).trans (.of_eq hproc)⟩

/-! ## `open` -/

theorem Holds.openBad {ip : InodePtr} (h : Holds b.beginOp s d (ip ::ₘ 0) {ip})
    (hrun : s.openBad ip = some (s', r)) : Holds b s' d 0 ∅ ∧ s'.proc = s.proc := by
  obtain ⟨t, hput, ⟨⟩⟩ := map_eq_some_iff.1 hrun
  have h1 := h.inodes
  rw [Multiset.cons_add] at h1
  have h2 := h1.iunlockput hput
  rw [Finset.erase_singleton] at h2
  exact ⟨h.withInodes h2.endOp, rfl⟩

/-- The file of `open` refers to the inode. -/
theorem openedFile_inode {x : KFile} (ip : InodePtr) (din : Dinode) (omode : ℕ) (hx : 0 < x.ref) :
    (openedFile x ip din omode).inode = some ip ∧ (openedFile x ip din omode).ref = x.ref := by
  unfold openedFile KFile.inode
  dsimp only
  split
  · exact ⟨if_pos ⟨hx, Or.inr rfl⟩, rfl⟩
  · exact ⟨if_pos ⟨hx, Or.inl rfl⟩, rfl⟩

theorem Holds.openFile {ip : InodePtr} {omode : ℕ} (h : Holds b.beginOp s 0 (ip ::ₘ 0) {ip})
    (hrun : s.openFile p ip omode = some (s', r)) : Holds b s' 0 0 ∅ ∧ Frame p s.proc s'.proc := by
  have hbad {s1 : FileSys} (h1 : Holds b.beginOp s1 0 (ip ::ₘ 0) {ip}) (hproc : s1.proc = s.proc)
      (hrun : s1.openBad ip = some (s', r)) : Holds b s' 0 0 ∅ ∧ Frame p s.proc s'.proc := by
    obtain ⟨h2, hproc'⟩ := h1.openBad hrun
    exact ⟨h2, .of_eq (hproc'.trans hproc)⟩
  unfold FileSys.openFile at hrun
  dsimp only at hrun
  split at hrun
  · exact hbad h rfl hrun
  split at hrun
  · exact hbad h rfl hrun
  rename_i s1 f halloc
  obtain ⟨h1, -, hproc1, -, href, htype, -⟩ := h.filealloc halloc
  split at hrun
  · -- there is no descriptor for the file
    obtain ⟨s2, hclose, hrun⟩ := bind_eq_some_iff.1 hrun
    obtain ⟨h2, hproc2⟩ := h1.fileclose hclose
    rw [add_sub_cancel_right] at h2
    exact hbad h2 (hproc2.trans hproc1) hrun
  · rename_i s2 fd hfd
    obtain ⟨hnone, rfl⟩ := fdalloc_eq hfd
    have h2 := h1.point hnone f
    rw [add_sub_cancel_right] at h2
    have hpos : 0 < (s1.file f).ref := by omega
    -- the reference to the inode goes from the call to the file
    obtain ⟨hinode, href'⟩ := openedFile_inode ip (s.inodes.inode ip).din omode hpos
    have h3 : Holds b.beginOp ((s1.setOfile p fd (some f)).setFile f
        (openedFile (s1.file f) ip (s.inodes.inode ip).din omode)) 0 0 {ip} := by
      apply h2.setFile
      · intro h0
        omega
      · intro g
        have hsame : (s1.setOfile p fd (some f)).file f = s1.file f := rfl
        rw [hsame, href', sub_self, ite_self, add_zero]
      · intro k
        have hold : ((s1.setOfile p fd (some f)).file f).inode = none := KFile.inode_of_none htype
        rw [hinode, hold, if_neg (some_ne_none k).symm, count_one, Multiset.count_zero, zero_add,
          add_zero]
    obtain ⟨t1, htrunc, hrun⟩ := bind_eq_some_iff.1 hrun
    obtain ⟨t2, hunlock, ⟨⟩⟩ := map_eq_some_iff.1 hrun
    have h4 : Refs b.beginOp t1 (0 + collect ((s1.setOfile p fd (some f)).setFile f
        (openedFile (s1.file f) ip (s.inodes.inode ip).din omode)).owners) {ip} := by
      split at htrunc
      · exact h3.inodes.itrunc htrunc
      · cases htrunc
        exact h3.inodes
    have h5 := h4.iunlock hunlock
    rw [Finset.erase_singleton] at h5
    refine ⟨h3.withInodes h5.endOp, ?_⟩
    exact (Frame.of_eq hproc1).trans (Frame.setOfile s1 p fd (some f))

theorem Holds.sysOpen {omode : ℕ} (h : Holds b s 0 0 ∅)
    (hrun : s.sysOpen p path omode = some (s', r)) : Holds b s' 0 0 ∅ ∧ Frame p s.proc s'.proc := by
  unfold FileSys.sysOpen at hrun
  cases path with
  | none =>
    cases hrun
    exact ⟨h, .of_eq rfl⟩
  | some path =>
    obtain ⟨cwd, hcwd, hrun⟩ := bind_eq_some_iff.1 hrun
    obtain ⟨⟨t, ip⟩, hopen, hrun⟩ := bind_eq_some_iff.1 hrun
    have h1 := h.inodes.beginOp.openInode (h.inodes.pos (Holds.cwd_mem hcwd)) hopen
    cases ip with
    | none =>
      cases hrun
      exact ⟨h.withInodes h1.endOp, .of_eq rfl⟩
    | some ip =>
      have h2 : Holds b.beginOp { s with inodes := t } 0 (ip ::ₘ 0) {ip} := by
        refine ⟨h.files, h.free, ?_⟩
        rw [Multiset.cons_add]
        exact h1
      obtain ⟨h3, hframe⟩ := h2.openFile hrun
      exact ⟨h3, hframe⟩

/-! ## `pipe` -/

/-- A file becomes an end of a pipe. -/
theorem Holds.setPipe (writable : Bool) (pi : ℕ) (h : Holds b s d 0 ∅) (href : (s.file f).ref = 1)
    (htype : (s.file f).type = .none) :
    Holds b (s.setFile f
      { s.file f with type := .pipe, readable := !writable, writable := writable, pipe := pi }) d 0 ∅ := by
  apply h.setFile
  · intro h0
    dsimp only at h0
    omega
  · intro g
    rw [sub_self, ite_self, add_zero]
  · intro k
    have hpipe : KFile.inode { s.file f with
        type := .pipe, readable := !writable, writable := writable, pipe := pi } = none := by
      refine if_neg fun hx => ?_
      rcases hx.2 with hx | hx <;> cases hx
    rw [hpipe, KFile.inode_of_none htype]

theorem Holds.pipealloc {page : Option ℕ} {files : Option (FilePtr × FilePtr)} (h : Holds b s 0 0 ∅)
    (hrun : s.pipealloc page = some (s', files)) :
    s'.proc = s.proc ∧
    Holds b s' (files.elim 0 fun e => Pi.single e.1 1 + Pi.single e.2 1) 0 ∅ := by
  unfold FileSys.pipealloc at hrun
  split at hrun
  · cases hrun
    exact ⟨rfl, h⟩
  rename_i s1 f0 halloc1
  obtain ⟨h1, -, hproc1, -, href1, htype1, -⟩ := h.filealloc halloc1
  rw [zero_add] at h1
  dsimp only at hrun
  split at hrun
  · obtain ⟨s2, hclose, ⟨⟩⟩ := map_eq_some_iff.1 hrun
    obtain ⟨h2, hproc2⟩ := h1.fileclose hclose
    rw [sub_self] at h2
    exact ⟨hproc2.trans hproc1, h2⟩
  rename_i s2 f1 halloc2
  obtain ⟨h2, -, hproc2, hzero, href2, htype2, hother⟩ := h1.filealloc halloc2
  split at hrun
  · obtain ⟨s3, hclose3, hrun⟩ := bind_eq_some_iff.1 hrun
    obtain ⟨s4, hclose4, ⟨⟩⟩ := map_eq_some_iff.1 hrun
    obtain ⟨h3, hproc3⟩ := h2.fileclose hclose3
    obtain ⟨h4, hproc4⟩ := h3.fileclose hclose4
    rw [add_sub_cancel_left, sub_self] at h4
    exact ⟨hproc4.trans (hproc3.trans (hproc2.trans hproc1)), h4⟩
  · rename_i pi
    split at hrun
    · cases hrun
    · cases hrun
      refine ⟨hproc2.trans hproc1, ?_⟩
      -- the two files are different, since the first one is in use
      have hne : f0 ≠ f1 := by
        intro heq
        rw [heq, hzero] at href1
        exact absurd href1 zero_ne_one
      have h3 : Holds b { s2 with pipe := update s2.pipe pi (some ⟨true, true⟩) } _ 0 ∅ :=
        ⟨h2.files, h2.free, h2.inodes⟩
      have hf0 : s2.file f0 = s1.file f0 := hother f0 hne
      have h4 := h3.setPipe (f := f0) false pi (by rw [← hf0] at href1; exact href1)
        (by rw [← hf0] at htype1; exact htype1)
      have hf1 : ∀ x, ({ s2 with pipe := update s2.pipe pi (some ⟨true, true⟩) }.setFile f0 x).file f1 =
          s2.file f1 := by
        intro x
        exact update_of_ne hne.symm ..
      apply h4.setPipe (f := f1) true pi
      · rw [hf1]
        exact href2
      · rw [hf1]
        exact htype2

theorem Holds.pipeBad {rf wf : FilePtr} (h : Holds b s (Pi.single rf 1 + Pi.single wf 1) 0 ∅)
    (hrun : s.pipeBad rf wf = some (s', r)) : Holds b s' 0 0 ∅ ∧ s'.proc = s.proc := by
  obtain ⟨s1, hclose1, hrun⟩ := bind_eq_some_iff.1 hrun
  obtain ⟨s2, hclose2, ⟨⟩⟩ := map_eq_some_iff.1 hrun
  obtain ⟨h1, hproc1⟩ := h.fileclose hclose1
  obtain ⟨h2, hproc2⟩ := h1.fileclose hclose2
  rw [add_sub_cancel_left, sub_self] at h2
  exact ⟨h2, hproc2.trans hproc1⟩

theorem Holds.sysPipe {page : Option ℕ} {copyout : Bool} (h : Holds b s 0 0 ∅)
    (hrun : s.sysPipe p page copyout = some (s', r)) : Holds b s' 0 0 ∅ ∧ Frame p s.proc s'.proc := by
  obtain ⟨⟨s1, files⟩, halloc, hrun⟩ := bind_eq_some_iff.1 hrun
  obtain ⟨hproc1, h1⟩ := h.pipealloc halloc
  cases files with
  | none =>
    cases hrun
    exact ⟨h1, .of_eq hproc1⟩
  | some e =>
    obtain ⟨rf, wf⟩ := e
    replace h1 : Holds b s1 (Pi.single rf 1 + Pi.single wf 1) 0 ∅ := h1
    dsimp only at hrun
    split at hrun
    · obtain ⟨h2, hproc2⟩ := h1.pipeBad hrun
      exact ⟨h2, .of_eq (hproc2.trans hproc1)⟩
    rename_i s2 fd0 hfd0
    obtain ⟨hnone0, rfl⟩ := fdalloc_eq hfd0
    have h2 := h1.point hnone0 rf
    have hframe2 : Frame p s.proc (s1.setOfile p fd0 (some rf)).proc :=
      (Frame.of_eq hproc1).trans (Frame.setOfile s1 p fd0 (some rf))
    split at hrun
    · have h3 := h2.clear (ofile_setOfile_self s1 p fd0 (some rf))
      rw [sub_add_cancel] at h3
      obtain ⟨h4, hproc4⟩ := h3.pipeBad hrun
      exact ⟨h4, hframe2.trans ((Frame.setOfile _ p fd0 none).trans (.of_eq hproc4))⟩
    rename_i s3 fd1 hfd1
    obtain ⟨hnone1, rfl⟩ := fdalloc_eq hfd1
    have h3 := h2.point hnone1 wf
    have hframe3 := hframe2.trans (Frame.setOfile _ p fd1 (some wf))
    have hne : fd1 ≠ fd0 := by
      intro heq
      rw [heq, ofile_setOfile_self] at hnone1
      cases hnone1
    split at hrun
    · cases hrun
      rw [add_sub_cancel_left, sub_self] at h3
      exact ⟨h3, hframe3⟩
    · have hrf : (((s1.setOfile p fd0 (some rf)).setOfile p fd1 (some wf)).proc p).ofile fd0 = some rf := by
        rw [ofile_setOfile_of_ne _ _ hne.symm, ofile_setOfile_self]
      have h4 := h3.clear hrf
      have hwf : ((((s1.setOfile p fd0 (some rf)).setOfile p fd1 (some wf)).setOfile p fd0 none).proc p).ofile
          fd1 = some wf := by
        rw [ofile_setOfile_of_ne _ _ hne, ofile_setOfile_self]
      have h5 := h4.clear hwf
      rw [add_sub_cancel_left, sub_self, zero_add] at h5
      obtain ⟨h6, hproc6⟩ := h5.pipeBad hrun
      refine ⟨h6, hframe3.trans ?_⟩
      exact (Frame.setOfile _ p fd0 none).trans ((Frame.setOfile _ p fd1 none).trans (.of_eq hproc6))

/-! ## Calls on inodes -/

theorem Holds.onInodes {call : InodePtr → Option (Inodes × ℤ)} (h : Holds b s 0 0 ∅)
    (hcall : ∀ cwd t r, cwd ∈ (0 : Multiset InodePtr) + collect s.owners → call cwd = some (t, r) →
      Refs b t (0 + collect s.owners) ∅)
    (hrun : s.onInodes p call = some (s', r)) : Holds b s' 0 0 ∅ ∧ Frame p s.proc s'.proc := by
  obtain ⟨cwd, hcwd, hrun⟩ := bind_eq_some_iff.1 hrun
  obtain ⟨⟨t, r'⟩, hcall', ⟨⟩⟩ := map_eq_some_iff.1 hrun
  exact ⟨h.withInodes (hcall cwd t r (Holds.cwd_mem hcwd) hcall'), .of_eq rfl⟩

theorem Holds.sysLink {old new : Option KString} (h : Holds b s 0 0 ∅)
    (hrun : s.sysLink p old new = some (s', r)) : Holds b s' 0 0 ∅ ∧ Frame p s.proc s'.proc := by
  unfold FileSys.sysLink at hrun
  split at hrun
  · refine h.onInodes ?_ hrun
    intro cwd t r hcwd hlink
    exact h.inodes.link hcwd hlink
  · cases hrun
    exact ⟨h, .of_eq rfl⟩

theorem Holds.sysUnlink (h : Holds b s 0 0 ∅)
    (hrun : s.sysUnlink p path = some (s', r)) : Holds b s' 0 0 ∅ ∧ Frame p s.proc s'.proc := by
  unfold FileSys.sysUnlink at hrun
  split at hrun
  · refine h.onInodes ?_ hrun
    intro cwd t r hcwd hunlink
    exact h.inodes.unlink (h.inodes.pos hcwd) hunlink
  · cases hrun
    exact ⟨h, .of_eq rfl⟩

theorem Holds.sysMkdir (h : Holds b s 0 0 ∅)
    (hrun : s.sysMkdir p path = some (s', r)) : Holds b s' 0 0 ∅ ∧ Frame p s.proc s'.proc := by
  unfold FileSys.sysMkdir at hrun
  split at hrun
  · refine h.onInodes ?_ hrun
    intro cwd t r hcwd hmake
    exact h.inodes.make (h.inodes.pos hcwd) hmake
  · cases hrun
    exact ⟨h.withInodes h.inodes.beginOp.endOp, .of_eq rfl⟩

theorem Holds.sysMknod {major minor : ℕ} (h : Holds b s 0 0 ∅)
    (hrun : s.sysMknod p path major minor = some (s', r)) : Holds b s' 0 0 ∅ ∧ Frame p s.proc s'.proc := by
  unfold FileSys.sysMknod at hrun
  split at hrun
  · refine h.onInodes ?_ hrun
    intro cwd t r hcwd hmake
    exact h.inodes.make (h.inodes.pos hcwd) hmake
  · cases hrun
    exact ⟨h.withInodes h.inodes.beginOp.endOp, .of_eq rfl⟩

theorem Holds.sysExec {m : ExecMem} {fetch : ℕ → Heap.ArgFetch}
    (h : Holds b s 0 0 ∅) (hrun : s.sysExec p path m fetch = some (s', r)) :
    Holds b s' 0 0 ∅ ∧ Frame p s.proc s'.proc := by
  unfold FileSys.sysExec at hrun
  split at hrun
  · cases hrun
    exact ⟨h, .of_eq rfl⟩
  · dsimp only at hrun
    split at hrun
    · obtain ⟨m', -, ⟨⟩⟩ := map_eq_some_iff.1 hrun
      exact ⟨h, .of_eq rfl⟩
    · obtain ⟨cwd, hcwd, hrun⟩ := bind_eq_some_iff.1 hrun
      obtain ⟨⟨x, r'⟩, hexec, hrun⟩ := bind_eq_some_iff.1 hrun
      obtain ⟨m', -, ⟨⟩⟩ := map_eq_some_iff.1 hrun
      have h1 := ExecState.exec_refs h.inodes (h.inodes.pos (Holds.cwd_mem hcwd)) hexec
      exact ⟨h.withInodes h1, .of_eq rfl⟩

/-! ## `chdir`, `fork` and `exit` -/

theorem Holds.sysChdir (h : Holds b s 0 0 ∅)
    (hrun : s.sysChdir p path = some (s', r)) :
    Holds b s' 0 0 ∅ ∧ (s'.proc = s.proc ∨ ∃ ip, s'.proc = (s.setCwd p (some ip)).proc) := by
  unfold FileSys.sysChdir at hrun
  cases path with
  | none =>
    cases hrun
    exact ⟨h.withInodes h.inodes.beginOp.endOp, Or.inl rfl⟩
  | some path =>
    obtain ⟨cwd, hcwd, hrun⟩ := bind_eq_some_iff.1 hrun
    obtain ⟨⟨t1, ip⟩, hnamei, hrun⟩ := bind_eq_some_iff.1 hrun
    have h1 := h.inodes.beginOp.namei (h.inodes.pos (Holds.cwd_mem hcwd)) hnamei
    cases ip with
    | none =>
      cases hrun
      exact ⟨h.withInodes h1.endOp, Or.inl rfl⟩
    | some ip =>
      obtain ⟨t2, hlock, hrun⟩ := bind_eq_some_iff.1 hrun
      obtain ⟨h2, -⟩ := h1.ilock hlock
      split at hrun
      · obtain ⟨t3, hput, ⟨⟩⟩ := map_eq_some_iff.1 hrun
        exact ⟨h.withInodes (Refs.erase_lock ip ▸ Refs.iunlockput h2 hput).endOp, Or.inl rfl⟩
      · obtain ⟨t3, hunlock, hrun⟩ := bind_eq_some_iff.1 hrun
        obtain ⟨t4, hput, ⟨⟩⟩ := map_eq_some_iff.1 hrun
        have h3 : Refs b.beginOp t3 (ip ::ₘ (0 + collect s.owners)) ∅ :=
          Refs.erase_lock ip ▸ h2.iunlock hunlock
        have h4 : Holds b.beginOp { s with inodes := t3 } 0 (ip ::ₘ 0) ∅ := by
          apply h.withInodes
          rw [Multiset.cons_add]
          exact h3
        -- the new reference is for the process, and its old one is in the hands of the call
        have h5 : Holds b.beginOp ({ s with inodes := t3 }.setCwd p (some ip)) 0 (cwd ::ₘ 0) ∅ := by
          apply h4.setCwd
          intro k
          have hold : ({ s with inodes := t3 }.proc p).cwd = some cwd := hcwd
          rw [hold, count_one, count_one, add_comm]
        have h6 := h5.inodes
        rw [Multiset.cons_add] at h6
        exact ⟨h5.withInodes (h6.iput hput).endOp, Or.inr ⟨ip, rfl⟩⟩

/-- The loop of `fork`: the child gets the descriptors of its parent. -/
theorem Holds.forkFiles {np : Slot} {l : List (Fin nofile)} (hl : l.Nodup) (h : Holds b s 0 0 ∅)
    (hfree : ∀ fd ∈ l, (s.proc np).ofile fd = none) (hrun : l.foldlM (forkFile p np) s = some s') : Holds b s' 0 0 ∅ ∧ Frame np s.proc s'.proc := by
  induction l generalizing s with
  | nil =>
    cases hrun
    exact ⟨h, .of_eq rfl⟩
  | cons fd l ih =>
    obtain ⟨s1, hfd, hrun⟩ := bind_eq_some_iff.1 hrun
    obtain ⟨hnot, hl⟩ := nodup_cons.1 hl
    unfold forkFile at hfd
    split at hfd
    · cases hfd
      exact ih hl h (fun fd' hfd' => hfree fd' (mem_cons_of_mem fd hfd')) hrun
    · rename_i f hf
      obtain ⟨s2, hdup, rfl⟩ := map_eq_some_iff.1 hfd
      obtain ⟨h2, -, hproc⟩ := h.filedup hdup
      have hnone : (s2.proc np).ofile fd = none := by
        rw [hproc]
        exact hfree fd (mem_cons_self ..)
      have h3 := h2.point hnone f
      rw [add_sub_cancel_right] at h3
      have hrest : ∀ fd' ∈ l, ((s2.setOfile np fd (some f)).proc np).ofile fd' = none := by
        intro fd' hfd'
        have hfd'' : fd' ≠ fd := fun heq => hnot (heq ▸ hfd')
        rw [ofile_setOfile_of_ne _ _ hfd'', hproc]
        exact hfree fd' (mem_cons_of_mem fd hfd')
      obtain ⟨h4, hframe⟩ := ih hl h3 hrest hrun
      exact ⟨h4, (Frame.of_eq hproc).trans ((Frame.setOfile s2 np fd (some f)).trans hframe)⟩

theorem Holds.fork {mem : Bool} (h : Holds b s 0 0 ∅) (hs : ∀ q, Settled (s.proc q))
    (hrun : s.fork p mem = some (s', r)) : Holds b s' 0 0 ∅ ∧ ∀ q, Settled (s'.proc q) := by
  unfold FileSys.fork at hrun
  split at hrun
  · cases hrun
    exact ⟨h, hs⟩
  rename_i np hfind
  split at hrun
  · cases hrun
    exact ⟨h, hs⟩
  obtain ⟨s1, hfiles, hrun⟩ := bind_eq_some_iff.1 hrun
  obtain ⟨cwd, hcwd, heq⟩ := map_eq_some_iff.1 hrun
  -- the slot of the child is free
  have hunused : (s.proc np).state = .unused := by
    have hyes := List.find?_some hfind
    exact of_decide_eq_true hyes
  have hdead : (s.proc np).alive = false := by
    unfold FileProc.alive
    rw [hunused]
    rfl
  have hempty : (∀ fd, (s.proc np).ofile fd = none) ∧ (s.proc np).cwd = none := by
    have hnp := hs np
    unfold Settled at hnp
    rwa [hdead, if_neg Bool.false_ne_true] at hnp
  obtain ⟨h1, hframe⟩ := h.forkFiles (nodup_finRange nofile) (fun fd _ => hempty.1 fd) hfiles
  have h2 : Holds b { s1 with inodes := s1.inodes.idup cwd } 0 (cwd ::ₘ 0) ∅ := by
    apply h1.withInodes
    rw [Multiset.cons_add]
    exact h1.inodes.idup (h1.inodes.pos (Holds.cwd_mem hcwd))
  have h3 : Holds b ({ s1 with inodes := s1.inodes.idup cwd }.setCwd np (some cwd)) 0 0 ∅ := by
    apply h2.setCwd
    intro k
    have hnone : ({ s1 with inodes := s1.inodes.idup cwd }.proc np).cwd = none :=
      (hframe.cwd np).trans hempty.2
    rw [hnone, count_one, if_neg (some_ne_none k).symm, Multiset.count_zero, zero_add, add_zero]
  cases heq
  refine ⟨h3.setState np .runnable, settled_setProc ?_ ?_⟩
  · have hself : ({ s1 with inodes := s1.inodes.idup cwd }.setCwd np (some cwd)).proc np =
        { s1.proc np with cwd := some cwd } := update_self ..
    unfold Settled
    rw [hself, if_pos (show FileProc.alive { state := .runnable, ofile := _, cwd := _ } = true from rfl)]
    exact some_ne_none cwd
  · intro q hq
    have hother : ({ s1 with inodes := s1.inodes.idup cwd }.setCwd np (some cwd)).proc q = s1.proc q :=
      update_of_ne hq ..
    rw [hother]
    exact hframe.settled hq (hs q)

/-- The loop of `exit`: the descriptors are closed one after another. -/
theorem Holds.exitFiles {l : List (Fin nofile)} (h : Holds b s 0 0 ∅)
    (hrun : l.foldlM (exitFile p) s = some s') :
    Holds b s' 0 0 ∅ ∧ Frame p s.proc s'.proc ∧
    ∀ fd, fd ∈ l ∨ (s.proc p).ofile fd = none → (s'.proc p).ofile fd = none := by
  induction l generalizing s with
  | nil =>
    cases hrun
    exact ⟨h, .of_eq rfl, fun fd hfd => hfd.resolve_left not_mem_nil⟩
  | cons fd l ih =>
    obtain ⟨s1, hfd, hrun⟩ := bind_eq_some_iff.1 hrun
    have hstep : Holds b s1 0 0 ∅ ∧ Frame p s.proc s1.proc ∧
        ∀ fd', fd' = fd ∨ (s.proc p).ofile fd' = none → (s1.proc p).ofile fd' = none := by
      unfold exitFile at hfd
      split at hfd
      · rename_i hnone
        cases hfd
        refine ⟨h, .of_eq rfl, ?_⟩
        rintro fd' (rfl | hfd')
        · exact hnone
        · exact hfd'
      · rename_i f hf
        obtain ⟨s2, hclose, rfl⟩ := map_eq_some_iff.1 hfd
        obtain ⟨h2, hproc⟩ := h.fileclose hclose
        have hf2 : (s2.proc p).ofile fd = some f := by rw [hproc, hf]
        have h3 := h2.clear hf2
        rw [sub_add_cancel] at h3
        refine ⟨h3, (Frame.of_eq hproc).trans (Frame.setOfile s2 p fd none), ?_⟩
        intro fd' hfd'
        by_cases heq : fd' = fd
        · rw [heq, ofile_setOfile_self]
        · rw [ofile_setOfile_of_ne _ _ heq, hproc]
          exact hfd'.resolve_left heq
    obtain ⟨h1, hframe1, hnone1⟩ := hstep
    obtain ⟨h2, hframe2, hnone2⟩ := ih h1 hrun
    refine ⟨h2, hframe1.trans hframe2, ?_⟩
    intro fd' hfd'
    apply hnone2
    rcases hfd' with hmem | hfd'
    · rcases mem_cons.1 hmem with heq | hmem
      · exact Or.inr (hnone1 fd' (Or.inl heq))
      · exact Or.inl hmem
    · exact Or.inr (hnone1 fd' (Or.inr hfd'))

theorem Holds.exit (h : Holds b s 0 0 ∅) (hs : ∀ q, Settled (s.proc q)) (hrun : s.exit p = some s') :
    Holds b s' 0 0 ∅ ∧ ∀ q, Settled (s'.proc q) := by
  unfold FileSys.exit at hrun
  split at hrun
  · cases hrun
  obtain ⟨s1, hfiles, hrun⟩ := bind_eq_some_iff.1 hrun
  obtain ⟨cwd, hcwd, hrun⟩ := bind_eq_some_iff.1 hrun
  obtain ⟨t, hput, rfl⟩ := map_eq_some_iff.1 hrun
  obtain ⟨h1, hframe, hnone⟩ := h.exitFiles hfiles
  -- the process is in no directory, and its reference is in the hands of the call
  have h2 : Holds b (s1.setCwd p none) 0 (cwd ::ₘ 0) ∅ := by
    apply h1.setCwd
    intro k
    rw [hcwd, count_one, if_neg (some_ne_none k).symm, Multiset.count_zero, zero_add, add_zero]
  have h3 := h2.inodes.beginOp
  rw [Multiset.cons_add] at h3
  have h4 := h2.withInodes (h3.iput hput).endOp
  refine ⟨h4.setState p .zombie, settled_setProc ?_ ?_⟩
  · have hself : ({ s1 with inodes := t.endOp }.setCwd p none).proc p = { s1.proc p with cwd := none } :=
      update_self ..
    unfold Settled
    rw [hself, if_neg (show ¬(FileProc.alive { state := .zombie, ofile := _, cwd := _ }) = true from
      Bool.false_ne_true)]
    exact ⟨fun fd => hnone fd (Or.inl (mem_finRange fd)), rfl⟩
  · intro q hq
    have hother : ({ s1 with inodes := t.endOp }.setCwd p none).proc q = s1.proc q :=
      update_of_ne hq ..
    rw [hother]
    exact hframe.settled hq (hs q)

theorem Holds.wait {c : Slot} (h : Holds b s 0 0 ∅) (hs : ∀ q, Settled (s.proc q))
    (hrun : s.wait c = some s') : Holds b s' 0 0 ∅ ∧ ∀ q, Settled (s'.proc q) := by
  unfold FileSys.wait at hrun
  split at hrun
  · rename_i hzombie
    cases hrun
    refine ⟨h.setState c .unused, settled_setProc ?_ fun q _ => hs q⟩
    have hc := hs c
    unfold Settled FileProc.alive at hc ⊢
    rw [hzombie] at hc
    exact hc
  · cases hrun

/-! ## Every call -/

/-- **One call.** -/
theorem Holds.call {c : FileCall} (h : Holds b s 0 0 ∅) (hs : ∀ q, Settled (s.proc q))
    (halive : (s.proc p).alive) (hrun : s.call p c = some (s', r)) :
    Holds b s' 0 0 ∅ ∧ ∀ q, Settled (s'.proc q) := by
  -- a call that changes descriptors of `p` at most
  have hframe (hcall : Holds b s' 0 0 ∅ ∧ Frame p s.proc s'.proc) :
      Holds b s' 0 0 ∅ ∧ ∀ q, Settled (s'.proc q) :=
    ⟨hcall.1, hcall.2.procs halive hs⟩
  have hfile {fd : ℤ} {call : Fin nofile → FilePtr → Option (FileSys × ℤ)}
      (hcall : ∀ fd f, call fd f = some (s', r) → Holds b s' 0 0 ∅ ∧ s'.proc = s.proc)
      (hrun : s.onFile p fd call = some (s', r)) : Holds b s' 0 0 ∅ ∧ ∀ q, Settled (s'.proc q) := by
    rcases onFile_cases hrun with rfl | ⟨fd, f, -, hrun⟩
    · exact ⟨h, hs⟩
    · obtain ⟨h1, hproc⟩ := hcall fd f hrun
      exact hframe ⟨h1, .of_eq hproc⟩
  cases c with
  | «open» path omode => exact hframe (h.sysOpen hrun)
  | close fd => exact hframe (h.sysClose hrun)
  | dup fd => exact hframe (h.sysDup hrun)
  | pipe page copyout => exact hframe (h.sysPipe hrun)
  | read fd n copyout r => exact hfile (fun _ _ hread => h.fileread hread) hrun
  | write fd n src copyin r => exact hfile (fun _ _ hwrite => h.filewrite hwrite) hrun
  | fstat fd copyout => exact hfile (fun _ _ hstat => h.filestat hstat) hrun
  | link old new => exact hframe (h.sysLink hrun)
  | unlink path => exact hframe (h.sysUnlink hrun)
  | mkdir path => exact hframe (h.sysMkdir hrun)
  | mknod path major minor => exact hframe (h.sysMknod hrun)
  | chdir path =>
    obtain ⟨h1, hproc | ⟨ip, hproc⟩⟩ := h.sysChdir hrun
    · exact hframe ⟨h1, .of_eq hproc⟩
    · refine ⟨h1, ?_⟩
      rw [hproc]
      refine settled_setProc ?_ fun q _ => hs q
      unfold Settled
      rw [if_pos (show FileProc.alive { s.proc p with cwd := some ip } = true from halive)]
      exact some_ne_none ip
  | exec path m fetch => exact hframe (h.sysExec hrun)
  | fork mem => exact h.fork hs hrun
  | exit =>
    obtain ⟨s1, hexit, ⟨⟩⟩ := map_eq_some_iff.1 hrun
    exact h.exit hs hexit
  | wait c =>
    obtain ⟨s1, hwait, ⟨⟩⟩ := map_eq_some_iff.1 hrun
    exact h.wait hs hwait

/-- The table of the inodes without references. -/
def unreferenced (t : Inodes) : Inodes :=
  { t with inode := fun ip => { t.inode ip with ref := 0 } }

theorem Consistent.holds (h : s.Consistent) : Holds (unreferenced s.inodes) s 0 0 ∅ := by
  refine ⟨?_, h.free, ⟨rfl, ?_, ?_, ?_, ?_, h.unique⟩⟩
  · intro f
    rw [h.file f, Pi.zero_apply, add_zero]
  · intro ip
    exact le_refl 0
  · intro ip
    rw [h.inode ip, zero_add, count_collect]
    exact (zero_add _).symm
  · intro ip
    rw [h.unlocked ip]
    exact iff_of_false Bool.false_ne_true (Finset.notMem_empty ip)
  · intro ip hpos
    exact absurd hpos (lt_irrefl 0)

theorem Holds.consistent (hb : ∀ ip, (b.inode ip).ref = 0) (h : Holds b s 0 0 ∅)
    (hs : ∀ q, Settled (s.proc q)) : s.Consistent := by
  refine ⟨⟨?_, ?_, h.inodes.unique, ?_⟩, h.free, hs⟩
  · intro f
    rw [h.files f, Pi.zero_apply, add_zero]
  · intro ip
    rw [h.inodes.ref ip, hb, zero_add, zero_add, count_collect]
  · intro ip
    exact Bool.eq_false_iff.2 fun hlocked => Finset.notMem_empty ip ((h.inodes.locked ip).1 hlocked)

theorem Consistent.step {a : Slot × FileCall} (h : s.Consistent) (hstep : s.step a = some s') :
    s'.Consistent ∧ s'.inodes.outstanding = s.inodes.outstanding := by
  unfold FileSys.step at hstep
  split at hstep
  · rename_i halive
    obtain ⟨⟨s1, r⟩, hcall, rfl⟩ := map_eq_some_iff.1 hstep
    obtain ⟨h1, hs1⟩ := h.holds.call h.procs halive hcall
    exact ⟨h1.consistent (fun _ => rfl) hs1, h1.inodes.outstanding⟩
  · cases hstep

/-- The first process is in the root directory, and there is nothing else. -/
theorem boot_consistent (fs : Fs) : (boot fs).Consistent := by
  have hslots (f : FilePtr) : tally (boot fs).slots (some f) = 0 := by
    apply tally_eq_zero
    intro x
    exact (some_ne_none f).symm
  have hfiles (ip : InodePtr) : tally (boot fs).fileInode (some ip) = 0 := by
    apply tally_eq_zero
    intro f
    rw [show (boot fs).fileInode f = none from KFile.inode_of_none rfl]
    exact (some_ne_none ip).symm
  have hcwds (ip : InodePtr) : tally (boot fs).cwds (some ip) = if ip = 0 then 1 else 0 := by
    have hupdate : (boot fs).cwds = update (fun _ => none) 0 (some 0) := by
      funext p
      show (if p = 0 then some 0 else none) = _
      by_cases hp : p = 0
      · rw [hp, update_self, if_pos rfl]
      · rw [update_of_ne hp, if_neg hp]
    have htally := tally_update (fun _ : Slot => (none : Option InodePtr)) 0 (some 0) (some ip)
    have hnone : tally (fun _ : Slot => (none : Option InodePtr)) (some ip) = 0 := by
      apply tally_eq_zero
      intro p
      exact (some_ne_none ip).symm
    rw [← hupdate, if_neg (some_ne_none ip).symm, hnone] at htally
    simp only [some.injEq, eq_comm] at htally ⊢
    omega
  refine ⟨⟨?_, ?_, ?_, fun ip => rfl⟩, fun f _ => rfl, ?_⟩
  · intro f
    rw [hslots f]
    rfl
  · intro ip
    rw [show (boot fs).owners ip = _ from congrArg₂ (· + ·) (hfiles ip) (hcwds ip), zero_add]
    show (if ip = 0 then 1 else 0 : ℤ) = _
    split <;> rfl
  · intro ip ip' hpos hpos' _ _
    -- only the first entry is in use
    have hzero : ∀ k : InodePtr, 0 < ((boot fs).inodes.inode k).ref → k = 0 := by
      intro k hk
      by_contra hne
      have href : ((boot fs).inodes.inode k).ref = 0 := if_neg hne
      omega
    rw [hzero ip hpos, hzero ip' hpos']
  · intro p
    by_cases hp : p = 0
    · rw [hp]
      exact some_ne_none _
    · have hdead : ((boot fs).proc p).alive = false := by
        simp [FileProc.alive, boot, hp]
      unfold Settled
      rw [hdead, if_neg Bool.false_ne_true]
      exact ⟨fun _ => rfl, if_neg hp⟩

end FileSys

end AudioPlayer
