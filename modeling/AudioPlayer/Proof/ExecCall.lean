import AudioPlayer.Proof.Exec
import AudioPlayer.Proof.Refs
import AudioPlayer.Proof.Sbrk
import AudioPlayer.Spec.ExecCall

/-!
# `exec` as a whole

`exec` depends on its arguments only where they are pushed to the new stack (`exec_outcomes`). A call
that fails leaves the process, its memory and the table of the inodes as they were
(`exec_fails_untouched`). A call that succeeds finds its arguments on the stack
(`exec_delivers`). The memory is that of `Heap.exec`, for the file at the path (`exec_heap`).
-/

namespace AudioPlayer

open Option Radix

/-! ## Reading the file -/

theorem Fs.readLoop_length {copyout : ℕ → Bool} {fuel off n tot : ℕ} {fs fs' : Fs} {ip ip' : Dinode}
    {data : List UInt8} (hrun : fs.readLoop copyout fuel ip off n tot = some (fs', ip', some data)) :
    data.length ≤ n := by
  induction fuel generalizing fs ip off n tot data with
  | zero =>
    cases hrun
    exact Nat.zero_le n
  | succ fuel ih =>
    unfold Fs.readLoop at hrun
    split at hrun
    · cases hrun
      exact Nat.zero_le n
    · obtain ⟨⟨fs1, ip1, addr⟩, -, hrun⟩ := bind_eq_some_iff.1 hrun
      dsimp only at hrun
      split at hrun
      · obtain ⟨⟨fs2, ip2, rest⟩, hrest, heq⟩ := map_eq_some_iff.1 hrun
        cases rest with
        | none => cases heq
        | some rest =>
          cases heq
          have hle := ih hrest
          rw [List.length_append, Bytes.length_slice]
          omega
      · cases hrun

theorem Fs.readi_length {copyout : ℕ → Bool} {off n : ℕ} {fs fs' : Fs} {ip ip' : Dinode}
    {data : List UInt8} (hrun : fs.readi ip off n copyout = some (fs', ip', some data)) :
    data.length ≤ n := by
  unfold Fs.readi at hrun
  split at hrun
  · cases hrun
    exact Nat.zero_le n
  · refine (Fs.readLoop_length hrun).trans ?_
    have := Nat.mod_le (off + n) (2 ^ 32)
    split <;> omega

namespace ExecState

open Inodes Heap

variable {s s' : ExecState} {path : KString} {argv : List KString} {f : ℕ → Pte} {R : Multiset ℕ}

/-- `readi` stores at most what it is asked for. -/
theorem reader_length {ip : InodePtr} {t t' : Inodes} {off n : ℕ} {bytes : List UInt8}
    (hrun : reader ip t off n = some (t', bytes)) : bytes.length ≤ n := by
  obtain ⟨⟨t1, data⟩, hread, ⟨⟩⟩ := map_eq_some_iff.1 hrun
  obtain ⟨⟨fs, din, data'⟩, hfs, ⟨⟩⟩ := map_eq_some_iff.1 hread
  cases data with
  | none => exact Nat.zero_le n
  | some data => exact Fs.readi_length hfs

/-- Reading the file keeps what is held. -/
theorem reads_inode (ip : InodePtr) (t : Inodes) (held : Multiset InodePtr) (locks : Finset InodePtr) :
    Reads (reader ip) fun t' => Refs t t' held locks := by
  intro t1 off n t2 bytes ht hrun
  refine ⟨?_, reader_length hrun⟩
  obtain ⟨⟨t3, data⟩, hread, ⟨⟩⟩ := map_eq_some_iff.1 hrun
  exact ht.readi hread

/-! ## The new image -/

/-- **A program that was just loaded**: its arguments are on its stack, and the registers point to
them. -/
structure Started (s : ExecState) (argv : List KString) (r : ℤ) (sp : ℕ) : Prop where
  argc : r = argv.length
  a1 : (s.heap.mem s.proc.trapframe trapA1).toNat = sp
  stack : NewStack s.heap s.proc.pagetable s.proc.sz sp argv
  reg : (s.heap.mem s.proc.trapframe trapSp).toNat = sp

/-- **`exec` commits to the new image.** -/
theorem commit_spec (path : KString) (image : ExecImage) {h : Heap} {np : ℕ} {f' : ℕ → Pte} {page : ℕ}
    (hi : Heap.Image h s.proc.pagetable np f ({s.proc.trapframe} + R)) (hsz : s.proc.sz ≤ 2 ^ 63)
    (hnp : np = npages s.proc.sz) (ha : Agree h s.heap (nodes sv39 h.mem 2 s.proc.pagetable))
    (hi' : Heap.Image s.heap image.pagetable (npages image.sz) f'
      (Image.held h s.proc.pagetable np f ({s.proc.trapframe} + R)))
    (hpage : page ∈ pagesAt f' 0 (npages image.sz))
    (hstack : StackPage s.heap.mem image.pagetable (image.sz - pgsize) page)
    (hnew : NewStack s.heap image.pagetable image.sz image.sp argv) (hargc : image.argc = argv.length) :
    ∃ s', s.commit path image = some (s', (image.argc : ℤ)) ∧ s'.inodes = s.inodes ∧
      Started s' argv image.argc image.sp := by
  obtain ⟨h', hcommit, -, ha', ha1, hsp⟩ := execCommit_spec image hi hsz hnp ha hi'
  unfold commit
  dsimp only
  rw [hcommit]
  refine ⟨_, rfl, rfl, by rw [hargc], ha1, ?_, hsp⟩
  exact hnew.congr (fun x hx => ha'.left.mem x hx) hstack (ha'.right.left.mem page hpage)

/-! ## The call -/

/-- **What a failed call leaves behind**: the process, its page table, its memory and its trapframe as
they were, and no reference, lock or transaction. -/
structure Untouched (s s' : ExecState) : Prop where
  proc : s'.proc = s.proc
  table : ∀ k, leaf s'.heap.mem s.proc.pagetable k = leaf s.heap.mem s.proc.pagetable k
  memory : ∀ a < npages s.proc.sz * pgsize,
    memByte s'.heap.mem s.proc.pagetable a = memByte s.heap.mem s.proc.pagetable a
  trapframe : s'.heap.mem s.proc.trapframe = s.heap.mem s.proc.trapframe
  ref : ∀ k, (s'.inodes.inode k).ref = (s.inodes.inode k).ref
  unlocked : ∀ k, (s'.inodes.inode k).locked = false
  outstanding : s'.inodes.outstanding = s.inodes.outstanding

/-- A process as `exec` finds it, between two calls. -/
structure Ready (s : ExecState) (f : ℕ → Pte) (R : Multiset ℕ) : Prop where
  image : Heap.Image s.heap s.proc.pagetable (npages s.proc.sz) f ({s.proc.trapframe} + R)
  sz : s.proc.sz ≤ 2 ^ 63
  inodes : s.inodes.AtRest
  cwd : 0 < (s.inodes.inode s.proc.cwd).ref

/-- The memory is kept, and everything that was held is given back. -/
theorem Ready.untouched (hs : Ready s f R) {h' : Heap} {t : Inodes}
    (ha : Agree s.heap h' (Image.held s.heap s.proc.pagetable (npages s.proc.sz) f
      ({s.proc.trapframe} + R))) (ht : Refs s.inodes t 0 ∅) :
    Untouched s { s with inodes := t, heap := h' } := by
  have hleaf : ∀ k, leaf h'.mem s.proc.pagetable k = leaf s.heap.mem s.proc.pagetable k :=
    fun k => lookup_congr ha.left.mem
  refine ⟨rfl, hleaf, fun a hlt => ?_, ?_, fun k => ?_, fun k => ?_, ht.outstanding⟩
  · have hk := page_lt_of_lt hlt
    have hle := hs.image.np_le
    show memByte h'.mem _ _ = _
    rw [memByte, memByte, hleaf, hs.image.tab.maps _ (by omega)]
    refine byteAt_congr ?_
    rw [page_div]
    exact ha.right.left.mem _ (mem_pagesAt (Nat.zero_le _) (by omega))
  · exact ha.right.right.left.mem _ (Multiset.mem_singleton_self _)
  · have := ht.ref k
    rwa [Multiset.count_zero, Nat.cast_zero, add_zero] at this
  · exact Bool.eq_false_iff.2 fun hl => Finset.notMem_empty k ((ht.locked k).1 hl)

/-- **`exec` until it is done with the file.** It holds no reference to it any more. -/
theorem load_spec (hs : Ready s f R) {image : Option ExecImage}
    (hrun : s.load path = some (s', image)) :
    s'.proc = s.proc ∧ Refs s.inodes s'.inodes 0 ∅ ∧
    Agree s.heap s'.heap (Image.held s.heap s.proc.pagetable (npages s.proc.sz) f
      ({s.proc.trapframe} + R)) ∧
    ∀ x ∈ image, x.sz ≤ 2 ^ 27 ∧ ∃ f', Heap.Image s'.heap x.pagetable (npages x.sz) f'
      (Image.held s.heap s.proc.pagetable (npages s.proc.sz) f ({s.proc.trapframe} + R)) := by
  have hbegin : Refs s.inodes.beginOp s.inodes.beginOp 0 ∅ :=
    ⟨rfl, hs.inodes.nonneg, hs.inodes.ref, hs.inodes.locked, hs.inodes.same, hs.inodes.unique⟩
  obtain ⟨⟨t1, ip⟩, hnamei, hrun⟩ := bind_eq_some_iff.1 hrun
  have h1 := hbegin.namei hs.cwd hnamei
  cases ip with
  | none =>
    cases hrun
    exact ⟨rfl, h1.endOp, Agree.refl _ _, fun x hx => by cases hx⟩
  | some ip =>
    obtain ⟨t2, hlock, hrun⟩ := bind_eq_some_iff.1 hrun
    obtain ⟨h2, -⟩ := h1.ilock hlock
    obtain ⟨⟨h, t3, l⟩, hload, hrun⟩ := bind_eq_some_iff.1 hrun
    rcases execLoad_spec (reads_inode ip _ _ _) s.proc.trapframe hs.image.tab.owns h2 with
      ⟨h', t', l', hload', h3, ha, hl⟩ | ⟨hnone, -⟩
    · rw [hload] at hload'
      cases hload'
      -- the file is given back in each case
      have hput {t4 : Inodes} (hput : t3.iunlockput ip = some t4) : Refs s.inodes t4.endOp 0 ∅ := by
        have h4 := (show Refs _ t3 (ip ::ₘ 0) _ from h3).iunlockput hput
        rw [Finset.erase_insert (Finset.notMem_empty ip)] at h4
        exact h4.endOp
      dsimp only at hrun
      split at hrun
      · rename_i pagetable hpt hok
        obtain ⟨t4, hput', ⟨⟩⟩ := map_eq_some_iff.1 hrun
        refine ⟨rfl, hput hput', ha, fun x hx => ?_⟩
        cases hx
        rcases hl with ⟨hno, -, -⟩ | ⟨pagetable', f1, hpt', hi1, hsz1⟩
        · rw [hpt] at hno
          cases hno
        · rw [hpt] at hpt'
          cases hpt'
          exact ⟨hsz1, f1, hi1⟩
      · obtain ⟨h', hbad, hrun⟩ := bind_eq_some_iff.1 hrun
        obtain ⟨t4, hput', ⟨⟩⟩ := map_eq_some_iff.1 hrun
        obtain ⟨h'', hbad', -, ha'⟩ := execBad_spec hl
        rw [hbad] at hbad'
        cases hbad'
        exact ⟨rfl, hput hput', ha.trans ha', fun x hx => by cases hx⟩
    · rw [hload] at hnone
      cases hnone

/-- The file is read over and over. -/
def Reread (ip : InodePtr) : Inodes → Inodes → Prop :=
  Relation.ReflTransGen fun t1 t2 => ∃ off n data, t1.readi ip off n (fun _ => true) = some (t2, data)

/-- **The panics of `exec`** are those of the functions for inodes that it calls. -/
def InodePanics (s : ExecState) (path : KString) : Prop :=
  s.inodes.beginOp.namei s.proc.cwd path = none ∨
    ∃ t ip, s.inodes.beginOp.namei s.proc.cwd path = some (t, some ip) ∧
      (t.ilock ip = none ∨ ∃ t1 t', t.ilock ip = some t1 ∧ Reread ip t1 t' ∧
        ((∃ off n, t'.readi ip off n (fun _ => true) = none) ∨ t'.iunlockput ip = none))

/-- `exec` does not panic in `loadseg`, nor where it frees the new page table. -/
theorem load_eq_none (hs : Ready s f R) (hnone : s.load path = none) : s.InodePanics path := by
  unfold load at hnone
  cases hnamei : s.inodes.beginOp.namei s.proc.cwd path with
  | none => exact Or.inl hnamei
  | some r =>
    obtain ⟨t, _ | ip⟩ := r
    · rw [hnamei] at hnone
      cases hnone
    refine Or.inr ⟨t, ip, hnamei, ?_⟩
    rw [hnamei, bind_some] at hnone
    cases hlock : t.ilock ip with
    | none => exact Or.inl rfl
    | some t1 =>
      have hread : Reads (reader ip) (Reread ip t1) := by
        intro t2 off n t3 bytes ht hrun
        refine ⟨?_, reader_length hrun⟩
        obtain ⟨⟨t4, data⟩, hdata, ⟨⟩⟩ := map_eq_some_iff.1 hrun
        exact ht.tail ⟨off, n, data, hdata⟩
      dsimp only at hnone
      rw [hlock, bind_some] at hnone
      rcases execLoad_spec hread s.proc.trapframe hs.image.tab.owns .refl with
        ⟨h, t', l, hload, ht', -, hl⟩ | ⟨-, t', off, n, ht', hfail⟩
      · refine Or.inr ⟨t1, t', rfl, ht', Or.inr ?_⟩
        obtain ⟨h', hbad, -⟩ := execBad_spec hl
        rw [hload, bind_some] at hnone
        dsimp only at hnone
        split at hnone
        · exact map_eq_none_iff.1 hnone
        · rw [hbad, bind_some] at hnone
          exact map_eq_none_iff.1 hnone
      · exact Or.inr ⟨t1, t', rfl, ht', Or.inl ⟨off, n, map_eq_none_iff.1 hfail⟩⟩

/-- A call that fails. -/
def Fails (s : ExecState) (r : Option (ExecState × ℤ)) : Prop :=
  ∃ s', r = some (s', -1) ∧ Untouched s s'

/-- A call that succeeds. -/
def Delivers (argv : List KString) (r : Option (ExecState × ℤ)) : Prop :=
  ∃ s' n sp, r = some (s', n) ∧ Started s' argv n sp

/-- **The ways out of `exec`.** It panics, or fails, whatever the arguments are, or else they
decide. -/
theorem exec_outcomes (hs : Ready s f R) (path : KString) :
    (s.InodePanics path ∧ ∀ argv, s.exec path argv = none) ∨ (∀ argv, Fails s (s.exec path argv)) ∨
    ∀ argv, (argv.length = maxarg ∧ s.exec path argv = none) ∨
      (¬ StackFits argv ∧ Fails s (s.exec path argv)) ∨
      (StackFits argv ∧ Delivers argv (s.exec path argv)) := by
  rcases hload : s.load path with _ | ⟨s1, image⟩
  · exact Or.inl ⟨load_eq_none hs hload, fun argv => by rw [exec, hload]; rfl⟩
  obtain ⟨hproc, ht, ha, himage⟩ := load_spec hs hload
  obtain ⟨t, h, p⟩ := s1
  obtain rfl : p = s.proc := hproc
  cases image with
  | none => exact Or.inr (Or.inl fun argv => ⟨_, by rw [exec, hload]; rfl, hs.untouched ha ht⟩)
  | some x =>
    obtain ⟨hsz, f1, hi⟩ := himage x rfl
    rcases execStack_spec hi hsz with hno | hstack
    · refine Or.inr (Or.inl fun argv => ?_)
      obtain ⟨h', hrun, -, ha'⟩ := hno argv
      refine ⟨_, ?_, hs.untouched (ha.trans ha') ht⟩
      rw [exec, hload, bind_some]
      dsimp only
      rw [hrun]
      rfl
    · refine Or.inr (Or.inr fun argv => ?_)
      rcases hstack argv with ⟨hmax, hrun⟩ | ⟨hno, h', hrun, -, ha'⟩ |
        ⟨hfit, h', sz, sp, f', hrun, hi', ha', -, ⟨page, hpage, hpush⟩, hnew⟩
      · refine Or.inl ⟨hmax, ?_⟩
        rw [exec, hload, bind_some]
        dsimp only
        rw [hrun]
        rfl
      · refine Or.inr (Or.inl ⟨hno, _, ?_, hs.untouched (ha.trans ha') ht⟩)
        rw [exec, hload, bind_some]
        dsimp only
        rw [hrun]
        rfl
      · obtain ⟨s', hcommit, -, hstart⟩ := commit_spec (s := ⟨t, h', s.proc⟩) path
          { x with sz := sz, sp := sp, argc := argv.length } hs.image hs.sz rfl
          (ha.trans ha').left hi' hpage hpush hnew rfl
        refine Or.inr (Or.inr ⟨hfit, s', _, sp, ?_, hstart⟩)
        rw [exec, hload, bind_some]
        dsimp only
        rw [hrun]
        exact hcommit

/-! ## The memory of `exec` -/

/-- The path leads to a file with these contents, if to any. -/
def Finds (s : ExecState) (path : KString) : Option ExecFile → Prop
  | none => ∃ t, s.inodes.beginOp.namei s.proc.cwd path = some (t, none)
  | some file => ∃ t ip t1 P, s.inodes.beginOp.namei s.proc.cwd path = some (t, some ip) ∧
    t.ilock ip = some t1 ∧ P t1 ∧ Shows (reader ip) P file

/-- What `exec` changes in `struct proc`. -/
def ExecProc.replaced (p : ExecProc) (path : KString) : Option ExecImage → ExecProc
  | none => p
  | some image => { p with
      name := safestrcpy p.name (lastElem path.bytes path.bytes) 16
      pagetable := image.pagetable
      sz := image.sz }

/-- **The memory of `exec` is that of `Heap.exec`**, and the process has the image from there. -/
theorem exec_heap {file : Option ExecFile} {r : ℤ} (hfile : s.Finds path file)
    (hrun : s.exec path argv = some (s', r)) :
    ∃ image, s.heap.exec s.proc.trapframe s.proc.pagetable s.proc.sz file argv = some (s'.heap, image) ∧
      s'.proc = ExecProc.replaced s.proc path image ∧ r = image.elim (-1) fun x => (x.argc : ℤ) := by
  obtain ⟨⟨s1, image1⟩, hload, hrun⟩ := bind_eq_some_iff.1 hrun
  unfold load at hload
  cases file with
  | none =>
    obtain ⟨t, hnamei⟩ := hfile
    rw [hnamei] at hload
    cases hload
    cases hrun
    exact ⟨none, rfl, rfl, rfl⟩
  | some file =>
    obtain ⟨t, ip, t1, P, hnamei, hlock, hP, hshow⟩ := hfile
    obtain ⟨t2, hshown⟩ := execLoad_shows hshow s.heap s.proc.trapframe hP
    rw [hnamei, bind_some] at hload
    dsimp only at hload
    rw [hlock, bind_some, hshown] at hload
    unfold Heap.exec
    dsimp only
    cases hfile : s.heap.execLoad file.reader s.proc.trapframe () with
    | none =>
      rw [hfile] at hload
      cases hload
    | some x =>
      obtain ⟨h, ⟨⟩, ⟨pagetable, sz, entry, ok⟩⟩ := x
      rw [hfile, map_some, bind_some] at hload
      rw [bind_some]
      have hbad (hload : ((h.execBad pagetable sz).bind fun h => (t2.iunlockput ip).map fun inodes =>
            ({ s with inodes := inodes.endOp, heap := h }, none)) = some (s1, image1)) :
          ∃ image : Option ExecImage,
            ((h.execBad pagetable sz).map fun h => (h, none)) = some (s'.heap, image) ∧
            s'.proc = ExecProc.replaced s.proc path image ∧
            r = image.elim (-1) fun x => (x.argc : ℤ) := by
        obtain ⟨h1, hfree, hload⟩ := bind_eq_some_iff.1 hload
        obtain ⟨t3, -, ⟨⟩⟩ := map_eq_some_iff.1 hload
        cases hrun
        exact ⟨none, by rw [hfree]; rfl, rfl, rfl⟩
      cases pagetable with
      | none => cases ok <;> exact hbad hload
      | some pagetable =>
        cases ok with
        | false => exact hbad hload
        | true =>
          obtain ⟨t3, -, ⟨⟩⟩ := map_eq_some_iff.1 hload
          obtain ⟨⟨h1, stack⟩, hstack, hrun⟩ := bind_eq_some_iff.1 hrun
          dsimp only at hstack hrun ⊢
          rw [hstack, bind_some]
          cases stack with
          | none =>
            cases hrun
            exact ⟨none, rfl, rfl, rfl⟩
          | some x =>
            obtain ⟨h2, hcommit, ⟨⟩⟩ := map_eq_some_iff.1 hrun
            dsimp only at hcommit ⊢
            rw [hcommit]
            exact ⟨some _, rfl, rfl, rfl⟩

/-! ## Two programs -/

/-- A program, with as many of its program headers as `phnum` says. There is one, for a segment of a
page, with bytes that would be behind the end of the file. -/
def program (phnum : UInt8) : Bytes.Mem
  | 0 => 0x7f
  | 1 => 0x45
  | 2 => 0x4c
  | 3 => 0x46
  | 32 => 64
  | 56 => phnum
  | 64 => 1
  | 73 => 16
  | 96 => 100
  | 105 => 16
  | _ => 0

/-- A disk with a program `x`, in the directory of the process. -/
def oneProgram (phnum : UInt8) : Inodes where
  fs := ⟨⟨fsMagic, 200, 100, 16, 30, 2, 32, 45⟩, fun b =>
    if b = 100 then Bytes.ofList (direntBytes 2 [0x78])
    else if b = 101 then program phnum
    else fun _ => 0⟩
  inode k :=
    if k = 0 then ⟨rootDev, 1, 1, false, true, ⟨tDir, 0, 0, 1, direntSize, fun _ => 100⟩⟩
    else if k = 1 then ⟨rootDev, 2, 1, false, true, ⟨tFile, 0, 0, 1, elfhdrSize + proghdrSize,
      fun _ => 101⟩⟩
    else ⟨0, 0, 0, false, false, .zero⟩
  outstanding := 0

theorem oneProgram_atRest (phnum : UInt8) : (oneProgram phnum).AtRest := by
  have hlocked : ∀ k, ((oneProgram phnum).inode k).locked = false := by
    intro k
    unfold oneProgram
    dsimp only
    split
    · rfl
    · split <;> rfl
  refine ⟨rfl, fun k => ?_, fun k => ?_, fun k => ?_, fun k _ => ⟨rfl, rfl⟩,
    fun k k' hk hk' _ hinum => ?_⟩
  · unfold oneProgram
    dsimp only
    split
    · exact Int.one_nonneg
    · split
      · exact Int.one_nonneg
      · exact le_rfl
  · rw [Multiset.count_zero, Nat.cast_zero, add_zero]
  · exact iff_of_false (Bool.eq_false_iff.1 (hlocked k)) (Finset.notMem_empty k)
  · unfold oneProgram at hk hk' hinum
    grind

/-- The first process, with that directory. -/
def firstExec (phnum : UInt8) (m : MemSys) : ExecState where
  inodes := oneProgram phnum
  heap := m.heap
  proc := ⟨(m.space 0).trapframe.getD 0, (m.space 0).pagetable.getD 0, (m.space 0).sz,
    List.replicate 16 0, fun _ => none, 0⟩

/-- Its calls of `exec` are as `exec` expects them. -/
theorem firstExec_ready {phnum : UInt8} {path : KString} {argv : List KString} {r : ℤ}
    (hrun : (MemSys.boot (phystop - 20) 0x80007 2 (by decide) (fun _ => filled 0)).any
      (fun m => decide ((m.table.proc 0).state ≠ .unused) &&
        ((firstExec phnum m).exec path argv).any fun x => decide (x.2 = r)) = true) :
    ∃ s f R s', Ready s f R ∧ s.exec path argv = some (s', r) := by
  obtain ⟨m, hboot, hm⟩ := (any_eq_true _ _).1 hrun
  obtain ⟨hused, hm⟩ := (Bool.and_eq_true_iff).1 hm
  obtain ⟨⟨s', r'⟩, hexec, hr⟩ := (any_eq_true _ _).1 hm
  obtain rfl : r' = r := of_decide_eq_true hr
  have hok := MemSys.boot_ok hboot
  obtain ⟨trapframe, pagetable, hv⟩ := hok.used 0 (of_decide_eq_true hused)
  have htf : (m.space 0).trapframe.getD 0 = trapframe := by
    rw [congrArg UserSpace.trapframe hv.eq, getD_some]
  have hpt : (m.space 0).pagetable.getD 0 = pagetable := by
    rw [congrArg UserSpace.pagetable hv.eq, getD_some]
  refine ⟨firstExec phnum m, leaf m.heap.mem pagetable, m.others 0, s',
    ⟨?_, ?_, oneProgram_atRest phnum, Int.one_pos⟩, hexec⟩
  · show Heap.Image m.heap ((m.space 0).pagetable.getD 0) (npages (m.space 0).sz) _
      ({(m.space 0).trapframe.getD 0} + _)
    rw [htf, hpt]
    exact hok.image hv
  · have := hv.sz
    show (m.space 0).sz ≤ 2 ^ 63
    omega

/-- **A call of `exec` that fails leaves the process as it was.** No contents of the file make it
panic: unless there are too many arguments, a panic is one of the functions for inodes, such as
`readi` of the file after some reads of it. -/
theorem exec_fails_untouched (hs : Ready s f R) (path : KString) :
    (∀ argv s', s.exec path argv = some (s', -1) → Untouched s s') ∧
    (∀ file : ExecFile, ∃ r, s.heap.execLoad file.reader s.proc.trapframe () = some r) ∧
    ∀ argv, argv.length < maxarg → s.exec path argv = none → s.InodePanics path := by
  refine ⟨fun argv s' hrun => ?_, fun file => ?_, fun argv hlen hnone => ?_⟩
  · have hfails (h : Fails s (s.exec path argv)) : Untouched s s' := by
      obtain ⟨s1, hrun1, hu⟩ := h
      rw [hrun] at hrun1
      cases hrun1
      exact hu
    rcases exec_outcomes hs path with ⟨-, hnone⟩ | hfail | hargs
    · rw [hnone argv] at hrun
      cases hrun
    · exact hfails (hfail argv)
    · rcases hargs argv with ⟨-, hnone⟩ | ⟨-, hfail⟩ | ⟨-, s1, n, sp, hrun1, hstart⟩
      · rw [hnone] at hrun
        cases hrun
      · exact hfails hfail
      · -- the number of the arguments is not negative
        rw [hrun1] at hrun
        cases hrun
        have := hstart.argc
        omega
  · rcases execLoad_spec (reads_file file) s.proc.trapframe hs.image.tab.owns trivial with
      ⟨h', s', l, hload, -⟩ | ⟨-, s', off, n, -, hnone⟩
    · exact ⟨_, hload⟩
    · cases hnone
  · rcases exec_outcomes hs path with ⟨hpanic, -⟩ | hfail | hargs
    · exact hpanic
    · obtain ⟨s', hrun, -⟩ := hfail argv
      rw [hnone] at hrun
      cases hrun
    · rcases hargs argv with ⟨hmax, -⟩ | ⟨-, s', hrun, -⟩ | ⟨-, s', n, sp, hrun, -⟩
      · exact absurd hmax hlen.ne
      · rw [hnone] at hrun
        cases hrun
      · rw [hnone] at hrun
        cases hrun

/-- The segment of `x` cannot be read. -/
theorem exec_fails_untouched_segment : ∃ s f R s', Ready s f R ∧
    s.exec ⟨[0x78], by decide, by decide⟩ [] = some (s', -1) ∧ Untouched s s' := by
  have hrun : (MemSys.boot (phystop - 20) 0x80007 2 (by decide) (fun _ => filled 0)).any (fun m =>
      decide ((m.table.proc 0).state ≠ .unused) && ((firstExec 1 m).exec
        ⟨[0x78], by decide, by decide⟩ []).any fun x => decide (x.2 = -1)) = true := by
    decide +kernel
  obtain ⟨s, f, R, s', hs, hrun⟩ := firstExec_ready hrun
  exact ⟨s, f, R, s', hs, hrun, (exec_fails_untouched hs _).1 _ _ hrun⟩

/-- **`exec` delivers its arguments.** Where it can succeed at all, it fails for those arguments that
do not fit into a page. -/
theorem exec_delivers (hs : Ready s f R) (path : KString) :
    (∀ argv s' r, s.exec path argv = some (s', r) → r ≠ -1 → ∃ sp, Started s' argv r sp) ∧
    ((∀ argv s' r, s.exec path argv = some (s', r) → r = -1) ∨
      ∀ argv, argv.length < maxarg →
        ∃ s' r, s.exec path argv = some (s', r) ∧ (r = -1 ↔ ¬ StackFits argv)) := by
  rcases exec_outcomes hs path with ⟨-, hnone⟩ | hfail | hargs
  · have hno : ∀ argv s' r, s.exec path argv ≠ some (s', r) := fun argv s' r hrun => by
      rw [hnone argv] at hrun
      cases hrun
    exact ⟨fun argv s' r hrun => absurd hrun (hno argv s' r),
      Or.inl fun argv s' r hrun => absurd hrun (hno argv s' r)⟩
  · have hret : ∀ argv s' r, s.exec path argv = some (s', r) → r = -1 := fun argv s' r hrun => by
      obtain ⟨s1, hrun1, -⟩ := hfail argv
      rw [hrun] at hrun1
      cases hrun1
      rfl
    exact ⟨fun argv s' r hrun hr => absurd (hret argv s' r hrun) hr, Or.inl hret⟩
  · refine ⟨fun argv s' r hrun hr => ?_, Or.inr fun argv hlt => ?_⟩
    · rcases hargs argv with ⟨-, hnone⟩ | ⟨-, s1, hrun1, -⟩ | ⟨-, s1, n, sp, hrun1, hstart⟩
      · rw [hnone] at hrun
        cases hrun
      · rw [hrun] at hrun1
        cases hrun1
        exact absurd rfl hr
      · rw [hrun] at hrun1
        cases hrun1
        exact ⟨sp, hstart⟩
    · rcases hargs argv with ⟨hmax, -⟩ | ⟨hno, s1, hrun, -⟩ | ⟨hfit, s1, n, sp, hrun, hstart⟩
      · exact absurd hmax hlt.ne
      · exact ⟨s1, -1, hrun, iff_of_true rfl hno⟩
      · refine ⟨s1, n, hrun, iff_of_false ?_ (not_not.2 hfit)⟩
        have := hstart.argc
        omega

/-- `x` is called with its name and `ab`. -/
theorem exec_delivers_two : ∃ s f R s', Ready s f R ∧
    s.exec ⟨[0x78], by decide, by decide⟩ [⟨[0x78], by decide, by decide⟩,
      ⟨[0x61, 0x62], by decide, by decide⟩] = some (s', 2) ∧
    ∃ sp, Started s' [⟨[0x78], by decide, by decide⟩, ⟨[0x61, 0x62], by decide, by decide⟩] 2 sp := by
  have hrun : (MemSys.boot (phystop - 20) 0x80007 2 (by decide) (fun _ => filled 0)).any (fun m =>
      decide ((m.table.proc 0).state ≠ .unused) && ((firstExec 0 m).exec
        ⟨[0x78], by decide, by decide⟩ [⟨[0x78], by decide, by decide⟩,
          ⟨[0x61, 0x62], by decide, by decide⟩]).any fun x => decide (x.2 = 2)) = true := by
    decide +kernel
  obtain ⟨s, f, R, s', hs, hrun⟩ := firstExec_ready hrun
  exact ⟨s, f, R, s', hs, hrun, (exec_delivers hs _).1 _ _ _ hrun (by decide)⟩

end ExecState

end AudioPlayer
