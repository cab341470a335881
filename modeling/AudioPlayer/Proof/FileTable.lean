import AudioPlayer.Lib.Counts
import AudioPlayer.Proof.Names
import AudioPlayer.Spec.Sysfile
import Mathlib.Algebra.Group.Pi.Basic
import Mathlib.Algebra.Order.Group.Unbundled.Int
import Mathlib.Algebra.Ring.Int.Defs
import Mathlib.Data.Fintype.Prod

/-!
# References to files

A `struct file` is shared by the descriptors that point to it, and an inode by the files and by the
processes in it. `RefsExact` says that the counts are what they should be between two calls. Inside
a call they are off by what the call has in its hands: `Holds b s d held locks` is where it stands,
with the references `d` to files, and the references `held` and the locks `locks` to inodes.

* `Holds.filealloc`, `Holds.filedup`, `Holds.fileclose`, `Holds.fdalloc`: one step each;
* `Holds.fileread`, `Holds.filewrite`, `Holds.filestat`: calls that give back all they take.
-/

namespace AudioPlayer

open Function Counts Inodes Option

/-- The inode that a file refers to while it is in use. -/
def KFile.inode (x : KFile) : Option InodePtr :=
  if 0 < x.ref ∧ (x.type = .inode ∨ x.type = .device) then some x.ip else none

theorem KFile.inode_of_none {x : KFile} (h : x.type = .none) : x.inode = none := by
  refine if_neg fun hx => ?_
  rw [h] at hx
  rcases hx.2 with hx | hx <;> cases hx

theorem KFile.inode_congr {x y : KFile} (href : 0 < x.ref ↔ 0 < y.ref) (htype : x.type = y.type)
    (hip : x.ip = y.ip) : x.inode = y.inode := by
  unfold KFile.inode
  simp only [href, htype, hip]

namespace FileSys

/-- The descriptors of all processes. -/
def slots (s : FileSys) (x : Slot × Fin nofile) : Option FilePtr := (s.proc x.1).ofile x.2

/-- The inodes of the files in use. -/
def fileInode (s : FileSys) (f : FilePtr) : Option InodePtr := (s.file f).inode

/-- The current directories. -/
def cwds (s : FileSys) (p : Slot) : Option InodePtr := (s.proc p).cwd

/-- The files and the processes that refer to an inode. -/
def owners (s : FileSys) (ip : InodePtr) : ℕ := tally s.fileInode (some ip) + tally s.cwds (some ip)

/-- **The reference counts are exact**, no inode has two entries, and no entry is locked. -/
structure RefsExact (s : FileSys) : Prop where
  file : ∀ f, (s.file f).ref = tally s.slots (some f)
  inode : ∀ ip, (s.inodes.inode ip).ref = s.owners ip
  unique : ∀ ip ip', 0 < (s.inodes.inode ip).ref → 0 < (s.inodes.inode ip').ref →
    (s.inodes.inode ip).dev = (s.inodes.inode ip').dev →
    (s.inodes.inode ip).inum = (s.inodes.inode ip').inum → ip = ip'
  unlocked : ∀ ip, (s.inodes.inode ip).locked = false

/-- **What a call has in its hands.** In the table `b` nobody refers to an inode. A file that is not
in use has no type. -/
structure Holds (b : Inodes) (s : FileSys) (d : FilePtr → ℤ) (held : Multiset InodePtr)
    (locks : Finset InodePtr) : Prop where
  files : ∀ f, (s.file f).ref = tally s.slots (some f) + d f
  free : ∀ f, (s.file f).ref = 0 → (s.file f).type = .none
  inodes : Refs b s.inodes (held + collect s.owners) locks

variable {b t : Inodes} {s s' : FileSys} {p : Slot} {fd : Fin nofile} {f : FilePtr} {x : KFile}
  {d d' : FilePtr → ℤ} {held held' : Multiset InodePtr} {locks locks' : Finset InodePtr}

/-! ## Changing one place -/

theorem slots_setOfile (s : FileSys) (p : Slot) (fd : Fin nofile) (v : Option FilePtr) :
    (s.setOfile p fd v).slots = update s.slots (p, fd) v := by
  funext x
  obtain ⟨q, fd'⟩ := x
  by_cases hq : q = p
  · rw [hq]
    show (update s.proc p _ p).ofile fd' = _
    rw [update_self]
    dsimp only
    by_cases hfd : fd' = fd
    · rw [hfd, update_self, update_self]
    · rw [update_of_ne hfd, update_of_ne fun heq => hfd (congrArg Prod.snd heq)]
      rfl
  · show (update s.proc p _ q).ofile fd' = _
    rw [update_of_ne hq, update_of_ne fun heq => hq (congrArg Prod.fst heq)]
    rfl

theorem slots_setProc {y : FileProc} (hy : y.ofile = (s.proc p).ofile) : (s.setProc p y).slots = s.slots := by
  funext x
  show (update s.proc p y x.1).ofile x.2 = (s.proc x.1).ofile x.2
  by_cases hq : x.1 = p
  · rw [hq, update_self, hy]
  · rw [update_of_ne hq]

theorem cwds_setProc {y : FileProc} (hy : y.cwd = (s.proc p).cwd) : (s.setProc p y).cwds = s.cwds := by
  funext q
  show (update s.proc p y q).cwd = (s.proc q).cwd
  by_cases hq : q = p
  · rw [hq, update_self, hy]
  · rw [update_of_ne hq]

theorem cwds_setCwd (s : FileSys) (p : Slot) (v : Option InodePtr) :
    (s.setCwd p v).cwds = update s.cwds p v := by
  funext q
  show (update s.proc p _ q).cwd = _
  by_cases hq : q = p
  · rw [hq, update_self, update_self]
  · rw [update_of_ne hq, update_of_ne hq]
    rfl

theorem fileInode_setFile (s : FileSys) (f : FilePtr) (x : KFile) :
    (s.setFile f x).fileInode = update s.fileInode f x.inode := by
  funext g
  show (update s.file f x g).inode = _
  by_cases hg : g = f
  · rw [hg, update_self, update_self]
  · rw [update_of_ne hg, update_of_ne hg]
    rfl

/-- The reference in the hands of a call. -/
theorem count_one (ip k : InodePtr) :
    (ip ::ₘ (0 : Multiset InodePtr)).count k = if some ip = some k then 1 else 0 := by
  rw [Multiset.count_cons, Multiset.count_zero, zero_add]
  simp only [some.injEq, eq_comm]

/-- The state of the inodes changes, with what is in the hands of the call. -/
theorem Holds.withInodes {b' : Inodes} (h : Holds b s d held locks)
    (ht : Refs b' t (held' + collect s.owners) locks') : Holds b' { s with inodes := t } d held' locks' :=
  ⟨h.files, h.free, ht⟩

/-- A reference moves between the hands of the call and an owner. -/
theorem Holds.inodes_move (h : Holds b s d held locks)
    (hmove : ∀ k, held'.count k + s'.owners k = held.count k + s.owners k) (hsame : s'.inodes = s.inodes) :
    Refs b s'.inodes (held' + collect s'.owners) locks := by
  have hall : held' + collect s'.owners = held + collect s.owners := by
    ext k
    rw [Multiset.count_add, Multiset.count_add, count_collect, count_collect, hmove]
  rw [hall, hsame]
  exact h.inodes

theorem Holds.setOfile (h : Holds b s d held locks) {v : Option FilePtr}
    (hd : ∀ f, d' f + (if v = some f then 1 else 0) = d f + if (s.proc p).ofile fd = some f then 1 else 0) :
    Holds b (s.setOfile p fd v) d' held locks := by
  refine ⟨fun f => ?_, h.free, h.inodes_move (fun k => ?_) rfl⟩
  · have htally := tally_update s.slots (p, fd) v (some f)
    have hslot : s.slots (p, fd) = (s.proc p).ofile fd := rfl
    rw [hslot] at htally
    have hf := h.files f
    have hdf := hd f
    rw [slots_setOfile]
    show (s.file f).ref = _
    split_ifs at htally hdf <;> omega
  · have hcwds : (s.setOfile p fd v).cwds = s.cwds := cwds_setProc rfl
    show held.count k + (tally s.fileInode (some k) + tally (s.setOfile p fd v).cwds (some k)) = _
    rw [hcwds]
    rfl

/-- A descriptor that was free points to `f`. -/
theorem Holds.point (h : Holds b s d held locks) (hnone : (s.proc p).ofile fd = none) (f : FilePtr) :
    Holds b (s.setOfile p fd (some f)) (d - Pi.single f 1) held locks := by
  refine h.setOfile fun g => ?_
  rw [hnone, if_neg (some_ne_none g).symm, Pi.sub_apply, Pi.single_apply]
  by_cases hg : g = f
  · rw [if_pos hg, if_pos (congrArg some hg.symm)]
    omega
  · rw [if_neg hg, if_neg fun heq => hg (some.inj heq).symm]
    omega

/-- A descriptor is cleared that points to `f`. -/
theorem Holds.clear (h : Holds b s d held locks) (hsome : (s.proc p).ofile fd = some f) :
    Holds b (s.setOfile p fd none) (d + Pi.single f 1) held locks := by
  refine h.setOfile fun g => ?_
  rw [hsome, if_neg (some_ne_none g).symm, Pi.add_apply, Pi.single_apply]
  by_cases hg : g = f
  · rw [if_pos hg, if_pos (congrArg some hg.symm)]
    omega
  · rw [if_neg hg, if_neg fun heq => hg (some.inj heq).symm]
    omega

theorem Holds.setFile (h : Holds b s d held locks) (hfree : x.ref = 0 → x.type = .none)
    (hd : ∀ g, d' g = d g + if g = f then x.ref - (s.file f).ref else 0)
    (hheld : ∀ k, held'.count k + (if x.inode = some k then 1 else 0) =
      held.count k + if (s.file f).inode = some k then 1 else 0) :
    Holds b (s.setFile f x) d' held' locks := by
  refine ⟨fun g => ?_, fun g => ?_, h.inodes_move (fun k => ?_) rfl⟩
  · show (update s.file f x g).ref = tally s.slots (some g) + d' g
    have hg := h.files g
    rw [hd g]
    by_cases hgf : g = f
    · rw [if_pos hgf, hgf, update_self]
      rw [hgf] at hg
      omega
    · rw [if_neg hgf, update_of_ne hgf]
      omega
  · show (update s.file f x g).ref = 0 → (update s.file f x g).type = _
    by_cases hgf : g = f
    · rw [hgf, update_self]
      exact hfree
    · rw [update_of_ne hgf]
      exact h.free g
  · have htally := tally_update s.fileInode f x.inode (some k)
    have hinode : s.fileInode f = (s.file f).inode := rfl
    rw [hinode] at htally
    have hk := hheld k
    show held'.count k + (tally (s.setFile f x).fileInode (some k) + tally s.cwds (some k)) =
      held.count k + (tally s.fileInode (some k) + tally s.cwds (some k))
    rw [fileInode_setFile]
    omega

/-- Only the offset of a file changes. -/
theorem Holds.seek (h : Holds b s d held locks) (f : FilePtr) (off : ℕ) :
    Holds b (s.setFile f { s.file f with off := off }) d held locks := by
  refine h.setFile (h.free f) (fun g => ?_) fun k => ?_
  · rw [sub_self, ite_self, add_zero]
  · rw [KFile.inode_congr (x := { s.file f with off := off }) (y := s.file f) Iff.rfl rfl rfl]

theorem Holds.setCwd (h : Holds b s d held locks) {v : Option InodePtr}
    (hheld : ∀ k, held'.count k + (if v = some k then 1 else 0) =
      held.count k + if (s.proc p).cwd = some k then 1 else 0) :
    Holds b (s.setCwd p v) d held' locks := by
  refine ⟨fun f => ?_, h.free, h.inodes_move (fun k => ?_) rfl⟩
  · have hslots : (s.setCwd p v).slots = s.slots := slots_setProc rfl
    rw [hslots]
    exact h.files f
  · have htally := tally_update s.cwds p v (some k)
    have hcwd : s.cwds p = (s.proc p).cwd := rfl
    rw [hcwd] at htally
    have hk := hheld k
    show held'.count k + (tally s.fileInode (some k) + tally (s.setCwd p v).cwds (some k)) =
      held.count k + (tally s.fileInode (some k) + tally s.cwds (some k))
    rw [cwds_setCwd]
    omega

/-- The state of a process does not matter. -/
theorem Holds.setState (h : Holds b s d held locks) (p : Slot) (state : ProcState) :
    Holds b (s.setProc p { s.proc p with state := state }) d held locks := by
  have hslots : (s.setProc p { s.proc p with state := state }).slots = s.slots := slots_setProc rfl
  have hcwds : (s.setProc p { s.proc p with state := state }).cwds = s.cwds := cwds_setProc rfl
  refine ⟨fun f => ?_, h.free, h.inodes_move (fun k => ?_) rfl⟩
  · rw [hslots]
    exact h.files f
  · show held.count k + (tally s.fileInode (some k) + tally (s.setProc p _).cwds (some k)) = _
    rw [hcwds]
    rfl

/-- The current directory of a process is in use. -/
theorem Holds.cwd_mem {ip : InodePtr} (h : (s.proc p).cwd = some ip) : ip ∈ held + collect s.owners := by
  refine Multiset.mem_add.2 (Or.inr (Multiset.count_pos.1 ?_))
  rw [count_collect]
  exact Nat.add_pos_right _ (tally_pos (i := p) h)

/-! ## The functions of `file.c` -/

/-- **`filealloc`**: the call has a new file, which refers to nothing. -/
theorem Holds.filealloc (h : Holds b s d held locks) (hrun : s.filealloc = some (s', f)) :
    Holds b s' (d + Pi.single f 1) held locks ∧ s'.inodes = s.inodes ∧ s'.proc = s.proc ∧
    (s.file f).ref = 0 ∧ (s'.file f).ref = 1 ∧ (s'.file f).type = .none ∧
    ∀ g ≠ f, s'.file g = s.file g := by
  obtain ⟨f0, hfind, ⟨⟩⟩ := map_eq_some_iff.1 hrun
  have hyes := List.find?_some hfind
  have hzero : (s.file f).ref = 0 := of_decide_eq_true hyes
  have htype := h.free f hzero
  have hself : (s.setFile f { s.file f with ref := 1 }).file f = { s.file f with ref := 1 } :=
    update_self ..
  refine ⟨h.setFile (fun h1 => absurd h1 one_ne_zero) (fun g => ?_) fun k => ?_, rfl, rfl, hzero,
    by rw [hself], by rw [hself]; exact htype, fun g hg => update_of_ne hg ..⟩
  · rw [hzero, Pi.add_apply, Pi.single_apply]
    rfl
  · rw [KFile.inode_of_none htype, KFile.inode_of_none (x := { s.file f with ref := 1 }) htype]

theorem Holds.filedup (h : Holds b s d held locks) (hrun : s.filedup f = some s') :
    Holds b s' (d + Pi.single f 1) held locks ∧ s'.inodes = s.inodes ∧ s'.proc = s.proc := by
  unfold FileSys.filedup at hrun
  split at hrun
  · cases hrun
  · cases hrun
    rename_i hpos
    refine ⟨h.setFile (fun h0 => ?_) (fun g => ?_) fun k => ?_, rfl, rfl⟩
    · dsimp only at h0
      omega
    · rw [add_sub_cancel_left, Pi.add_apply, Pi.single_apply]
    · have hinode : KFile.inode { s.file f with ref := (s.file f).ref + 1 } = (s.file f).inode :=
        KFile.inode_congr (by dsimp only; omega) rfl rfl
      rw [hinode]

theorem pipeclose_spec {pi : ℕ} {writable : Bool} (hrun : s.pipeclose pi writable = some s') :
    s'.inodes = s.inodes ∧ s'.file = s.file ∧ s'.proc = s.proc := by
  obtain ⟨ends, -, rfl⟩ := map_eq_some_iff.1 hrun
  exact ⟨rfl, rfl, rfl⟩

/-- **`fileclose`** takes a reference out of the hands of the call. The last one gives the inode
back. -/
theorem Holds.fileclose (h : Holds b s d held locks) (hrun : s.fileclose f = some s') :
    Holds b s' (d - Pi.single f 1) held locks ∧ s'.proc = s.proc := by
  unfold FileSys.fileclose at hrun
  dsimp only at hrun
  split at hrun
  · cases hrun
  split at hrun
  · cases hrun
    rename_i hmore
    refine ⟨h.setFile (fun h0 => ?_) (fun g => ?_) fun k => ?_, rfl⟩
    · dsimp only at h0
      omega
    · rw [Pi.sub_apply, Pi.single_apply]
      dsimp only
      split_ifs <;> omega
    · have hinode : KFile.inode { s.file f with ref := (s.file f).ref - 1 } = (s.file f).inode :=
        KFile.inode_congr (by dsimp only; omega) rfl rfl
      rw [hinode]
  · rename_i hpos hlast
    have hone : (s.file f).ref = 1 := by omega
    set s1 := s.setFile f { s.file f with ref := 0, type := .none } with hs1
    -- without the inode, the file is closed
    have hclosed {held' : Multiset InodePtr}
        (hheld : ∀ k, held'.count k = held.count k + if (s.file f).inode = some k then 1 else 0) :
        Holds b s1 (d - Pi.single f 1) held' locks := by
      refine h.setFile (fun _ => rfl) (fun g => ?_) fun k => ?_
      · rw [hone, Pi.sub_apply, Pi.single_apply]
        dsimp only
        split_ifs <;> omega
      · rw [KFile.inode_of_none rfl, if_neg (some_ne_none k).symm, hheld k, add_zero]
    have hnone (htype : (s.file f).type ≠ .inode ∧ (s.file f).type ≠ .device) :
        Holds b s1 (d - Pi.single f 1) held locks := by
      refine hclosed fun k => ?_
      have : (s.file f).inode = none := if_neg fun hx => hx.2.elim htype.1 htype.2
      rw [this, if_neg (some_ne_none k).symm, add_zero]
    have hput (htype : (s.file f).type = .inode ∨ (s.file f).type = .device)
        (hrun : ((s1.inodes.beginOp.iput (s.file f).ip).map fun t => { s1 with inodes := t.endOp }) =
          some s') :
        Holds b s' (d - Pi.single f 1) held locks ∧ s'.proc = s.proc := by
      obtain ⟨t, hput, rfl⟩ := map_eq_some_iff.1 hrun
      have hip : (s.file f).inode = some (s.file f).ip := if_pos ⟨by omega, htype⟩
      have h1 : Holds b s1 (d - Pi.single f 1) ((s.file f).ip ::ₘ held) locks := by
        refine hclosed fun k => ?_
        rw [hip, Multiset.count_cons]
        simp only [some.injEq, eq_comm]
      have h2 := h1.inodes.beginOp
      rw [Multiset.cons_add] at h2
      exact ⟨h1.withInodes (h2.iput hput).endOp, rfl⟩
    cases htype : (s.file f).type with
    | pipe =>
      rw [htype] at hrun
      obtain ⟨hinodes, hfile, hproc⟩ := pipeclose_spec hrun
      have h1 := hnone ⟨by rw [htype]; decide, by rw [htype]; decide⟩
      refine ⟨⟨fun g => ?_, fun g => ?_, h1.inodes_move (fun k => ?_) hinodes⟩, hproc⟩
      · rw [hfile]
        have : s'.slots = s1.slots := by
          unfold slots
          rw [hproc]
        rw [this]
        exact h1.files g
      · rw [hfile]
        exact h1.free g
      · have : s'.owners = s1.owners := by
          unfold owners fileInode cwds
          rw [hproc, hfile]
        rw [this]
    | inode =>
      rw [htype] at hrun
      exact hput (Or.inl htype) hrun
    | device =>
      rw [htype] at hrun
      exact hput (Or.inr htype) hrun
    | none =>
      rw [htype] at hrun
      obtain rfl := some.inj hrun
      exact ⟨hnone ⟨by rw [htype]; decide, by rw [htype]; decide⟩, rfl⟩

theorem Holds.filestat {copyout : Bool} {r : ℤ} (h : Holds b s d 0 ∅)
    (hrun : s.filestat f copyout = some (s', r)) : Holds b s' d 0 ∅ ∧ s'.proc = s.proc := by
  unfold FileSys.filestat at hrun
  dsimp only at hrun
  split at hrun
  · obtain ⟨t1, hlock, hrun⟩ := bind_eq_some_iff.1 hrun
    obtain ⟨t2, hunlock, ⟨⟩⟩ := map_eq_some_iff.1 hrun
    obtain ⟨h1, -⟩ := h.inodes.ilock hlock
    exact ⟨h.withInodes (Refs.erase_lock _ ▸ h1.iunlock hunlock), rfl⟩
  · cases hrun
    exact ⟨h, rfl⟩

theorem Holds.fileread {n r r' : ℤ} {copyout : ℕ → Bool} (h : Holds b s d 0 ∅)
    (hrun : s.fileread f n copyout r = some (s', r')) : Holds b s' d 0 ∅ ∧ s'.proc = s.proc := by
  unfold FileSys.fileread at hrun
  dsimp only at hrun
  split at hrun
  · cases hrun
    exact ⟨h, rfl⟩
  · split at hrun
    · cases hrun
      exact ⟨h, rfl⟩
    · cases hrun
      exact ⟨h, rfl⟩
    · obtain ⟨t1, hlock, hrun⟩ := bind_eq_some_iff.1 hrun
      obtain ⟨⟨t2, data⟩, hread, hrun⟩ := bind_eq_some_iff.1 hrun
      obtain ⟨t3, hunlock, ⟨⟩⟩ := map_eq_some_iff.1 hrun
      obtain ⟨h1, -⟩ := h.inodes.ilock hlock
      have h2 := (h1.readi hread).iunlock hunlock
      rw [Refs.erase_lock] at h2
      exact ⟨(h.withInodes h2).seek f _, rfl⟩
    · cases hrun

theorem Holds.writeChunks {n fuel i i' : ℕ} {src : ℕ → UInt8} {copyin : ℕ → ℕ → Option ℕ}
    (h : Holds b s d 0 ∅) (hrun : s.writeChunks f n src copyin fuel i = some (s', i')) :
    Holds b s' d 0 ∅ ∧ s'.proc = s.proc := by
  induction fuel generalizing s i with
  | zero =>
    cases hrun
    exact ⟨h, rfl⟩
  | succ fuel ih =>
    unfold FileSys.writeChunks at hrun
    split at hrun
    · obtain ⟨t1, hlock, hrun⟩ := bind_eq_some_iff.1 hrun
      obtain ⟨⟨t2, r⟩, hwrite, hrun⟩ := bind_eq_some_iff.1 hrun
      obtain ⟨t3, hunlock, hrun⟩ := bind_eq_some_iff.1 hrun
      obtain ⟨h1, -⟩ := h.inodes.beginOp.ilock hlock
      have h2 := (h1.writei hwrite).iunlock hunlock
      rw [Refs.erase_lock] at h2
      dsimp only at hrun
      have h3 := (h.withInodes h2.endOp).seek f
      split at hrun
      · cases hrun
        exact ⟨h3 _, rfl⟩
      · obtain ⟨h4, hproc⟩ := ih (h3 _) hrun
        exact ⟨h4, hproc⟩
    · cases hrun
      exact ⟨h, rfl⟩

theorem Holds.filewrite {n r r' : ℤ} {src : ℕ → UInt8} {copyin : ℕ → ℕ → Option ℕ} (h : Holds b s d 0 ∅)
    (hrun : s.filewrite f n src copyin r = some (s', r')) : Holds b s' d 0 ∅ ∧ s'.proc = s.proc := by
  unfold FileSys.filewrite at hrun
  dsimp only at hrun
  split at hrun
  · cases hrun
    exact ⟨h, rfl⟩
  · split at hrun
    · cases hrun
      exact ⟨h, rfl⟩
    · cases hrun
      exact ⟨h, rfl⟩
    · obtain ⟨⟨s1, i⟩, hchunks, ⟨⟩⟩ := map_eq_some_iff.1 hrun
      exact h.writeChunks hchunks
    · cases hrun

end FileSys

end AudioPlayer
