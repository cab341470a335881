import AudioPlayer.Proof.Refs
import AudioPlayer.Spec.Names

/-!
# References while names are made and removed

Each exit of `create`, `link`, `unlink`, `mkdir` and `mknod` undoes what the call has acquired on the
way there (`Refs.create`, `Refs.link`, `Refs.unlink`, `Refs.make`), whatever is on the disk.
-/

namespace AudioPlayer

open Option

namespace Inodes

variable {s t t' : Inodes} {ip dp cwd : InodePtr} {held : Multiset InodePtr} {locks : Finset InodePtr}
  {r : ℤ} {type major minor : ℕ} {path : KString}

namespace Refs

theorem beginOp (h : Refs s t held locks) : Refs s.beginOp t.beginOp held locks := by
  refine ⟨?_, h.nonneg, h.ref, h.locked, h.same, h.unique⟩
  show t.outstanding + 1 = s.outstanding + 1
  rw [h.outstanding]

/-- The disk and a copy of an inode are changed. -/
theorem setDisk (h : Refs s t held locks) (fs : Fs) (ip : InodePtr) (din : Dinode) :
    Refs s ({ t with fs := fs }.set ip { t.inode ip with din := din }) held locks :=
  (h.withFs fs).setCopy ip (t.inode ip).valid din

theorem writei {off : ℕ} {src : List UInt8} {copyin : ℕ → Option ℕ} (h : Refs s t held locks)
    (hrun : t.writei ip off src copyin = some (t', r)) : Refs s t' held locks := by
  obtain ⟨⟨fs, din, r'⟩, -, ⟨⟩⟩ := map_eq_some_iff.1 hrun
  exact h.setDisk fs ip din

theorem itrunc (h : Refs s t held locks) (hrun : t.itrunc ip = some t') : Refs s t' held locks := by
  obtain ⟨⟨fs, din⟩, -, rfl⟩ := map_eq_some_iff.1 hrun
  exact h.setDisk fs ip din

theorem update (h : Refs s t held locks) (ip : InodePtr) (din : Dinode) :
    Refs s (t.update ip din) held locks :=
  h.setDisk _ ip din

theorem addLink (h : Refs s t held locks) (ip : InodePtr) : Refs s (t.addLink ip) held locks :=
  h.update ip _

theorem dropLink (h : Refs s t held locks) (ip : InodePtr) : Refs s (t.dropLink ip) held locks :=
  h.update ip _

theorem ialloc {dev type : ℕ} (h : Refs s t held locks) (hrun : t.ialloc dev type = some (t', ip)) :
    Refs s t' (ip ::ₘ held) locks := by
  obtain ⟨⟨fs, inum⟩, -, hget⟩ := bind_eq_some_iff.1 hrun
  exact (h.withFs fs).iget hget

/-- **`dirlink`** gives the inode of an entry that is there back at once. -/
theorem dirlink {name : List UInt8} {inum : ℕ} (h : Refs s t held locks)
    (hrun : t.dirlink dp name inum = some (t', r)) : Refs s t' held locks := by
  obtain ⟨⟨t1, found⟩, hlook, hrun⟩ := bind_eq_some_iff.1 hrun
  have h1 := h.dirlookup hlook
  cases found with
  | some e =>
    obtain ⟨t2, hput, ⟨⟩⟩ := map_eq_some_iff.1 hrun
    exact h1.iput hput
  | none =>
    obtain ⟨⟨fs, din, off⟩, -, hrun⟩ := bind_eq_some_iff.1 hrun
    obtain ⟨⟨t2, r'⟩, hwrite, hrun⟩ := bind_eq_some_iff.1 hrun
    have h2 := Refs.writei (h1.setDisk fs dp din) hwrite
    dsimp only at hrun
    split at hrun
    · cases hrun
    · cases hrun
      exact h2

theorem emptyLoop {fuel off : ℕ} {r : Bool} (h : Refs s t held locks)
    (hrun : t.emptyLoop dp fuel off = some (t', r)) : Refs s t' held locks := by
  induction fuel generalizing t off with
  | zero =>
    cases hrun
    exact h
  | succ fuel ih =>
    unfold Inodes.emptyLoop at hrun
    split at hrun
    · obtain ⟨⟨t1, data⟩, hread, hrun⟩ := bind_eq_some_iff.1 hrun
      have h1 := h.readi hread
      cases data with
      | none => cases hrun
      | some de =>
        dsimp only at hrun
        split at hrun
        · cases hrun
        · split at hrun
          · cases hrun
            exact h1
          · exact ih h1 hrun
    · cases hrun
      exact h

/-! ## `create` -/

theorem createDots (h : Refs s t held locks) (hrun : t.createDots dp ip = some t') :
    Refs s t' held locks := by
  obtain ⟨⟨t1, r1⟩, hdot, hrun⟩ := bind_eq_some_iff.1 hrun
  have h1 := (h.addLink dp).dirlink hdot
  dsimp only at hrun
  split at hrun
  · cases hrun
  · obtain ⟨⟨t2, r2⟩, hdotdot, hrun⟩ := bind_eq_some_iff.1 hrun
    have h2 := h1.dirlink hdotdot
    dsimp only at hrun
    split at hrun
    · cases hrun
    · cases hrun
      exact h2

/-- The new inode is held in place of the directory. -/
theorem createNew {name : List UInt8} (h : Refs s t (dp ::ₘ held) {dp})
    (hrun : t.createNew dp name type major minor = some (t', ip)) : Refs s t' (ip ::ₘ held) {ip} := by
  obtain ⟨⟨t1, ip1⟩, halloc, hrun⟩ := bind_eq_some_iff.1 hrun
  obtain ⟨t2, hlock, hrun⟩ := bind_eq_some_iff.1 hrun
  obtain ⟨h2, hfree⟩ := (h.ialloc halloc).ilock hlock
  obtain ⟨t3, hdots, hrun⟩ := bind_eq_some_iff.1 hrun
  have h3 : Refs s t3 (ip1 ::ₘ dp ::ₘ held) (insert ip1 {dp}) := by
    split at hdots
    · exact (h2.update ip1 _).createDots hdots
    · cases hdots
      exact h2.update ip1 _
  obtain ⟨⟨t4, r⟩, hlink, hrun⟩ := bind_eq_some_iff.1 hrun
  have h4 := h3.dirlink hlink
  dsimp only at hrun
  split at hrun
  · cases hrun
  · obtain ⟨t5, hput, heq⟩ := map_eq_some_iff.1 hrun
    have hne : ip1 ≠ dp := fun heq => hfree (Finset.mem_singleton.2 heq)
    cases heq
    rw [Multiset.cons_swap] at h4
    have h5 := h4.iunlockput hput
    rwa [Finset.erase_insert_of_ne hne, Finset.erase_singleton] at h5

/-- The lock on the inode that a function returns, if it returns one. -/
def lockOn (ip : Option InodePtr) : Finset InodePtr := ip.elim ∅ fun ip => {ip}

theorem erase_lock (ip : InodePtr) : (insert ip (∅ : Finset InodePtr)).erase ip = ∅ :=
  Finset.erase_insert (Finset.notMem_empty ip)

/-- **`create`** holds the inode it returns and has locked it. -/
theorem create {r : Option InodePtr} (h : Refs s t held ∅)
    (hcwd : 0 < (t.inode cwd).ref) (hrun : t.create cwd path type major minor = some (t', r)) :
    Refs s t' (holding r held) (lockOn r) := by
  obtain ⟨⟨t1, dp, name⟩, hparent, hrun⟩ := bind_eq_some_iff.1 hrun
  have h1 := h.namex hcwd hparent
  cases dp with
  | none =>
    cases hrun
    exact h1
  | some dp =>
    obtain ⟨t2, hlock, hrun⟩ := bind_eq_some_iff.1 hrun
    obtain ⟨h2, -⟩ := h1.ilock hlock
    obtain ⟨⟨t3, found⟩, hlook, hrun⟩ := bind_eq_some_iff.1 hrun
    have h3 := h2.dirlookup hlook
    cases found with
    | some e =>
      obtain ⟨t4, hput, hrun⟩ := bind_eq_some_iff.1 hrun
      have h4 : Refs s t4 (e.1 ::ₘ held) ∅ := by
        have h3 : Refs s t3 (dp ::ₘ e.1 ::ₘ held) (insert dp ∅) := by
          rw [Multiset.cons_swap]
          exact h3
        exact erase_lock dp ▸ h3.iunlockput hput
      obtain ⟨t5, hlock', hrun⟩ := bind_eq_some_iff.1 hrun
      obtain ⟨h5, -⟩ := h4.ilock hlock'
      split at hrun
      · cases hrun
        exact h5
      · obtain ⟨t6, hput', ⟨⟩⟩ := map_eq_some_iff.1 hrun
        have h6 : Refs s t' held ∅ := erase_lock e.1 ▸ h5.iunlockput hput'
        exact h6
    | none =>
      obtain ⟨⟨t4, ip⟩, hnew, ⟨⟩⟩ := map_eq_some_iff.1 hrun
      exact Refs.createNew h3 hnew

/-- **`mkdir` and `mknod`** hold nothing at their end. -/
theorem make (h : Refs s t held ∅)
    (hcwd : 0 < (t.inode cwd).ref) (hrun : t.make cwd path type major minor = some (t', r)) :
    Refs s t' held ∅ := by
  obtain ⟨⟨t1, ip⟩, hcreate, hrun⟩ := bind_eq_some_iff.1 hrun
  have h1 := h.beginOp.create hcwd hcreate
  cases ip with
  | none =>
    cases hrun
    exact h1.endOp
  | some ip =>
    obtain ⟨t2, hput, ⟨⟩⟩ := map_eq_some_iff.1 hrun
    exact (erase_lock ip ▸ Refs.iunlockput h1 hput).endOp

/-! ## `link` -/

theorem linkBad (h : Refs s.beginOp t (ip ::ₘ held) ∅) (hrun : t.linkBad ip = some (t', r)) :
    Refs s t' held ∅ := by
  obtain ⟨t1, hlock, hrun⟩ := bind_eq_some_iff.1 hrun
  obtain ⟨t2, hput, ⟨⟩⟩ := map_eq_some_iff.1 hrun
  obtain ⟨h1, -⟩ := h.ilock hlock
  exact (erase_lock ip ▸ (h1.dropLink ip).iunlockput hput).endOp

/-- **`link`** holds nothing at its end, whether it succeeds or not. -/
theorem link {old new : KString} (h : Refs s t held ∅) (hcwd : cwd ∈ held)
    (hrun : t.link cwd old new = some (t', r)) : Refs s t' held ∅ := by
  obtain ⟨⟨t1, ip⟩, hnamei, hrun⟩ := bind_eq_some_iff.1 hrun
  have h1 := h.beginOp.namei (h.pos hcwd) hnamei
  cases ip with
  | none =>
    cases hrun
    exact h1.endOp
  | some ip =>
    obtain ⟨t2, hlock, hrun⟩ := bind_eq_some_iff.1 hrun
    obtain ⟨h2, -⟩ := h1.ilock hlock
    split at hrun
    · obtain ⟨t3, hput, ⟨⟩⟩ := map_eq_some_iff.1 hrun
      exact (erase_lock ip ▸ Refs.iunlockput h2 hput).endOp
    · obtain ⟨t3, hunlock, hrun⟩ := bind_eq_some_iff.1 hrun
      have h3 : Refs s.beginOp t3 (ip ::ₘ held) ∅ := erase_lock ip ▸ (h2.addLink ip).iunlock hunlock
      obtain ⟨⟨t4, dp, name⟩, hparent, hrun⟩ := bind_eq_some_iff.1 hrun
      have h4 := h3.namex (h3.pos (Multiset.mem_cons_of_mem hcwd)) hparent
      cases dp with
      | none => exact h4.linkBad hrun
      | some dp =>
        obtain ⟨t5, hlock', hrun⟩ := bind_eq_some_iff.1 hrun
        obtain ⟨h5, -⟩ := h4.ilock hlock'
        obtain ⟨⟨t6, r'⟩, hlink, hrun⟩ := bind_eq_some_iff.1 hrun
        have h6 : Refs s.beginOp t6 (dp ::ₘ ip ::ₘ held) (insert dp ∅) := by
          split at hlink
          · cases hlink
            exact h5
          · exact h5.dirlink hlink
        obtain ⟨t7, hput, hrun⟩ := bind_eq_some_iff.1 hrun
        have h7 : Refs s.beginOp t7 (ip ::ₘ held) ∅ := erase_lock dp ▸ h6.iunlockput hput
        split at hrun
        · exact h7.linkBad hrun
        · obtain ⟨t8, hput', ⟨⟩⟩ := map_eq_some_iff.1 hrun
          exact (h7.iput hput').endOp

/-! ## `unlink` -/

theorem unlinkBad (h : Refs s.beginOp t (dp ::ₘ held) (insert dp ∅))
    (hrun : t.unlinkBad dp = some (t', r)) : Refs s t' held ∅ := by
  obtain ⟨t1, hput, ⟨⟩⟩ := map_eq_some_iff.1 hrun
  exact (erase_lock dp ▸ h.iunlockput hput).endOp

theorem unlinkEntry {off : ℕ} (h : Refs s.beginOp t (ip ::ₘ dp ::ₘ held) (insert ip (insert dp ∅)))
    (hne : ip ≠ dp) (hrun : t.unlinkEntry dp ip off = some (t', r)) : Refs s t' held ∅ := by
  obtain ⟨⟨t1, r'⟩, hwrite, hrun⟩ := bind_eq_some_iff.1 hrun
  have h1 := h.writei hwrite
  dsimp only at hrun
  split at hrun
  · cases hrun
  · obtain ⟨t2, hput, hrun⟩ := bind_eq_some_iff.1 hrun
    have h2 : Refs s.beginOp t2 (ip ::ₘ held) (insert ip ∅) := by
      rw [Multiset.cons_swap] at h1
      have herase : (insert ip (insert dp (∅ : Finset InodePtr))).erase dp = insert ip ∅ := by
        rw [Finset.erase_insert_of_ne hne, erase_lock]
      split at hput
      · exact herase ▸ (h1.dropLink dp).iunlockput hput
      · exact herase ▸ h1.iunlockput hput
    obtain ⟨t3, hput', ⟨⟩⟩ := map_eq_some_iff.1 hrun
    exact (erase_lock ip ▸ (h2.dropLink ip).iunlockput hput').endOp

/-- **`unlink`** holds nothing at its end, whether it succeeds or not. -/
theorem unlink (h : Refs s t held ∅) (hcwd : 0 < (t.inode cwd).ref)
    (hrun : t.unlink cwd path = some (t', r)) : Refs s t' held ∅ := by
  obtain ⟨⟨t1, dp, name⟩, hparent, hrun⟩ := bind_eq_some_iff.1 hrun
  have h1 := h.beginOp.namex hcwd hparent
  cases dp with
  | none =>
    cases hrun
    exact h1.endOp
  | some dp =>
    obtain ⟨t2, hlock, hrun⟩ := bind_eq_some_iff.1 hrun
    obtain ⟨h2, -⟩ := h1.ilock hlock
    split at hrun
    · exact Refs.unlinkBad h2 hrun
    · obtain ⟨⟨t3, found⟩, hlook, hrun⟩ := bind_eq_some_iff.1 hrun
      have h3 := h2.dirlookup hlook
      cases found with
      | none => exact Refs.unlinkBad h3 hrun
      | some e =>
        obtain ⟨t4, hlock', hrun⟩ := bind_eq_some_iff.1 hrun
        obtain ⟨h4, hfree⟩ := h3.ilock hlock'
        have hne : e.1 ≠ dp := fun heq => hfree (heq ▸ Finset.mem_insert_self dp ∅)
        dsimp only at hrun
        split at hrun
        · cases hrun
        · obtain ⟨⟨t5, empty⟩, hempty, hrun⟩ := bind_eq_some_iff.1 hrun
          have h5 : Refs s.beginOp t5 (e.1 ::ₘ dp ::ₘ held) (insert e.1 (insert dp ∅)) := by
            split at hempty
            · exact Refs.emptyLoop h4 hempty
            · cases hempty
              exact h4
          dsimp only at hrun
          split at hrun
          · exact h5.unlinkEntry hne hrun
          · obtain ⟨t6, hput, hrun⟩ := bind_eq_some_iff.1 hrun
            have h6 := h5.iunlockput hput
            rw [Finset.erase_insert hfree] at h6
            exact h6.unlinkBad hrun

end Refs

end Inodes

end AudioPlayer
