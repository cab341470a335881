import AudioPlayer.Spec.Path
import Mathlib.Data.Finset.Insert
import Mathlib.Data.Finset.Erase
import Mathlib.Data.Multiset.Count

/-!
# References to inodes

A system call takes references to entries of the table and locks them, and gives both back on each
of its ways out. `Refs s t held locks` is where it stands: the table was `s` when the call began, it
holds the references `held` and the locks `locks`. It does not depend on what the files contain, so
it holds on a damaged disk as well.

* `Refs.iget`, `Refs.ilock`, `Refs.iunlock`, `Refs.iput`: one step each;
* `Refs.namex`: what a path leaves behind.
-/

namespace AudioPlayer

open Option

namespace Inodes

/-- **What a call holds** in the table `t`, which was `s` before it. Entries in use stay what they
are, and no inode has two of them. -/
structure Refs (s t : Inodes) (held : Multiset InodePtr) (locks : Finset InodePtr) : Prop where
  outstanding : t.outstanding = s.outstanding
  nonneg : ∀ k, 0 ≤ (s.inode k).ref
  ref : ∀ k, (t.inode k).ref = (s.inode k).ref + held.count k
  locked : ∀ k, (t.inode k).locked = true ↔ k ∈ locks
  same : ∀ k, 0 < (s.inode k).ref →
    (t.inode k).dev = (s.inode k).dev ∧ (t.inode k).inum = (s.inode k).inum
  unique : ∀ k k', 0 < (t.inode k).ref → 0 < (t.inode k').ref →
    (t.inode k).dev = (t.inode k').dev → (t.inode k).inum = (t.inode k').inum → k = k'

/-- The reference that a call got, if it got one, and those it had. -/
def holding (ip : Option InodePtr) (held : Multiset InodePtr) : Multiset InodePtr :=
  match ip with
  | none => held
  | some ip => ip ::ₘ held

variable {s t t' : Inodes} {ip dp k : InodePtr} {held held' : Multiset InodePtr}
  {locks locks' : Finset InodePtr} {x : Inode} {r : Option InodePtr} {path : KString}

/-- **A table at rest**, between two calls. -/
def AtRest (s : Inodes) : Prop := Refs s s 0 ∅

namespace Refs

theorem pos (h : Refs s t held locks) (hip : ip ∈ held) : 0 < (t.inode ip).ref := by
  have hcount := Multiset.count_pos.2 hip
  have hs := h.nonneg ip
  rw [h.ref]
  omega

theorem pos_of_pos (h : Refs s t held locks) (hip : 0 < (s.inode ip).ref) : 0 < (t.inode ip).ref := by
  rw [h.ref]
  omega

/-- The disk does not matter. -/
theorem withFs (h : Refs s t held locks) (fs : Fs) : Refs s { t with fs := fs } held locks :=
  ⟨h.outstanding, h.nonneg, h.ref, h.locked, h.same, h.unique⟩

/-- **One entry is changed**, and what is held of it. An entry in use stays the inode it is. -/
theorem change (h : Refs s t held locks) (hheld : ∀ k ≠ ip, held'.count k = held.count k)
    (hlocks : ∀ k ≠ ip, k ∈ locks' ↔ k ∈ locks) (href : x.ref = (s.inode ip).ref + held'.count ip)
    (hlocked : x.locked = true ↔ ip ∈ locks')
    (hsame : 0 < (t.inode ip).ref → x.dev = (t.inode ip).dev ∧ x.inum = (t.inode ip).inum)
    (hnew : (t.inode ip).ref ≤ 0 → 0 < x.ref → ∀ k, 0 < (t.inode k).ref →
      (t.inode k).dev = x.dev → (t.inode k).inum ≠ x.inum) :
    Refs s (t.set ip x) held' locks' := by
  have hself : (t.set ip x).inode ip = x := Function.update_self ..
  have hother : ∀ k ≠ ip, (t.set ip x).inode k = t.inode k := fun k hk => Function.update_of_ne hk ..
  -- no other entry in use is the inode of this one
  have hone : 0 < x.ref → ∀ k ≠ ip, 0 < (t.inode k).ref → (t.inode k).dev = x.dev →
      (t.inode k).inum ≠ x.inum := by
    intro hpos k hk hkpos hdev hinum
    by_cases hused : 0 < (t.inode ip).ref
    · obtain ⟨hdev', hinum'⟩ := hsame hused
      exact hk (h.unique k ip hkpos hused (hdev.trans hdev') (hinum.trans hinum'))
    · exact hnew (not_lt.1 hused) hpos k hkpos hdev hinum
  refine ⟨h.outstanding, h.nonneg, fun k => ?_, fun k => ?_, fun k hk => ?_, fun k k' => ?_⟩
  · by_cases hk : k = ip
    · rw [hk, hself, href]
    · rw [hother k hk, hheld k hk, h.ref]
  · by_cases hk : k = ip
    · rw [hk, hself, hlocked]
    · rw [hother k hk, hlocks k hk, h.locked]
  · by_cases hki : k = ip
    · obtain ⟨hdev, hinum⟩ := h.same k hk
      obtain ⟨hdev', hinum'⟩ := hsame (hki ▸ h.pos_of_pos hk)
      rw [hki] at hdev hinum ⊢
      rw [hself]
      exact ⟨hdev'.trans hdev, hinum'.trans hinum⟩
    · rw [hother k hki]
      exact h.same k hk
  · by_cases hk : k = ip <;> by_cases hk' : k' = ip
    · intros
      rw [hk, hk']
    · rw [hk, hself, hother k' hk']
      intro hpos hpos' hdev hinum
      exact absurd hinum.symm (hone hpos k' hk' hpos' hdev.symm)
    · rw [hk', hself, hother k hk]
      intro hpos hpos' hdev hinum
      exact absurd hinum (hone hpos' k hk hpos hdev)
    · rw [hother k hk, hother k' hk']
      exact h.unique k k'

/-- The copy of the inode is changed. -/
theorem setCopy (h : Refs s t held locks) (k : InodePtr) (valid : Bool) (din : Dinode) :
    Refs s (t.set k { t.inode k with valid := valid, din := din }) held locks :=
  h.change (fun _ _ => rfl) (fun _ _ => Iff.rfl) (h.ref k) (h.locked k) (fun _ => ⟨rfl, rfl⟩)
    fun hno hpos => absurd hpos (not_lt.2 hno)

/-- **`iget`** finds the inode, or takes an entry that is free. -/
theorem iget {dev inum : ℕ} (h : Refs s t held locks) (hrun : t.iget dev inum = some (t', k)) :
    Refs s t' (k ::ₘ held) locks := by
  have hcount : ∀ {k k' : InodePtr}, k' ≠ k → (k ::ₘ held).count k' = held.count k' := by
    intro k k' hne
    exact Multiset.count_cons_of_ne hne _
  unfold Inodes.iget at hrun
  cases hfind : (List.finRange nInode).find? fun ip =>
      decide ((t.inode ip).ref > 0 ∧ (t.inode ip).dev = dev ∧ (t.inode ip).inum = inum) with
  | some k0 =>
    rw [hfind] at hrun
    obtain ⟨rfl, rfl⟩ := Prod.mk.inj (some.inj hrun)
    have hyes := List.find?_some hfind
    obtain ⟨hpos, -, -⟩ := of_decide_eq_true hyes
    refine h.change (fun k' hk' => hcount hk') (fun _ _ => Iff.rfl) ?_ (h.locked k0)
      (fun _ => ⟨rfl, rfl⟩) fun hno => absurd hpos (not_lt.2 hno)
    have href := h.ref k0
    rw [Multiset.count_cons_self]
    dsimp only
    omega
  | none =>
    rw [hfind] at hrun
    obtain ⟨k0, hempty, heq⟩ := map_eq_some_iff.1 hrun
    obtain ⟨rfl, rfl⟩ := Prod.mk.inj heq
    have hyes := List.find?_some hempty
    have hzero : (t.inode k0).ref = 0 := of_decide_eq_true hyes
    refine h.change (fun k' hk' => hcount hk') (fun _ _ => Iff.rfl) ?_ (h.locked k0)
      (fun hpos => absurd hpos (by omega)) fun _ _ k' hk' hdev hinum => ?_
    · have href := h.ref k0
      have hnonneg := h.nonneg k0
      rw [Multiset.count_cons_self]
      dsimp only
      omega
    · -- no entry in use has this inode
      have hno := List.find?_eq_none.1 hfind k' (List.mem_finRange k')
      exact hno (decide_eq_true ⟨hk', hdev, hinum⟩)

theorem idup (h : Refs s t held locks) (hip : 0 < (t.inode ip).ref) :
    Refs s (t.idup ip) (ip ::ₘ held) locks := by
  refine h.change (fun k hk => Multiset.count_cons_of_ne hk _) (fun _ _ => Iff.rfl) ?_ (h.locked ip)
    (fun _ => ⟨rfl, rfl⟩) fun hno => absurd hip (not_lt.2 hno)
  have href := h.ref ip
  rw [Multiset.count_cons_self]
  dsimp only
  omega

/-- **`ilock`** returns with a lock that nobody had. -/
theorem ilock (h : Refs s t held locks) (hrun : t.ilock ip = some t') :
    Refs s t' held (insert ip locks) ∧ ip ∉ locks := by
  have htake (x : Inode) (hx : x.ref = (t.inode ip).ref ∧ x.locked = true ∧
      x.dev = (t.inode ip).dev ∧ x.inum = (t.inode ip).inum) :
      Refs s (t.set ip x) held (insert ip locks) := by
    obtain ⟨href, hlocked, hid⟩ := hx
    refine h.change (fun _ _ => rfl) (fun k hk => ?_) (href.trans (h.ref ip)) ?_ (fun _ => hid)
      fun hno hpos => ?_
    · rw [Finset.mem_insert, or_iff_right hk]
    · exact iff_of_true hlocked (Finset.mem_insert_self ..)
    · omega
  unfold Inodes.ilock at hrun
  dsimp only at hrun
  by_cases hwait : (t.inode ip).ref < 1 ∨ (t.inode ip).locked = true
  · rw [if_pos hwait] at hrun
    cases hrun
  · rw [if_neg hwait] at hrun
    refine ⟨?_, fun hmem => hwait (Or.inr ((h.locked ip).2 hmem))⟩
    split at hrun
    · split at hrun
      · cases hrun
      · cases hrun
        exact htake _ ⟨rfl, rfl, rfl, rfl⟩
    · cases hrun
      exact htake _ ⟨rfl, rfl, rfl, rfl⟩

theorem iunlock (h : Refs s t held locks) (hrun : t.iunlock ip = some t') :
    Refs s t' held (locks.erase ip) := by
  unfold Inodes.iunlock at hrun
  dsimp only at hrun
  split at hrun
  · cases hrun
  · cases hrun
    refine h.change (fun _ _ => rfl) (fun k hk => ?_) (h.ref ip) ?_ (fun _ => ⟨rfl, rfl⟩)
      fun hno hpos => absurd hpos (not_lt.2 hno)
    · rw [Finset.mem_erase, and_iff_right hk]
    · exact iff_of_false Bool.false_ne_true (Finset.notMem_erase ip locks)

/-- **`iput`** gives a reference back, whether or not the inode is freed. -/
theorem iput (h : Refs s t (ip ::ₘ held) locks) (hrun : t.iput ip = some t') :
    Refs s t' held locks := by
  have hpos := h.pos (Multiset.mem_cons_self ip held)
  have hdrop (fs : Fs) (x : Inode) (hx : x.ref = (t.inode ip).ref - 1 ∧
      x.locked = (t.inode ip).locked ∧ x.dev = (t.inode ip).dev ∧ x.inum = (t.inode ip).inum) :
      Refs s ({ t with fs := fs }.set ip x) held locks := by
    obtain ⟨href, hlocked, hid⟩ := hx
    refine (h.withFs fs).change (fun k hk => (Multiset.count_cons_of_ne hk held).symm)
      (fun _ _ => Iff.rfl) ?_ (by rw [hlocked]; exact h.locked ip) (fun _ => hid)
      fun hno => absurd hpos (not_lt.2 hno)
    have := h.ref ip
    rw [Multiset.count_cons_self] at this
    omega
  unfold Inodes.iput at hrun
  dsimp only at hrun
  split at hrun
  · split at hrun
    · cases hrun
    · obtain ⟨⟨fs, din⟩, -, rfl⟩ := map_eq_some_iff.1 hrun
      exact hdrop _ _ ⟨rfl, rfl, rfl, rfl⟩
  · cases hrun
    exact hdrop t.fs _ ⟨rfl, rfl, rfl, rfl⟩

theorem iunlockput (h : Refs s t (ip ::ₘ held) locks) (hrun : t.iunlockput ip = some t') :
    Refs s t' held (locks.erase ip) := by
  obtain ⟨t1, hunlock, hput⟩ := bind_eq_some_iff.1 hrun
  exact (h.iunlock hunlock).iput hput

theorem dirlookup {name : List UInt8} {found : Option (InodePtr × ℕ)} (h : Refs s t held locks)
    (hrun : t.dirlookup dp name = some (t', found)) :
    Refs s t' (holding (found.map Prod.fst) held) locks := by
  obtain ⟨⟨fs, din, entry⟩, -, hrun⟩ := bind_eq_some_iff.1 hrun
  have h1 := (h.withFs fs).setCopy dp (t.inode dp).valid din
  cases entry with
  | none =>
    cases hrun
    exact h1
  | some e =>
    obtain ⟨⟨t1, ip⟩, hget, heq⟩ := map_eq_some_iff.1 hrun
    obtain ⟨rfl, rfl⟩ := Prod.mk.inj heq
    exact h1.iget hget

theorem readi {off n : ℕ} {copyout : ℕ → Bool} {data : Option (List UInt8)} (h : Refs s t held locks)
    (hrun : t.readi ip off n copyout = some (t', data)) : Refs s t' held locks := by
  obtain ⟨⟨fs, din, bytes⟩, -, ⟨⟩⟩ := map_eq_some_iff.1 hrun
  exact (h.withFs fs).setCopy ip (t.inode ip).valid din

/-- A transaction begins and ends. -/
theorem endOp (h : Refs s.beginOp t held locks) : Refs s t.endOp held locks := by
  refine ⟨?_, h.nonneg, h.ref, h.locked, h.same, h.unique⟩
  have hout : t.outstanding = s.outstanding + 1 := h.outstanding
  show t.outstanding - 1 = s.outstanding
  omega

/-- **The loop of `namex`** turns a reference into another one, or gives it back. -/
theorem namexLoop {nameiparent : Bool} {fuel : ℕ} {name name' : List UInt8}
    (h : Refs s t (ip ::ₘ held) ∅)
    (hrun : t.namexLoop nameiparent fuel ip path name = some (t', r, name')) :
    Refs s t' (holding r held) ∅ := by
  induction fuel generalizing t ip path name with
  | zero => cases hrun
  | succ fuel ih =>
    unfold Inodes.namexLoop at hrun
    cases hskip : skipelem path name with
    | none =>
      rw [hskip] at hrun
      dsimp only at hrun
      split at hrun
      · obtain ⟨t1, hput, ⟨⟩⟩ := map_eq_some_iff.1 hrun
        exact h.iput hput
      · cases hrun
        exact h
    | some e =>
      obtain ⟨path1, name1⟩ := e
      rw [hskip] at hrun
      obtain ⟨t1, hlock, hrun⟩ := bind_eq_some_iff.1 hrun
      obtain ⟨h1, -⟩ := h.ilock hlock
      -- the lock is given back in each case
      have herase : (insert ip (∅ : Finset InodePtr)).erase ip = ∅ := Finset.erase_insert (Finset.notMem_empty ip)
      have hdone {t2 t3 : Inodes} {held' : Multiset InodePtr} (h2 : Refs s t2 (ip ::ₘ held') (insert ip ∅))
          (hput : t2.iunlockput ip = some t3) : Refs s t3 held' ∅ := herase ▸ h2.iunlockput hput
      split at hrun
      · obtain ⟨t2, hput, ⟨⟩⟩ := map_eq_some_iff.1 hrun
        exact hdone h1 hput
      · split at hrun
        · obtain ⟨t2, hunlock, ⟨⟩⟩ := map_eq_some_iff.1 hrun
          exact herase ▸ h1.iunlock hunlock
        · obtain ⟨⟨t2, next⟩, hlook, hrun⟩ := bind_eq_some_iff.1 hrun
          have h2 := h1.dirlookup hlook
          cases next with
          | none =>
            obtain ⟨t3, hput, ⟨⟩⟩ := map_eq_some_iff.1 hrun
            exact hdone h2 hput
          | some next =>
            obtain ⟨t3, hput, hrun⟩ := bind_eq_some_iff.1 hrun
            have h2 : Refs s t2 (ip ::ₘ next.1 ::ₘ held) (insert ip ∅) := by
              rw [Multiset.cons_swap]
              exact h2
            exact ih (hdone h2 hput) hrun

/-- **`namex`** holds what it returns, and nothing else. -/
theorem namex {cwd : InodePtr} {nameiparent : Bool} {name name' : List UInt8}
    (h : Refs s t held ∅) (hcwd : 0 < (t.inode cwd).ref)
    (hrun : t.namex cwd path nameiparent name = some (t', r, name')) :
    Refs s t' (holding r held) ∅ := by
  obtain ⟨⟨t1, ip⟩, hstart, hrun⟩ := bind_eq_some_iff.1 hrun
  refine namexLoop ?_ hrun
  split at hstart
  · exact h.iget hstart
  · cases hstart
    exact h.idup hcwd

theorem namei {cwd : InodePtr} (h : Refs s t held ∅)
    (hcwd : 0 < (t.inode cwd).ref) (hrun : t.namei cwd path = some (t', r)) :
    Refs s t' (holding r held) ∅ := by
  obtain ⟨⟨t1, ip, name⟩, hnamex, ⟨⟩⟩ := map_eq_some_iff.1 hrun
  exact h.namex hcwd hnamex

end Refs

end Inodes

end AudioPlayer
