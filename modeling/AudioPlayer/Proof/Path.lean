import AudioPlayer.Spec.Path
import AudioPlayer.Proof.Directory

/-!
# Paths

`skipelem` yields the elements of a path (`skips_elements`), whatever its buffer held before.
`namex` looks them up one after another. What it does to the table of the inodes is described by
`Held`: the entries are as before, but for the references that are held on top of them.

* `Held.ilock`, `Held.iget`, `Held.iput`: the operations on one entry;
* `Tree.namexLoop`: the loop folds `dirlookup` over the elements;
* `path_resolution`: `namei` and `nameiparent`.
-/

namespace AudioPlayer

open Function Bytes Runs List Option

/-! ## Elements -/

/-- **The elements of a path**, the longest runs of bytes other than slashes. -/
def elements (path : List UInt8) : List (List UInt8) := (path.splitOn slash).filter (· ≠ [])

theorem elements_append (path rest : List UInt8) :
    elements (path ++ slash :: rest) = elements path ++ elements rest := by
  have hsep : (slash == slash) = true := rfl
  unfold elements List.splitOn
  rw [splitOnP_append_cons (p := (· == slash)) path rest hsep, filter_append]

theorem elements_slash (path : List UInt8) : elements (slash :: path) = elements path :=
  elements_append [] path

theorem elements_skip (path : List UInt8) : elements (path.dropWhile (· == slash)) = elements path := by
  induction path with
  | nil => rfl
  | cons b path ih =>
    by_cases hb : b = slash
    · rw [dropWhile_cons_of_pos (by simp [hb]), ih, hb, elements_slash]
    · rw [dropWhile_cons_of_neg (by simp [hb])]

/-- A run, and what follows it. -/
theorem elements_run {path : List UInt8} (hb : path.head? ≠ some slash) (hne : path ≠ []) :
    elements path = path.takeWhile (· != slash) :: elements (path.dropWhile (· != slash)) := by
  have hrun : ∀ x ∈ path.takeWhile (· != slash), (x == slash) = false := by
    intro x hx
    simpa using mem_takeWhile_imp hx
  have hsome : path.takeWhile (· != slash) ≠ [] := by
    cases path with
    | nil => exact absurd rfl hne
    | cons b path => rw [takeWhile_cons_of_pos (by simpa using hb)]; simp
  have hsplit := takeWhile_append_dropWhile (p := (· != slash)) (l := path)
  have hword : elements (path.takeWhile (· != slash)) = [path.takeWhile (· != slash)] := by
    unfold elements List.splitOn
    rw [splitOnP_eq_singleton hrun]
    simp [hsome]
  cases hrest : path.dropWhile (· != slash) with
  | nil =>
    rw [hrest, append_nil] at hsplit
    rw [hsplit] at hword ⊢
    exact hword
  | cons c rest =>
    have hc : c = slash := by
      have hhead := List.head?_dropWhile_not (· != slash) path
      rw [hrest] at hhead
      simpa using hhead
    rw [hrest, hc] at hsplit
    rw [hc, elements_slash]
    nth_rewrite 1 [← hsplit]
    rw [elements_append, hword]
    rfl

/-- A slash next to another one, or at the end, does not matter. -/
theorem elements_insert {a b : List UInt8}
    (h : a.getLast? = some slash ∨ b.head? = some slash ∨ b = []) :
    elements (a ++ slash :: b) = elements (a ++ b) := by
  rcases h with h | h | rfl
  · obtain ⟨a, rfl⟩ := List.getLast?_eq_some_iff.1 h
    rw [append_assoc, append_assoc, singleton_append, singleton_append,
      elements_append, elements_append, elements_slash]
  · obtain ⟨b, rfl⟩ := List.head?_eq_some_iff.1 h
    rw [elements_append, elements_append, elements_slash]
  · rw [elements_append, append_nil]
    exact append_nil _

theorem elements_ne_nil {path : List UInt8} (hb : path.head? ≠ some slash) (hne : path ≠ []) :
    elements path ≠ [] := by
  rw [elements_run hb hne]
  exact cons_ne_nil _ _

theorem head_skip (path : KString) : (path.skip (· == slash)).bytes.head? ≠ some slash := by
  intro h
  have hhead := List.head?_dropWhile_not (· == slash) path.bytes
  rw [show path.bytes.dropWhile (· == slash) = (path.skip (· == slash)).bytes from rfl, h] at hhead
  simp at hhead

/-- The buffer as `namecmp` sees it, after an element without zeros was copied into it. -/
theorem nameKey_buffer {e name : List UInt8} (rest : List UInt8) (hzero : 0 ∉ e)
    (hname : name.length = dirSiz) :
    let buf := if e.length ≥ dirSiz then (e ++ rest).take dirSiz ++ name.drop dirSiz
      else (e ++ rest).take e.length ++ 0 :: name.drop (e.length + 1)
    nameKey dirSiz buf = e.take dirSiz ∧ buf.length = dirSiz := by
  intro buf
  by_cases hlen : e.length ≥ dirSiz
  · have hbuf : buf = e.take dirSiz := by
      show (if _ then _ else _) = _
      rw [if_pos hlen, take_append_of_le_length hlen, drop_eq_nil_of_le hname.le,
        append_nil]
    have hcut : 0 ∉ e.take dirSiz := fun h => hzero (mem_of_mem_take h)
    rw [hbuf, nameKey_of_nul hcut, take_take, min_self, length_take, min_eq_left hlen]
    exact ⟨rfl, rfl⟩
  · have hbuf : buf = e ++ 0 :: name.drop (e.length + 1) := by
      show (if _ then _ else _) = _
      rw [if_neg hlen, take_left]
    have hlength : buf.length = dirSiz := by
      rw [hbuf, length_append, length_cons, length_drop, hname]
      omega
    have hlive : ∀ c ∈ e, decide (c ≠ 0) = true := by
      intro c hc
      have hne : c ≠ 0 := fun heq => hzero (heq ▸ hc)
      simpa using hne
    have hkey : nameKey dirSiz buf = e := by
      rw [nameKey, take_of_length_le hlength.le, hbuf, takeWhile_append_of_pos hlive]
      simp
    exact ⟨hkey.trans (take_of_length_le (by omega)).symm, hlength⟩

/-- **`skipelem`** finds no element, or cuts off the first one. -/
theorem skipelem_spec (path : KString) {name : List UInt8} (hname : name.length = dirSiz) :
    (skipelem path name = none ∧ elements path.bytes = []) ∨
    ∃ path' name' e, skipelem path name = some (path', name') ∧
      elements path.bytes = e :: elements path'.bytes ∧ nameKey dirSiz name' = e.take dirSiz ∧
      name'.length = dirSiz ∧ path'.bytes.length < path.bytes.length ∧
      (path'.bytes = [] ↔ elements path'.bytes = []) := by
  have hhead := head_skip path
  have hlen := (path.bytes.dropWhile_sublist (· == slash)).length_le
  rw [← elements_skip path.bytes]
  unfold skipelem
  change _ ∨ _
  generalize hs : path.skip (· == slash) = s at hhead ⊢
  have hbytes : path.bytes.dropWhile (· == slash) = s.bytes := by rw [← hs]; rfl
  rw [hbytes] at hlen ⊢
  by_cases hnil : s.bytes = []
  · left
    simp only [hnil, if_true]
    exact ⟨trivial, rfl⟩
  · right
    simp only [hnil, if_false]
    set e := s.bytes.takeWhile (· != slash) with he
    have hsplit : s.bytes = e ++ (s.skip (· != slash)).bytes := takeWhile_append_dropWhile.symm
    have hcount : s.bytes.length - (s.skip (· != slash)).bytes.length = e.length := by
      rw [hsplit, length_append, Nat.add_sub_cancel_right]
    have hzero : 0 ∉ e := fun h => s.nonzero ((takeWhile_sublist _).subset h)
    have hepos : 0 < e.length := by
      cases hb : s.bytes with
      | nil => exact absurd hb hnil
      | cons b rest =>
        rw [hb, List.head?_cons] at hhead
        rw [he, hb, takeWhile_cons_of_pos (by simpa using hhead)]
        simp
    obtain ⟨hkey, hlength⟩ := nameKey_buffer (s.skip (· != slash)).bytes hzero hname
    rw [← hsplit, ← hcount] at hkey hlength
    refine ⟨_, _, e, rfl, ?_, hkey, hlength, ?_, ?_⟩
    · show _ = e :: elements (((s.skip (· != slash)).bytes).dropWhile (· == slash))
      rw [elements_skip, elements_run hhead hnil]
      rfl
    · have hrest := ((s.skip (· != slash)).bytes.dropWhile_sublist (· == slash)).length_le
      show (((s.skip (· != slash)).bytes).dropWhile (· == slash)).length < _
      omega
    · constructor
      · intro h
        rw [h]
        rfl
      · intro h
        by_contra hne
        exact elements_ne_nil (head_skip _) hne h

/-- **The calls of `skipelem`, one after another**, and the names they leave in the buffer, until
one finds no element. -/
inductive Skips : KString → List UInt8 → List (List UInt8) → Prop
  | done {path name} (h : skipelem path name = none) : Skips path name []
  | next {path name path' name' names} (h : skipelem path name = some (path', name'))
      (hrest : Skips path' name' names) : Skips path name (nameKey dirSiz name' :: names)

/-- **They are the elements**, cut to `DIRSIZ` bytes. -/
theorem skips_elements (path : KString) {name : List UInt8} (hname : name.length = dirSiz) :
    Skips path name ((elements path.bytes).map (List.take dirSiz)) := by
  induction hn : path.bytes.length using Nat.strong_induction_on generalizing path name with
  | _ n ih =>
    rcases skipelem_spec path hname with ⟨hnone, hnil⟩ |
      ⟨path', name', e, hsome, hcons, hkey, hname', hlt, -⟩
    · rw [hnil]
      exact .done hnone
    · rw [hcons, map_cons, ← hkey]
      exact .next hsome (ih _ (hn ▸ hlt) path' hname' rfl)

/-! ## The table of the inodes -/

namespace Inodes

variable {s t t' : Inodes} {ip k : InodePtr} {held : List InodePtr} {x : Inode} {inum : ℕ}
  {keys : List (List UInt8)}

@[simp] theorem set_self (t : Inodes) (ip : InodePtr) (x : Inode) : (t.set ip x).inode ip = x :=
  update_self _ _ _

theorem set_of_ne (h : k ≠ ip) : (t.set ip x).inode k = t.inode k := update_of_ne h _ _

@[simp] theorem set_fs (t : Inodes) (ip : InodePtr) (x : Inode) : (t.set ip x).fs = t.fs := rfl

@[simp] theorem set_set (t : Inodes) (ip : InodePtr) (x y : Inode) :
    (t.set ip x).set ip y = t.set ip y := by
  unfold set
  rw [update_idem]

@[simp] theorem set_inode (t : Inodes) (ip : InodePtr) : t.set ip (t.inode ip) = t := by
  unfold set
  rw [update_eq_self]

/-- The inode has been read into its entry. -/
def load (t : Inodes) (ip : InodePtr) : Inodes :=
  t.set ip { t.inode ip with valid := true, din := t.fs.readInode (t.inode ip).inum }

theorem load_inum (t : Inodes) (ip k : InodePtr) : ((t.load ip).inode k).inum = (t.inode k).inum := by
  unfold load
  by_cases hk : k = ip
  · rw [hk, set_self]
  · rw [set_of_ne hk]

/-- The lock of an entry is held. -/
def lock (t : Inodes) (ip : InodePtr) : Inodes := t.set ip { t.inode ip with locked := true }

/-- **The entries in use**: one for an inode, and a copy that was read is the inode. -/
structure TableOK (t : Inodes) : Prop where
  ref : ∀ k, 0 ≤ (t.inode k).ref
  dev : ∀ k, 0 < (t.inode k).ref → (t.inode k).dev = rootDev
  unique : ∀ k k', 0 < (t.inode k).ref → 0 < (t.inode k').ref →
    (t.inode k).inum = (t.inode k').inum → k = k'
  valid : ∀ k, 0 < (t.inode k).ref → (t.inode k).valid = true →
    (t.inode k).din = t.fs.readInode (t.inode k).inum

/-- `t` is `s` with references to `held` on top. -/
structure Held (s t : Inodes) (held : List InodePtr) : Prop where
  fs : t.fs = s.fs
  outstanding : t.outstanding = s.outstanding
  table : t.TableOK
  unlocked : ∀ k, (t.inode k).locked = false
  nonneg : ∀ k, 0 ≤ (s.inode k).ref
  ref : ∀ k, (t.inode k).ref = (s.inode k).ref + held.count k
  same : ∀ k, 0 < (s.inode k).ref → (t.inode k).inum = (s.inode k).inum

namespace Held

theorem pos (h : Held s t held) (hip : ip ∈ held) : 0 < (t.inode ip).ref := by
  have hcount := count_pos_iff.2 hip
  have hs := h.nonneg ip
  rw [h.ref]
  omega

theorem pos_of_pos (h : Held s t held) (hip : 0 < (s.inode ip).ref) : 0 < (t.inode ip).ref := by
  rw [h.ref]
  omega

theorem perm {held' : List InodePtr} (h : Held s t held) (hperm : held'.Perm held) : Held s t held' :=
  ⟨h.fs, h.outstanding, h.table, h.unlocked, h.nonneg, fun k => by rw [h.ref, hperm.count_eq], h.same⟩

/-- **One entry is changed**, and the references that are held to it. -/
theorem change {held' : List InodePtr} (h : Held s t held)
    (hcount : ∀ k ≠ ip, held'.count k = held.count k)
    (href : x.ref = (s.inode ip).ref + held'.count ip) (hlock : x.locked = false)
    (hsame : 0 < (s.inode ip).ref → x.inum = (t.inode ip).inum) (hdev : 0 < x.ref → x.dev = rootDev)
    (hunique : 0 < x.ref → ∀ k ≠ ip, 0 < (t.inode k).ref → (t.inode k).inum ≠ x.inum)
    (hvalid : 0 < x.ref → x.valid = true → x.din = t.fs.readInode x.inum) :
    Held s (t.set ip x) held' := by
  refine ⟨h.fs, h.outstanding, ⟨?_, ?_, ?_, ?_⟩, ?_, h.nonneg, ?_, ?_⟩
  · intro k
    by_cases hk : k = ip
    · rw [hk, set_self, href]
      have := h.nonneg ip
      omega
    · rw [set_of_ne hk]
      exact h.table.ref k
  · intro k
    by_cases hk : k = ip
    · rw [hk, set_self]
      exact hdev
    · rw [set_of_ne hk]
      exact h.table.dev k
  · intro k k'
    by_cases hk : k = ip <;> by_cases hk' : k' = ip
    · intros
      rw [hk, hk']
    · rw [hk, set_self, set_of_ne hk']
      intro hpos hpos' heq
      exact absurd heq.symm (hunique hpos k' hk' hpos')
    · rw [hk', set_self, set_of_ne hk]
      intro hpos hpos' heq
      exact absurd heq (hunique hpos' k hk hpos)
    · rw [set_of_ne hk, set_of_ne hk']
      exact h.table.unique k k'
  · intro k
    by_cases hk : k = ip
    · rw [hk, set_self]
      exact hvalid
    · rw [set_of_ne hk]
      exact h.table.valid k
  · intro k
    by_cases hk : k = ip
    · rw [hk, set_self, hlock]
    · rw [set_of_ne hk]
      exact h.unlocked k
  · intro k
    by_cases hk : k = ip
    · rw [hk, set_self, href]
    · rw [set_of_ne hk, hcount k hk]
      exact h.ref k
  · intro k hpos
    by_cases hk : k = ip
    · subst hk
      rw [set_self, hsame hpos]
      exact h.same k hpos
    · rw [set_of_ne hk]
      exact h.same k hpos

/-- An inode has one entry. -/
theorem inum_ne (h : Held s t held) (hip : 0 < (t.inode ip).ref) (hne : k ≠ ip)
    (hk : 0 < (t.inode k).ref) : (t.inode k).inum ≠ (t.inode ip).inum :=
  fun heq => hne (h.table.unique k ip hk hip heq)

theorem load (h : Held s t held) (hip : ip ∈ held) : Held s (t.load ip) held := by
  have hpos := h.pos hip
  exact h.change (fun _ _ => rfl) (h.ref ip) (h.unlocked ip) (fun _ => rfl) (fun _ => h.table.dev ip hpos)
    (fun _ k hne hk => h.inum_ne hpos hne hk) fun _ _ => rfl

/-- **`ilock`** reads the inode unless it is there. -/
theorem ilock (h : Held s t held) (hip : ip ∈ held)
    (hlive : (t.fs.readInode (t.inode ip).inum).type ≠ 0) : t.ilock ip = some ((t.load ip).lock ip) := by
  have hpos := h.pos hip
  have hload : (t.load ip).lock ip = t.set ip { t.inode ip with
      locked := true, valid := true, din := t.fs.readInode (t.inode ip).inum } := by
    unfold Inodes.load lock
    rw [set_self, set_set]
  unfold Inodes.ilock
  rw [hload]
  dsimp only
  rw [if_neg (by rw [h.unlocked ip]; simp; omega)]
  cases hvalid : (t.inode ip).valid with
  | false => rw [if_pos (by rfl), if_neg hlive]
  | true =>
    rw [if_neg (by simp), ← h.table.valid ip hpos hvalid, ← hvalid]

/-- `iunlock` undoes `ilock`. -/
theorem iunlock_lock (h : Held s t held) (hip : 0 < (t.inode ip).ref) :
    (t.lock ip).iunlock ip = some t := by
  have hback : { t.inode ip with locked := false } = t.inode ip := by
    rw [← h.unlocked ip]
  unfold iunlock lock
  simp only [set_self, set_set]
  rw [if_neg (by simp; omega), hback, set_inode]

theorem iunlockput_lock (h : Held s t held) (hip : ip ∈ held) :
    (t.lock ip).iunlockput ip = t.iput ip := by
  unfold iunlockput
  rw [h.iunlock_lock (h.pos hip), bind_some]

/-- **`iget`** finds the inode, or takes an entry that is free. -/
theorem iget (h : Held s t held) (hfree : ∃ k, (t.inode k).ref = 0) (inum : ℕ) :
    ∃ t' k, t.iget rootDev inum = some (t', k) ∧ Held s t' (k :: held) ∧ (t'.inode k).inum = inum ∧
      ∀ k', 0 < (t.inode k').ref → (t'.inode k').inum = (t.inode k').inum := by
  have hcount : ∀ {k k' : InodePtr}, k' ≠ k → (k :: held).count k' = held.count k' := by
    intro k k' hne
    exact count_cons_of_ne (Ne.symm hne)
  unfold Inodes.iget
  cases hfind : (List.finRange nInode).find? fun ip =>
      decide ((t.inode ip).ref > 0 ∧ (t.inode ip).dev = rootDev ∧ (t.inode ip).inum = inum) with
  | some k =>
    have hyes := List.find?_some hfind
    obtain ⟨hpos, hdev, rfl⟩ := of_decide_eq_true hyes
    refine ⟨_, k, rfl, h.change (fun k' hk' => hcount hk') ?_ (h.unlocked k) (fun _ => rfl)
      (fun _ => hdev)
      (fun _ k' hne hk' => h.inum_ne hpos hne hk') fun _ => h.table.valid k hpos, by rw [set_self], ?_⟩
    · have href := h.ref k
      rw [count_cons_self]
      dsimp only
      omega
    · intro k' _
      by_cases hk' : k' = k
      · rw [hk', set_self]
      · rw [set_of_ne hk']
  | none =>
    obtain ⟨k0, hk0⟩ := hfree
    cases hempty : (List.finRange nInode).find? fun ip => decide ((t.inode ip).ref = 0) with
    | none => exact absurd hk0 (by simpa using List.find?_eq_none.1 hempty k0 (mem_finRange k0))
    | some k =>
      have hyes := List.find?_some hempty
      have hzero : (t.inode k).ref = 0 := of_decide_eq_true hyes
      have href := h.ref k
      have hnonneg := h.nonneg k
      refine ⟨_, k, rfl, h.change (fun k' hk' => hcount hk') ?_ (h.unlocked k) ?_ (fun _ => rfl) ?_ ?_,
        by rw [set_self], ?_⟩
      · rw [count_cons_self]
        dsimp only
        omega
      · intro hpos
        omega
      · -- no entry in use has this inode
        intro _ k' _ hk' heq
        have hno := List.find?_eq_none.1 hfind k' (mem_finRange k')
        exact hno (decide_eq_true ⟨hk', h.table.dev k' hk', heq⟩)
      · intro _ hvalid
        cases hvalid
      · intro k' hk'
        rw [set_of_ne]
        rintro rfl
        omega

/-- **`iput`** gives back a reference that is not the last one to an inode without links. -/
theorem iput (h : Held s t (ip :: held))
    (hkeep : (t.fs.readInode (t.inode ip).inum).nlink ≠ 0 ∨
      ∃ k, 0 < (s.inode k).ref ∧ (s.inode k).inum = (t.inode ip).inum) :
    ∃ t', t.iput ip = some t' ∧ Held s t' held ∧ ∀ k, (t'.inode k).inum = (t.inode k).inum := by
  have hpos := h.pos (mem_cons_self (a := ip))
  have href := h.ref ip
  rw [count_cons_self] at href
  have hnot : ¬ ((t.inode ip).ref = 1 ∧ (t.inode ip).valid = true ∧ (t.inode ip).din.nlink = 0) := by
    rintro ⟨hone, hvalid, hzero⟩
    rw [h.table.valid ip hpos hvalid] at hzero
    obtain ⟨k, hk, heq⟩ := hkeep.resolve_left (not_not.2 hzero)
    -- the other reference is to the same entry
    have hsame : k = ip := h.table.unique k ip (h.pos_of_pos hk) hpos ((h.same k hk).trans heq)
    rw [hsame] at hk
    omega
  refine ⟨_, if_neg hnot, h.change (fun k hk => ?_) ?_ (h.unlocked ip) (fun _ => rfl)
    (fun _ => h.table.dev ip hpos) (fun _ k hne hk => h.inum_ne hpos hne hk)
    fun _ => h.table.valid ip hpos, ?_⟩
  · exact (count_cons_of_ne (Ne.symm hk)).symm
  · dsimp only
    omega
  · intro k
    by_cases hk : k = ip
    · rw [hk, set_self]
    · rw [set_of_ne hk]

end Held

/-- Neither `iget` nor a lock looks at the other. -/
theorem iget_lock (t : Inodes) (ip : InodePtr) (dev inum : ℕ) :
    (t.lock ip).iget dev inum = (t.iget dev inum).map fun r => (r.1.lock ip, r.2) := by
  have hfields : ∀ k, ((t.lock ip).inode k).ref = (t.inode k).ref ∧
      ((t.lock ip).inode k).dev = (t.inode k).dev ∧ ((t.lock ip).inode k).inum = (t.inode k).inum := by
    intro k
    unfold lock
    by_cases hk : k = ip
    · rw [hk, set_self]
      exact ⟨rfl, rfl, rfl⟩
    · rw [set_of_ne hk]
      exact ⟨rfl, rfl, rfl⟩
  have hset : ∀ (k : InodePtr) (f : Inode → Inode),
      (∀ y, f { y with locked := true } = { f y with locked := true }) →
      (t.lock ip).set k (f ((t.lock ip).inode k)) = (t.set k (f (t.inode k))).lock ip := by
    intro k f hf
    unfold lock
    by_cases hk : k = ip
    · subst hk
      simp only [set_self, set_set, hf]
    · rw [set_of_ne hk, set_of_ne (Ne.symm hk)]
      unfold set
      rw [update_comm hk]
  unfold iget
  simp only [hfields]
  cases (List.finRange nInode).find? fun k =>
      decide ((t.inode k).ref > 0 ∧ (t.inode k).dev = dev ∧ (t.inode k).inum = inum) with
  | some k =>
    dsimp only [map_some]
    rw [← hset k (fun y => { y with ref := y.ref + 1 }) fun _ => rfl]
    simp only [hfields]
  | none =>
    dsimp only
    rw [Option.map_map]
    refine congrArg (Option.map · _) (funext fun k => ?_)
    dsimp only [Function.comp_apply]
    rw [← hset k (fun y => { y with dev := dev, inum := inum, ref := 1, valid := false }) fun _ => rfl]

/-- `dirlookup` on a directory that was read. -/
theorem dirlookup_lock {name : List UInt8} {found : Option (ℕ × ℕ)}
    (h : t.fs.dirlookup (t.inode ip).din name = some (t.fs, (t.inode ip).din, found)) :
    (t.lock ip).dirlookup ip name =
      found.elim (some (t.lock ip, none)) fun e =>
        (t.iget (t.inode ip).dev e.1).map fun r => (r.1.lock ip, some (r.2, e.2)) := by
  have hdin : ((t.lock ip).inode ip).din = (t.inode ip).din := by rw [lock, set_self]
  have hdev : ((t.lock ip).inode ip).dev = (t.inode ip).dev := by rw [lock, set_self]
  have hstate : Inodes.set { t.lock ip with fs := t.fs } ip
    { (t.lock ip).inode ip with din := (t.inode ip).din } =
      t.lock ip := by
    rw [← hdin]
    exact set_inode (t.lock ip) ip
  unfold dirlookup
  rw [hdin, show (t.lock ip).fs = t.fs from rfl, h, bind_some]
  dsimp only
  rw [hstate]
  cases found with
  | none => rfl
  | some r =>
    dsimp only
    rw [hdev, iget_lock, Option.map_map]
    rfl

/-! ## Walks -/

/-- The file system on the disk. -/
def disk (s : Inodes) : FsState := ⟨s.fs, fun _ => none⟩

/-- **`dirlookup` of a name in inode `i`**, which fails if that is no directory. -/
def look (s : Inodes) (i : ℕ) (name : List UInt8) : Option ℕ :=
  if (s.fs.readInode i).type = tDir then
    (s.fs.dirlookup (s.fs.readInode i) name).bind fun r => r.2.2.map Prod.fst
  else none

/-- An inode that is allocated, and stays so when a reference to it is given back. -/
def Stays (s : Inodes) (i : ℕ) : Prop :=
  s.fs.Live s.fs.readInode i ∧ ((s.fs.readInode i).nlink ≠ 0 ∨
    ∃ k, 0 < (s.inode k).ref ∧ (s.inode k).inum = i)

/-- **A directory tree**, for a process in directory `cwd`: the file system is well formed, the
directories have whole entries, and what they name is allocated. No call is running. -/
structure Tree (s : Inodes) (cwd : InodePtr) : Prop where
  disk : s.disk.WellFormed
  table : s.TableOK
  unlocked : ∀ k, (s.inode k).locked = false
  whole : ∀ i, s.fs.Live s.fs.readInode i → (s.fs.readInode i).type = tDir →
    direntSize ∣ (s.fs.readInode i).size
  entries : ∀ i name j, s.fs.Live s.fs.readInode i → s.look i name = some j → s.Stays j
  root : s.Stays rootIno
  cwd : 0 < (s.inode cwd).ref ∧ s.fs.Live s.fs.readInode (s.inode cwd).inum

/-- Two entries of the table are free. -/
def Room (s : Inodes) : Prop := ∃ a b, a ≠ b ∧ (s.inode a).ref = 0 ∧ (s.inode b).ref = 0

variable {cwd : InodePtr} {i j : ℕ} {name name' e : List UInt8}

theorem Tree.dirlookup (hs : s.Tree cwd) (hi : s.fs.Live s.fs.readInode i)
    (hdir : (s.fs.readInode i).type = tDir) (name : List UInt8) :
    s.fs.dirlookup (s.fs.readInode i) name =
      some (s.fs, s.fs.readInode i, dirMap (s.disk.bytes i) (nameKey dirSiz name)) :=
  hs.disk.dirlookup_whole hi hdir (hs.whole i hi hdir) name

theorem Tree.look_eq (hs : s.Tree cwd) (hi : s.fs.Live s.fs.readInode i)
    (hdir : (s.fs.readInode i).type = tDir) (name : List UInt8) :
    s.look i name = (dirMap (s.disk.bytes i) (nameKey dirSiz name)).map Prod.fst := by
  rw [look, if_pos hdir, hs.dirlookup hi hdir, bind_some]

theorem nameKey_nameKey (n : ℕ) (name : List UInt8) : nameKey n (nameKey n name) = nameKey n name := by
  have hzero : 0 ∉ nameKey n name := by
    intro h
    simpa using mem_takeWhile_imp h
  have hlen : (nameKey n name).length ≤ n :=
    ((takeWhile_sublist _).length_le).trans (length_take_le n name)
  rw [nameKey_of_nul hzero, take_of_length_le hlen]

/-- Only the key of a name matters. -/
theorem Tree.look_congr (hs : s.Tree cwd) (hi : s.fs.Live s.fs.readInode i)
    (hkey : nameKey dirSiz name = e) :
    s.look i name = s.look i e := by
  by_cases hdir : (s.fs.readInode i).type = tDir
  · rw [hs.look_eq hi hdir, hs.look_eq hi hdir, ← hkey, nameKey_nameKey]
  · rw [look, look, if_neg hdir, if_neg hdir]

/-- A reference to an inode on the way is given back. -/
theorem Stays.iput (hip : s.Stays (t.inode ip).inum) (h : Held s t (ip :: held)) :
    ∃ t', t.iput ip = some t' ∧ Held s t' held ∧ ∀ k, (t'.inode k).inum = (t.inode k).inum := by
  refine h.iput ?_
  rw [h.fs]
  exact hip.2

theorem Room.free (hroom : s.Room) (h : Held s t [ip]) : ∃ k, (t.inode k).ref = 0 := by
  obtain ⟨a, b, hab, ha, hb⟩ := hroom
  by_cases hip : ip = a
  · exact ⟨b, by rw [h.ref, hb, count_singleton]; simp [hip, hab]⟩
  · exact ⟨a, by rw [h.ref, ha, count_singleton]; simp [hip]⟩

/-- **From a directory to an inode in it**: the one is given back when the other is found. -/
theorem Room.descend (hroom : s.Room) (h : Held s t [ip]) (hip : s.Stays (t.inode ip).inum) (j : ℕ) :
    ∃ u t' next, t.iget (t.inode ip).dev j = some (u, next) ∧ (u.lock ip).iunlockput ip = some t' ∧
      Held s t' [next] ∧ (t'.inode next).inum = j := by
  have hpos := h.pos (mem_singleton_self ip)
  obtain ⟨u, next, hget, hu, hnext, hkept⟩ := h.iget (hroom.free h) j
  have hswap := hu.perm (List.Perm.swap next ip [])
  rw [← hkept ip hpos] at hip
  obtain ⟨t', hput, ht', hsame⟩ := hip.iput hswap
  refine ⟨u, t', next, ?_, ?_, ht', (hsame next).trans hnext⟩
  · rw [h.table.dev ip hpos, hget]
  · rw [hswap.iunlockput_lock mem_cons_self, hput]

/-- What the loop of `namex` is to find from inode `i` on. -/
def target (s : Inodes) (parent : Bool) (i : ℕ) : List (List UInt8) → Option ℕ
  | [] => if parent then none else some i
  | e :: es =>
    if (s.fs.readInode i).type = tDir then
      if parent ∧ es = [] then some i else (s.look i e).bind fun j => s.target parent j es
    else none

/-- **The loop of `namex`.** -/
theorem Tree.namexLoop (hs : s.Tree cwd) (hroom : s.Room) (parent : Bool) {fuel : ℕ} {path : KString}
    (hfuel : path.bytes.length < fuel) (hname : name.length = dirSiz) (h : Held s t [ip])
    (hip : s.Stays (t.inode ip).inum) :
    ∃ t' r name', t.namexLoop parent fuel ip path name = some (t', r, name') ∧ Held s t' r.toList ∧
      r.map (fun k => (t'.inode k).inum) =
        s.target parent (t.inode ip).inum ((elements path.bytes).map (List.take dirSiz)) ∧
      (parent = true → r ≠ none →
        ((elements path.bytes).map (List.take dirSiz)).getLast? = some (nameKey dirSiz name')) := by
  induction fuel generalizing t ip path name with
  | zero => omega
  | succ fuel ih =>
    have hmem : ip ∈ [ip] := mem_singleton_self ip
    rw [Inodes.namexLoop]
    rcases skipelem_spec path hname with ⟨hskip, hnil⟩ |
      ⟨path', name', e, hskip, hcons, hkey, hname', hlt, hend⟩
    · -- no element is left
      rw [hskip, hnil]
      cases parent with
      | false => exact ⟨t, some ip, name, rfl, h, rfl, fun hp => absurd hp (by simp)⟩
      | true =>
        obtain ⟨t', hrun, h', -⟩ := hip.iput h
        exact ⟨t', none, name, by simp [hrun], h', rfl, fun _ hne => absurd rfl hne⟩
    · -- the inode is locked, so that its entry holds it
      have hlive : (t.fs.readInode (t.inode ip).inum).type ≠ 0 := by
        rw [h.fs]
        exact hip.1.2
      have hload := h.load hmem
      have hlock := h.ilock hmem hlive
      have hdin : ((t.load ip).inode ip).din = s.fs.readInode (t.inode ip).inum := by
        rw [Inodes.load, set_self, h.fs]
      rw [← load_inum t ip ip] at hip hdin ⊢
      generalize t.load ip = u at hip hload hlock hdin
      have htype : ((u.lock ip).inode ip).din = s.fs.readInode (u.inode ip).inum := by
        rw [lock, set_self, ← hdin]
      rw [hskip]
      dsimp only
      rw [hlock, bind_some, htype, hcons, map_cons, target]
      by_cases hdir : (s.fs.readInode (u.inode ip).inum).type = tDir
      · rw [if_neg (not_not.2 hdir), if_pos hdir]
        by_cases hstop : parent = true ∧ path'.bytes = []
        · -- one level early
          have hlast : parent = true ∧ (elements path'.bytes).map (List.take dirSiz) = [] :=
            ⟨hstop.1, by rw [hend.1 hstop.2]; rfl⟩
          rw [if_pos hstop, if_pos hlast, hload.iunlock_lock (hload.pos hmem)]
          refine ⟨u, some ip, name', rfl, hload, rfl, fun _ _ => ?_⟩
          rw [hlast.2, hkey]
          rfl
        · have hmore : ¬ (parent = true ∧ (elements path'.bytes).map (List.take dirSiz) = []) := by
            rintro ⟨hp, hnone⟩
            exact hstop ⟨hp, hend.2 (map_eq_nil_iff.1 hnone)⟩
          have hlook : u.fs.dirlookup (u.inode ip).din name' =
              some (u.fs, (u.inode ip).din,
                dirMap (s.disk.bytes (u.inode ip).inum) (nameKey dirSiz name')) := by
            rw [hdin, hload.fs]
            exact hs.dirlookup hip.1 hdir name'
          have hentry := hs.look_eq hip.1 hdir name'
          rw [if_neg hstop, if_neg hmore, ← hs.look_congr hip.1 hkey, dirlookup_lock hlook]
          cases hfound : dirMap (s.disk.bytes (u.inode ip).inum) (nameKey dirSiz name') with
          | none =>
            -- the name is not there
            rw [hfound] at hentry
            obtain ⟨t', hrun, h', -⟩ := hip.iput hload
            refine ⟨t', none, name', ?_, h', by rw [hentry]; rfl, fun _ hne => absurd rfl hne⟩
            dsimp only [elim_none, bind_some]
            rw [hload.iunlockput_lock hmem, hrun, map_some]
          | some r =>
            rw [hfound] at hentry
            obtain ⟨v, t', next, hget, hput, h', hnext⟩ := hroom.descend hload hip r.1
            obtain ⟨t'', q, name'', hrec, hheld, htarget, hbuf⟩ := ih (t := t')
              (show path'.bytes.length < fuel by omega) hname' h'
                (by rw [hnext]; exact hs.entries _ name' r.1 hip.1 hentry)
            refine ⟨t'', q, name'', ?_, hheld, ?_, fun hp hne => ?_⟩
            · dsimp only [elim_some]
              rw [hget, map_some, bind_some]
              dsimp only
              rw [hput, bind_some]
              exact hrec
            · rw [htarget, hnext, hentry]
              rfl
            · have hne' : (elements path'.bytes).map (List.take dirSiz) ≠ [] := fun hnil =>
                hmore ⟨hp, hnil⟩
              rw [← hbuf hp hne, List.getLast?_cons, List.getLast?_eq_some_getLast hne']
              rfl
      · rw [if_pos hdir, if_neg hdir, hload.iunlockput_lock hmem]
        obtain ⟨t', hrun, h', -⟩ := hip.iput hload
        rw [hrun]
        exact ⟨t', none, name', rfl, h', rfl, fun _ hne => absurd rfl hne⟩

theorem target_false (s : Inodes) (i : ℕ) (keys : List (List UInt8)) :
    s.target false i keys = keys.foldlM s.look i := by
  induction keys generalizing i with
  | nil => rfl
  | cons e es ih =>
    rw [target, foldlM_cons]
    by_cases hdir : (s.fs.readInode i).type = tDir
    · rw [if_pos hdir, if_neg (by simp)]
      exact congrArg (Option.bind _) (funext ih)
    · rw [if_neg hdir, look, if_neg hdir]
      rfl

theorem target_true (s : Inodes) (i : ℕ) (hkeys : keys ≠ []) :
    s.target true i keys =
      (keys.dropLast.foldlM s.look i).filter fun j => (s.fs.readInode j).type = tDir := by
  induction keys generalizing i with
  | nil => exact absurd rfl hkeys
  | cons e es ih =>
    rw [target]
    cases es with
    | nil =>
      rw [if_pos (show _ ∧ _ from ⟨rfl, rfl⟩)]
      show _ = (some i).filter _
      rw [filter_some]
      simp only [decide_eq_true_eq]
    | cons e' es =>
      have hmore : ¬ (true = true ∧ e' :: es = []) := fun h => absurd h.2 (cons_ne_nil _ _)
      rw [if_neg hmore, dropLast_cons_cons, foldlM_cons]
      by_cases hdir : (s.fs.readInode i).type = tDir
      · rw [if_pos hdir]
        cases hlook : s.look i e with
        | none => rfl
        | some j => exact ih j (by simp)
      · rw [if_neg hdir, look, if_neg hdir]
        rfl

theorem target_true_eq_none_iff (s : Inodes) (i : ℕ) (keys : List (List UInt8)) :
    s.target true i keys = none ↔
      keys = [] ∨ ∀ j, keys.dropLast.foldlM s.look i = some j → (s.fs.readInode j).type ≠ tDir := by
  by_cases hkeys : keys = []
  · rw [hkeys]
    exact iff_of_true rfl (.inl rfl)
  · rw [target_true s i hkeys, filter_eq_none_iff]
    simp only [decide_eq_true_eq]
    exact (or_iff_right hkeys).symm

/-- The last element is looked up in the parent. -/
theorem of_target_true (h : s.target true i keys = some j)
    (hlast : keys.getLast? = some e) :
    keys.dropLast.foldlM s.look i = some j ∧ keys.foldlM s.look i = s.look j e := by
  obtain ⟨rest, rfl⟩ := List.getLast?_eq_some_iff.1 hlast
  rw [target_true s i (by simp), dropLast_concat] at h
  have hparent := (filter_eq_some_iff.1 h).1
  rw [dropLast_concat, foldlM_append, hparent]
  refine ⟨rfl, ?_⟩
  show (s.look j e).bind some = s.look j e
  cases s.look j e <;> rfl

/-- What is found can be walked on from. -/
theorem Tree.stays_foldlM (hs : s.Tree cwd) (hi : s.Stays i)
    (h : keys.foldlM s.look i = some j) : s.Stays j := by
  induction keys generalizing i with
  | nil =>
    cases h
    exact hi
  | cons e es ih =>
    rw [foldlM_cons] at h
    obtain ⟨k, hlook, hrest⟩ := bind_eq_some_iff.1 h
    exact ih (hs.entries i e k hi.1 hlook) hrest

theorem Tree.held_nil (hs : s.Tree cwd) : Held s s [] :=
  ⟨rfl, rfl, hs.table, hs.unlocked, hs.table.ref, fun k => by simp, fun _ _ => rfl⟩

/-- The inode that a path starts from. -/
def start (s : Inodes) (cwd : InodePtr) (path : KString) : ℕ :=
  if path.bytes.head? = some slash then rootIno else (s.inode cwd).inum

theorem Tree.stays_start (hs : s.Tree cwd) (path : KString) : s.Stays (s.start cwd path) := by
  unfold start
  split
  · exact hs.root
  · exact ⟨hs.cwd.2, .inr ⟨cwd, hs.cwd.1, rfl⟩⟩

theorem Tree.namex (hs : s.Tree cwd) (hroom : s.Room) (parent : Bool) (path : KString)
    (hname : name.length = dirSiz) :
    ∃ t r name', s.namex cwd path parent name = some (t, r, name') ∧ Held s t r.toList ∧
      r.map (fun k => (t.inode k).inum) =
        s.target parent (s.start cwd path) ((elements path.bytes).map (List.take dirSiz)) ∧
      (parent = true → r ≠ none →
        ((elements path.bytes).map (List.take dirSiz)).getLast? = some (nameKey dirSiz name')) := by
  have hheld := hs.held_nil
  unfold Inodes.namex start
  by_cases habs : path.bytes.head? = some slash
  · obtain ⟨a, -, -, ha, -⟩ := id hroom
    obtain ⟨t, ip, hget, h, hinum, -⟩ := hheld.iget ⟨a, ha⟩ rootIno
    rw [if_pos habs, if_pos habs, hget, bind_some, ← hinum]
    exact hs.namexLoop hroom parent (Nat.lt_succ_self _) hname h (by rw [hinum]; exact hs.root)
  · have hdup : Held s (s.idup cwd) [cwd] := by
      refine hheld.change (fun k hk => ?_) ?_ (hs.unlocked cwd) (fun _ => rfl)
        (fun _ => hs.table.dev cwd hs.cwd.1)
        (fun _ k hne hk => hheld.inum_ne hs.cwd.1 hne hk) fun _ => hs.table.valid cwd hs.cwd.1
      · exact count_cons_of_ne (Ne.symm hk)
      · simp
    have hinum : ((s.idup cwd).inode cwd).inum = (s.inode cwd).inum := by rw [idup, set_self]
    rw [if_neg habs, if_neg habs, bind_some, ← hinum]
    exact hs.namexLoop hroom parent (Nat.lt_succ_self _) hname hdup
      (by rw [hinum]; exact ⟨hs.cwd.2, .inr ⟨cwd, hs.cwd.1, rfl⟩⟩)

/-! ## The buffer of a caller -/

theorem skipelem_fst (path : KString) (name name' : List UInt8) :
    (skipelem path name).map Prod.fst = (skipelem path name').map Prod.fst := by
  unfold skipelem
  by_cases hnil : (path.skip (· == slash)).bytes = []
  · simp only [hnil, if_true]
  · simp only [hnil, if_false]
    rfl

theorem dirlookup_congr (t : Inodes) (dp : InodePtr) (hkey : nameKey dirSiz name = nameKey dirSiz name') :
    t.dirlookup dp name = t.dirlookup dp name' := by
  unfold Inodes.dirlookup
  rw [Fs.dirlookup_congr _ _ hkey]

/-- What the buffer for the names held before does not matter. -/
theorem namexLoop_congr (parent : Bool) (fuel : ℕ) {path : KString} (hname : name.length = dirSiz)
    (hname' : name'.length = dirSiz) :
    (t.namexLoop parent fuel ip path name).map (fun r => (r.1, r.2.1)) =
      (t.namexLoop parent fuel ip path name').map fun r => (r.1, r.2.1) := by
  induction fuel generalizing t ip path name name' with
  | zero => rfl
  | succ fuel ih =>
    have hfst := skipelem_fst path name name'
    rw [Inodes.namexLoop, Inodes.namexLoop]
    rcases skipelem_spec path hname with ⟨hskip, -⟩ | ⟨p, n, e, hskip, hcons, hkey, hlen, -⟩ <;>
      rcases skipelem_spec path hname' with ⟨hskip', -⟩ | ⟨p', n', e', hskip', hcons', hkey', hlen', -⟩ <;>
      rw [hskip, hskip'] at hfst ⊢
    · cases parent with
      | false => rfl
      | true => cases t.iput ip <;> rfl
    · cases hfst
    · cases hfst
    · obtain rfl : p = p' := some.inj hfst
      have hsame : nameKey dirSiz n = nameKey dirSiz n' := by
        rw [hkey, hkey', (List.cons.inj (hcons.symm.trans hcons')).1]
      dsimp only
      cases t.ilock ip with
      | none => rfl
      | some u =>
        rw [bind_some, bind_some]
        by_cases hdir : (u.inode ip).din.type ≠ tDir
        · rw [if_pos hdir, if_pos hdir]
          cases u.iunlockput ip <;> rfl
        · rw [if_neg hdir, if_neg hdir]
          by_cases hstop : parent = true ∧ p.bytes = []
          · rw [if_pos hstop, if_pos hstop]
            cases u.iunlock ip <;> rfl
          · rw [if_neg hstop, if_neg hstop, dirlookup_congr u ip hsame]
            cases u.dirlookup ip n' with
            | none => rfl
            | some r =>
              obtain ⟨v, next⟩ := r
              cases next with
              | none =>
                dsimp only [bind_some]
                cases v.iunlockput ip <;> rfl
              | some next =>
                dsimp only [bind_some]
                cases v.iunlockput ip with
                | none => rfl
                | some w => exact ih hlen hlen'

theorem namex_congr (s : Inodes) (cwd : InodePtr) (path : KString) (parent : Bool)
    (hname : name.length = dirSiz) (hname' : name'.length = dirSiz) :
    (s.namex cwd path parent name).map (fun r => (r.1, r.2.1)) =
      (s.namex cwd path parent name').map fun r => (r.1, r.2.1) := by
  unfold Inodes.namex
  cases (if path.bytes.head? = some slash then s.iget rootDev rootIno else some (s.idup cwd, cwd)) with
  | none => rfl
  | some r => exact namexLoop_congr parent _ hname hname'

end Inodes

open Inodes

/-- **Paths are resolved element by element.** The calls of `skipelem` yield the elements, cut to
`DIRSIZ` bytes. `namei` folds `dirlookup` over them. `nameiparent` stops one element early, and
looking the last one up in what it found is `namei`. Slashes next to others and at the end do
not matter. What a buffer held before does not matter either. -/
theorem path_resolution {s : Inodes} {cwd : InodePtr} (hs : s.Tree cwd) (hroom : s.Room) (path : KString)
    {name : List UInt8} (hname : name.length = dirSiz) :
    let keys := (elements path.bytes).map (List.take dirSiz)
    let start := if path.bytes.head? = some slash then rootIno else (s.inode cwd).inum
    Skips path name keys ∧
    (∃ t r, s.namei cwd path = some (t, r) ∧ t.fs = s.fs ∧
      (∀ stack, stack.length = dirSiz → ∃ buf, s.namex cwd path false stack = some (t, r, buf)) ∧
      r.map (fun ip => (t.inode ip).inum) = keys.foldlM s.look start) ∧
    (∃ t r name', s.nameiparent cwd path name = some (t, r, name') ∧ t.fs = s.fs ∧
      (r = none ↔ keys = [] ∨ ∀ i, keys.dropLast.foldlM s.look start = some i →
        (s.fs.readInode i).type ≠ tDir) ∧
      ∀ dp, r = some dp → keys.dropLast.foldlM s.look start = some (t.inode dp).inum ∧
        keys.foldlM s.look start = s.look (t.inode dp).inum name') ∧
    ∀ (path' : KString) (a b : List UInt8), path.bytes = a ++ b → path'.bytes = a ++ slash :: b →
      a.getLast? = some slash ∨ b.head? = some slash ∨ (b = [] ∧ a ≠ []) →
      (s.namei cwd path').map (fun r => r.2.map fun ip => (r.1.inode ip).inum) =
        (s.namei cwd path).map fun r => r.2.map fun ip => (r.1.inode ip).inum := by
  intro keys start
  have hstart : s.start cwd path = start := rfl
  have hnamei : ∀ path' : KString, ∃ t r, s.namei cwd path' = some (t, r) ∧ t.fs = s.fs ∧
      (∀ stack, stack.length = dirSiz → ∃ buf, s.namex cwd path' false stack = some (t, r, buf)) ∧
      r.map (fun ip => (t.inode ip).inum) =
        ((elements path'.bytes).map (List.take dirSiz)).foldlM s.look (s.start cwd path') := by
    intro path'
    have hzeros : (List.replicate dirSiz (0 : UInt8)).length = dirSiz := length_replicate
    obtain ⟨t, r, buf, hrun, hheld, htarget, -⟩ := hs.namex hroom false path' hzeros
    refine ⟨t, r, ?_, hheld.fs, fun stack hstack => ?_, ?_⟩
    · rw [namei, hrun, map_some]
    · have hcongr := namex_congr s cwd path' false hstack hzeros
      rw [hrun, map_some] at hcongr
      obtain ⟨⟨t', r', buf'⟩, hrun', heq⟩ := map_eq_some_iff.1 hcongr
      obtain ⟨rfl, rfl⟩ := Prod.mk.inj heq
      exact ⟨buf', hrun'⟩
    · rw [htarget, target_false]
  refine ⟨skips_elements path hname, hnamei path, ?_, ?_⟩
  · obtain ⟨t, r, name', hrun, hheld, htarget, hlast⟩ := hs.namex hroom true path hname
    rw [hstart] at htarget
    refine ⟨t, r, name', hrun, hheld.fs, ?_, ?_⟩
    · rw [← target_true_eq_none_iff, ← htarget, map_eq_none_iff]
    · rintro dp rfl
      rw [map_some] at htarget
      have hbuf := hlast rfl (some_ne_none dp)
      obtain ⟨hparent, hfold⟩ := of_target_true htarget.symm hbuf
      have hlive := (hs.stays_foldlM (hs.stays_start path) hparent).1
      exact ⟨hparent, hfold.trans (hs.look_congr hlive rfl).symm⟩
  · intro path' a b hpath hpath' hslash
    have helements : elements path'.bytes = elements path.bytes := by
      rw [hpath, hpath']
      exact elements_insert (hslash.imp_right (Or.imp_right And.left))
    have hhead : s.start cwd path' = s.start cwd path := by
      have : path'.bytes.head? = path.bytes.head? := by
        rw [hpath, hpath']
        cases a with
        | nil =>
          rcases hslash with h | h | h
          · cases h
          · exact h.symm
          · exact absurd rfl h.2
        | cons c a => rfl
      unfold Inodes.start
      rw [this]
    obtain ⟨t, r, hrun, -, -, hr⟩ := hnamei path
    obtain ⟨t', r', hrun', -, -, hr'⟩ := hnamei path'
    rw [hrun, hrun', map_some, map_some, hr, hr', helements, hhead]

/-- The root is the only inode, and a process is in it. -/
def onlyRoot (fs : Fs) : Inodes where
  fs := fs
  inode k := if k = 0 then ⟨rootDev, rootIno, 1, false, false, .zero⟩ else ⟨0, 0, 0, false, false, .zero⟩
  outstanding := 0

theorem onlyRoot_tree {t : FsState} (hwf : t.WellFormed) (hdir : t.IsDir 1) (hone : t.entries 1 = 1)
    (hdot : dirMap (t.bytes 1) [0x2e] = some (1, 0))
    (hfree : ∀ i < t.fs.sb.ninodes, i ≠ 1 → (t.fs.readInode i).type = 0) : (onlyRoot t.fs).Tree 0 := by
  have href : ∀ k, 0 < ((onlyRoot t.fs).inode k).ref → k = 0 := by
    intro k hk
    by_contra hne
    have hzero : ((onlyRoot t.fs).inode k).ref = 0 := by
      show (if k = 0 then _ else _ : Inode).ref = 0
      rw [if_neg hne]
    omega
  have hroot : (onlyRoot t.fs).Stays 1 := ⟨hdir.live, .inr ⟨0, Int.one_pos, rfl⟩⟩
  have hlive : ∀ i, t.fs.Live t.fs.readInode i → i = 1 := by
    intro i hi
    by_contra hne
    exact hi.2 (hfree i hi.1 hne)
  have hdisk : (onlyRoot t.fs).disk.WellFormed :=
    ⟨hwf.good, hwf.mapped, fun i ip hip => absurd hip (by simp [disk])⟩
  refine ⟨hdisk, ⟨?_, ?_, ?_, ?_⟩, ?_, ?_, ?_, hroot, ⟨Int.one_pos, hdir.live⟩⟩
  · intro k
    show 0 ≤ (if k = 0 then _ else _ : Inode).ref
    split <;> decide
  · intro k hk
    rw [href k hk]
    rfl
  · intro k k' hk hk' _
    rw [href k hk, href k' hk']
  · intro k hk hvalid
    rw [href k hk] at hvalid
    exact absurd hvalid (by simp [onlyRoot])
  · intro k
    show (if k = 0 then _ else _ : Inode).locked = false
    split <;> rfl
  · intro i hi _
    rw [hlive i hi]
    exact hdir.whole
  · intro i name j hi hj
    obtain rfl := hlive i hi
    have hlook : (onlyRoot t.fs).look 1 name =
        (dirMap (t.bytes 1) (nameKey dirSiz name)).map Prod.fst := by
      show (if (t.fs.readInode 1).type = tDir then _ else _) = _
      rw [if_pos hdir.type, show (onlyRoot t.fs).fs = t.fs from rfl, hwf.dirlookup hdir, bind_some]
    rw [hlook] at hj
    obtain ⟨⟨j', off⟩, hfound, rfl⟩ := map_eq_some_iff.1 hj
    -- both names are those of the one entry
    obtain ⟨k, hk, -, hslot⟩ := hdir.dirMap_eq_some_iff.1 hfound
    obtain ⟨k', hk', -, hslot'⟩ := hdir.dirMap_eq_some_iff.1 hdot
    obtain rfl : k = k' := by omega
    rw [hslot] at hslot'
    have hsame : j' = 1 := (Prod.mk.inj (some.inj hslot')).2
    rw [hsame]
    exact hroot

/-- The path `//./` leads to the root. -/
theorem path_resolution_dot :
    let path : KString := ⟨[slash, slash, 0x2e, slash], by decide, by decide⟩
    ∃ (s t : Inodes) (r : InodePtr), s.Tree 0 ∧ s.Room ∧ s.namei 0 path = some (t, some r) ∧
        (t.inode r).inum = rootIno := by
  intro path
  have hrun : (exec FsState.step smallDisk dirCalls).any
      (fun t => (t.icache 1).isSome && decide ((t.fs.readInode 1).type = tDir ∧
        (t.fs.readInode 1).size = direntSize ∧ t.fs.sb.ninodes = 4 ∧
        dirMap (t.bytes 1) [0x2e] = some (1, 0) ∧
          ∀ i : Fin 4, i = 1 ∨ (t.fs.readInode i).type = 0)) = true := by
    decide +kernel
  obtain ⟨t, ht, hstate⟩ := (any_eq_true _ _).1 hrun
  rw [Bool.and_eq_true, decide_eq_true_iff] at hstate
  obtain ⟨hcached, htype, hsize, hcount, hdot, hfree⟩ := hstate
  obtain ⟨ip, hip⟩ := isSome_iff_exists.1 hcached
  have hwf := FsState.exec_wellFormed smallDisk_wellFormed ht
  have hdir : t.IsDir 1 := .of_single (hwf.cache 1 ip hip).1 htype (Or.inr hsize)
  have htree : (onlyRoot t.fs).Tree 0 := by
    refine onlyRoot_tree hwf hdir ?_ hdot ?_
    · rw [FsState.entries, hsize]
      rfl
    · rw [hcount]
      exact fun i hi hne => (hfree ⟨i, hi⟩).resolve_left fun heq => hne (congrArg Fin.val heq)
  have hroom : (onlyRoot t.fs).Room := ⟨1, 2, by decide, rfl, rfl⟩
  obtain ⟨-, ⟨u, r, hnamei, -, -, hr⟩, -⟩ :=
    path_resolution htree hroom path (length_replicate (n := dirSiz) (a := (0 : UInt8)))
  have hlook : (onlyRoot t.fs).look 1 [0x2e] = some 1 := by
    rw [htree.look_eq hdir.live hdir.type]
    exact congrArg (Option.map Prod.fst) hdot
  have hfold : ((elements path.bytes).map (List.take dirSiz)).foldlM (onlyRoot t.fs).look rootIno =
      some 1 := by
    rw [show (elements path.bytes).map (List.take dirSiz) = [[0x2e]] by decide, foldlM_cons, hlook]
    rfl
  rw [show (if path.bytes.head? = some slash then rootIno else ((onlyRoot t.fs).inode 0).inum) =
    rootIno from rfl,
    hfold] at hr
  obtain ⟨k, rfl, hk⟩ := map_eq_some_iff.1 hr
  exact ⟨onlyRoot t.fs, u, k, htree, hroom, hnamei, hk⟩

/-! ## A full table -/

/-- A disk of sixty empty directories. -/
def emptyDirs : Fs :=
  ⟨⟨fsMagic, 8, 3, 60, 0, 2, 2, 3⟩,
    update (update (fun _ _ => 0) 3 ((List.range 5).foldl setBit fun _ => 0)) 2
      fun off => if off % dinodeSize = 0 ∨ off % dinodeSize = 6 then 1 else 0⟩

/-- All entries of the table are in use, none of them for the root. -/
def fullTable : Inodes where
  fs := emptyDirs
  inode k := ⟨rootDev, k + 2, 1, false, false, .zero⟩
  outstanding := 0

theorem emptyDirs_inode : ∀ i < 60,
    (emptyDirs.readInode i).type = tDir ∧ (emptyDirs.readInode i).nlink = 1 ∧
    (emptyDirs.readInode i).size = 0 ∧ ∀ k < nDirect + 1, (emptyDirs.readInode i).addrs k = 0 := by
  decide +kernel

theorem fullTable_tree : fullTable.Tree 0 := by
  have hlook : ∀ i < 60, ∀ name, fullTable.look i name = none := by
    intro i hi name
    obtain ⟨htype, -, hsize, -⟩ := emptyDirs_inode i hi
    have hlookup : emptyDirs.dirlookup (emptyDirs.readInode i) name =
        some (emptyDirs, emptyDirs.readInode i, none) := by
      unfold Fs.dirlookup
      rw [if_neg (not_not.2 htype), hsize]
      exact if_neg (by rw [hsize]; exact lt_irrefl 0)
    show (if (emptyDirs.readInode i).type = tDir then _ else _) = _
    rw [if_pos htype, show fullTable.fs = emptyDirs from rfl, hlookup]
    rfl
  have hlive : ∀ i < 60, emptyDirs.Live emptyDirs.readInode i := by
    intro i hi
    exact ⟨hi, by rw [(emptyDirs_inode i hi).1]; decide⟩
  refine ⟨.of_noData ⟨by decide +kernel, by decide +kernel, by decide +kernel⟩ ?_
    (by decide +kernel) fun _ => rfl,
    ⟨?_, ?_, ?_, ?_⟩, fun _ => rfl, ?_, ?_, ?_, ?_⟩
  · intro i hi
    exact .inr (emptyDirs_inode i hi).2.2
  · intro k
    exact Int.one_nonneg
  · intro k _
    rfl
  · intro k k' _ _ heq
    have hval : k.val + 2 = k'.val + 2 := heq
    exact Fin.ext (by omega)
  · intro k _ hvalid
    exact absurd hvalid (by simp [fullTable])
  · intro i hi _
    rw [show fullTable.fs = emptyDirs from rfl, (emptyDirs_inode i hi.1).2.2.1]
    exact Nat.dvd_zero _
  · intro i name j hi hj
    rw [hlook i hi.1] at hj
    cases hj
  · refine ⟨hlive 1 (by decide), .inl ?_⟩
    rw [show fullTable.fs = emptyDirs from rfl, (emptyDirs_inode 1 (by decide)).2.1]
    decide
  · exact ⟨Int.one_pos, hlive 2 (by decide)⟩

/-- **With a full table `namei` does not return**: `iget` panics, though the path is that of the
root. -/
theorem path_resolution_full :
    let path : KString := ⟨[slash], by decide, by decide⟩
    fullTable.Tree 0 ∧ fullTable.namei 0 path = none ∧
      ((elements path.bytes).map (List.take dirSiz)).foldlM fullTable.look rootIno = some rootIno := by
  intro path
  refine ⟨fullTable_tree, ?_, rfl⟩
  have hget : fullTable.iget rootDev rootIno = none := by decide +kernel
  have habs : path.bytes.head? = some slash := rfl
  unfold namei namex
  rw [if_pos habs, hget]
  rfl

end AudioPlayer
