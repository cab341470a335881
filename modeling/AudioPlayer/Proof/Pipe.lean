import AudioPlayer.Spec.Pipe
import AudioPlayer.Lib.Ledger

/-!
# Pipes are lossless FIFOs

`nread` and `nwrite` are free-running counters over a ring of 512 bytes (`RingBuffer.Window`):
that the ring's size divides `2 ^ 32` is what lets them wrap around. The invariant `OK` ties the
ring to the bytes accepted and delivered so far, says what a call has done up to where it is, and
that an end is open as long as some process has a descriptor for it. Two ledgers give each byte
accepted or delivered to the call it came from or went to. `pipe_fifo` reads the properties off.
-/

namespace AudioPlayer

open Function Runs RingBuffer List Option

variable {pi : Pipe} {xs : List UInt8} {n : ℤ}

namespace Pipe

/-- The ring holds the bytes `xs`. -/
structure Holds (pi : Pipe) (xs : List UInt8) : Prop where
  window : Window pipeSize (2 ^ 32) pi.data pi.nread pi.nwrite xs
  room : xs.length ≤ pipeSize

theorem Holds.lt (h : pi.Holds xs) : xs.length < 2 ^ 32 :=
  lt_of_le_of_lt h.room (by decide)

theorem Holds.buffered (h : pi.Holds xs) : pi.buffered = xs := h.window.contents_eq h.lt

theorem Holds.put (h : pi.Holds xs) (hroom : pi.nwrite ≠ (pi.nread + pipeSize) % 2 ^ 32) (ch : UInt8) :
    (pi.put ch).Holds (xs ++ [ch]) := by
  -- a full ring would have its counters `PIPESIZE` apart
  have hlt : xs.length < pipeSize := by
    refine Nat.lt_of_le_of_ne h.room fun hfull => hroom ?_
    rw [h.window.tail_eq, hfull]
  refine ⟨h.window.push hlt ch, ?_⟩
  rw [length_append, length_singleton]
  exact hlt

theorem Holds.get (h : pi.Holds xs) (hne : pi.nread ≠ pi.nwrite) :
    ∃ ys, xs = pi.get.1 :: ys ∧ pi.get.2.Holds ys := by
  cases xs with
  | nil => exact absurd ((h.window.eq_nil_iff h.lt).2 rfl) hne
  | cons x ys =>
    obtain ⟨hx, hw⟩ := h.window.pop
    refine ⟨ys, ?_, hw, ?_⟩
    · rw [Pipe.get, hx]
    · exact Nat.le_of_succ_le h.room

end Pipe

namespace PipeSys

/-- What a call has done, where `p` is. -/
def CallOK (pi : Pipe) (lock : Option Slot) (held : Bool → Slot → ℕ) (p : Slot) : PipeCall → Prop
  | .idle => True
  | .write _ _ _ _ => 0 < held true p
  | .read _ _ => 0 < held false p
  | .copy _ _ got =>
    -- it has had the lock since it found the pipe not empty, or without a writer
    0 < held false p ∧ lock = some p ∧ (got = [] → pi.nread ≠ pi.nwrite ∨ pi.writeopen = false)

/-- A `piperead` returns -1 or the number of bytes it copied out. If that is 0 it has left an empty
pipe without a writer, or was asked for no bytes. -/
def ReadReturn.OK (r : ReadReturn) : Prop :=
  (0 ≤ r.ret → r.ret = r.got.length) ∧
    (r.ret = 0 → (r.empty = true ∧ r.writeopen = false) ∨ r.n ≤ 0)

/-- The bytes that a call of `pipewrite` has put into the pipe. -/
def wrote : PipeCall → Option (ℕ × List UInt8)
  | .write id _ src i => some (id, (List.range i).map src)
  | _ => none

/-- The bytes that a call of `piperead` has copied out. -/
def got : PipeCall → Option (ℕ × List UInt8)
  | .read id _ => some (id, [])
  | .copy id _ got => some (id, got)
  | _ => none

/-- Every byte accepted is from a call of `pipewrite`, and every byte delivered is for one of
`piperead`. -/
structure Tagged (s : PipeSys) : Prop where
  accepted : Ledger s.begun s.accepted (wrote ∘ s.calls)
    (s.writes.map fun r => (r.id, (List.range r.i).map r.src))
  delivered : Ledger s.begun s.delivered (got ∘ s.calls) (s.reads.map fun r => (r.id, r.got))

/-- The invariant, for the bytes `xs` in the pipe. -/
structure OK (s : PipeSys) (xs : List UInt8) : Prop where
  holds : s.pipe.Holds xs
  fifo : s.accepted.map Prod.snd = s.delivered.map Prod.snd ++ xs
  tagged : s.Tagged
  calls : ∀ p, CallOK s.pipe s.lock s.held p (s.calls p)
  ends : ∀ w, s.pipe.isOpen w = true ↔ ∃ p, 0 < s.held w p
  freed : s.freed = if s.pipe.readopen = false ∧ s.pipe.writeopen = false then 1 else 0
  writes : ∀ r ∈ s.writes, 0 ≤ r.ret → r.ret = r.i
  reads : ∀ r ∈ s.reads, ReadReturn.OK r

variable {s s' : PipeSys} {p : Slot} {c : PipeCall} {id : ℕ}

theorem ok_alloc (p : Slot) : (alloc p).OK [] := by
  refine ⟨⟨Window.empty (by decide) (Nat.two_pow_pos 32), Nat.zero_le _⟩, rfl,
    ⟨Ledger.empty, Ledger.empty⟩, fun _ => trivial, fun w => ?_, rfl, by simp [alloc], by simp [alloc]⟩
  refine ⟨fun _ => ⟨p, by simp [alloc]⟩, fun _ => ?_⟩
  cases w <;> rfl

/-- The calls of the other processes do not have the lock. -/
theorem calls_update {pi pi' : Pipe} {lock lock' : Option Slot} {held : Bool → Slot → ℕ}
    {calls : Slot → PipeCall} (h : ∀ q, CallOK pi lock held q (calls q)) (hlock : lock = some p)
    (hc : CallOK pi' lock' held p c) :
    ∀ q, CallOK pi' lock' held q (update calls p c q) := by
  intro q
  by_cases hq : q = p
  · subst hq
    rw [update_self]
    exact hc
  · rw [update_of_ne hq]
    have hold := h q
    cases hcall : calls q with
    | idle => trivial
    | write id n src i => rw [hcall] at hold; exact hold
    | read id n => rw [hcall] at hold; exact hold
    | copy id n got =>
      rw [hcall] at hold
      exact absurd (some.inj (hold.2.1.symm.trans hlock)) hq

/-- A call that has the lock gives it up, to sleep or to return. -/
theorem calls_unlock (h : s.OK xs) (hlock : s.lock = some p)
    (hc : CallOK s.pipe none s.held p c) :
    ∀ q, CallOK s.pipe none s.held q (update s.calls p c q) :=
  calls_update h.calls hlock hc

theorem ok_endWrite (h : s.OK xs) (hlock : s.lock = some p) {src : ℕ → UInt8} {i : ℕ}
    (hcall : s.calls p = .write id n src i) {ret : ℤ} (hret : 0 ≤ ret → ret = i) :
    (s.endWrite p ⟨id, src, i, ret⟩).OK xs := by
  refine ⟨h.holds, h.fifo, ⟨?_, h.tagged.delivered.stay ?_⟩, calls_unlock h hlock trivial, h.ends,
    h.freed, forall_mem_cons.2 ⟨hret, h.writes⟩, h.reads⟩
  · show Ledger _ _ (wrote ∘ update s.calls p .idle) _
    rw [comp_update]
    refine h.tagged.accepted.finish (p := p) ?_
    rw [Function.comp_apply, hcall]
    rfl
  · rw [hcall]
    rfl

theorem ok_endRead (h : s.OK xs) (hlock : s.lock = some p) {n ret : ℤ} {bytes : List UInt8}
    (hcall : got (s.calls p) = some (id, bytes)) (hw : wrote (s.calls p) = none)
    (hret : (0 ≤ ret → ret = bytes.length) ∧
      (ret = 0 → (s.pipe.nread = s.pipe.nwrite ∧ s.pipe.writeopen = false) ∨ n ≤ 0)) :
    (s.endRead p id n bytes ret).OK xs := by
  refine ⟨h.holds, h.fifo, ⟨h.tagged.accepted.stay hw.symm, ?_⟩, calls_unlock h hlock trivial, h.ends,
    h.freed, h.writes, forall_mem_cons.2 ⟨⟨hret.1, fun hzero => ?_⟩, h.reads⟩⟩
  · show Ledger _ _ (got ∘ update s.calls p .idle) _
    rw [comp_update]
    exact h.tagged.delivered.finish hcall
  · exact (hret.2 hzero).imp_left fun hempty => ⟨decide_eq_true hempty.1, hempty.2⟩

theorem ok_sleep (h : s.OK xs) (hlock : s.lock = some p)
    (hc : CallOK s.pipe none s.held p (s.calls p)) : OK { s with lock := none } xs := by
  have hcalls := calls_unlock h hlock hc
  rw [update_eq_self] at hcalls
  exact ⟨h.holds, h.fifo, ⟨h.tagged.accepted, h.tagged.delivered⟩, hcalls, h.ends, h.freed, h.writes, h.reads⟩

/-! ## The calls -/

theorem ok_pipewrite (h : s.OK xs) (hlock : s.lock = some p) {src : ℕ → UInt8} {i : ℕ}
    (hcall : s.calls p = .write id n src i) (killed : Bool) :
    ∃ ys, (s.pipewrite p killed id n src i).OK ys := by
  have hheld : 0 < s.held true p := by
    have := h.calls p
    rwa [hcall] at this
  unfold pipewrite
  by_cases hin : i < n
  · rw [if_pos hin]
    by_cases hstop : s.pipe.readopen = false ∨ killed = true
    · rw [if_pos hstop]
      exact ⟨xs, ok_endWrite h hlock hcall fun hret => absurd hret (by simp)⟩
    · rw [if_neg hstop]
      by_cases hfull : s.pipe.nwrite = (s.pipe.nread + pipeSize) % 2 ^ 32
      · rw [if_pos hfull]
        exact ⟨xs, ok_sleep h hlock (by rw [hcall]; exact hheld)⟩
      · rw [if_neg hfull]
        refine ⟨xs ++ [src i], h.holds.put hfull (src i), ?_, ⟨?_, h.tagged.delivered.stay ?_⟩,
          calls_update h.calls hlock hheld, h.ends, h.freed, h.writes, h.reads⟩
        · simp only [map_append, map_singleton, h.fifo, append_assoc]
        · show Ledger _ _ (wrote ∘ update s.calls p (.write id n src (i + 1))) _
          rw [comp_update, wrote, range_succ, map_append, map_singleton]
          exact h.tagged.accepted.put (by rw [Function.comp_apply, hcall]; rfl) (src i)
        · rw [hcall]
          rfl
  · rw [if_neg hin]
    exact ⟨xs, ok_endWrite h hlock hcall fun _ => rfl⟩

theorem ok_pipereadWait (h : s.OK xs) (hlock : s.lock = some p)
    (hcall : s.calls p = .read id n) (killed : Bool) : (s.pipereadWait p killed id n).OK xs := by
  have hheld : 0 < s.held false p := by
    have := h.calls p
    rwa [hcall] at this
  unfold pipereadWait
  by_cases hwait : s.pipe.nread = s.pipe.nwrite ∧ s.pipe.writeopen = true
  · rw [if_pos hwait]
    cases killed with
    | true => exact ok_endRead h hlock (by rw [hcall]; rfl) (by rw [hcall]; rfl) (by simp)
    | false => exact ok_sleep h hlock (by rw [hcall]; exact hheld)
  · rw [if_neg hwait]
    refine ⟨h.holds, h.fifo, ⟨h.tagged.accepted.stay (by rw [hcall]; rfl),
      h.tagged.delivered.stay (by rw [hcall]; rfl)⟩,
      calls_update h.calls hlock ⟨hheld, hlock, fun _ => ?_⟩, h.ends, h.freed, h.writes, h.reads⟩
    by_cases hempty : s.pipe.nread = s.pipe.nwrite
    · exact Or.inr (by simpa [hempty] using hwait)
    · exact Or.inl hempty

theorem ok_pipereadCopy (h : s.OK xs) (hlock : s.lock = some p) {bytes : List UInt8}
    (hcall : s.calls p = .copy id n bytes) : ∃ ys, (s.pipereadCopy p id n bytes).OK ys := by
  obtain ⟨hheld, -, hfirst⟩ : 0 < s.held false p ∧ s.lock = some p ∧
      (bytes = [] → s.pipe.nread ≠ s.pipe.nwrite ∨ s.pipe.writeopen = false) := by
    have := h.calls p
    rwa [hcall] at this
  have hgot : got (s.calls p) = some (id, bytes) := by rw [hcall]; rfl
  have hwrote : wrote (s.calls p) = none := by rw [hcall]; rfl
  unfold pipereadCopy
  by_cases hin : bytes.length < n
  · rw [if_pos hin]
    by_cases hempty : s.pipe.nread = s.pipe.nwrite
    · rw [if_pos hempty]
      refine ⟨xs, ok_endRead h hlock hgot hwrote ⟨fun _ => rfl, fun hret => Or.inl ⟨hempty, ?_⟩⟩⟩
      exact (hfirst (length_eq_zero_iff.1 (by exact_mod_cast hret))).resolve_left (not_not.2 hempty)
    · rw [if_neg hempty]
      obtain ⟨ys, hxs, hholds⟩ := h.holds.get hempty
      refine ⟨ys, hholds, ?_, ⟨h.tagged.accepted.stay hwrote.symm, ?_⟩,
        calls_update h.calls hlock ⟨hheld, hlock, fun hi => absurd hi (by simp)⟩,
        h.ends, h.freed, h.writes, h.reads⟩
      · simp only [map_append, map_singleton, h.fifo, hxs, append_assoc, singleton_append]
      · show Ledger _ _ (got ∘ update s.calls p (.copy id n (bytes ++ [s.pipe.get.1]))) _
        rw [comp_update]
        exact h.tagged.delivered.put hgot s.pipe.get.1
  · rw [if_neg hin]
    refine ⟨xs, ok_endRead h hlock hgot hwrote ⟨fun _ => rfl, fun hret => Or.inr ?_⟩⟩
    omega

/-! ## Descriptors -/

/-- A call stays in order when its process keeps a descriptor and nobody has the lock. -/
theorem CallOK.unlocked {pi pi' : Pipe} {lock : Option Slot} {held held' : Bool → Slot → ℕ}
    (h : CallOK pi none held p c) (hheld : ∀ w, 0 < held w p → 0 < held' w p) :
    CallOK pi' lock held' p c := by
  cases c with
  | idle => trivial
  | write id n src i => exact hheld _ h
  | read id n => exact hheld _ h
  | copy id n got => exact absurd h.2.1 (by simp)

theorem CallOK.held_mono {pi : Pipe} {lock : Option Slot} {held held' : Bool → Slot → ℕ}
    (h : CallOK pi lock held p c) (hheld : ∀ w, 0 < held w p → 0 < held' w p) :
    CallOK pi lock held' p c := by
  cases c with
  | idle => trivial
  | write id n src i => exact hheld _ h
  | read id n => exact hheld _ h
  | copy id n got => exact ⟨hheld _ h.1, h.2⟩

/-- A process begins a call, of `pipewrite` or of `piperead`. -/
theorem ok_begin (h : s.OK xs) (hidle : s.calls p = .idle)
    (hc : CallOK s.pipe s.lock s.held p c)
    (hnew : wrote c = some (s.begun, []) ∧ got c = none ∨ wrote c = none ∧ got c = some (s.begun, [])) :
    (s.begin p c).OK xs := by
  have hnone : wrote (s.calls p) = none ∧ got (s.calls p) = none := by rw [hidle]; exact ⟨rfl, rfl⟩
  refine ⟨h.holds, h.fifo, ?_, fun q => ?_, h.ends, h.freed, h.writes, h.reads⟩
  · rcases hnew with ⟨hw, hg⟩ | ⟨hw, hg⟩
    · refine ⟨?_, h.tagged.delivered.skip.stay (hg.trans hnone.2.symm)⟩
      show Ledger _ _ (wrote ∘ update s.calls p c) _
      rw [comp_update, hw]
      exact h.tagged.accepted.start hnone.1
    · refine ⟨h.tagged.accepted.skip.stay (hw.trans hnone.1.symm), ?_⟩
      show Ledger _ _ (got ∘ update s.calls p c) _
      rw [comp_update, hg]
      exact h.tagged.delivered.start hnone.2
  · show CallOK _ _ _ _ (update s.calls p c q)
    by_cases hq : q = p
    · subst hq
      rw [update_self]
      exact hc
    · rw [update_of_ne hq]
      exact h.calls q

theorem ok_acquire (h : s.OK xs) (hlock : s.lock = none) (p : Slot) : OK { s with lock := some p } xs := by
  refine ⟨h.holds, h.fifo, ⟨h.tagged.accepted, h.tagged.delivered⟩, fun q => ?_, h.ends, h.freed, h.writes,
    h.reads⟩
  have hold := h.calls q
  rw [hlock] at hold
  exact hold.unlocked fun _ => id

theorem ok_dup (h : s.OK xs) {w : Bool} (hheld : 0 < s.held w p) (q : Slot) :
    OK { s with
      held := update s.held w (update (s.held w) q (s.held w q + 1)) } xs := by
  have hmono : ∀ w' u, 0 < s.held w' u →
      0 < update s.held w (update (s.held w) q (s.held w q + 1)) w' u := by
    intro w' u hu
    by_cases hw : w' = w
    · subst hw
      rw [update_self]
      by_cases huq : u = q
      · subst huq
        rw [update_self]
        exact Nat.succ_pos _
      · rw [update_of_ne huq]
        exact hu
    · rw [update_of_ne hw]
      exact hu
  refine ⟨h.holds, h.fifo, ⟨h.tagged.accepted, h.tagged.delivered⟩,
    fun u => (h.calls u).held_mono fun w' => hmono w' u, fun w' => ?_, h.freed, h.writes, h.reads⟩
  rw [h.ends w']
  refine ⟨fun ⟨u, hu⟩ => ⟨u, hmono w' u hu⟩, fun ⟨u, hu⟩ => ?_⟩
  by_cases hw : w' = w
  · rw [hw]
    exact ⟨p, hheld⟩
  · refine ⟨u, ?_⟩
    change 0 < update s.held w _ w' u at hu
    rwa [update_of_ne hw] at hu

theorem release_held (s : PipeSys) (w w' : Bool) (p q : Slot) : (s.release w p).held w' q =
    if w' = w ∧ q = p then s.held w p - 1 else s.held w' q := by
  unfold release
  by_cases hw : w' = w
  · subst hw
    by_cases hq : q = p
    · subst hq
      simp
    · simp [hq]
  · simp [hw]

/-- The calls of the processes when `p`, which is in no call, has closed a descriptor. -/
theorem calls_release (h : s.OK xs) (hidle : s.calls p = .idle) (w : Bool) (q : Slot) :
    CallOK s.pipe s.lock (s.release w p).held q (s.calls q) := by
  by_cases hq : q = p
  · rw [hq, hidle]
    trivial
  · refine (h.calls q).held_mono fun w' hw' => ?_
    rw [release_held, if_neg fun hboth => hq hboth.2]
    exact hw'

theorem ok_release (h : s.OK xs) (hidle : s.calls p = .idle) (w : Bool)
    (hmore : ¬ ∀ q, (s.release w p).held w q = 0) : (s.release w p).OK xs := by
  refine ⟨h.holds, h.fifo, ⟨h.tagged.accepted, h.tagged.delivered⟩, calls_release h hidle w, fun w' => ?_,
    h.freed, h.writes, h.reads⟩
  refine (h.ends w').trans ?_
  by_cases hw : w' = w
  · subst hw
    obtain ⟨q, hq⟩ := not_forall.1 hmore
    have hpos := Nat.pos_of_ne_zero hq
    refine ⟨fun _ => ⟨q, hpos⟩, fun _ => ⟨q, ?_⟩⟩
    rw [release_held] at hpos
    split at hpos
    · rename_i hboth
      rw [hboth.2]
      omega
    · exact hpos
  · refine exists_congr fun q => ?_
    rw [release_held, if_neg fun hboth => hw hboth.1]

theorem ok_pipeclose (h : s.OK xs) (hidle : s.calls p = .idle) {w : Bool} (hheld : 0 < s.held w p)
    (hlast : ∀ q, (s.release w p).held w q = 0) (hlock : s.lock = none) :
    ((s.release w p).pipeclose w).OK xs := by
  have hopen : s.pipe.isOpen w = true := (h.ends w).2 ⟨p, hheld⟩
  have hfreed : s.freed = 0 := by
    rw [h.freed, if_neg]
    rintro ⟨hr, hw⟩
    cases w
    · exact absurd (hr.symm.trans hopen) (by decide)
    · exact absurd (hw.symm.trans hopen) (by decide)
  refine ⟨?_, h.fifo, ⟨h.tagged.accepted, h.tagged.delivered⟩, fun q => ?_, fun w' => ?_, ?_, h.writes, h.reads⟩
  · cases w <;> exact ⟨h.holds.window, h.holds.room⟩
  · have hcall := calls_release h hidle w q
    rw [hlock] at hcall
    exact hcall.unlocked fun _ => id
  · show (s.pipe.shut w).isOpen w' = true ↔ ∃ q, 0 < (s.release w p).held w' q
    by_cases hw : w' = w
    · subst hw
      refine ⟨fun ho => ?_, fun ⟨q, hq⟩ => absurd (hlast q) (by omega)⟩
      cases w' <;> exact absurd ho (by simp [Pipe.shut, Pipe.isOpen])
    · have hother : (s.pipe.shut w).isOpen w' = s.pipe.isOpen w' := by
        cases w <;> cases w' <;> first | rfl | exact absurd rfl hw
      rw [hother, h.ends w']
      refine exists_congr fun q => ?_
      rw [release_held, if_neg fun hboth => hw hboth.1]
  · show (if _ then s.freed + 1 else s.freed) = _
    rw [hfreed]
    rfl

/-- **Every step keeps the invariant.** -/
theorem ok_step (h : s.OK xs) {a : PipeStep} (hstep : s.step a = some s') : ∃ ys, s'.OK ys := by
  cases a with
  | write p n src =>
    simp only [step] at hstep
    split at hstep
    · rename_i hidle
      obtain ⟨hheld, ⟨⟩⟩ := ite_none_right_eq_some.1 hstep
      exact ⟨xs, ok_begin h hidle hheld (Or.inl ⟨rfl, rfl⟩)⟩
    · cases hstep
  | read p n =>
    simp only [step] at hstep
    split at hstep
    · rename_i hidle
      obtain ⟨hheld, ⟨⟩⟩ := ite_none_right_eq_some.1 hstep
      exact ⟨xs, ok_begin h hidle hheld (Or.inr ⟨rfl, rfl⟩)⟩
    · cases hstep
  | acquire p =>
    simp only [step] at hstep
    split at hstep
    · cases hstep
    · obtain ⟨hlock, ⟨⟩⟩ := ite_none_right_eq_some.1 hstep
      exact ⟨xs, ok_acquire h hlock p⟩
  | run p killed =>
    obtain ⟨hlock, hstep⟩ := ite_none_right_eq_some.1 hstep
    split at hstep <;> cases hstep
    · exact ok_pipewrite h hlock ‹_› killed
    · exact ⟨xs, ok_pipereadWait h hlock ‹_› killed⟩
    · exact ok_pipereadCopy h hlock ‹_›
  | dup w p q =>
    obtain ⟨hheld, ⟨⟩⟩ := ite_none_right_eq_some.1 hstep
    exact ⟨xs, ok_dup h hheld q⟩
  | close w p =>
    simp only [step] at hstep
    split at hstep
    · rename_i hidle
      obtain ⟨hheld, hstep⟩ := ite_none_right_eq_some.1 hstep
      split at hstep
      · rename_i hlast
        obtain ⟨hlock, ⟨⟩⟩ := ite_none_right_eq_some.1 hstep
        exact ⟨xs, ok_pipeclose h hidle hheld hlast hlock⟩
      · rename_i hmore
        cases hstep
        exact ⟨xs, ok_release h hidle w hmore⟩
    · cases hstep

/-- A pipe whose page was freed has no descriptors and no calls. -/
theorem OK.idle_of_freed (h : s.OK xs) (hfreed : s.freed ≠ 0) (p : Slot) :
    s.calls p = .idle ∧ ∀ w, s.held w p = 0 := by
  have hclosed : s.pipe.readopen = false ∧ s.pipe.writeopen = false := by
    by_contra hopen
    exact hfreed (h.freed.trans (if_neg hopen))
  have hheld : ∀ w, s.held w p = 0 := by
    intro w
    by_contra hne
    have hopen := (h.ends w).2 ⟨p, Nat.pos_of_ne_zero hne⟩
    cases w
    · exact absurd (hclosed.1.symm.trans hopen) (by decide)
    · exact absurd (hclosed.2.symm.trans hopen) (by decide)
  refine ⟨?_, hheld⟩
  have hcall := h.calls p
  cases hc : s.calls p with
  | idle => rfl
  | write id n src i => rw [hc] at hcall; exact absurd (hheld true) (Nat.ne_of_gt hcall)
  | read id n => rw [hc] at hcall; exact absurd (hheld false) (Nat.ne_of_gt hcall)
  | copy id n got => rw [hc] at hcall; exact absurd (hheld false) (Nat.ne_of_gt hcall.1)

/-- **Pipes are lossless FIFOs.** Whatever reads, writes, sleeps and closes processes have made
since `pipealloc`: the pipe holds at most 512 bytes, which are the accepted ones that were not
delivered yet, in order. The bytes accepted from a write that has returned are the first of its
buffer, as many as it returns if it does not fail, and those delivered to a read are the ones it
copied out. No other bytes are accepted or delivered than those of calls, running or returned. The
page was freed once when both ends were closed, which is when nobody can use the pipe any more. -/
theorem pipe_fifo (p : Slot) {as : List PipeStep} (h : exec step (alloc p) as = some s) :
    (s.pipe.nwrite + 2 ^ 32 - s.pipe.nread) % 2 ^ 32 ≤ pipeSize ∧
    s.accepted.map Prod.snd = s.delivered.map Prod.snd ++ s.pipe.buffered ∧
    (∀ r ∈ s.writes, Ledger.part s.accepted r.id = (List.range r.i).map r.src ∧ (0 ≤ r.ret → r.ret = r.i)) ∧
    (∀ r ∈ s.reads, Ledger.part s.delivered r.id = r.got ∧ (0 ≤ r.ret → r.ret = r.got.length) ∧
      (r.ret = 0 → (r.empty = true ∧ r.writeopen = false) ∨ r.n ≤ 0)) ∧
    s.Tagged ∧
    s.freed = (if s.pipe.readopen = false ∧ s.pipe.writeopen = false then 1 else 0) ∧
    (s.freed ≠ 0 → ∀ q, s.calls q = .idle ∧ ∀ w, s.held w q = 0) := by
  have hkeep : ∀ (s : PipeSys) a s', (∃ xs, s.OK xs) → step s a = some s' → ∃ xs, s'.OK xs := by
    rintro s a s' ⟨xs, hs⟩ hstep
    exact ok_step hs hstep
  obtain ⟨xs, hs⟩ := exec_inv hkeep ⟨[], ok_alloc p⟩ h
  refine ⟨?_, ?_, fun r hr => ⟨?_, hs.writes r hr⟩, fun r hr => ⟨?_, hs.reads r hr⟩, hs.tagged, hs.freed,
    fun hfreed => hs.idle_of_freed hfreed⟩
  · rw [hs.holds.window.length_eq hs.holds.lt]
    exact hs.holds.room
  · rw [hs.holds.buffered]
    exact hs.fifo
  · exact (hs.tagged.accepted.returned _ (mem_map_of_mem hr)).2.1
  · exact (hs.tagged.delivered.returned _ (mem_map_of_mem hr)).2.1

/-- One process writes two bytes, and another one a byte of its own after it, through a descriptor of
its own; a third one reads a byte, the rest, and the end of the file. -/
theorem pipe_fifo_two :
    ∃ s, exec step (alloc 0) [.dup false 0 1, .dup true 0 2, .close false 0,
        .write 0 2 (fun i => UInt8.ofNat (i + 7)), .write 2 1 (fun _ => 3), .acquire 0, .run 0 false,
        .run 0 false, .run 0 false, .acquire 2, .run 2 false, .run 2 false, .read 1 1, .acquire 1,
        .run 1 false, .run 1 false, .run 1 false, .close true 0, .close true 2, .read 1 5, .acquire 1,
        .run 1 false, .run 1 false, .run 1 false, .run 1 false, .read 1 5, .acquire 1, .run 1 false,
        .run 1 false, .close false 1] = some s ∧
      s.delivered = [(2, 7), (3, 8), (3, 3)] ∧ s.freed = 1 ∧
      s.accepted.map Prod.snd = s.delivered.map Prod.snd ++ s.pipe.buffered := by
  have hrun : (exec step (alloc 0) [.dup false 0 1, .dup true 0 2, .close false 0,
      .write 0 2 (fun i => UInt8.ofNat (i + 7)), .write 2 1 (fun _ => 3), .acquire 0, .run 0 false,
      .run 0 false, .run 0 false, .acquire 2, .run 2 false, .run 2 false, .read 1 1, .acquire 1,
      .run 1 false, .run 1 false, .run 1 false, .close true 0, .close true 2, .read 1 5, .acquire 1,
      .run 1 false, .run 1 false, .run 1 false, .run 1 false, .read 1 5, .acquire 1, .run 1 false,
      .run 1 false, .close false 1]).any
      (fun s => s.delivered = [(2, 7), (3, 8), (3, 3)] ∧ s.freed = 1) := by
    decide +kernel
  obtain ⟨s, hs, hend⟩ := (any_eq_true _ _).1 hrun
  obtain ⟨hdelivered, hfreed⟩ := of_decide_eq_true hend
  exact ⟨s, hs, hdelivered, hfreed, (pipe_fifo 0 hs).2.1⟩

end PipeSys

end AudioPlayer
