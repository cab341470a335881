import AudioPlayer.Spec.Console
import AudioPlayer.Lib.Ledger

/-!
# The line discipline of the console

The ring with its three indices is two windows, the committed characters from `r` to `w` and the
line from `w` to `e` (`Cons.Holds`). `consoleintr_spec`: the interrupt handler does to them what
the editing rules say. `console_lines`: so readers get what the rules make of the typed
characters, a line at a time. A ledger gives each character taken to the read that took it.
-/

namespace AudioPlayer

open Function Runs RingBuffer List Option

namespace Cons

variable {c : Cons} {ready line : List UInt8}

/-- The ring holds `ready` and, behind it, `line`, in which there is no newline. -/
structure Holds (c : Cons) (ready line : List UInt8) : Prop where
  readyW : Window inputBuf (2 ^ 32) c.buf c.r c.w ready
  lineW : Window inputBuf (2 ^ 32) c.buf c.w c.e line
  room : ready.length + line.length ≤ inputBuf
  unended : newline ∉ line

namespace Holds

theorem whole (h : c.Holds ready line) : Window inputBuf (2 ^ 32) c.buf c.r c.e (ready ++ line) :=
  (Window.append_iff.2 ⟨h.readyW, h.lineW⟩).1

theorem length_lt {n : ℕ} (h : n ≤ inputBuf) : n < 2 ^ 32 := lt_of_le_of_lt h (by decide)

theorem ready_nil_iff (h : c.Holds ready line) : c.r = c.w ↔ ready = [] :=
  h.readyW.eq_nil_iff (length_lt (by have := h.room; omega))

theorem line_nil_iff (h : c.Holds ready line) : c.w = c.e ↔ line = [] :=
  h.lineW.eq_nil_iff (length_lt (by have := h.room; omega))

theorem used_eq (h : c.Holds ready line) :
    (c.e + 2 ^ 32 - c.r) % 2 ^ 32 = ready.length + line.length := by
  have hroom := h.room
  rw [← length_append] at hroom ⊢
  exact h.whole.length_eq (length_lt hroom)

/-- A ring with another end. -/
theorem of_erase (hready : Window inputBuf (2 ^ 32) c.buf c.r c.w ready) {e : ℕ}
    (hline : Window inputBuf (2 ^ 32) c.buf c.w e line)
    (hroom : ready.length + line.length ≤ inputBuf)
    (hun : newline ∉ line) : Holds { c with e := e } ready line :=
  ⟨hready, hline, hroom, hun⟩

/-- `cons.e--` takes the last character of the line away. -/
theorem erase {ch : UInt8} (h : c.Holds ready (line ++ [ch])) :
    c.buf ((c.e + 2 ^ 32 - 1) % 2 ^ 32 % inputBuf) = ch ∧ c.erase.Holds ready line := by
  obtain ⟨hch, hline⟩ := h.lineW.dropLast
  have hroom := h.room
  rw [length_append, length_singleton] at hroom
  refine ⟨hch, ?_⟩
  unfold Cons.erase
  exact of_erase h.readyW hline (by omega) fun hmem => h.unended (mem_append_left _ hmem)

/-- The loop of `C('U')` erases the line: there is no newline in it to stop at. -/
theorem killLine : ∀ {fuel : ℕ} {c : Cons} {line : List UInt8}, c.Holds ready line →
    line.length ≤ fuel → (c.killLine fuel).Holds ready [] := by
  intro fuel
  induction fuel with
  | zero =>
    intro c line h hfuel
    rw [eq_nil_of_length_eq_zero (Nat.le_zero.1 hfuel)] at h
    exact h
  | succ fuel ih =>
    intro c line h hfuel
    unfold Cons.killLine
    rcases eq_nil_or_concat line with rfl | ⟨front, ch, rfl⟩
    · rw [if_neg fun hgo => hgo.1 (h.line_nil_iff.2 rfl).symm]
      exact h
    · rw [concat_eq_append] at h hfuel
      obtain ⟨hch, herase⟩ := h.erase
      have hne : c.e ≠ c.w := by
        intro heq
        have := h.line_nil_iff.1 heq.symm
        simp at this
      have hch' : ch ≠ newline := by
        rintro rfl
        exact h.unended (by simp)
      rw [if_pos ⟨hne, by rw [hch]; exact hch'⟩]
      rw [length_append, length_singleton] at hfuel
      exact ih herase (by omega)

/-- A character is stored at `cons.e`. -/
theorem put (h : c.Holds ready line) (hroom : ready.length + line.length < inputBuf) (ch : UInt8) :
    Window inputBuf (2 ^ 32) (update c.buf (c.e % inputBuf) ch) c.r c.w ready ∧
      Window inputBuf (2 ^ 32) (update c.buf (c.e % inputBuf) ch) c.w ((c.e + 1) % 2 ^ 32)
        (line ++ [ch]) := by
  have hpush := h.whole.push (by rwa [length_append]) ch
  rw [append_assoc] at hpush
  exact Window.append_iff.1 ⟨hpush, h.readyW.tail_eq⟩

end Holds

/-- **The interrupt handler edits by the rules**, and what is committed stays. -/
theorem consoleintr_spec (h : c.Holds ready line) (past : List UInt8) (ch : UInt8) :
    ∃ ready' line', (c.consoleintr ch).Holds ready' line' ∧ ready <+: ready' ∧
      LineEditor.type ⟨past ++ ready, past.length, line⟩ ch =
        ⟨past ++ ready', past.length, line'⟩ := by
  have hused : (⟨past ++ ready, past.length, line⟩ : LineEditor).used =
      ready.length + line.length := by
    simp [LineEditor.used]
  unfold consoleintr LineEditor.type
  by_cases hP : ch = ctrl 'P'
  · rw [if_pos hP, if_pos hP]
    exact ⟨ready, line, h, prefix_rfl, rfl⟩
  rw [if_neg hP, if_neg hP]
  by_cases hU : ch = ctrl 'U'
  · rw [if_pos hU, if_pos hU]
    have hfuel : (c.e + 2 ^ 32 - c.w) % 2 ^ 32 = line.length :=
      h.lineW.length_eq (Holds.length_lt (by have := h.room; omega))
    rw [hfuel]
    exact ⟨ready, [], h.killLine le_rfl, prefix_rfl, rfl⟩
  rw [if_neg hU, if_neg hU]
  by_cases hH : ch = ctrl 'H' ∨ ch = 0x7f
  · rw [if_pos hH, if_pos hH]
    rcases eq_nil_or_concat line with rfl | ⟨front, last, rfl⟩
    · rw [if_neg (not_not.2 (h.line_nil_iff.2 rfl).symm)]
      exact ⟨ready, [], h, prefix_rfl, rfl⟩
    · rw [concat_eq_append] at h ⊢
      have hne : c.e ≠ c.w := by
        intro heq
        have := h.line_nil_iff.1 heq.symm
        simp at this
      rw [if_pos hne]
      exact ⟨ready, front, h.erase.2, prefix_rfl, by rw [dropLast_concat]⟩
  rw [if_neg hH, if_neg hH, h.used_eq, hused]
  by_cases hstore : ch ≠ 0 ∧ ready.length + line.length < inputBuf
  · rw [if_pos hstore, if_pos hstore]
    generalize (if ch = carriageReturn then newline else ch) = ch'
    obtain ⟨hready, hline⟩ := h.put hstore.2 ch'
    have hroom : ready.length + (line ++ [ch']).length ≤ inputBuf := by
      rw [length_append, length_singleton]
      omega
    -- the ring is full in the code when it is full in the rules
    have hfull : (c.e + 1) % 2 ^ 32 = (c.r + inputBuf) % 2 ^ 32 ↔
        (⟨past ++ ready, past.length, line ++ [ch']⟩ : LineEditor).used = inputBuf := by
      have hall := (Window.append_iff.2 ⟨hready, hline⟩).1
      have hused' : (⟨past ++ ready, past.length, line ++ [ch']⟩ : LineEditor).used =
          (ready ++ (line ++ [ch'])).length := by simp [LineEditor.used]
      rw [hused', hall.tail_eq]
      rw [← length_append] at hroom
      constructor
      · intro heq
        have hmod : (ready ++ (line ++ [ch'])).length ≡ inputBuf [MOD 2 ^ 32] :=
          Nat.ModEq.add_left_cancel' c.r heq
        exact hmod.eq_of_lt_of_lt (Holds.length_lt hroom) (by decide)
      · intro heq
        rw [heq]
    unfold LineEditor.add
    dsimp only
    by_cases hend : ch' = newline ∨ ch' = ctrl 'D' ∨
        (⟨past ++ ready, past.length, line ++ [ch']⟩ : LineEditor).used = inputBuf
    · rw [if_pos (hend.imp_right (Or.imp_right hfull.2)), if_pos hend]
      have hall := (Window.append_iff.2 ⟨hready, hline⟩).1
      refine ⟨ready ++ (line ++ [ch']), [], ⟨hall, Window.empty hall.dvd hline.tail_lt, ?_, by simp⟩,
        prefix_append _ _, by rw [append_assoc]⟩
      rw [length_append]
      exact hroom
    · rw [if_neg fun hgo => hend (hgo.imp_right (Or.imp_right hfull.1)), if_neg hend]
      refine ⟨ready, line ++ [ch'], ⟨hready, hline, hroom, ?_⟩, prefix_rfl, rfl⟩
      intro hmem
      rcases mem_append.1 hmem with hold | hnew
      · exact h.unended hold
      · exact hend (Or.inl (mem_singleton.1 hnew).symm)
  · rw [if_neg hstore, if_neg hstore]
    exact ⟨ready, line, h, prefix_rfl, rfl⟩

end Cons

namespace ConsSys

variable {s s' : ConsSys} {p : Slot} {ready line : List UInt8}

/-- A read that has returned gave at most one line; it gave no bytes only for an end of file,
or if it was asked for none. -/
structure ReadOK (r : ConsRead) : Prop where
  line : newline ∉ r.got.dropLast
  ret : r.ret = -1 ∨ r.ret = r.got.length
  zero : r.ret = 0 → r.eof = true ∨ r.target ≤ 0
  start : r.eof = true → r.got = []

/-- A read on its way has not met a newline yet. -/
def CallOK : ConsCall → Prop
  | .idle => True
  | .reading _ target n got => n = target - got.length ∧ newline ∉ got

/-- The characters that a read on its way has taken. -/
def got : ConsCall → Option (ℕ × List UInt8)
  | .idle => none
  | .reading id _ _ got => some (id, got)

/-- The invariant: the ring holds what the rules make of the events so far. -/
structure OK (s : ConsSys) (ready line : List UInt8) : Prop where
  holds : s.cons.Holds ready line
  rules : LineEditor.run s.events = ⟨s.taken.map Prod.snd ++ ready, s.taken.length, line⟩
  tagged : Ledger s.begun s.taken (got ∘ s.calls) (s.reads.map fun r => (r.id, r.took))
  calls : ∀ p, CallOK (s.calls p)
  reads : ∀ r ∈ s.reads, ReadOK r

theorem ok_boot : boot.OK [] [] := by
  have hzero : (0 : ℕ) < 2 ^ 32 := Nat.two_pow_pos 32
  exact ⟨⟨Window.empty (by decide) hzero, Window.empty (by decide) hzero, by decide, not_mem_nil⟩,
    rfl, Ledger.empty, fun _ => trivial, fun _ hr => absurd hr not_mem_nil⟩

theorem run_snoc (es : List ConsEvent) (e : ConsEvent) :
    LineEditor.run (es ++ [e]) = (LineEditor.run es).event e := by
  unfold LineEditor.run
  rw [foldl_append]
  rfl

theorem calls_update {calls : Slot → ConsCall} (h : ∀ q, CallOK (calls q)) {c : ConsCall}
    (hc : CallOK c) (p : Slot) : ∀ q, CallOK (update calls p c q) := by
  intro q
  by_cases hq : q = p
  · rw [hq, update_self]
    exact hc
  · rw [update_of_ne hq]
    exact h q

/-- A read returns with the characters that it took before. -/
theorem ok_endRead (h : s.OK ready line) {r : ConsRead}
    (hcall : got (s.calls p) = some (r.id, r.took))
    (hr : ReadOK r) : (s.endRead p r).OK ready line := by
  refine ⟨h.holds, h.rules, ?_, calls_update h.calls (show CallOK .idle from trivial) p,
    forall_mem_cons.2 ⟨hr, h.reads⟩⟩
  show Ledger _ _ (got ∘ update s.calls p .idle) _
  rw [comp_update]
  exact h.tagged.finish hcall

/-- A read takes the first character that is ready, and goes on or returns. -/
theorem ok_take {x : UInt8} (h : s.OK (x :: ready) line) {id : ℕ} {c : ConsCall} {lock : Option Slot}
    {reads : List ConsRead}
    (htag : Ledger s.begun (s.taken ++ [(id, x)]) (update (got ∘ s.calls) p (got c))
      (reads.map fun r => (r.id, r.took)))
    (hok : CallOK c) (hreads : ∀ r ∈ reads, ReadOK r) :
    OK { s.take id with lock := lock, calls := update s.calls p c, reads := reads } ready line := by
  obtain ⟨hx, hw⟩ := h.holds.readyW.pop
  have hroom := h.holds.room
  rw [length_cons] at hroom
  refine ⟨⟨hw, h.holds.lineW, by omega, h.holds.unended⟩, ?_, ?_, calls_update h.calls hok p, hreads⟩
  · show LineEditor.run (s.events ++ [.taken]) = _
    rw [run_snoc, h.rules]
    simp [take, LineEditor.event, hx]
  · show Ledger _ (s.taken ++ [(id, s.cons.buf _)]) (got ∘ update s.calls p c) _
    rwa [comp_update, hx]

/-- `cons.r++` and `cons.r--`. -/
theorem put_back {m r : ℕ} (h : r < m) : ((r + 1) % m + m - 1) % m = r := by
  rcases Nat.lt_or_ge (r + 1) m with hsmall | hbig
  · rw [Nat.mod_eq_of_lt hsmall, show r + 1 + m - 1 = r + m by omega, Nat.add_mod_right,
      Nat.mod_eq_of_lt h]
  · rw [show r + 1 = m by omega, Nat.mod_self, Nat.zero_add, Nat.mod_eq_of_lt (by omega)]
    omega

/-- **One round of `consoleread`.** -/
theorem ok_consoleread (h : s.OK ready line) {id : ℕ} {target n : ℤ} {bytes : List UInt8}
    (hcall : s.calls p = .reading id target n bytes) (killed : Bool) :
    ∃ ready', (s.consoleread p killed id target n bytes).OK ready' line := by
  obtain ⟨hn, hbytes⟩ : n = target - bytes.length ∧ newline ∉ bytes := by
    have := h.calls p
    rwa [hcall] at this
  have hgot : got (s.calls p) = some (id, bytes) := by rw [hcall]; rfl
  have hdrop : newline ∉ bytes.dropLast := fun hmem => hbytes (dropLast_subset _ hmem)
  unfold consoleread
  by_cases hpos : n > 0
  · rw [if_pos hpos]
    by_cases hempty : s.cons.r = s.cons.w
    · rw [if_pos hempty]
      cases killed with
      | true =>
        exact ⟨ready, ok_endRead h hgot ⟨hdrop, Or.inl rfl, fun hret => absurd hret (by simp), nofun⟩⟩
      | false => exact ⟨ready, h.holds, h.rules, h.tagged, h.calls, h.reads⟩
    · rw [if_neg hempty]
      obtain ⟨x, ready', rfl⟩ := exists_cons_of_ne_nil (mt h.holds.ready_nil_iff.2 hempty)
      dsimp only
      rw [h.holds.readyW.pop.1]
      by_cases heof : x = ctrl 'D'
      · rw [if_pos heof]
        by_cases hlater : n < target
        · -- it is kept for the next read, and this one has given something
          rw [if_pos hlater, put_back h.holds.readyW.head_lt]
          refine ⟨x :: ready', ok_endRead h hgot ⟨hdrop, Or.inr ?_, fun hret => ?_, nofun⟩⟩
          · dsimp only
            omega
          · dsimp only at hret
            omega
        · rw [if_neg hlater]
          subst heof
          refine ⟨ready', ok_take h (h.tagged.put_finish hgot _) (show CallOK .idle from trivial)
            (forall_mem_cons.2 ⟨⟨hdrop, Or.inr ?_, fun _ => Or.inl rfl, fun _ => ?_⟩, h.reads⟩)⟩
          · dsimp only
            omega
          · dsimp only
            exact eq_nil_of_length_eq_zero (by omega)
      · rw [if_neg heof]
        have hlen : ((bytes ++ [x]).length : ℤ) = bytes.length + 1 := by
          rw [length_append, length_singleton]
          rfl
        by_cases hnl : x = newline
        · rw [if_pos hnl]
          refine ⟨ready', ok_take h (h.tagged.put_finish hgot x) (show CallOK .idle from trivial)
            (forall_mem_cons.2 ⟨⟨?_, Or.inr ?_, fun hret => ?_, nofun⟩, h.reads⟩)⟩
          · rw [dropLast_concat]
            exact hbytes
          · dsimp only
            omega
          · dsimp only at hret
            omega
        · rw [if_neg hnl]
          refine ⟨ready', ok_take h (h.tagged.put hgot x) ⟨by omega, fun hmem => ?_⟩ h.reads⟩
          rcases mem_append.1 hmem with hold | hlast
          · exact hbytes hold
          · exact hnl (mem_singleton.1 hlast).symm
  · rw [if_neg hpos]
    refine ⟨ready, ok_endRead h hgot ⟨hdrop, Or.inr ?_, fun hret => Or.inr ?_, nofun⟩⟩
    · dsimp only
      omega
    · dsimp only at hret ⊢
      omega

/-- **Every step keeps the invariant.** -/
theorem ok_step (h : s.OK ready line) {a : ConsStep} (hstep : s.step a = some s') :
    ∃ ready' line', s'.OK ready' line' := by
  cases a with
  | typed ch =>
    obtain ⟨-, ⟨⟩⟩ := ite_none_right_eq_some.1 hstep
    obtain ⟨ready', line', hholds, -, htype⟩ := Cons.consoleintr_spec h.holds (s.taken.map Prod.snd) ch
    refine ⟨ready', line', hholds, ?_, h.tagged, h.calls, h.reads⟩
    show LineEditor.run (s.events ++ [.typed ch]) = _
    rw [run_snoc, h.rules]
    rwa [length_map] at htype
  | read p n =>
    simp only [step] at hstep
    split at hstep
    · rename_i hidle
      cases hstep
      have hnew : CallOK (.reading s.begun n n []) := ⟨by simp, not_mem_nil⟩
      refine ⟨ready, line, h.holds, h.rules, ?_, calls_update h.calls hnew p, h.reads⟩
      show Ledger _ _ (got ∘ update s.calls p _) _
      rw [comp_update]
      exact h.tagged.start (by rw [Function.comp_apply, hidle]; rfl)
    · cases hstep
  | acquire p =>
    simp only [step] at hstep
    split at hstep
    · cases hstep
    · obtain ⟨-, ⟨⟩⟩ := ite_none_right_eq_some.1 hstep
      exact ⟨ready, line, h.holds, h.rules, h.tagged, h.calls, h.reads⟩
  | run p killed =>
    obtain ⟨-, hstep⟩ := ite_none_right_eq_some.1 hstep
    split at hstep <;> cases hstep
    obtain ⟨ready', hok⟩ := ok_consoleread h ‹_› killed
    exact ⟨ready', line, hok⟩

end ConsSys

end AudioPlayer
